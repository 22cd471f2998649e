import Mathlib.Algebra.Ring.Nat
import StackLang.Proofs.Utf8Scalars
import StackLang.Text.Quoted

namespace StackLang.Text

open Utf8 (Piece)

def digitValue (d : UInt8) : Nat :=
  if d < 0x3A then d.toNat - 0x30 else d.toNat - 0x57

/-- The number that small hexadecimal digits stand for. -/
def hexValue (digits : Bytes) : Nat :=
  digits.foldl (fun n d => n * 16 + digitValue d) 0

theorem hexValue_concat (digits : Bytes) (d : UInt8) :
    hexValue (digits ++ [d]) = hexValue digits * 16 + digitValue d := by
  simp only [hexValue, List.foldl_append, List.foldl_cons, List.foldl_nil]

theorem hexValue_hex (n : Nat) : hexValue (hex n) = n := by
  have digits : ∀ d < 16, digitValue (Nat.digitChar d).toUInt8 = d := by decide
  induction n using Nat.strongRecOn with
  | ind n ih =>
    unfold hex at ih ⊢
    rw [Nat.toDigits_eq_if (by omega)]
    split
    next small => exact (hexValue_concat [] _).trans (by rw [digits n small]; exact Nat.zero_add n)
    next large =>
      rw [List.map_append, List.map_singleton, hexValue_concat, ih (n / 16) (by omega),
        digits (n % 16) (by omega)]
      omega

theorem hexValue_hexPadded (width n : Nat) : hexValue (hexPadded width n) = n := by
  have zeros : ∀ k, (List.replicate k (byte '0')).foldl (fun n d => n * 16 + digitValue d) 0 =
      0 := by
    intro k
    induction k with
    | zero => rfl
    | succ k ih => exact ih
  rw [hexPadded, List.leftpad, hexValue, List.foldl_append, zeros]
  exact hexValue_hex n

theorem length_hexPadded {width n : Nat} (positive : 0 < width) (fits : n < 16 ^ width) :
    (hexPadded width n).length = width := by
  have short := (Nat.length_toDigits_le_iff (by omega) positive).mpr fits
  rw [hexPadded, List.length_leftpad, hex, List.length_map]
  exact Nat.max_eq_left short

/-- The character of a short escape. A quote and a backslash stand for themselves. -/
def shortValue (letter : UInt8) : Nat :=
  if letter = byte 'a' then 0x07
  else if letter = byte 'b' then 0x08
  else if letter = byte 'f' then 0x0C
  else if letter = byte 'n' then 0x0A
  else if letter = byte 'r' then 0x0D
  else if letter = byte 't' then 0x09
  else if letter = byte 'v' then 0x0B
  else letter.toNat

/-- The piece that is escaped by a backslash, `mark` and what stands at the front of `text`, and the
text after it. -/
def readEscape (mark : UInt8) (text : Bytes) : Piece × Bytes :=
  if mark = byte 'x' then
    let n := hexValue (text.take 2)
    (if n < 0x80 then .scalar n else .stray n.toUInt8, text.drop 2)
  else if mark = byte 'u' then (.scalar (hexValue (text.take 4)), text.drop 4)
  else if mark = byte 'U' then (.scalar (hexValue (text.take 8)), text.drop 8)
  else (.scalar (shortValue mark), text)

/-- The piece at the front of a text inside quotes, if the text does not end there. -/
def readPiece : Bytes → Option (Piece × Bytes)
  | [] => none
  | c :: rest =>
    if c = Ascii.quote then none
    else if c = Ascii.backslash then
      match rest with
      | [] => none
      | mark :: rest => some (readEscape mark rest)
    else (Utf8.scalar? (c :: rest)).map fun read => (.scalar read.1, read.2)

theorem shortEscape?_eq_some {n : Nat} {letter : UInt8} (h : shortEscape? n = some letter)
    (text : Bytes) :
    readEscape letter text = (.scalar n, text) ∧ 0x20 ≤ letter.toNat := by
  unfold shortEscape? at h
  repeat' split at h
  all_goals cases h
  all_goals subst n
  all_goals exact ⟨rfl, by decide⟩

theorem readPiece_numericEscape (mark : Char) {width n : Nat} (positive : 0 < width)
    (fits : n < 16 ^ width) (rest : Bytes) :
    ∃ text, readPiece (numericEscape mark width n ++ rest) = some (readEscape (byte mark) text) ∧
      hexValue (text.take width) = n ∧ text.drop width = rest := by
  have length := length_hexPadded positive fits
  refine ⟨hexPadded width n ++ rest, rfl, ?_, List.drop_left' length⟩
  rw [List.take_left' length, hexValue_hexPadded]

theorem readPiece_of_scalar? {text rest : Bytes} {n : Nat} (h : Utf8.scalar? text = some (n, rest))
    (notQuote : n ≠ Ascii.quote.toNat) (notBackslash : n ≠ Ascii.backslash.toNat) :
    readPiece text = some (.scalar n, rest) := by
  cases text with
  | nil => cases h
  | cons c more =>
    have other : ∀ d : UInt8, d < 0x80 → n ≠ d.toNat → c ≠ d := by
      rintro d ascii different rfl
      have read : Utf8.scalar? (c :: more) = some (c.toNat, more) := by simp [Utf8.scalar?, ascii]
      exact different (Prod.mk.inj (Option.some.inj (h.symm.trans read))).1
    unfold readPiece
    dsimp only
    rw [if_neg (other _ (by decide) notQuote), if_neg (other _ (by decide) notBackslash), h]
    rfl

/-- Reading undoes escaping, whatever follows. -/
theorem readPiece_escapedPiece {p : Piece} (proper : p.Proper) (rest : Bytes) :
    readPiece (escapedPiece Ascii.quote p ++ rest) = some (p, rest) := by
  cases p with
  | stray b =>
    have bound := b.toNat_lt
    have high : 0x80 ≤ b.toNat := proper
    obtain ⟨text, read, value, left⟩ :=
      readPiece_numericEscape 'x' (n := b.toNat) (by decide : 0 < 2) bound rest
    rw [escapedPiece, read, readEscape, if_pos rfl]
    dsimp only
    rw [value, left, if_neg (by omega), ← Utf8.eq_toUInt8 rfl]
  | scalar n =>
    have bound : n ≤ 0x10FFFF := proper.1
    rw [escapedPiece, escaped]
    split
    next quote =>
      subst n
      rfl
    next notQuote =>
    split
    next backslash =>
      subst n
      rfl
    next notBackslash =>
    split
    next => exact readPiece_of_scalar? (Utf8.scalar?_encode proper rest) notQuote notBackslash
    next =>
    split
    next letter short =>
      have read := (shortEscape?_eq_some short rest).1
      exact congrArg some read
    next =>
    split
    next control =>
      obtain ⟨text, read, value, left⟩ :=
        readPiece_numericEscape 'x' (n := n) (by decide : 0 < 2) (by omega) rest
      rw [read, readEscape, if_pos rfl]
      dsimp only
      rw [value, left, if_pos (by omega)]
    next =>
    split
    next four =>
      obtain ⟨text, read, value, left⟩ :=
        readPiece_numericEscape 'u' (n := n) (by decide : 0 < 4) (by omega) rest
      rw [read, readEscape, if_neg (by decide), if_pos rfl, value, left]
    next =>
      obtain ⟨text, read, value, left⟩ :=
        readPiece_numericEscape 'U' (n := n) (by decide : 0 < 8) (by omega) rest
      rw [read, readEscape, if_neg (by decide), if_neg (by decide), if_pos rfl, value, left]

/-- Pieces up to a closing quote are determined by what is written. -/
theorem escapedPieces_append_inj {a b : List Piece} (ha : ∀ p ∈ a, p.Proper)
    (hb : ∀ p ∈ b, p.Proper) {x y : Bytes}
    (h : a.flatMap (escapedPiece Ascii.quote) ++ Ascii.quote :: x =
      b.flatMap (escapedPiece Ascii.quote) ++ Ascii.quote :: y) : a = b ∧ x = y := by
  have closing : ∀ rest, readPiece (Ascii.quote :: rest) = none := fun rest => rfl
  induction a generalizing b with
  | nil =>
    cases b with
    | nil => exact ⟨rfl, (List.cons.inj h).2⟩
    | cons q others =>
      have read := congrArg readPiece h
      rw [List.flatMap_cons, List.append_assoc,
        readPiece_escapedPiece (hb q List.mem_cons_self)] at read
      exact nomatch (closing x).symm.trans read
  | cons p rest ih =>
    have first := readPiece_escapedPiece (ha p List.mem_cons_self)
    have read := congrArg readPiece h
    rw [List.flatMap_cons, List.append_assoc, first] at read
    cases b with
    | nil => exact nomatch read.trans (closing y)
    | cons q others =>
      rw [List.flatMap_cons, List.append_assoc,
        readPiece_escapedPiece (hb q List.mem_cons_self)] at read
      obtain ⟨rfl, left⟩ := Prod.mk.inj (Option.some.inj read)
      obtain ⟨rfl, same⟩ :=
        ih (fun p hp => ha p (List.mem_cons_of_mem _ hp))
          (fun p hp => hb p (List.mem_cons_of_mem _ hp)) left
      exact ⟨rfl, same⟩

/-- A quoted text shows which bytes it stands for. -/
theorem quoted_injective {a b : Bytes} (h : quoted a = quoted b) : a = b := by
  obtain ⟨pieces, -⟩ :=
    escapedPieces_append_inj Utf8.proper_of_mem_pieces Utf8.proper_of_mem_pieces (List.cons.inj h).2
  rw [← Utf8.flatMap_pieces a, ← Utf8.flatMap_pieces b, pieces]

/-- A text without control bytes: it stands on one line. -/
def Visible (text : Bytes) : Prop :=
  ∀ c ∈ text, 0x20 ≤ c.toNat

instance : DecidablePred Visible := fun text =>
  List.decidableBAll (fun c : UInt8 => 0x20 ≤ c.toNat) text

theorem visible_append_iff {a b : Bytes} : Visible (a ++ b) ↔ Visible a ∧ Visible b :=
  List.forall_mem_append

theorem visible_cons_iff {c : UInt8} {text : Bytes} :
    Visible (c :: text) ↔ 0x20 ≤ c.toNat ∧ Visible text :=
  List.forall_mem_cons

theorem Visible.newline_not_mem {text : Bytes} (h : Visible text) : Ascii.newline ∉ text := by
  intro mem
  exact absurd (h _ mem) (by decide)

theorem visible_digits {b : Nat} (two : 1 < b) (hex : b ≤ 16) (n : Nat) :
    Visible ((Nat.toDigits b n).map Char.toUInt8) := by
  have digits : ∀ d < 16, Visible [(Nat.digitChar d).toUInt8] := by decide
  induction n using Nat.strongRecOn with
  | ind n ih =>
    rw [Nat.toDigits_eq_if two]
    split
    next small => exact digits n (by omega)
    next large =>
      have shorter : n / b < n := Nat.div_lt_self (by omega) two
      have last : n % b < b := Nat.mod_lt n (by omega)
      rw [List.map_append, visible_append_iff]
      exact ⟨ih (n / b) shorter, digits (n % b) (by omega)⟩

theorem visible_decimal (n : Nat) : Visible (decimal n) :=
  visible_digits (by omega) (by omega) n

theorem visible_hexPadded (width n : Nat) : Visible (hexPadded width n) := by
  rw [hexPadded, List.leftpad, visible_append_iff]
  constructor
  · intro c mem
    rw [List.eq_of_mem_replicate mem]
    decide
  · exact visible_digits (by omega) (by omega) n

theorem visible_hexColumn (i : Int) : Visible (hexColumn i) := by
  cases i with
  | ofNat n => exact visible_hexPadded 4 n
  | negSucc n => exact visible_cons_iff.mpr ⟨by decide, visible_hexPadded 3 (n + 1)⟩

theorem visible_encode {n : Nat} (bound : n ≤ 0x10FFFF) (low : 0x20 ≤ n) :
    Visible (Utf8.encode n) := by
  have byte : ∀ m, 0x20 ≤ m → m < 256 → 0x20 ≤ m.toUInt8.toNat := by
    intro m above below
    rwa [Utf8.toNat_toUInt8 below]
  have ended : Visible [] := List.forall_mem_nil _
  unfold Utf8.encode
  split
  next => exact visible_cons_iff.mpr ⟨byte n low (by omega), ended⟩
  next =>
  split
  next =>
    simp only [visible_cons_iff]
    exact ⟨byte _ (by omega) (by omega), byte _ (by omega) (by omega), ended⟩
  next =>
  split
  next =>
    simp only [visible_cons_iff]
    exact ⟨byte _ (by omega) (by omega), byte _ (by omega) (by omega),
      byte _ (by omega) (by omega), ended⟩
  next =>
    simp only [visible_cons_iff]
    exact ⟨byte _ (by omega) (by omega), byte _ (by omega) (by omega), byte _ (by omega) (by omega),
      byte _ (by omega) (by omega), ended⟩

theorem le_of_isPrintable {n : Nat} (h : isPrintable n) : 0x20 ≤ n := by
  unfold isPrintable at h
  split at h
  next => exact of_decide_eq_true h
  next => omega

theorem visible_numericEscape {mark : Char} (visible : 0x20 ≤ (byte mark).toNat) (width n : Nat) :
    Visible (numericEscape mark width n) := by
  rw [numericEscape, visible_cons_iff, visible_cons_iff]
  exact ⟨by decide, visible, visible_hexPadded width n⟩

theorem visible_escapedPiece {p : Piece} (proper : p.Proper) :
    Visible (escapedPiece Ascii.quote p) := by
  cases p with
  | stray b => exact visible_numericEscape (by decide) _ _
  | scalar n =>
    rw [escapedPiece, escaped]
    split
    next => decide
    next =>
    split
    next => decide
    next =>
    split
    next printable => exact visible_encode proper.1 (le_of_isPrintable printable)
    next =>
    split
    next letter short =>
      have visible := (shortEscape?_eq_some short []).2
      exact visible_cons_iff.mpr ⟨by decide, visible_cons_iff.mpr ⟨visible, List.forall_mem_nil _⟩⟩
    next =>
    split
    next => exact visible_numericEscape (by decide) _ _
    next =>
    split
    next => exact visible_numericEscape (by decide) _ _
    next => exact visible_numericEscape (by decide) _ _

theorem visible_quoted (text : Bytes) : Visible (quoted text) := by
  rw [quoted, visible_append_iff, visible_cons_iff]
  refine ⟨⟨by decide, fun c mem => ?_⟩, by decide⟩
  obtain ⟨p, hp, inside⟩ := List.mem_flatMap.mp mem
  exact visible_escapedPiece (Utf8.proper_of_mem_pieces p hp) c inside

end StackLang.Text
