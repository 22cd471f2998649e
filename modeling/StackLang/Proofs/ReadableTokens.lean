import StackLang.Proofs.LexemePlaces
import StackLang.Proofs.Utf8Cuts

namespace StackLang

/-- A token whose text, if it has one, is valid UTF-8. -/
def Token.Valid : Token → Prop
  | .mark _ => True
  | .keyword _ => True
  | .ident name => Utf8.valid name
  | .literal text => Utf8.valid text

namespace Lexeme

theorem ascii_of_isBlank {c : UInt8} (h : isBlank c) : c < 0x80 := by
  simp only [isBlank, Bool.or_eq_true, beq_iff_eq] at h
  rcases h with ((rfl | rfl) | rfl) | rfl <;> decide

theorem ascii_of_isLetter {c : UInt8} (h : Ascii.isLetter c) : c < 0x80 := by
  simp only [Ascii.isLetter, Bool.or_eq_true, Bool.and_eq_true, decide_eq_true_eq,
    UInt8.le_iff_toNat_le, UInt8.lt_iff_toNat_lt, UInt8.reduceToNat] at *
  omega

theorem ascii_of_isWordByte {c : UInt8} (h : isWordByte c) : c < 0x80 := by
  simp only [isWordByte, Bool.or_eq_true, beq_iff_eq] at h
  rcases h with (letter | digit) | rfl
  · exact ascii_of_isLetter letter
  · simp only [Ascii.isDigit, Bool.and_eq_true, decide_eq_true_eq, UInt8.le_iff_toNat_le,
      UInt8.lt_iff_toNat_lt, UInt8.reduceToNat] at *
    omega
  · decide

theorem ascii_of_mark {c : UInt8} {m : Mark} (h : Mark.ofByte? c = some m) : c < 0x80 := by
  unfold Mark.ofByte? at h
  repeat' split at h
  all_goals simp_all

theorem ascii_of_unescape {c b : UInt8} (h : unescape? c = some b) : c < 0x80 ∧ b < 0x80 := by
  unfold unescape? at h
  split at h
  next eq => cases h; subst eq; decide
  next =>
    split at h
    next eq => cases h; subst eq; decide
    next =>
      split at h
      next eq => cases h; rcases eq with rfl | rfl | rfl <;> decide
      next => cases h

/-- Inside a comment some bytes of a character may still be owed. -/
theorem valid_skip {inComment : Bool} {ranges : List (UInt8 × UInt8)} {text : Bytes} {pos : Nat}
    (low : ∀ r ∈ ranges, 0x80 ≤ r.1) (outside : inComment = false → ranges = [])
    (h : Utf8.pays ranges text) : Utf8.valid (skip inComment pos text).2 := by
  induction text generalizing inComment ranges pos with
  | nil => rfl
  | cons c rest ih =>
    have after (ascii : c < 0x80) : Utf8.pays [] rest := by
      have cut := Utf8.pays_append_ascii low ascii [] rest
      rw [List.nil_append, h] at cut
      exact (Bool.and_eq_true_iff.mp cut.symm).2
    unfold skip
    split
    next comment =>
      by_cases newline : c = Ascii.newline
      · exact ih (by simp) (fun _ => rfl) (after (by rw [newline]; decide))
      · obtain ⟨left, leftLow, paid⟩ := Utf8.pays_tail low h
        exact ih leftLow (by simp [newline]) paid
    next code =>
      obtain rfl := outside (by simpa using code)
      split
      next blank => exact ih (by simp) (fun _ => rfl) (after (ascii_of_isBlank blank))
      next =>
        split
        next slashes =>
          have slash : c = Ascii.slash := by simp_all
          exact ih (by simp) (by simp) (after (by rw [slash]; decide))
        next => exact h

theorem valid_literal {quote : UInt8} {start pos : Nat} {read text rest : Bytes} {l : Lexeme}
    (ascii : quote < 0x80) (valid : Utf8.valid (read.reverse ++ text))
    (h : literal quote start pos read text = .found l rest) : l.token.Valid ∧ Utf8.valid rest := by
  fun_induction literal quote start pos read text with
  | case1 => cases h
  | case2 pos read rest =>
    cases h
    rw [Utf8.valid_append_ascii ascii] at valid
    exact Bool.and_eq_true_iff.mp valid
  | case3 => cases h
  | case4 pos read e rest b escape notQuote ih =>
    obtain ⟨eAscii, bAscii⟩ := ascii_of_unescape escape
    refine ih ?_ h
    rw [Utf8.valid_append_ascii (by decide), Utf8.valid_cons_ascii eAscii] at valid
    rw [List.reverse_cons, List.append_assoc, List.singleton_append, Utf8.valid_append_ascii bAscii]
    exact valid
  | case5 => cases h
  | case6 pos read c rest notQuote notEscape ih => exact ih (by simpa using valid) h

theorem valid_ofWord {word : Bytes} (ascii : ∀ c ∈ word, c < 0x80) : (ofWord word).Valid := by
  unfold ofWord
  split
  next => trivial
  next => exact Utf8.valid_of_ascii ascii

theorem valid_scanToken {pos : Nat} {text rest : Bytes} {l : Lexeme} (valid : Utf8.valid text)
    (h : scanToken pos text = .found l rest) : l.token.Valid ∧ Utf8.valid rest := by
  cases scans_of_scanToken h with
  | mark isMark => exact ⟨trivial, by rwa [Utf8.valid_cons_ascii (ascii_of_mark isMark)] at valid⟩
  | @literal c tail _ quote inner =>
    have ascii : c < 0x80 := by rcases quote with rfl | rfl <;> decide
    exact valid_literal ascii (by rwa [Utf8.valid_cons_ascii ascii] at valid) inner
  | @word c tail letter =>
    have word : ∀ b ∈ c :: tail.takeWhile isWordByte, b < 0x80 := by
      intro b hb
      rcases List.mem_cons.mp hb with rfl | hb
      · exact ascii_of_isLetter letter
      · exact ascii_of_isWordByte (List.all_eq_true.mp List.all_takeWhile b hb)
    refine ⟨valid_ofWord word, ?_⟩
    rw [← List.takeWhile_append_dropWhile (p := isWordByte) (l := tail), ← List.cons_append,
      Utf8.valid_ascii_append word] at valid
    exact valid

theorem valid_next {pos : Nat} {text rest : Bytes} {l : Lexeme} (valid : Utf8.valid text)
    (h : next pos text = .found l rest) : l.token.Valid ∧ Utf8.valid rest :=
  valid_scanToken (valid_skip (by simp) (fun _ => rfl) valid) h

/-- All tokens of a valid text are valid. -/
theorem valid_scanAfter {read : List Lexeme} {pos : Nat} {text : Bytes}
    (before : ∀ l ∈ read, l.token.Valid) (valid : Utf8.valid text) :
    ∀ l ∈ (scanAfter read pos text).1, l.token.Valid := by
  fun_induction scanAfter read pos text with
  | case1 => simpa using before
  | case2 => simpa using before
  | case3 read pos text l rest found ih =>
    obtain ⟨token, restValid⟩ := valid_next valid found
    refine ih ?_ restValid
    simpa [token] using before

end Lexeme

end StackLang
