import StackLang.Proofs.ReadableTokens

namespace StackLang

namespace Lexeme

/-- A letter, and then letters, digits and underscores. -/
def IsWord : Bytes → Prop
  | [] => False
  | c :: rest => Ascii.isLetter c ∧ ∀ b ∈ rest, isWordByte b

instance : (w : Bytes) → Decidable (IsWord w)
  | [] => inferInstanceAs (Decidable False)
  | c :: rest => inferInstanceAs (Decidable (Ascii.isLetter c ∧ ∀ b ∈ rest, isWordByte b))

/-- A word that can be a name. -/
def IsIdentifier (w : Bytes) : Prop :=
  IsWord w ∧ w ≠ bytes "fn" ∧ w ≠ bytes "impure"

instance (w : Bytes) : Decidable (IsIdentifier w) :=
  inferInstanceAs (Decidable (_ ∧ _))

/-- A text that does not go on with a word that ends in front of it. -/
def EndsWord (rest : Bytes) : Prop :=
  ∀ c ∈ rest.head?, isWordByte c = false

theorem endsWord_nil : EndsWord [] :=
  nofun

theorem endsWord_cons {c : UInt8} {rest : Bytes} : EndsWord (c :: rest) ↔ isWordByte c = false := by
  simp [EndsWord]

theorem endsWord_dropWhile (text : Bytes) : EndsWord (text.dropWhile isWordByte) := by
  induction text with
  | nil => exact endsWord_nil
  | cons c rest ih =>
    rw [List.dropWhile_cons]
    split
    next => exact ih
    next noWord => exact endsWord_cons.mpr (by simpa using noWord)

/-- A text in front of a word that does not go on it. -/
def StartsWord (before : Bytes) : Prop :=
  ∀ c ∈ before.getLast?, isWordByte c = false

theorem startsWord_nil : StartsWord [] :=
  nofun

theorem startsWord_concat {c : UInt8} {before : Bytes} :
    StartsWord (before ++ [c]) ↔ isWordByte c = false := by
  simp [StartsWord]

theorem isWordByte_of_isWord {w : Bytes} (word : IsWord w) : ∀ b ∈ w, isWordByte b := by
  cases w with
  | nil => exact word.elim
  | cons first others =>
    have letter : isWordByte first := by simp [isWordByte, word.1]
    exact List.forall_mem_cons.mpr ⟨letter, word.2⟩

theorem not_endsWord_of_isWord {w : Bytes} (word : IsWord w) (rest : Bytes) :
    ¬ EndsWord (w ++ rest) := by
  cases w with
  | nil => exact word.elim
  | cons first others =>
    have letter := isWordByte_of_isWord word first (by simp)
    rw [List.cons_append, endsWord_cons, letter]
    nofun

theorem ascii_of_isWord {w : Bytes} (word : IsWord w) : ∀ b ∈ w, b < 0x80 :=
  fun b hb => ascii_of_isWordByte (isWordByte_of_isWord word b hb)

theorem isWord_takeWhile {c : UInt8} (letter : Ascii.isLetter c) (rest : Bytes) :
    IsWord (c :: rest.takeWhile isWordByte) :=
  ⟨letter, fun b hb => List.all_eq_true.mp List.all_takeWhile b hb⟩

theorem isWord_append {w more : Bytes} (word : IsWord w) (inner : ∀ b ∈ more, isWordByte b) :
    IsWord (w ++ more) := by
  cases w with
  | nil => exact word.elim
  | cons first others => exact ⟨word.1, List.forall_mem_append.mpr ⟨word.2, inner⟩⟩

theorem isWord_word (k : Keyword) : IsWord k.word := by
  cases k <;> decide +kernel

theorem ofWord_word (k : Keyword) : ofWord k.word = .keyword k := by
  rw [ofWord, Keyword.ofWord?_word]

theorem ofWord_of_isIdentifier {w : Bytes} (h : IsIdentifier w) : ofWord w = .ident w := by
  have notFn : w ≠ Keyword.fn.word := h.2.1
  have notImpure : w ≠ Keyword.impure.word := h.2.2
  simp [ofWord, Keyword.ofWord?, notFn, notImpure]

theorem next_of_blank {c : UInt8} (blank : isBlank c) (pos : Nat) (rest : Bytes) :
    next pos (c :: rest) = next (pos + 1) rest := by
  simp [next, skip, blank]

theorem next_of_visible {c : UInt8} (visible : isBlank c = false) (noSlash : c ≠ Ascii.slash)
    (pos : Nat) (rest : Bytes) : next pos (c :: rest) = scanToken pos (c :: rest) := by
  simp [next, skip, visible, noSlash]

theorem next_mark (m : Mark) (pos : Nat) (rest : Bytes) :
    next pos (m.toByte :: rest) = .found ⟨.mark m, pos, pos + 1⟩ rest := by
  rw [next_of_visible (by cases m <;> decide) (by cases m <;> decide)]
  simp [scanToken, Mark.ofByte?_toByte]

theorem next_word {w rest : Bytes} (word : IsWord w) (ends : EndsWord rest) (pos : Nat) :
    next pos (w ++ rest) = .found ⟨ofWord w, pos, pos + w.length⟩ rest := by
  cases w with
  | nil => exact word.elim
  | cons first others =>
    obtain ⟨letter, inner⟩ := word
    have ne (b : UInt8) (noLetter : Ascii.isLetter b = false) : first ≠ b := by
      rintro rfl
      simp [noLetter] at letter
    have visible : isBlank first = false := by
      simp [isBlank, ne Ascii.space (by decide), ne Ascii.tab (by decide),
        ne Ascii.newline (by decide), ne Ascii.carriageReturn (by decide)]
    have noMark : Mark.ofByte? first = none := by
      simp [Mark.ofByte?, ne 0x28 (by decide), ne 0x29 (by decide), ne 0x7B (by decide),
        ne 0x7D (by decide), ne 0x2C (by decide), ne 0x3B (by decide)]
    have atEnd : rest.takeWhile isWordByte = [] ∧ rest.dropWhile isWordByte = rest := by
      cases rest with
      | nil => exact ⟨rfl, rfl⟩
      | cons c tail => simp [endsWord_cons.mp ends]
    have front : (others ++ rest).takeWhile isWordByte = others := by
      rw [List.takeWhile_append_of_pos inner, atEnd.1, List.append_nil]
    have back : (others ++ rest).dropWhile isWordByte = rest := by
      rw [List.dropWhile_append_of_pos inner, atEnd.2]
    rw [List.cons_append, next_of_visible visible (ne Ascii.slash (by decide))]
    simp [scanToken, noMark, ne Ascii.quote (by decide), ne Ascii.apostrophe (by decide),
      letter, front, back]

theorem scanAfter_congr {pos pos' : Nat} {text text' : Bytes} (h : next pos text = next pos' text')
    (read : List Lexeme) : scanAfter read pos text = scanAfter read pos' text' := by
  cases first : next pos' text' with
  | ended stop => rw [scanAfter_ended first, scanAfter_ended (h.trans first)]
  | failed cause start stop => rw [scanAfter_failed first, scanAfter_failed (h.trans first)]
  | found l rest => rw [scanAfter_found first, scanAfter_found (h.trans first)]

theorem next_quote {quote : UInt8} (isQuote : quote = Ascii.quote ∨ quote = Ascii.apostrophe)
    (pos : Nat) (rest : Bytes) :
    next pos (quote :: rest) = literal quote pos (pos + 1) [] rest := by
  have visible : isBlank quote = false := by rcases isQuote with rfl | rfl <;> decide
  have noSlash : quote ≠ Ascii.slash := by rcases isQuote with rfl | rfl <;> decide
  have noMark : Mark.ofByte? quote = none := by rcases isQuote with rfl | rfl <;> decide
  rw [next_of_visible visible noSlash]
  simp only [scanToken, noMark, isQuote, if_true]

section literals

variable {quote : UInt8} (start pos : Nat) (read rest : Bytes)

theorem literal_close : literal quote start pos read (quote :: rest) =
    .found ⟨.literal read.reverse, start, pos + 1⟩ rest := by
  rw [literal.eq_def]
  simp

theorem literal_plain {c : UInt8} (noQuote : c ≠ quote) (noBackslash : c ≠ Ascii.backslash) :
    literal quote start pos read (c :: rest) = literal quote start (pos + 1) (c :: read) rest := by
  rw [literal.eq_def]
  simp [noQuote, noBackslash]

theorem literal_escaped (noQuote : Ascii.backslash ≠ quote) {e b : UInt8}
    (h : unescape? e = some b) :
    literal quote start pos read (Ascii.backslash :: e :: rest) =
      literal quote start (pos + 2) (b :: read) rest := by
  rw [literal.eq_def]
  simp [noQuote, h]

end literals

end Lexeme

/-- What may stand between tokens: blanks, and comments up to the end of their line. Only the last
gap of a text may end in the middle of a comment. -/
inductive Gap (last : Prop) : Bytes → Prop
  | nil : Gap last []
  | blank {c rest} : c ∈ [Ascii.space, Ascii.tab, Ascii.newline, Ascii.carriageReturn] →
      Gap last rest → Gap last (c :: rest)
  | comment {words rest} : Ascii.newline ∉ words → Gap last rest →
      Gap last (Ascii.slash :: Ascii.slash :: words ++ Ascii.newline :: rest)
  | unended {words} : last → Ascii.newline ∉ words → Gap last (Ascii.slash :: Ascii.slash :: words)

namespace Lexeme

theorem isBlank_iff {c : UInt8} :
    isBlank c ↔ c ∈ [Ascii.space, Ascii.tab, Ascii.newline, Ascii.carriageReturn] := by
  simp only [isBlank, Bool.or_eq_true, beq_iff_eq, List.mem_cons, List.not_mem_nil,
    or_false, or_assoc]

section comments

variable {words : Bytes} (noNewline : Ascii.newline ∉ words) (pos : Nat)

include noNewline

theorem skip_comment (rest : Bytes) :
    skip true pos (words ++ Ascii.newline :: rest) = skip false (pos + words.length + 1) rest := by
  induction words generalizing pos with
  | nil => simp [skip]
  | cons c more ih =>
    obtain ⟨first, others⟩ := List.ne_and_not_mem_of_not_mem_cons noNewline
    have inside : (c != Ascii.newline) = true := by simpa using first.symm
    have place : pos + 1 + more.length + 1 = pos + (c :: more).length + 1 := by
      rw [List.length_cons]
      omega
    rw [List.cons_append, skip, if_pos rfl, inside, ih others, place]

theorem skip_unended : skip true pos words = (pos + words.length, []) := by
  induction words generalizing pos with
  | nil => rfl
  | cons c more ih =>
    obtain ⟨first, others⟩ := List.ne_and_not_mem_of_not_mem_cons noNewline
    have inside : (c != Ascii.newline) = true := by simpa using first.symm
    have place : pos + 1 + more.length = pos + (c :: more).length := by
      rw [List.length_cons]
      omega
    rw [skip, if_pos rfl, inside, ih others, place]

end comments

theorem skip_slashes (pos : Nat) (rest : Bytes) :
    skip false pos (Ascii.slash :: Ascii.slash :: rest) = skip true (pos + 2) rest :=
  rfl

end Lexeme

namespace Gap

variable {last : Prop} {gap : Bytes}

theorem mono {last' : Prop} (imp : last → last') (h : Gap last gap) : Gap last' gap := by
  induction h with
  | nil => exact .nil
  | blank isBlank _ ih => exact .blank isBlank ih
  | comment noNewline _ ih => exact .comment noNewline ih
  | unended isLast noNewline => exact .unended (imp isLast) noNewline

theorem skip (h : Gap last gap) {rest : Bytes} (ends : last → rest = []) (pos : Nat) :
    Lexeme.skip false pos (gap ++ rest) = Lexeme.skip false (pos + gap.length) rest := by
  induction h generalizing pos with
  | nil => rfl
  | @blank c more isBlank _ ih =>
    have blank : Lexeme.isBlank c := Lexeme.isBlank_iff.mpr isBlank
    have place : pos + 1 + more.length = pos + (c :: more).length := by
      rw [List.length_cons]
      omega
    rw [List.cons_append, Lexeme.skip, if_neg (by simp), if_pos blank, ih, place]
  | @comment words more noNewline _ ih =>
    have place : pos + 2 + words.length + 1 + more.length =
        pos + (Ascii.slash :: Ascii.slash :: words ++ Ascii.newline :: more).length := by
      simp only [List.cons_append, List.length_cons, List.length_append]
      omega
    have whole : Ascii.slash :: Ascii.slash :: words ++ Ascii.newline :: more ++ rest =
        Ascii.slash :: Ascii.slash :: (words ++ Ascii.newline :: (more ++ rest)) := by simp
    rw [whole, Lexeme.skip_slashes, Lexeme.skip_comment noNewline, ih, place]
  | @unended words isLast noNewline =>
    have place : pos + 2 + words.length = pos + (Ascii.slash :: Ascii.slash :: words).length := by
      simp only [List.length_cons]
      omega
    rw [ends isLast, List.append_nil, Lexeme.skip_slashes, Lexeme.skip_unended noNewline, place]
    rfl

theorem next (h : Gap last gap) {rest : Bytes} (ends : last → rest = []) (pos : Nat) :
    Lexeme.next pos (gap ++ rest) = Lexeme.next (pos + gap.length) rest := by
  rw [Lexeme.next, Lexeme.next, h.skip ends]

/-- A word in front of a gap does not go on in the gap. -/
theorem endsWord (h : Gap last gap) (nonempty : gap ≠ []) (rest : Bytes) :
    Lexeme.EndsWord (gap ++ rest) := by
  cases h with
  | nil => exact absurd rfl nonempty
  | @blank c more isBlank _ =>
    rw [List.cons_append, Lexeme.endsWord_cons]
    simp only [List.mem_cons, List.not_mem_nil, or_false] at isBlank
    rcases isBlank with rfl | rfl | rfl | rfl <;> decide
  | comment => exact Lexeme.endsWord_cons.mpr (by decide)
  | unended => exact Lexeme.endsWord_cons.mpr (by decide)

theorem exists_last (h : Gap False gap) (nonempty : gap ≠ []) :
    ∃ front c, gap = front ++ [c] ∧ Lexeme.isWordByte c = false := by
  induction h with
  | nil => exact absurd rfl nonempty
  | @blank c rest isBlank _ ih =>
    by_cases empty : rest = []
    · have only : Gap False [c] := .blank isBlank .nil
      have noWord := only.endsWord (by simp) []
      exact ⟨[], c, by rw [empty]; rfl, Lexeme.endsWord_cons.mp noWord⟩
    · obtain ⟨front, b, rfl, noWord⟩ := ih empty
      exact ⟨c :: front, b, rfl, noWord⟩
  | @comment words rest _ _ ih =>
    by_cases empty : rest = []
    · exact ⟨Ascii.slash :: Ascii.slash :: words, Ascii.newline, by rw [empty], by decide⟩
    · obtain ⟨front, b, rfl, noWord⟩ := ih empty
      exact ⟨Ascii.slash :: Ascii.slash :: words ++ Ascii.newline :: front, b, by simp, noWord⟩
  | unended isLast => exact isLast.elim

end Gap

/-- What is skipped at the front of a text is a gap. -/
theorem Lexeme.exists_gap (pos : Nat) (text : Bytes) :
    ∃ gap rest, Gap (rest = []) gap ∧ text = gap ++ rest ∧
      skip false pos text = (pos + gap.length, rest) := by
  match text with
  | [] => exact ⟨[], [], .nil, rfl, rfl⟩
  | c :: rest =>
    by_cases blank : isBlank c
    · obtain ⟨gap, after, isGap, same, skipped⟩ := exists_gap (pos + 1) rest
      refine ⟨c :: gap, after, .blank (isBlank_iff.mp blank) isGap, by rw [same]; rfl, ?_⟩
      rw [skip, if_neg (by simp), if_pos blank, skipped, List.length_cons, Nat.add_assoc,
        Nat.add_comm 1]
    · by_cases slashes : c = Ascii.slash ∧ rest.head? = some Ascii.slash
      · obtain ⟨rfl, second⟩ := slashes
        obtain ⟨more, same⟩ := List.head?_eq_some_iff.mp second
        by_cases closed : Ascii.newline ∈ more
        · obtain ⟨words, after, split, noNewline⟩ := List.eq_append_cons_of_mem closed
          have shorter : after.length < rest.length := by
            simp only [same, split, List.length_cons, List.length_append]
            omega
          obtain ⟨gap, rest', isGap, rfl, skipped⟩ := exists_gap (pos + 2 + words.length + 1) after
          have place : pos + 2 + words.length + 1 + gap.length =
              pos + (Ascii.slash :: Ascii.slash :: words ++ Ascii.newline :: gap).length := by
            simp only [List.cons_append, List.length_cons, List.length_append]
            omega
          refine ⟨_, rest', .comment noNewline isGap, by simp [same, split], ?_⟩
          rw [same, split, skip_slashes, skip_comment noNewline, skipped, place]
        · refine ⟨_, [], .unended rfl closed, by rw [same, List.append_nil], ?_⟩
          rw [same, skip_slashes, skip_unended closed, List.length_cons, List.length_cons,
            Nat.add_assoc, Nat.add_comm 2]
      · refine ⟨[], c :: rest, .nil, rfl, ?_⟩
        rw [skip, if_neg (by simp), if_neg blank, if_neg (by simpa using slashes)]
        rfl
termination_by text.length
decreasing_by
  · exact Nat.lt_succ_self _
  · exact Nat.lt_succ_of_lt shorter

/-- The byte behind a backslash, and the byte that the two stand for. -/
inductive Escape : UInt8 → UInt8 → Prop
  | newline : Escape (byte 'n') Ascii.newline
  | tab : Escape (byte 't') Ascii.tab
  | backslash : Escape Ascii.backslash Ascii.backslash
  | quote : Escape Ascii.quote Ascii.quote
  | apostrophe : Escape Ascii.apostrophe Ascii.apostrophe

theorem Lexeme.unescape?_eq_some_iff {e b : UInt8} : unescape? e = some b ↔ Escape e b := by
  constructor
  · intro h
    unfold unescape? at h
    split at h
    next isN => cases h; subst isN; exact .newline
    next =>
      split at h
      next isT => cases h; subst isT; exact .tab
      next =>
        split at h
        next itself =>
          cases h
          rcases itself with rfl | rfl | rfl
          · exact .backslash
          · exact .quote
          · exact .apostrophe
        next => cases h
  · intro h
    cases h <;> decide

/-- What stands between two equal quotes, and the bytes that it stands for. -/
inductive LiteralBody (quote : UInt8) : Bytes → Bytes → Prop
  | nil : LiteralBody quote [] []
  | plain {c inner value} : c ≠ quote → c ≠ Ascii.backslash → LiteralBody quote inner value →
      LiteralBody quote (c :: inner) (c :: value)
  | escaped {e b inner value} : Escape e b → LiteralBody quote inner value →
      LiteralBody quote (Ascii.backslash :: e :: inner) (b :: value)

theorem LiteralBody.literal {quote : UInt8} {inner value : Bytes}
    (h : LiteralBody quote inner value) (noQuote : Ascii.backslash ≠ quote) (start pos : Nat)
    (read rest : Bytes) :
    Lexeme.literal quote start pos read (inner ++ quote :: rest) =
      .found ⟨.literal (read.reverse ++ value), start, pos + inner.length + 1⟩ rest := by
  induction h generalizing pos read with
  | nil => simp [Lexeme.literal_close]
  | @plain c inner value other noBackslash _ ih =>
    have bytes : (c :: read).reverse ++ value = read.reverse ++ c :: value := by simp
    have place : pos + 1 + inner.length + 1 = pos + (c :: inner).length + 1 := by
      rw [List.length_cons]
      omega
    rw [List.cons_append, Lexeme.literal_plain _ _ _ _ other noBackslash, ih, bytes, place]
  | @escaped e b inner value escape _ ih =>
    have bytes : (b :: read).reverse ++ value = read.reverse ++ b :: value := by simp
    have place : pos + 2 + inner.length + 1 = pos + (Ascii.backslash :: e :: inner).length + 1 := by
      simp only [List.length_cons]
      omega
    rw [List.cons_append, List.cons_append, Lexeme.literal_escaped _ _ _ _ noQuote
      (Lexeme.unescape?_eq_some_iff.mpr escape), ih, bytes, place]

theorem Lexeme.exists_literalBody {quote : UInt8} {start pos : Nat} {read text rest : Bytes}
    {l : Lexeme} (h : literal quote start pos read text = .found l rest) :
    ∃ inner value, LiteralBody quote inner value ∧ text = inner ++ quote :: rest ∧
      l = ⟨.literal (read.reverse ++ value), start, pos + inner.length + 1⟩ := by
  fun_induction literal quote start pos read text with
  | case1 => cases h
  | case2 pos read rest =>
    cases h
    exact ⟨[], [], .nil, rfl, by simp⟩
  | case3 => cases h
  | case4 pos read e rest b escape notQuote ih =>
    obtain ⟨inner, value, body, rfl, rfl⟩ := ih h
    refine ⟨_, _, .escaped (unescape?_eq_some_iff.mp escape) body, rfl, ?_⟩
    simp only [List.reverse_cons, List.append_assoc, List.singleton_append, List.length_cons,
      mk.injEq, true_and]
    omega
  | case5 => cases h
  | case6 pos read c rest notQuote notEscape ih =>
    obtain ⟨inner, value, body, rfl, rfl⟩ := ih h
    refine ⟨_, _, .plain notQuote notEscape body, rfl, ?_⟩
    simp only [List.reverse_cons, List.append_assoc, List.singleton_append, List.length_cons,
      mk.injEq, true_and]
    omega

namespace Token

/-- The ways in which a token can be written. -/
inductive Spelling : Token → Bytes → Prop
  | mark (m : Mark) : Spelling (.mark m) [m.toByte]
  | keyword (k : Keyword) : Spelling (.keyword k) k.word
  | ident {name} : Lexeme.IsIdentifier name → Spelling (.ident name) name
  | literal {quote inner value} : quote = Ascii.quote ∨ quote = Ascii.apostrophe →
      LiteralBody quote inner value → Spelling (.literal value) (quote :: inner ++ [quote])

/-- Keywords and names are words. -/
def IsWord : Token → Prop
  | keyword _ => True
  | ident _ => True
  | _ => False

namespace Spelling

variable {t : Token} {spelling : Bytes}

theorem isWord (h : t.Spelling spelling) (word : t.IsWord) :
    Lexeme.IsWord spelling ∧ Lexeme.ofWord spelling = t := by
  cases h with
  | mark m => exact word.elim
  | keyword k => exact ⟨Lexeme.isWord_word k, Lexeme.ofWord_word k⟩
  | ident identifier => exact ⟨identifier.1, Lexeme.ofWord_of_isIdentifier identifier⟩
  | literal => exact word.elim

theorem eq_word {k : Keyword} (h : (Token.keyword k).Spelling spelling) : spelling = k.word := by
  cases h
  rfl

theorem ne_nil (h : t.Spelling spelling) : spelling ≠ [] := by
  cases h with
  | mark m => nofun
  | keyword k => cases k <;> decide
  | @ident name identifier =>
    rintro rfl
    exact identifier.1
  | literal => nofun

/-- Marks and quotes are no part of a word. -/
theorem endsWord (h : t.Spelling spelling) (noWord : ¬ t.IsWord) (rest : Bytes) :
    Lexeme.EndsWord (spelling ++ rest) := by
  cases h with
  | mark m => exact Lexeme.endsWord_cons.mpr (by cases m <;> decide)
  | keyword k => exact absurd trivial noWord
  | ident => exact absurd trivial noWord
  | literal isQuote =>
    rw [List.cons_append, List.cons_append, Lexeme.endsWord_cons]
    rcases isQuote with rfl | rfl <;> decide

theorem exists_last (h : t.Spelling spelling) (noWord : ¬ t.IsWord) :
    ∃ front c, spelling = front ++ [c] ∧ Lexeme.isWordByte c = false := by
  cases h with
  | mark m => exact ⟨[], m.toByte, rfl, by cases m <;> decide⟩
  | keyword k => exact absurd trivial noWord
  | ident => exact absurd trivial noWord
  | @literal quote inner value isQuote =>
    refine ⟨quote :: inner, quote, rfl, ?_⟩
    rcases isQuote with rfl | rfl <;> decide

theorem next (h : t.Spelling spelling) {rest : Bytes} (ends : t.IsWord → Lexeme.EndsWord rest)
    (pos : Nat) :
    Lexeme.next pos (spelling ++ rest) = .found ⟨t, pos, pos + spelling.length⟩ rest := by
  by_cases word : t.IsWord
  · obtain ⟨isWord, same⟩ := h.isWord word
    rw [Lexeme.next_word isWord (ends word), same]
  · cases h with
    | mark m => exact Lexeme.next_mark m pos rest
    | keyword k => exact absurd trivial word
    | ident => exact absurd trivial word
    | @literal quote inner value isQuote body =>
      have noBackslash : Ascii.backslash ≠ quote := by rcases isQuote with rfl | rfl <;> decide
      have whole : quote :: inner ++ [quote] ++ rest = quote :: (inner ++ quote :: rest) := by simp
      have place : pos + 1 + inner.length + 1 = pos + (quote :: inner ++ [quote]).length := by
        simp only [List.cons_append, List.length_cons, List.length_append, List.length_nil]
        omega
      rw [whole, Lexeme.next_quote isQuote, ← place]
      exact body.literal noBackslash pos (pos + 1) [] rest

/-- Where a token is written, one is found; a word may go on in the rest. -/
theorem exists_found (h : t.Spelling spelling) (pos : Nat) (rest : Bytes) :
    ∃ l after, Lexeme.next pos (spelling ++ rest) = .found l after := by
  by_cases word : t.IsWord
  · have inner : ∀ b ∈ rest.takeWhile Lexeme.isWordByte, Lexeme.isWordByte b :=
      fun b hb => List.all_eq_true.mp List.all_takeWhile b hb
    have longer := Lexeme.isWord_append (h.isWord word).1 inner
    have found := Lexeme.next_word longer (Lexeme.endsWord_dropWhile rest) pos
    rw [List.append_assoc, List.takeWhile_append_dropWhile] at found
    exact ⟨_, _, found⟩
  · exact ⟨_, _, h.next (fun isWord => absurd isWord word) pos⟩

end Spelling

end Token

theorem Mark.toByte_of_ofByte? {c : UInt8} {m : Mark} (h : ofByte? c = some m) : m.toByte = c := by
  unfold ofByte? at h
  repeat' split at h
  all_goals cases h
  all_goals simp_all [toByte]

theorem Keyword.word_of_ofWord? {w : Bytes} {k : Keyword} (h : ofWord? w = some k) :
    k.word = w := by
  unfold ofWord? at h
  split at h
  next isFn => cases h; exact (beq_iff_eq.mp isFn).symm
  next =>
    split at h
    next isImpure => cases h; exact (beq_iff_eq.mp isImpure).symm
    next => cases h

namespace Lexeme

theorem spelling_ofWord {w : Bytes} (word : IsWord w) : (ofWord w).Spelling w := by
  unfold ofWord
  split
  next k found =>
    have spelled := Token.Spelling.keyword k
    rwa [Keyword.word_of_ofWord? found] at spelled
  next none =>
    have ne (k : Keyword) : w ≠ k.word := by
      rintro rfl
      rw [Keyword.ofWord?_word] at none
      cases none
    exact .ident ⟨word, ne .fn, ne .impure⟩

/-- A token that is found is written at the front of the text, and a word is not cut short. -/
theorem exists_spelling {pos : Nat} {text rest : Bytes} {l : Lexeme}
    (h : scanToken pos text = .found l rest) :
    ∃ spelling, l.token.Spelling spelling ∧ text = spelling ++ rest ∧
      (l.token.IsWord → EndsWord rest) := by
  cases scans_of_scanToken h with
  | @mark c _ m isMark =>
    have spelled := Token.Spelling.mark m
    rw [Mark.toByte_of_ofByte? isMark] at spelled
    exact ⟨[c], spelled, rfl, False.elim⟩
  | @literal c tail _ isQuote inner =>
    obtain ⟨inner, value, body, rfl, rfl⟩ := exists_literalBody inner
    exact ⟨_, .literal isQuote body, by simp, False.elim⟩
  | @word c tail letter =>
    have isWord := isWord_takeWhile letter tail
    refine ⟨_, spelling_ofWord isWord, ?_, fun _ => endsWord_dropWhile tail⟩
    rw [List.cons_append, List.takeWhile_append_dropWhile]

end Lexeme

end StackLang
