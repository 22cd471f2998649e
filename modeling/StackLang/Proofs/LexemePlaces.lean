import StackLang.Source.Lexeme

namespace StackLang

/-- The place where the tokens of a text end. -/
def Ending.place : Ending → Nat
  | finished pos => pos
  | failed _ start _ => start

namespace Lexeme

/-- A text whose first byte is at `pos` is split into the lexemes, up to the ending. -/
inductive Splits : Nat → Bytes → List Lexeme → Ending → Prop
  | ended {pos text stop} : next pos text = .ended stop → Splits pos text [] (.finished stop)
  | failed {pos text cause start stop} : next pos text = .failed cause start stop →
      Splits pos text [] (.failed cause start stop)
  | found {pos text l rest lexemes ending} : next pos text = .found l rest →
      Splits l.stop rest lexemes ending → Splits pos text (l :: lexemes) ending

theorem scanAfter_ended {pos stop : Nat} {text : Bytes} (h : next pos text = .ended stop)
    (read : List Lexeme) :
    scanAfter read pos text = (read.reverse, .finished stop) := by
  rw [scanAfter]
  split <;> simp_all

theorem scanAfter_failed {pos start stop : Nat} {text : Bytes} {cause : LexError}
    (h : next pos text = .failed cause start stop) (read : List Lexeme) :
    scanAfter read pos text = (read.reverse, .failed cause start stop) := by
  rw [scanAfter]
  split <;> simp_all

theorem scanAfter_found {pos : Nat} {text rest : Bytes} {l : Lexeme}
    (h : next pos text = .found l rest) (read : List Lexeme) :
    scanAfter read pos text = scanAfter (l :: read) l.stop rest := by
  rw [scanAfter]
  split <;> simp_all

theorem scanAfter_of_splits {pos : Nat} {text : Bytes} {lexemes : List Lexeme} {ending : Ending}
    (h : Splits pos text lexemes ending) (read : List Lexeme) :
    scanAfter read pos text = (read.reverse ++ lexemes, ending) := by
  induction h generalizing read with
  | ended next => rw [scanAfter_ended next, List.append_nil]
  | failed next => rw [scanAfter_failed next, List.append_nil]
  | found next _ ih =>
    rw [scanAfter_found next, ih, List.reverse_cons, List.append_assoc, List.singleton_append]

theorem exists_splits (pos : Nat) (text : Bytes) :
    ∃ lexemes ending, Splits pos text lexemes ending := by
  cases h : next pos text with
  | ended stop => exact ⟨[], _, .ended h⟩
  | failed cause start stop => exact ⟨[], _, .failed h⟩
  | found l rest =>
    obtain ⟨lexemes, ending, splits⟩ := exists_splits l.stop rest
    exact ⟨l :: lexemes, ending, .found h splits⟩
termination_by text.length
decreasing_by exact next_length h

theorem scan_eq_iff_splits {pos : Nat} {text : Bytes} {lexemes : List Lexeme} {ending : Ending} :
    scan pos text = (lexemes, ending) ↔ Splits pos text lexemes ending := by
  constructor
  · intro h
    obtain ⟨lexemes', ending', splits⟩ := exists_splits pos text
    obtain ⟨rfl, rfl⟩ := Prod.mk.inj (h.symm.trans (scanAfter_of_splits splits []))
    exact splits
  · intro splits
    exact scanAfter_of_splits splits []

/-- What a text whose first byte is at `pos` holds from `pos'` on is `rest`. -/
def Reaches (pos : Nat) (text : Bytes) (pos' : Nat) (rest : Bytes) : Prop :=
  ∃ front, text = front ++ rest ∧ pos' = pos + front.length

section

variable {pos pos' pos'' : Nat} {text rest rest' : Bytes}

theorem Reaches.refl : Reaches pos text pos text :=
  ⟨[], rfl, rfl⟩

theorem Reaches.trans (h : Reaches pos text pos' rest) (h' : Reaches pos' rest pos'' rest') :
    Reaches pos text pos'' rest' := by
  obtain ⟨front, rfl, rfl⟩ := h
  obtain ⟨front', rfl, rfl⟩ := h'
  exact ⟨front ++ front', by rw [List.append_assoc], by rw [List.length_append, Nat.add_assoc]⟩

theorem Reaches.cons {c : UInt8} (h : Reaches (pos + 1) text pos' rest) :
    Reaches pos (c :: text) pos' rest :=
  Reaches.trans ⟨[c], rfl, rfl⟩ h

theorem Reaches.length (h : Reaches pos text pos' rest) :
    pos' + rest.length = pos + text.length := by
  obtain ⟨front, rfl, rfl⟩ := h
  rw [List.length_append, Nat.add_assoc]

theorem Reaches.le (h : Reaches pos text pos' rest) : pos ≤ pos' := by
  obtain ⟨front, -, rfl⟩ := h
  exact Nat.le_add_right _ _

theorem Reaches.eq_drop (h : Reaches 0 text pos' rest) : rest = text.drop pos' := by
  obtain ⟨front, rfl, rfl⟩ := h
  rw [Nat.zero_add, List.drop_left]

end

theorem reaches_skip (inComment : Bool) (pos : Nat) (text : Bytes) :
    Reaches pos text (skip inComment pos text).1 (skip inComment pos text).2 := by
  induction text generalizing inComment pos with
  | nil => exact .refl
  | cons c rest ih =>
    unfold skip
    split
    · exact (ih _ _).cons
    · split
      · exact (ih _ _).cons
      · split
        · exact (ih _ _).cons
        · exact .refl

theorem reaches_literal {quote : UInt8} {start pos : Nat} {read text rest : Bytes} {l : Lexeme}
    (h : literal quote start pos read text = .found l rest) :
    l.start = start ∧ Reaches pos text l.stop rest ∧ pos < l.stop := by
  fun_induction literal quote start pos read text with
  | case1 => cases h
  | case2 pos read rest =>
    cases h
    exact ⟨rfl, Reaches.refl.cons, Nat.lt_succ_self pos⟩
  | case3 => cases h
  | case4 pos read e rest b escape notQuote ih =>
    obtain ⟨starts, reaches, behind⟩ := ih h
    exact ⟨starts, reaches.cons.cons, by omega⟩
  | case5 => cases h
  | case6 pos read c rest notQuote notEscape ih =>
    obtain ⟨starts, reaches, behind⟩ := ih h
    exact ⟨starts, reaches.cons, by omega⟩

theorem start_of_literal_failed {quote : UInt8} {start pos start' stop : Nat} {read text : Bytes}
    {cause : LexError} (h : literal quote start pos read text = .failed cause start' stop) :
    start' = start := by
  fun_induction literal quote start pos read text with
  | case1 => cases h; rfl
  | case2 => cases h
  | case3 => cases h; rfl
  | case4 pos read e rest b escape notQuote ih => exact ih h
  | case5 => cases h; rfl
  | case6 pos read c rest notQuote notEscape ih => exact ih h

theorem literal_ne_ended {quote : UInt8} {start pos stop : Nat} {read text : Bytes} :
    literal quote start pos read text ≠ .ended stop := by
  fun_induction literal quote start pos read text <;> simp_all

/-- The ways in which the token at the front of a text can turn out. -/
inductive Scans (pos : Nat) : Bytes → Scan → Prop
  | nothing : Scans pos [] (.ended pos)
  | mark {c rest m} : Mark.ofByte? c = some m →
      Scans pos (c :: rest) (.found ⟨.mark m, pos, pos + 1⟩ rest)
  | literal {c rest found} : c = Ascii.quote ∨ c = Ascii.apostrophe →
      literal c pos (pos + 1) [] rest = found → Scans pos (c :: rest) found
  | word {c rest} : Ascii.isLetter c → Scans pos (c :: rest)
      (.found ⟨ofWord (c :: rest.takeWhile isWordByte), pos,
        pos + (c :: rest.takeWhile isWordByte).length⟩
        (rest.dropWhile isWordByte))
  | stray {c rest} : Scans pos (c :: rest) (.failed (.stray c) pos pos)

theorem scans_of_scanToken {pos : Nat} {text : Bytes} {found : Scan}
    (h : scanToken pos text = found) :
    Scans pos text found := by
  subst h
  cases text with
  | nil => exact .nothing
  | cons c rest =>
    unfold scanToken
    simp only
    split
    next m mark => exact .mark mark
    next =>
      split
      next quote => exact .literal quote rfl
      next =>
        split
        next letter => exact .word letter
        next => exact .stray

theorem reaches_scanToken {pos : Nat} {text rest : Bytes} {l : Lexeme}
    (h : scanToken pos text = .found l rest) :
    l.start = pos ∧ Reaches pos text l.stop rest ∧ pos < l.stop := by
  cases scans_of_scanToken h with
  | mark => exact ⟨rfl, Reaches.refl.cons, Nat.lt_succ_self pos⟩
  | literal _ inner =>
    obtain ⟨starts, reaches, behind⟩ := reaches_literal inner
    exact ⟨starts, reaches.cons, by omega⟩
  | @word c tail =>
    refine ⟨rfl, ⟨c :: tail.takeWhile isWordByte, ?_, rfl⟩,
      Nat.lt_add_of_pos_right (Nat.succ_pos _)⟩
    rw [List.cons_append, List.takeWhile_append_dropWhile]

theorem start_of_scanToken_failed {pos start stop : Nat} {text : Bytes} {cause : LexError}
    (h : scanToken pos text = .failed cause start stop) : start = pos := by
  cases scans_of_scanToken h with
  | literal _ inner => exact start_of_literal_failed inner
  | stray => rfl

theorem eq_nil_of_scanToken_ended {pos stop : Nat} {text : Bytes}
    (h : scanToken pos text = .ended stop) :
    stop = pos ∧ text = [] := by
  cases scans_of_scanToken h with
  | nothing => exact ⟨rfl, rfl⟩
  | literal _ inner => exact absurd inner literal_ne_ended

section

variable {pos : Nat} {text : Bytes}

theorem reaches_next {l : Lexeme} {rest : Bytes} (h : next pos text = .found l rest) :
    Reaches pos text l.stop rest ∧ pos ≤ l.start ∧ l.start < l.stop := by
  have skipped := reaches_skip false pos text
  obtain ⟨starts, reaches, behind⟩ := reaches_scanToken h
  rw [starts]
  exact ⟨skipped.trans reaches, skipped.le, behind⟩

theorem stop_of_next_ended {stop : Nat} (h : next pos text = .ended stop) :
    stop = pos + text.length := by
  have skipped := reaches_skip false pos text
  obtain ⟨rfl, nothing⟩ := eq_nil_of_scanToken_ended h
  simpa [nothing] using skipped.length

theorem scanToken_of_next_failed {cause : LexError} {start stop : Nat}
    (h : next pos text = .failed cause start stop) :
    ∃ rest, Reaches pos text start rest ∧ scanToken start rest = .failed cause start stop := by
  obtain rfl := start_of_scanToken_failed h
  exact ⟨_, reaches_skip false pos text, h⟩

end

namespace Splits

variable {pos : Nat} {text : Bytes} {lexemes : List Lexeme} {ending : Ending}

theorem place_bounds (h : Splits pos text lexemes ending) :
    pos ≤ ending.place ∧ ending.place ≤ pos + text.length := by
  induction h with
  | ended next =>
    have stop := stop_of_next_ended next
    simp only [Ending.place]
    omega
  | failed next =>
    obtain ⟨rest, reaches, -⟩ := scanToken_of_next_failed next
    have length := reaches.length
    have le := reaches.le
    simp only [Ending.place]
    omega
  | found next _ ih =>
    obtain ⟨reaches, starts, nonempty⟩ := reaches_next next
    have length := reaches.length
    omega

theorem lexeme_bounds (h : Splits pos text lexemes ending) :
    ∀ l ∈ lexemes, pos ≤ l.start ∧ l.start < l.stop ∧ l.stop ≤ ending.place := by
  induction h with
  | ended next => simp
  | failed next => simp
  | found next splits ih =>
    obtain ⟨-, starts, nonempty⟩ := reaches_next next
    intro l hl
    rcases List.mem_cons.mp hl with rfl | hl
    · exact ⟨starts, nonempty, splits.place_bounds.1⟩
    · obtain ⟨after, inner, before⟩ := ih l hl
      exact ⟨by omega, inner, before⟩

/-- Each lexeme ends before the next one starts. -/
theorem ordered (h : Splits pos text lexemes ending) :
    lexemes.Pairwise fun a b => a.stop ≤ b.start := by
  induction h with
  | ended next => exact .nil
  | failed next => exact .nil
  | found next splits ih => exact .cons (fun l hl => (splits.lexeme_bounds l hl).1) ih

theorem finished {stop : Nat} (h : Splits pos text lexemes (.finished stop)) :
    stop = pos + text.length := by
  generalize same : Ending.finished stop = ending at h
  induction h with
  | ended next =>
    cases same
    exact stop_of_next_ended next
  | failed next => cases same
  | found next _ ih =>
    have length := (reaches_next next).1.length
    have stop := ih same
    omega

theorem exists_failed {cause : LexError} {start stop : Nat}
    (h : Splits pos text lexemes (.failed cause start stop)) :
    ∃ rest, Reaches pos text start rest ∧ scanToken start rest = .failed cause start stop := by
  generalize same : Ending.failed cause start stop = ending at h
  induction h with
  | ended next => cases same
  | failed next =>
    cases same
    exact scanToken_of_next_failed next
  | found next _ ih =>
    obtain ⟨rest, reaches, failed⟩ := ih same
    exact ⟨rest, (reaches_next next).1.trans reaches, failed⟩

end Splits

end Lexeme

end StackLang
