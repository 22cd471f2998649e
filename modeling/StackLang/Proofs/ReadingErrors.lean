import StackLang.Proofs.GrammarReading
import StackLang.Proofs.LexemePlaces
import StackLang.Proofs.LinesAndColumns

namespace StackLang

namespace Reader

/-- A run of a reader that ends in an error, at a lexeme without a place or behind the last
lexeme. -/
inductive Stops (r : Reader) (ending : Ending) : List Lexeme → Reader → ReadError → Prop
  | misfit {done l rest r'} : Reads r done r' → r'.step? l = none →
      Stops r ending (done ++ l :: rest) r' (r'.unexpected l.start l.token.symbol)
  | unfinished {lexemes r' e} : Reads r lexemes r' → r'.finish ending = some e →
      Stops r ending lexemes r' e

theorem Stops.cons {r r' last : Reader} {ending : Ending} {l : Lexeme} {lexemes : List Lexeme}
    {e : ReadError} (step : Steps l.start l.token r r') (h : Stops r' ending lexemes last e) :
    Stops r ending (l :: lexemes) last e := by
  cases h with
  | misfit reads none => exact .misfit (.cons step reads) none
  | unfinished reads fails => exact .unfinished (.cons step reads) fails

theorem stops_of_run {r last : Reader} {ending : Ending} {lexemes : List Lexeme} {e : ReadError}
    (h : r.run ending lexemes = (last, some e)) : Stops r ending lexemes last e := by
  induction lexemes generalizing r with
  | nil =>
    obtain ⟨rfl, fails⟩ := Prod.mk.inj h
    exact .unfinished .nil fails
  | cons l rest ih =>
    cases step : r.step? l with
    | none =>
      simp only [run, step] at h
      obtain ⟨rfl, same⟩ := Prod.mk.inj h
      cases same
      exact .misfit .nil step
    | some r' =>
      simp only [run, step] at h
      exact (ih h).cons (steps_of_step? step)

theorem offset_of_finish {r : Reader} {ending : Ending} {e : ReadError}
    (h : r.finish ending = some e) :
    e.offset = ending.place := by
  cases ending with
  | failed cause start stop =>
    cases h
    rfl
  | finished pos =>
    simp only [finish] at h
    split at h
    next => cases h
    next =>
      cases h
      rfl

theorem Stops.offset_bounds {r : Reader} {pos : Nat} {text : Bytes} {ending : Ending}
    {lexemes : List Lexeme} {last : Reader} {e : ReadError}
    (splits : Lexeme.Splits pos text lexemes ending) (h : Stops r ending lexemes last e) :
    pos ≤ e.offset ∧ e.offset ≤ pos + text.length := by
  have ends := splits.place_bounds
  cases h with
  | @misfit done l rest last reads none =>
    obtain ⟨starts, nonempty, stops⟩ := splits.lexeme_bounds l (by simp)
    simp only [unexpected]
    omega
  | unfinished reads fails =>
    rw [offset_of_finish fails]
    exact ends

end Reader

namespace Reading

/-- A text is at fault for an invalid byte, or else where its reader stops. -/
theorem error_cases {base : Nat} {text : Bytes} {e : ReadError}
    (h : (ofText base text).error = some e) :
    (∃ pos, Utf8.invalidAt text = some pos ∧ e = ⟨base + pos, none, .invalidUtf8⟩) ∨
      Utf8.valid text ∧ ∃ lexemes ending last, Lexeme.Splits base text lexemes ending ∧
        Reader.Stops Reader.start ending lexemes last e := by
  unfold ofText at h
  split at h
  next pos invalid => exact .inl ⟨pos, invalid, (Option.some.inj h).symm⟩
  next valid =>
    have splits : Lexeme.Splits base text _ _ := Lexeme.scan_eq_iff_splits.mp rfl
    exact .inr ⟨Utf8.invalidAt_eq_none_iff.mp valid, _, _, _, splits,
      Reader.stops_of_run (Prod.ext rfl h)⟩

theorem offset_bounds {base : Nat} {text : Bytes} {e : ReadError}
    (h : (ofText base text).error = some e) :
    base ≤ e.offset ∧ e.offset ≤ base + text.length := by
  rcases error_cases h with ⟨pos, invalid, rfl⟩ | ⟨-, lexemes, ending, last, splits, stops⟩
  · have inside := Utf8.invalidFrom_lt invalid
    simp only
    omega
  · exact stops.offset_bounds splits

end Reading

theorem File.parse_eq_error_iff {name text : Bytes} {e : SyntaxError} :
    File.parse name text = .error e ↔ ∃ r, (Reading.ofText 0 text).error = some r ∧
      e = ⟨Position.after name (text.take r.offset), r.func, r.fault⟩ := by
  have files : (Bundle.single name text).files = [⟨name, 0, text.length⟩] := rfl
  have whole : (Bundle.single name text).range 0 text.length = text := List.take_length
  unfold File.parse Bundle.parse Bundle.read
  simp only [files, Bundle.readFiles, SourceFile.stop, Nat.zero_add, whole]
  cases reading : (Reading.ofText 0 text).error with
  | none => simp
  | some r =>
    have inside : r.offset ≤ text.length := by
      have bounds := Reading.offset_bounds reading
      omega
    simp [reading, Bundle.syntaxError, Bundle.position_single name inside, eq_comm]

end StackLang
