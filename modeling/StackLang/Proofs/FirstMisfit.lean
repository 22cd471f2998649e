import StackLang.Proofs.ReadingErrors
import StackLang.Proofs.ViablePrefixes

namespace StackLang

namespace Lexeme

/-- The tokens of a text that end at an offset or before it. -/
def tokensUpTo (text : Bytes) (offset : Nat) : List Token :=
  ((scan 0 text).1.filter (·.stop ≤ offset)).map (·.token)

variable {text : Bytes} {ending : Ending}

theorem tokensUpTo_start {done rest : List Lexeme} {l : Lexeme}
    (splits : Splits 0 text (done ++ l :: rest) ending) :
    tokensUpTo text l.start = done.map (·.token) := by
  have before : ∀ l' ∈ done, l'.stop ≤ l.start := fun l' hl' =>
    (List.pairwise_append.mp splits.ordered).2.2 l' hl' l List.mem_cons_self
  have behind : ∀ l' ∈ l :: rest, ¬ l'.stop ≤ l.start := by
    have later := (List.pairwise_cons.mp (List.pairwise_append.mp splits.ordered).2.1).1
    have own := splits.lexeme_bounds l (by simp)
    intro l' hl'
    rcases List.mem_cons.mp hl' with rfl | hl'
    · omega
    · have after := later l' hl'
      have nonempty := splits.lexeme_bounds l' (by simp [hl'])
      omega
  rw [tokensUpTo, scan_eq_iff_splits.mpr splits, List.filter_append,
    List.filter_eq_self.mpr (by simpa using before),
    List.filter_eq_nil_iff.mpr (by simpa using behind), List.append_nil]

theorem tokensUpTo_place {lexemes : List Lexeme} (splits : Splits 0 text lexemes ending) :
    tokensUpTo text ending.place = lexemes.map (·.token) := by
  have before : ∀ l ∈ lexemes, l.stop ≤ ending.place := fun l hl => (splits.lexeme_bounds l hl).2.2
  rw [tokensUpTo, scan_eq_iff_splits.mpr splits, List.filter_eq_self.mpr (by simpa using before)]

end Lexeme

/-- A text that is at fault at the offset is so for a token that continues no file, for its end
where a file does not end, or for something that is no token. What a diagnostic asks for continues a
file. -/
structure Misfit (text : Bytes) (offset : Nat) (fault : SyntaxFault) : Prop where
  viable : ∃ rest, Accepted (Lexeme.tokensUpTo text offset ++ rest)
  unexpected : ∀ u, fault = .unexpected u →
    (∃ l ∈ (Lexeme.scan 0 text).1, l.start = offset ∧ u.got = l.token.symbol ∧
        ∀ rest, ¬ Accepted (Lexeme.tokensUpTo text offset ++ l.token :: rest)) ∨
      (u.got = .ending ∧ offset = text.length ∧
        Lexeme.tokens? text = some (Lexeme.tokensUpTo text offset) ∧
        ¬ Accepted (Lexeme.tokensUpTo text offset))
  wanted : ∀ u, fault = .unexpected u → ∀ w ∈ u.want,
    ∃ t rest, w.Stands t ∧ Accepted (Lexeme.tokensUpTo text offset ++ t :: rest)
  lexical : ∀ cause, fault = .lexical cause →
    (Lexeme.scan 0 text).1.map (·.token) = Lexeme.tokensUpTo text offset ∧
      ∃ stop, (Lexeme.scan 0 text).2 = .failed cause offset stop ∧
        Lexeme.scanToken offset (text.drop offset) = .failed cause offset stop
  encoded : fault ≠ .invalidUtf8

namespace Reader

variable {text : Bytes} {lexemes : List Lexeme} {r : Reader}

theorem misfit_of_token {done rest : List Lexeme} {l : Lexeme} {ending : Ending}
    (splits : Lexeme.Splits 0 text (done ++ l :: rest) ending) (valid : Utf8.valid text)
    (reads : Reads start done r) (stuck : r.step? l = none) :
    Misfit text l.start (.unexpected ⟨l.token.symbol, r.spot.want l.token.symbol⟩) := by
  have tokens := Lexeme.tokensUpTo_start splits
  have scan := Lexeme.scan_eq_iff_splits.mpr splits
  have writable : ∀ l ∈ done, l.token.Writable :=
    (List.forall_mem_append.mp (splits.writable valid)).1
  refine ⟨?_, ?_, ?_, fun _ => nofun, nofun⟩
  · rw [tokens]
    exact ⟨_, reads.accepted writable⟩
  · rintro u ⟨⟩
    rw [tokens, scan]
    exact .inl ⟨l, by simp, rfl, rfl, reads.not_accepted stuck⟩
  · rintro u ⟨⟩ w hw
    rw [tokens]
    exact reads.accepted_of_want writable hw

theorem misfit_of_end {stop : Nat} (splits : Lexeme.Splits 0 text lexemes (.finished stop))
    (valid : Utf8.valid text) (reads : Reads start lexemes r) (inside : r.spot ≠ .betweenFuncs) :
    Misfit text stop (.unexpected ⟨.ending, r.spot.want .ending⟩) := by
  have tokens : Lexeme.tokensUpTo text stop = lexemes.map (·.token) :=
    Lexeme.tokensUpTo_place splits
  have writable := splits.writable valid
  refine ⟨?_, ?_, ?_, fun _ => nofun, nofun⟩
  · rw [tokens]
    exact ⟨_, reads.accepted writable⟩
  · rintro u ⟨⟩
    have whole :=
      Lexeme.tokens?_eq_some_iff.mpr ⟨lexemes, stop, Lexeme.scan_eq_iff_splits.mpr splits, rfl⟩
    rw [tokens]
    exact .inr ⟨rfl, by simpa using splits.finished, whole, reads.not_accepted_of_unfinished inside⟩
  · rintro u ⟨⟩ w hw
    rw [tokens]
    exact reads.accepted_of_want writable hw

theorem misfit_of_failed {cause : LexError} {place stop : Nat}
    (splits : Lexeme.Splits 0 text lexemes (.failed cause place stop)) (valid : Utf8.valid text)
    (reads : Reads start lexemes r) : Misfit text place (.lexical cause) := by
  have tokens : Lexeme.tokensUpTo text place = lexemes.map (·.token) :=
    Lexeme.tokensUpTo_place splits
  have scan := Lexeme.scan_eq_iff_splits.mpr splits
  refine ⟨?_, fun _ => nofun, fun _ => nofun, ?_, nofun⟩
  · rw [tokens]
    exact ⟨_, reads.accepted (splits.writable valid)⟩
  · rintro cause ⟨⟩
    obtain ⟨rest, reaches, failed⟩ := splits.exists_failed
    rw [tokens, scan, ← reaches.eq_drop]
    exact ⟨rfl, stop, rfl, failed⟩

theorem misfit_of_stops {ending : Ending} {e : ReadError}
    (splits : Lexeme.Splits 0 text lexemes ending) (valid : Utf8.valid text)
    (stops : Stops start ending lexemes r e) : Misfit text e.offset e.fault := by
  cases stops with
  | misfit reads none => exact misfit_of_token splits valid reads none
  | unfinished reads fails =>
    cases ending with
    | failed cause place stop =>
      cases fails
      exact misfit_of_failed splits valid reads
    | finished stop =>
      simp only [finish] at fails
      split at fails
      next => cases fails
      next inside =>
        cases fails
        exact misfit_of_end splits valid reads inside

end Reader

/-- A valid text that cannot be read is at fault at the first token that continues no file. The line
and the column of the error tell the offset of that token. -/
theorem parse_fails_at_first_misfit (name : Bytes) {text : Bytes} (valid : Utf8.valid text)
    {e : SyntaxError} (failed : File.parse name text = .error e) :
    ∃ offset, offset ≤ text.length ∧ e.place = Position.after name (text.take offset) ∧
      (∀ other, other ≤ text.length → e.place = Position.after name (text.take other) →
        other = offset) ∧ Misfit text offset e.fault := by
  obtain ⟨r, own, rfl⟩ := File.parse_eq_error_iff.mp failed
  have bounds := Reading.offset_bounds own
  have inside : r.offset ≤ text.length := by omega
  refine ⟨r.offset, inside, rfl, fun other bound same =>
    (Position.after_take_inj inside bound same).symm, ?_⟩
  rcases Reading.error_cases own with ⟨pos, invalid, -⟩ | ⟨-, lexemes, ending, last, splits, stops⟩
  · rw [Utf8.invalidAt_eq_none_iff.mpr valid] at invalid
    cases invalid
  · exact Reader.misfit_of_stops splits valid stops

/-- A text with two arguments and no comma between them. -/
def unseparatedText : Bytes :=
  bytes "fn main()\x7b\n f('a' 'b'); \x7d"

/-- The second argument stands where the list of arguments goes on or ends. -/
def missingComma : SyntaxFault :=
  .unexpected ⟨.literal (bytes "b"),
    [Token.symbol (.mark .comma), Token.symbol (.mark .closeParen)]⟩

theorem unseparatedText_fails_at_argument :
    Utf8.valid unseparatedText ∧
      File.parse [] unseparatedText = .error ⟨⟨[], 2, 8⟩, some (bytes "main"), missingComma⟩ ∧
      Misfit unseparatedText 18 missingComma := by
  have valid : Utf8.valid unseparatedText := by decide +kernel
  have own : (Reading.ofText 0 unseparatedText).error =
      some ⟨18, some (bytes "main"), missingComma⟩ := by
    decide +kernel
  have place : (⟨[], 2, 8⟩ : Position) = Position.after [] (unseparatedText.take 18) := by
    decide +kernel
  have failed : File.parse [] unseparatedText =
      .error ⟨⟨[], 2, 8⟩, some (bytes "main"), missingComma⟩ := by
    rw [place]
    exact File.parse_eq_error_iff.mpr ⟨_, own, rfl⟩
  obtain ⟨offset, -, -, only, misfit⟩ := parse_fails_at_first_misfit [] valid failed
  obtain rfl := only 18 (by decide +kernel) place
  exact ⟨valid, failed, misfit⟩

end StackLang
