import StackLang.Proofs.CompiledProgram
import StackLang.Proofs.ReadingErrors
import StackLang.Proofs.TreeNodes

namespace StackLang

namespace Utf8

/-- A text is valid up to `n` and no further. -/
structure ValidUpTo (text : Bytes) (n : Nat) : Prop where
  inside : n < text.length
  valid : valid (text.take n)
  longest : ∀ m ≤ text.length, Utf8.valid (text.take m) → m ≤ n
  noCharacter : ∀ c, IsScalar c → ¬ encode c <+: text.drop n

theorem scalar?_of_prefix {c : Nat} {text : Bytes} (scalar : IsScalar c) (h : encode c <+: text) :
    ∃ rest, scalar? text = some (c, rest) := by
  obtain ⟨rest, rfl⟩ := h
  exact ⟨rest, scalar?_encode scalar rest⟩

theorem exists_valid_front {pos p : Nat} {text : Bytes} (h : invalidFrom pos text = some p) :
    ∃ front rest, text = front ++ rest ∧ p = pos + front.length ∧ valid front ∧ rest ≠ [] ∧
      scalar? rest = none := by
  fun_induction invalidFrom pos text with
  | case1 pos text n rest found ih =>
    obtain ⟨front, after, rfl, rfl, isValid, nonempty, invalid⟩ := ih h
    obtain ⟨scalar, rfl⟩ := encode_of_scalar? found
    have longer : valid (encode n ++ front) := by
      rw [valid, pays_eq_of_scalar? (scalar?_encode scalar front)]
      exact isValid
    have place : pos + width n + front.length = pos + (encode n ++ front).length := by
      rw [List.length_append, length_encode]
      omega
    exact ⟨encode n ++ front, after, by rw [List.append_assoc], place, longer, nonempty, invalid⟩
  | case2 => cases h
  | case3 pos text invalid notEmpty =>
    cases h
    have nonempty : text ≠ [] := by simpa using notEmpty
    exact ⟨[], text, rfl, rfl, rfl, nonempty, invalid⟩

theorem validUpTo_of_invalidAt {text : Bytes} {n : Nat} (h : invalidAt text = some n) :
    ValidUpTo text n := by
  obtain ⟨front, rest, rfl, same, isValid, nonempty, invalid⟩ := exists_valid_front h
  rw [Nat.zero_add] at same
  subst same
  have noCharacter : ∀ c, IsScalar c → ¬ encode c <+: rest := by
    intro c scalar encoded
    obtain ⟨after, found⟩ := scalar?_of_prefix scalar encoded
    cases invalid.symm.trans found
  have inside := invalidFrom_lt h
  rw [Nat.zero_add] at inside
  refine ⟨inside, by rwa [List.take_left], ?_, by rwa [List.drop_left]⟩
  intro m _ validLonger
  by_contra longer
  obtain ⟨k, rfl⟩ := Nat.exists_eq_add_of_lt (Nat.lt_of_not_le longer)
  rw [Nat.add_assoc, List.take_length_add_append, valid_append_iff isValid] at validLonger
  cases rest with
  | nil => exact nonempty rfl
  | cons b more =>
    rw [List.take_succ_cons] at validLonger
    obtain ⟨c, after, found⟩ := scalar?_of_valid validLonger
    obtain ⟨scalar, encoded⟩ := encode_of_scalar? found
    have front : encode c <+: b :: more.take k := ⟨after, encoded.symm⟩
    exact noCharacter c scalar
      (front.trans ((List.prefix_cons_inj b).mpr (List.take_prefix k more)))

end Utf8

theorem Reader.Stops.fault_ne_invalidUtf8 {r last : Reader} {ending : Ending}
    {lexemes : List Lexeme} {e : ReadError} (h : Stops r ending lexemes last e) :
    e.fault ≠ .invalidUtf8 := by
  intro same
  cases h with
  | misfit => cases same
  | unfinished reads fails =>
    cases ending with
    | failed cause start stop =>
      cases fails
      cases same
    | finished pos =>
      simp only [finish] at fails
      split at fails
      next => cases fails
      next =>
        cases fails
        cases same

theorem Reading.error_invalidUtf8_iff {base : Nat} {text : Bytes} {e : ReadError} :
    (ofText base text).error = some e ∧ e.fault = .invalidUtf8 ↔
      ∃ n, Utf8.invalidAt text = some n ∧ e = ⟨base + n, none, .invalidUtf8⟩ := by
  constructor
  · rintro ⟨failed, fault⟩
    rcases error_cases failed with found | ⟨-, lexemes, ending, last, -, stops⟩
    · exact found
    · exact absurd fault stops.fault_ne_invalidUtf8
  · rintro ⟨n, invalid, rfl⟩
    rw [ofText, invalid]
    exact ⟨rfl, rfl⟩

namespace File

theorem parse_error_invalidUtf8_iff {name text : Bytes} {e : SyntaxError} :
    File.parse name text = .error e ∧ e.fault = .invalidUtf8 ↔
      ∃ n, Utf8.invalidAt text = some n ∧
        e = ⟨Position.after name (text.take n), none, .invalidUtf8⟩ := by
  rw [parse_eq_error_iff]
  constructor
  · rintro ⟨⟨r, failed, rfl⟩, fault⟩
    obtain ⟨n, invalid, rfl⟩ := Reading.error_invalidUtf8_iff.mp ⟨failed, fault⟩
    exact ⟨n, invalid, by rw [Nat.zero_add]⟩
  · rintro ⟨n, invalid, rfl⟩
    obtain ⟨failed, -⟩ := Reading.error_invalidUtf8_iff.mpr ⟨n, invalid, rfl⟩
    rw [Nat.zero_add] at failed
    exact ⟨⟨_, failed, rfl⟩, rfl⟩

theorem valid_of_readable {f : File} (readable : f.Readable) :
    ∀ t ∈ f.names ++ f.callees ++ f.literals, Utf8.valid t := by
  intro t ht
  rcases List.mem_append.mp ht with ht | literal
  · rcases List.mem_append.mp ht with name | callee
    · obtain ⟨fn, hfn, rfl⟩ := List.mem_map.mp name
      exact (readable fn hfn).1
    · obtain ⟨fn, hfn, called⟩ := List.mem_flatMap.mp callee
      exact Func.emitted_lowered (readable fn hfn) _ (Func.call_mem_lowered_iff.mpr called)
  · obtain ⟨fn, hfn, pushed⟩ := List.mem_flatMap.mp literal
    exact Func.emitted_lowered (readable fn hfn) _ (Func.push_mem_lowered_iff.mpr pushed)

end File

/-- A text is refused for its encoding just when it is not valid, at the end of its longest valid
part, which is never in front of a replacement character. In a tree that was read, all names and
literals are valid. -/
theorem parse_checks_encoding (name text : Bytes) :
    ((∃ e, File.parse name text = .error e ∧ e.fault = .invalidUtf8) ↔ ¬ Utf8.valid text) ∧
    (∀ e, File.parse name text = .error e → e.fault = .invalidUtf8 → ∃ n, Utf8.ValidUpTo text n ∧
      ¬ [0xEF, 0xBF, 0xBD] <+: text.drop n ∧
      (Reading.ofText 0 text).error = some ⟨n, none, .invalidUtf8⟩ ∧
      e = ⟨Position.after name (text.take n), none, .invalidUtf8⟩) ∧
    ∀ file, File.parse name text = .ok file →
      ∀ t ∈ file.names ++ file.callees ++ file.literals, Utf8.valid t := by
  refine ⟨?_, ?_, ?_⟩
  · simp only [File.parse_error_invalidUtf8_iff]
    rw [← Utf8.invalidAt_eq_none_iff, ← ne_eq, Option.ne_none_iff_exists']
    constructor
    · rintro ⟨e, n, invalid, -⟩
      exact ⟨n, invalid⟩
    · rintro ⟨n, invalid⟩
      exact ⟨_, n, invalid, rfl⟩
  · intro e failed fault
    obtain ⟨n, invalid, rfl⟩ := File.parse_error_invalidUtf8_iff.mp ⟨failed, fault⟩
    have upTo := Utf8.validUpTo_of_invalidAt invalid
    have replacement : Utf8.encode 0xFFFD = [0xEF, 0xBF, 0xBD] := by decide
    obtain ⟨own, -⟩ := Reading.error_invalidUtf8_iff.mpr ⟨n, invalid, rfl⟩
    rw [Nat.zero_add] at own
    refine ⟨n, upTo, ?_, own, rfl⟩
    rw [← replacement]
    exact upTo.noCharacter 0xFFFD ⟨by decide, by decide⟩
  · intro file parsed
    exact File.valid_of_readable (Bundle.readable_of_parse parsed)

end StackLang
