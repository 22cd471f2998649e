import StackLang.Proofs.FilesTogether

namespace StackLang

namespace Bundle

theorem joined_append (a b : List (Bytes × Bytes)) : joined (a ++ b) = joined a ++ joined b :=
  List.flatMap_append

/-- The file that an offset is placed in. -/
theorem find?_placed (start : Nat) (name : Bytes) (after : List (Bytes × Bytes))
    {before : List (Bytes × Bytes)} {text : Bytes} {i : Nat} (inside : i ≤ text.length)
    (own : 0 < i ∨ before = []) :
    (placed start (before ++ (name, text) :: after)).find?
      (·.touches (start + (joined before).length + i : Nat)) =
      some ⟨name, start + (joined before).length, text.length⟩ := by
  induction before generalizing start with
  | nil =>
    apply List.find?_cons_of_pos
    apply SourceFile.touches_natCast.mpr
    simp only [joined, List.flatMap_nil, List.length_nil]
    omega
  | cons s rest ih =>
    have positive : 0 < i := by simpa using own
    have length : start + (joined (s :: rest)).length =
        start + s.2.length + (joined rest).length := by
      simp only [joined, List.flatMap_cons, List.length_append]
      omega
    rw [length, List.cons_append, placed, List.find?_cons_of_neg]
    · exact ih (start + s.2.length) (.inl positive)
    · rw [SourceFile.touches_natCast]
      simp only
      omega

variable {before : List (Bytes × Bytes)} {text : Bytes} {i : Nat}

theorem position_own (name : Bytes) (after : List (Bytes × Bytes)) (inside : i ≤ text.length)
    (own : 0 < i ∨ before = []) :
    (ofSources (before ++ (name, text) :: after)).position ((joined before).length + i : Nat) =
      Position.after name (text.take i) := by
  have found := find?_placed 0 name after inside own
  have buffer : (ofSources (before ++ (name, text) :: after)).buffer =
      joined before ++ joined ((name, text) :: after) := by
    rw [ofSources_eq, joined_append]
  have files : (ofSources (before ++ (name, text) :: after)).files =
      placed 0 (before ++ (name, text) :: after) := by
    rw [ofSources_eq]
  rw [Nat.zero_add] at found
  rw [position, files, found]
  exact congrArg (Position.after name) (range_own buffer inside)

/-- Behind some files there is a last one with any bytes, unless all are empty; then take the
first. -/
theorem exists_last_with_bytes {sources : List (Bytes × Bytes)} (nonempty : sources ≠ []) :
    ∃ early s late, sources = early ++ s :: late ∧ (∀ t ∈ late, t.2 = []) ∧
      (s.2 ≠ [] ∨ early = []) := by
  induction sources with
  | nil => exact absurd rfl nonempty
  | cons first rest ih =>
    by_cases empty : ∀ t ∈ rest, t.2 = []
    · exact ⟨[], first, rest, rfl, empty, .inr rfl⟩
    · have more : rest ≠ [] := by
        rintro rfl
        exact empty (by simp)
      obtain ⟨early, s, late, rfl, lateEmpty, bytes⟩ := ih more
      refine ⟨first :: early, s, late, rfl, lateEmpty, .inl ?_⟩
      rcases bytes with bytes | rfl
      · exact bytes
      · intro own
        exact empty (List.forall_mem_cons.mpr ⟨own, lateEmpty⟩)

theorem joined_eq_nil {sources : List (Bytes × Bytes)} (h : ∀ s ∈ sources, s.2 = []) :
    joined sources = [] :=
  List.flatMap_eq_nil_iff.mpr h

/-- The start of a later file is placed at the end of the last file before it that has any bytes. -/
theorem position_between (name text : Bytes) (after : List (Bytes × Bytes))
    (nonempty : before ≠ []) :
    ∃ early s late, before = early ++ s :: late ∧ (∀ t ∈ late, t.2 = []) ∧ (s.2 ≠ [] ∨ early = []) ∧
      (ofSources (before ++ (name, text) :: after)).position ((joined before).length : Nat) =
        Position.after s.1 s.2 := by
  obtain ⟨early, ⟨file, own⟩, late, rfl, empty, bytes⟩ := exists_last_with_bytes nonempty
  refine ⟨early, (file, own), late, rfl, empty, bytes, ?_⟩
  have positive : 0 < own.length ∨ early = [] := bytes.imp_left List.length_pos_iff.mpr
  have ending := position_own file (late ++ (name, text) :: after) (Nat.le_refl own.length) positive
  have offset : (joined (early ++ (file, own) :: late)).length =
      (joined early).length + own.length := by
    rw [joined_append, List.length_append, ← List.singleton_append, joined_append,
      joined_eq_nil empty]
    simp [joined]
  rw [offset, List.append_assoc, List.cons_append, ending, List.take_length]

/-- An offset inside a file has the place that it has in the file alone, and so has an error of the
first file that cannot be read, but for the first byte of a file behind others: that is placed at
the end of the last file before it that has any bytes, or of the first file if none has. -/
theorem places_in_files (before after : List (Bytes × Bytes)) (name text : Bytes) :
    let b := ofSources (before ++ (name, text) :: after)
    let base := (joined before).length
    (∀ i, i < text.length → 0 < i ∨ before = [] →
      b.position (base + i : Nat) = Position.after name (text.take i)) ∧
    (before ≠ [] → ∃ early s late, before = early ++ s :: late ∧ (∀ t ∈ late, t.2 = []) ∧
      (s.2 ≠ [] ∨ early = []) ∧ b.position base = Position.after s.1 s.2) ∧
    ((∀ s ∈ before, ∃ file, File.parse s.1 s.2 = .ok file) → ∀ e, File.parse name text = .error e →
      b.parse = .error ⟨if before ≠ [] ∧
        e.place = Position.after name [] then b.position base else e.place,
        e.func, e.fault⟩) := by
  refine ⟨fun i inside own => position_own name after (Nat.le_of_lt inside) own,
    position_between name text after, ?_⟩
  intro ok e failed
  obtain ⟨r, own, rfl⟩ := File.parse_eq_error_iff.mp failed
  have bounds := Reading.offset_bounds own
  have inside : r.offset ≤ text.length := by omega
  rw [parse_first_error name after ok own, syntaxError]
  simp only [ReadError.shift, Except.error.injEq, SyntaxError.mk.injEq, and_true]
  split
  next first =>
    have zero : r.offset = 0 := Position.after_take_inj inside (Nat.zero_le _) first.2
    rw [zero, Nat.add_zero]
  next other =>
    apply position_own name after inside
    by_cases zero : r.offset = 0
    · right
      by_contra some
      exact other ⟨some, by rw [zero, List.take_zero]⟩
    · exact .inl (Nat.pos_of_ne_zero zero)

/-- Two files, the second of which is at fault at its first byte. -/
def strayStart : List (Bytes × Bytes) :=
  [(bytes "a", bytes "fn a()\x7b\x7d"), (bytes "b", bytes "?")]

/-- The first byte of the second file is placed in the first file, and so is the error there. -/
theorem first_byte_placed_in_file_before :
    (ofSources strayStart).files = [⟨bytes "a", 0, 8⟩, ⟨bytes "b", 8, 1⟩] ∧
      (ofSources strayStart).position 8 = ⟨bytes "a", 1, 9⟩ ∧
      Position.after (bytes "b") ((bytes "?").take 0) = ⟨bytes "b", 1, 1⟩ ∧
      (ofSources strayStart).parse =
        .error ⟨⟨bytes "a", 1, 9⟩, none, .lexical (.stray (byte '?'))⟩ ∧
      File.parse (bytes "b") (bytes "?") =
        .error ⟨⟨bytes "b", 1, 1⟩, none, .lexical (.stray (byte '?'))⟩ := by
  have failed {x : Except SyntaxError File} {e : SyntaxError} (h : x.map (fun _ => ()) = .error e) :
      x = .error e := by
    cases x with
    | ok f => cases h
    | error e' =>
      cases h
      rfl
  exact ⟨by decide +kernel, by decide +kernel, by decide +kernel, failed (by decide +kernel),
    failed (by decide +kernel)⟩

end Bundle

end StackLang
