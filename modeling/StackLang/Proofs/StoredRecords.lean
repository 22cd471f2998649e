import StackLang.Proofs.StoredCode

namespace StackLang.Image

/-- A function that can be stored in a record. -/
@[ext]
structure Entry where
  name : Bytes
  code : List Instr
  name_loadable : LoadableText name
  code_loadable : ∀ i ∈ code, LoadableInstr i
  size_fits : (codeForm code).length < 256 ^ 4

namespace Entry

/-- The record of a function. -/
def form (e : Entry) : Bytes :=
  textForm e.name ++ Word.encode 4 (codeForm e.code).length ++ codeForm e.code

def routine (e : Entry) : Routine :=
  ⟨(codeForm e.code).length, located 0 e.code⟩

theorem routine_instrs (e : Entry) : e.routine.code.map (·.2) = e.code :=
  located_instrs 0 e.code

end Entry

/-- The records of functions, the first of which starts at `pos`. -/
def placed (pos : Nat) : List Entry → List Record
  | [] => []
  | e :: rest => ⟨pos, e.name, e.routine⟩ :: placed (pos + e.form.length) rest

def entriesForm (entries : List Entry) : Bytes :=
  entries.flatMap Entry.form

theorem takeFramed_eq_ok_iff {b : Bytes} {r : Framed} :
    takeFramed b = .ok r ↔ b = textForm r.name ++ Word.encode 4 r.size ++ r.code ++ r.rest ∧
      LoadableText r.name ∧ r.code.length = r.size ∧ r.size < 256 ^ 4 := by
  constructor
  · intro h
    obtain ⟨⟨name, first⟩, hname, more⟩ := bind_eq_ok_iff.mp h
    obtain ⟨⟨size, second⟩, hsize, more⟩ := bind_eq_ok_iff.mp more
    obtain ⟨⟨code, third⟩, hcode, last⟩ := bind_eq_ok_iff.mp more
    obtain ⟨nameForm, loadable⟩ := takeText_eq_ok_iff.mp (mapError_eq_ok_iff.mp hname)
    obtain ⟨sizeForm, fits⟩ := takeNumber_eq_ok_iff.mp (mapError_eq_ok_iff.mp hsize)
    obtain ⟨split, length⟩ := takeBytes_eq_ok_iff.mp (mapError_eq_ok_iff.mp hcode)
    cases last
    exact ⟨by simp [nameForm, sizeForm, split], loadable, length, fits⟩
  · rintro ⟨rfl, loadable, length, fits⟩
    have hname : takeText (textForm r.name ++ Word.encode 4 r.size ++ r.code ++ r.rest) =
        .ok (r.name, Word.encode 4 r.size ++ (r.code ++ r.rest)) :=
      takeText_eq_ok_iff.mpr ⟨by simp, loadable⟩
    have hsize : takeNumber 4 (Word.encode 4 r.size ++ (r.code ++ r.rest)) =
        .ok (r.size, r.code ++ r.rest) :=
      takeNumber_eq_ok_iff.mpr ⟨rfl, fits⟩
    have hcode : takeBytes r.size (r.code ++ r.rest) = .ok (r.code, r.rest) :=
      takeBytes_eq_ok_iff.mpr ⟨rfl, length⟩
    exact bind_eq_ok_iff.mpr ⟨_, mapError_eq_ok_iff.mpr hname,
      bind_eq_ok_iff.mpr ⟨_, mapError_eq_ok_iff.mpr hsize,
        bind_eq_ok_iff.mpr ⟨_, mapError_eq_ok_iff.mpr hcode, rfl⟩⟩⟩

theorem Entry.takeFramed_form (e : Entry) (rest : Bytes) :
    takeFramed (e.form ++ rest) = .ok ⟨e.name, (codeForm e.code).length, codeForm e.code, rest⟩ :=
  takeFramed_eq_ok_iff.mpr ⟨rfl, e.name_loadable, rfl, e.size_fits⟩

theorem Entry.length_form (e : Entry) :
    e.form.length = 6 + e.name.length + (codeForm e.code).length := by
  simp [form]
  omega

theorem recordsAfter_of_error {b : Bytes} {e : LoadFailure} (nonempty : b ≠ [])
    (failed : takeFramed b = .error e) (read : List Record) (pos : Nat) :
    recordsAfter read pos b = (read.reverse, some (e.within (recordContext pos))) := by
  rw [recordsAfter, List.isEmpty_eq_false_iff.mpr nonempty]
  simp only [Bool.false_eq_true, if_false]
  split
  next failure h =>
    rw [failed] at h
    cases h
    rfl
  next r h =>
    rw [failed] at h
    cases h

theorem recordsAfter_of_framed {b : Bytes} {r : Framed} (framed : takeFramed b = .ok r)
    (read : List Record) (pos : Nat) :
    recordsAfter read pos b = match decode r.code with
      | .error e => (read.reverse, some ((e.within r.name).within (recordContext pos)))
      | .ok code =>
        recordsAfter (⟨pos, r.name, r.size, code⟩ :: read)
          (pos + 6 + r.name.length + r.size) r.rest := by
  have nonempty : b.isEmpty = false := by
    have shorter := takeFramed_length framed
    apply List.isEmpty_eq_false_iff.mpr
    apply List.ne_nil_of_length_pos
    omega
  rw [recordsAfter, nonempty]
  simp only [Bool.false_eq_true, if_false]
  split
  next failure h =>
    rw [framed] at h
    cases h
  next found h =>
    rw [framed] at h
    cases h
    rfl

theorem recordsAfter_form (e : Entry) (read : List Record) (pos : Nat) (rest : Bytes) :
    recordsAfter read pos (e.form ++ rest) =
      recordsAfter (⟨pos, e.name, e.routine⟩ :: read) (pos + e.form.length) rest := by
  have code : decode (codeForm e.code) = .ok (located 0 e.code) :=
    decode_eq_ok_iff.mpr ⟨e.code, e.code_loadable, rfl, rfl⟩
  have size : pos + e.form.length = pos + 6 + e.name.length + (codeForm e.code).length := by
    rw [e.length_form]
    omega
  rw [recordsAfter_of_framed (e.takeFramed_form rest), size]
  simp only [code]
  rfl

/-- The loader reads the records of some functions and goes on behind them. -/
theorem recordsAfter_entriesForm_append (entries : List Entry) (read : List Record) (pos : Nat)
    (rest : Bytes) :
    recordsAfter read pos (entriesForm entries ++ rest) =
      recordsAfter ((placed pos entries).reverse ++ read)
        (pos + (entriesForm entries).length) rest := by
  induction entries generalizing read pos with
  | nil => simp [entriesForm, placed]
  | cons e others ih =>
    have first : entriesForm (e :: others) = e.form ++ entriesForm others := rfl
    rw [first, List.append_assoc, recordsAfter_form, ih, List.length_append, Nat.add_assoc]
    simp [placed]

theorem recordsAfter_entriesForm (entries : List Entry) (read : List Record) (pos : Nat) :
    recordsAfter read pos (entriesForm entries) = (read.reverse ++ placed pos entries, none) := by
  have whole := recordsAfter_entriesForm_append entries read pos []
  rw [List.append_nil] at whole
  rw [whole, recordsAfter]
  simp

/-- Bytes that are read to their end are the records of some functions. -/
theorem exists_entriesForm_of_recordsAfter {read : List Record} {pos : Nat} {b : Bytes}
    (h : (recordsAfter read pos b).2 = none) : ∃ entries, b = entriesForm entries := by
  fun_induction recordsAfter read pos b with
  | case1 read pos b empty => exact ⟨[], by simpa [entriesForm] using empty⟩
  | case2 => simp at h
  | case3 => simp at h
  | case4 read pos b nonempty r framed code decoded ih =>
    obtain ⟨entries, others⟩ := ih h
    obtain ⟨split, loadable, length, fits⟩ := takeFramed_eq_ok_iff.mp framed
    obtain ⟨instrs, instrs_loadable, form, -⟩ := decode_eq_ok_iff.mp decoded
    have size : (codeForm instrs).length = r.size := by rw [← form, length]
    let first : Entry := ⟨r.name, instrs, loadable, instrs_loadable, by rwa [size]⟩
    refine ⟨first :: entries, ?_⟩
    rw [split, others, form, ← size]
    rfl

theorem placed_injective {pos : Nat} {a b : List Entry} (h : placed pos a = placed pos b) :
    a = b := by
  induction a generalizing pos b with
  | nil =>
    cases b with
    | nil => rfl
    | cons e rest => simp [placed] at h
  | cons e rest ih =>
    cases b with
    | nil => simp [placed] at h
    | cons e' rest' =>
      obtain ⟨same, others⟩ := List.cons.inj h
      obtain ⟨-, name, routine⟩ := Record.mk.inj same
      have code : e.code = e'.code := by rw [← e.routine_instrs, ← e'.routine_instrs, routine]
      obtain rfl : e = e' := Entry.ext name code
      rw [ih others]

/-- The records of a compiled program are determined by its bytes. -/
theorem entriesForm_injective {a b : List Entry} (h : entriesForm a = entriesForm b) : a = b := by
  have ha := recordsAfter_entriesForm a [] 0
  have hb := recordsAfter_entriesForm b [] 0
  rw [h, hb] at ha
  exact placed_injective (by simpa using (congrArg Prod.fst ha).symm)

end StackLang.Image
