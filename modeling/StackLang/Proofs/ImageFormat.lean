import Mathlib.Data.List.Nodup
import StackLang.Proofs.NameLookup
import StackLang.Proofs.StoredRecords

namespace StackLang.Image

/-- A later function replaces an earlier one of its name. -/
def entriesTable (entries : List Entry) : NameMap Routine :=
  .ofList (entries.map fun e => (e.name, e.routine))

theorem table_placed (pos : Nat) (entries : List Entry) :
    table (placed pos entries) = entriesTable entries := by
  have pairs : (placed pos entries).map (fun r => (r.name, r.routine)) =
      entries.map fun e => (e.name, e.routine) := by
    induction entries generalizing pos with
    | nil => rfl
    | cons e rest ih => simp [placed, ih]
  rw [table, pairs, entriesTable]

theorem get?_entriesTable (entries : List Entry) (name : Bytes) :
    (entriesTable entries).get? name =
      ((entries.filter fun e => e.name = name).getLast?).map Entry.routine := by
  rw [entriesTable, NameMap.get?_ofList, List.filter_map, List.getLast?_map, Option.map_map]
  rfl

theorem get?_entriesTable_of_mem {entries : List Entry} (distinct : (entries.map Entry.name).Nodup)
    {e : Entry} (mem : e ∈ entries) : (entriesTable entries).get? e.name = some e.routine := by
  rw [get?_entriesTable]
  cases last : (entries.filter fun r => r.name = e.name).getLast? with
  | none =>
    have empty := List.getLast?_eq_none_iff.mp last
    have := List.filter_eq_nil_iff.mp empty e mem
    simp at this
  | some r =>
    obtain ⟨hr, same⟩ := List.mem_filter.mp (List.mem_of_getLast? last)
    obtain rfl : r = e := List.inj_on_of_nodup_map distinct hr mem (by simpa using same)
    rfl

theorem mem_keys_entriesTable {entries : List Entry} {name : Bytes} :
    name ∈ (entriesTable entries).keys ↔ ∃ e ∈ entries, e.name = name := by
  rw [NameMap.mem_keys_iff, get?_entriesTable, ← Option.isSome_iff_exists, Option.isSome_map,
    List.getLast?_isSome]
  simp [List.filter_eq_nil_iff]

theorem takeHeader_eq_ok_iff {data body : Bytes} {n : Nat} :
    takeHeader data = .ok (n, body) ↔
      ∃ field : Bytes, data = magic ++ field ++ body ∧ field.length = 4 ∧
        Word.decode field = n := by
  constructor
  · intro h
    unfold takeHeader at h
    split at h
    next start =>
      obtain ⟨split, fits⟩ := takeNumber_eq_ok_iff.mp (mapError_eq_ok_iff.mp h)
      refine ⟨Word.encode 4 n, ?_, Word.length_encode 4 n, Word.decode_encode fits⟩
      calc data = data.take magic.length ++ data.drop magic.length :=
        (List.take_append_drop _ _).symm
        _ = magic ++ Word.encode 4 n ++ body := by rw [start, split, List.append_assoc]
    next => cases h
  · rintro ⟨field, rfl, size, rfl⟩
    obtain ⟨eq, fits⟩ := Word.eq_encode_iff.mpr ⟨size, rfl⟩
    have number : takeNumber 4 (field ++ body) = .ok (Word.decode field, body) :=
      takeNumber_eq_ok_iff.mpr ⟨by rw [← eq], fits⟩
    simp [takeHeader, number, mapError_ok]

theorem load_entriesForm {field : Bytes} (size : field.length = 4) (entries : List Entry) :
    Program.load (magic ++ field ++ entriesForm entries) =
      if ∃ e ∈ entries, e.name = mainName then .ok ⟨Word.decode field, entriesTable entries⟩
      else .error (.bare .noMain) := by
  have header : takeHeader (magic ++ field ++ entriesForm entries) =
      .ok (Word.decode field, entriesForm entries) :=
    takeHeader_eq_ok_iff.mpr ⟨field, rfl, size, rfl⟩
  have body : records (entriesForm entries) = (placed 8 entries, none) := by
    simpa [records] using recordsAfter_entriesForm entries [] 8
  have main : (entriesTable entries).contains mainName ↔ ∃ e ∈ entries, e.name = mainName := by
    rw [NameMap.contains_iff, ← NameMap.mem_keys_iff, mem_keys_entriesTable]
  rw [Program.load, header]
  simp only [bind, Except.bind, body, table_placed, main]

theorem exists_entries_of_load {data : Bytes} {program : Program}
    (h : Program.load data = .ok program) :
    ∃ field entries, data = magic ++ field ++ entriesForm entries ∧ field.length = 4 := by
  obtain ⟨⟨n, body⟩, header, rest⟩ := bind_eq_ok_iff.mp h
  obtain ⟨field, rfl, size, -⟩ := takeHeader_eq_ok_iff.mp header
  have complete : (records body).2 = none := by
    cases hr : records body with
    | mk read failure =>
      cases failure with
      | none => rfl
      | some e => simp [hr] at rest
  obtain ⟨entries, rfl⟩ := exists_entriesForm_of_recordsAfter complete
  exact ⟨field, entries, rfl, size⟩

/-- The bytes `data` are the fixed first bytes, the four bytes `field` and the records of
`entries`. -/
def IsImage (data field : Bytes) (entries : List Entry) : Prop :=
  field.length = 4 ∧ data = magic ++ field ++ entriesForm entries

theorem IsImage.unique {data field field' : Bytes} {entries entries' : List Entry}
    (h : IsImage data field entries) (h' : IsImage data field' entries') :
    field = field' ∧ entries = entries' := by
  obtain ⟨size, eq⟩ := h
  obtain ⟨size', eq'⟩ := h'
  obtain ⟨front, body⟩ := List.append_inj (eq.symm.trans eq') (by simp [size, size'])
  exact ⟨List.append_cancel_left front, entriesForm_injective body⟩

theorem load_eq_ok_iff {data : Bytes} {program : Program} :
    Program.load data = .ok program ↔ ∃ field entries, IsImage data field entries ∧
      (∃ e ∈ entries, e.name = mainName) ∧ program = ⟨Word.decode field, entriesTable entries⟩ := by
  constructor
  · intro h
    obtain ⟨field, entries, rfl, size⟩ := exists_entries_of_load h
    rw [load_entriesForm size] at h
    split at h
    next main =>
      cases h
      exact ⟨field, entries, ⟨size, rfl⟩, main, rfl⟩
    next => cases h
  · rintro ⟨field, entries, ⟨size, rfl⟩, main, rfl⟩
    rw [load_entriesForm size, if_pos main]

/-- Loading succeeds on exactly the images with a main function. The records of an image are unique,
the length field is only reported, and the table has the last record of each name and nothing
else. -/
theorem load_accepts_exactly_images (data : Bytes) :
    ((∃ program, Program.load data = .ok program) ↔
      ∃ field entries, IsImage data field entries ∧ ∃ e ∈ entries, e.name = mainName) ∧
    (∀ field entries field' entries', IsImage data field entries → IsImage data field' entries' →
      field = field' ∧ entries = entries') ∧
    ∀ program field entries, Program.load data = .ok program → IsImage data field entries →
      program.bodyLen = Word.decode field ∧
      (∀ name, program.routines.get? name =
        ((entries.filter fun e => e.name = name).getLast?).map Entry.routine) ∧
      ∀ name, name ∈ program.routines.keys ↔ ∃ e ∈ entries, e.name = name := by
  refine ⟨⟨?_, ?_⟩, ?_, ?_⟩
  · rintro ⟨program, h⟩
    obtain ⟨field, entries, rfl, size⟩ := exists_entries_of_load h
    refine ⟨field, entries, ⟨size, rfl⟩, ?_⟩
    by_contra noMain
    rw [load_entriesForm size, if_neg noMain] at h
    cases h
  · rintro ⟨field, entries, ⟨size, rfl⟩, main⟩
    exact ⟨_, by rw [load_entriesForm size, if_pos main]⟩
  · intro field entries field' entries' isImage isImage'
    exact isImage.unique isImage'
  · rintro program field entries h ⟨size, rfl⟩
    rw [load_entriesForm size] at h
    split at h
    next =>
      cases h
      exact ⟨rfl, get?_entriesTable entries, fun _ => mem_keys_entriesTable⟩
    next => cases h

end StackLang.Image
