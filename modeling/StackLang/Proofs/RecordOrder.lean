import Mathlib.Data.List.Perm.Basic
import StackLang.Machine.Listing
import StackLang.Machine.Run
import StackLang.Proofs.ImageRoundTrip

namespace StackLang.Image

/-- A name and code that a record can frame. The name need not be a text that can be loaded, and the
code need not be made of instructions. -/
structure RawRecord where
  name : Bytes
  code : Bytes
  name_short : name.length ≤ maxOperand
  code_fits : code.length < 256 ^ 4
  deriving DecidableEq

def RawRecord.form (r : RawRecord) : Bytes :=
  textForm r.name ++ Word.encode 4 r.code.length ++ r.code

def recordsForm (records : List RawRecord) : Bytes :=
  records.flatMap RawRecord.form

/-- The record of a function. -/
def Entry.raw (e : Entry) : RawRecord :=
  ⟨e.name, codeForm e.code, e.name_loadable.1, e.size_fits⟩

theorem recordsForm_raw (entries : List Entry) :
    recordsForm (entries.map Entry.raw) = entriesForm entries := by
  rw [recordsForm, List.flatMap_map]
  rfl

theorem Entry.raw_injective : Function.Injective Entry.raw := by
  intro a b h
  have name : a.name = b.name := congrArg RawRecord.name h
  have code : codeForm a.code = codeForm b.code := congrArg RawRecord.code h
  exact Entry.ext name (codeForm_injective a.code_loadable b.code_loadable code)

section Framing

variable {x y : Bytes}

/-- Bytes behind their number are split off what follows in one way only. -/
theorem counted_append_inj {width : Nat} {a b : Bytes} (ha : a.length < 256 ^ width)
    (hb : b.length < 256 ^ width)
    (h : Word.encode width a.length ++ (a ++ x) = Word.encode width b.length ++ (b ++ y)) :
    a = b ∧ x = y := by
  obtain ⟨number, rest⟩ := List.append_inj h (by simp)
  have length : a.length = b.length := by
    rw [← Word.decode_encode ha, ← Word.decode_encode hb, number]
  exact List.append_inj rest length

theorem form_append_inj {r s : RawRecord} (h : r.form ++ x = s.form ++ y) : r = s ∧ x = y := by
  have short {t : RawRecord} : t.name.length < 256 ^ 2 := by
    have := t.name_short
    simp only [maxOperand] at this
    omega
  simp only [RawRecord.form, textForm, List.append_assoc] at h
  obtain ⟨name, rest⟩ := counted_append_inj short short h
  obtain ⟨code, rest⟩ := counted_append_inj r.code_fits s.code_fits rest
  refine ⟨?_, rest⟩
  cases r
  cases s
  simp_all

theorem form_append_ne_nil (r : RawRecord) : r.form ++ x ≠ [] := by
  apply List.ne_nil_of_length_pos
  simp only [RawRecord.form, List.length_append, length_textForm]
  omega

theorem recordsForm_injective : Function.Injective recordsForm := by
  intro a b h
  induction a generalizing b with
  | nil =>
    cases b with
    | nil => rfl
    | cons s others => exact absurd h.symm (form_append_ne_nil s)
  | cons r rest ih =>
    cases b with
    | nil => exact absurd h (form_append_ne_nil r)
    | cons s others =>
      have split : r.form ++ recordsForm rest = s.form ++ recordsForm others := h
      obtain ⟨same, tail⟩ := form_append_inj split
      rw [same, ih tail]

end Framing

section Order

variable {head : Bytes} {a b : List RawRecord}

/-- Records are loaded just if each of them is the record of a function. -/
theorem load_recordsForm_eq_ok_iff (size : head.length = 8) {program : Program} :
    Program.load (head ++ recordsForm a) = .ok program ↔
      ∃ field entries, head = magic ++ field ∧ a = entries.map Entry.raw ∧
        (∃ e ∈ entries, e.name = mainName) ∧
        program = ⟨Word.decode field, entriesTable entries⟩ := by
  have magicSize : magic.length = 4 := by decide
  rw [load_eq_ok_iff]
  constructor
  · rintro ⟨field, entries, ⟨fieldSize, data⟩, main, same⟩
    have sizes : head.length = (magic ++ field).length := by
      rw [List.length_append]
      omega
    obtain ⟨front, body⟩ := List.append_inj data sizes
    rw [← recordsForm_raw] at body
    exact ⟨field, entries, front, recordsForm_injective body, main, same⟩
  · rintro ⟨field, entries, rfl, rfl, main, same⟩
    rw [List.length_append] at size
    exact ⟨field, entries, ⟨by omega, by rw [recordsForm_raw]⟩, main, same⟩

/-- The table of functions depends on the order only among the records of each name. -/
theorem entriesTable_eq_of_order {entries others : List Entry}
    (order : ∀ name, (entries.map Entry.raw).filter (fun r => r.name = name) =
      (others.map Entry.raw).filter fun r => r.name = name) :
    entriesTable entries = entriesTable others := by
  ext name : 1
  have kept (l : List Entry) : (l.map Entry.raw).filter (fun r => r.name = name) =
      (l.filter fun e => e.name = name).map Entry.raw := by
    rw [List.filter_map]
    rfl
  have same := order name
  rw [kept, kept] at same
  rw [get?_entriesTable, get?_entriesTable, List.map_injective_iff.mpr Entry.raw_injective same]

theorem load_of_reordered (size : head.length = 8) (perm : a.Perm b)
    (order : ∀ name, a.filter (fun r => r.name = name) = b.filter fun r => r.name = name)
    {program : Program} (h : Program.load (head ++ recordsForm a) = .ok program) :
    Program.load (head ++ recordsForm b) = .ok program := by
  obtain ⟨field, entries, front, rfl, ⟨e, mem, main⟩, same⟩ :=
    (load_recordsForm_eq_ok_iff size).mp h
  obtain ⟨others, rfl, permuted⟩ :=
    (congrFun₂ (List.eq_map_comp_perm Entry.raw) b entries).mpr perm.symm
  rw [entriesTable_eq_of_order order] at same
  exact (load_recordsForm_eq_ok_iff size).mpr
    ⟨field, others, front, rfl, ⟨e, permuted.mem_iff.mpr mem, main⟩, same⟩

end Order

/-- Records may change places as long as those of one name keep their order: both images load as the
same program, or neither loads. So they run alike and are listed alike. -/
theorem load_reordered_records {head : Bytes} (size : head.length = 8) {a b : List RawRecord}
    (perm : a.Perm b)
    (order : ∀ name, a.filter (fun r => r.name = name) = b.filter fun r => r.name = name) :
    ((∃ program, Program.load (head ++ recordsForm a) = .ok program ∧
        Program.load (head ++ recordsForm b) = .ok program) ∨
      (∃ e, Program.load (head ++ recordsForm a) = .error e) ∧
        ∃ e, Program.load (head ++ recordsForm b) = .error e) ∧
    (∀ limit fuel sink,
      (Program.load (head ++ recordsForm a)).toOption.map
        (fun p => Machine.run ⟨p, limit⟩ fuel sink) =
        (Program.load (head ++ recordsForm b)).toOption.map fun p =>
          Machine.run ⟨p, limit⟩ fuel sink) ∧
    (Program.load (head ++ recordsForm a)).toOption.map Listing.program =
      (Program.load (head ++ recordsForm b)).toOption.map Listing.program := by
  cases loaded : Program.load (head ++ recordsForm a) with
  | ok program =>
    have other := load_of_reordered size perm order loaded
    rw [other]
    exact ⟨.inl ⟨program, rfl, rfl⟩, fun _ _ _ => rfl, rfl⟩
  | error e =>
    cases other : Program.load (head ++ recordsForm b) with
    | ok program =>
      have back := load_of_reordered size perm.symm (fun name => (order name).symm) other
      rw [loaded] at back
      cases back
    | error e' => exact ⟨.inr ⟨⟨e, rfl⟩, e', rfl⟩, fun _ _ _ => rfl, rfl⟩

/-- Two records of the main function, of which the later one writes. -/
def mainRecords : List RawRecord :=
  [⟨mainName, [], by decide, by decide⟩, ⟨mainName, [Opcode.write], by decide, by decide⟩]

/-- A record of another function. -/
def emptyRecord : RawRecord :=
  ⟨bytes "f", [], by decide, by decide⟩

theorem load_reordered_mainRecords :
    (emptyRecord :: mainRecords).Perm (mainRecords ++ [emptyRecord]) ∧
      (∀ name, (emptyRecord :: mainRecords).filter (fun r => r.name = name) =
        (mainRecords ++ [emptyRecord]).filter fun r => r.name = name) ∧
      ∃ program, Program.load (header 0 ++ recordsForm (emptyRecord :: mainRecords)) = .ok program ∧
        Program.load (header 0 ++ recordsForm (mainRecords ++ [emptyRecord])) = .ok program ∧
        program.routines.get? mainName = some ⟨1, [(0, .write)]⟩ := by
  have perm : (emptyRecord :: mainRecords).Perm (mainRecords ++ [emptyRecord]) :=
    (List.perm_append_singleton emptyRecord mainRecords).symm
  have order (name : Bytes) : (emptyRecord :: mainRecords).filter (fun r => r.name = name) =
      (mainRecords ++ [emptyRecord]).filter fun r => r.name = name := by
    by_cases other : emptyRecord.name = name
    · subst other
      decide +kernel
    · simp [other]
  have last :
      ((Program.load (header 0 ++ recordsForm (emptyRecord :: mainRecords))).toOption.bind fun p =>
        p.routines.get? mainName) = some ⟨1, [(0, .write)]⟩ := by
    decide +kernel
  obtain ⟨⟨program, first, second⟩ | ⟨⟨e, failed⟩, -⟩, -⟩ :=
    load_reordered_records (length_header 0) perm order
  · rw [first] at last
    exact ⟨perm, order, program, first, second, last⟩
  · rw [failed] at last
    cases last

end StackLang.Image
