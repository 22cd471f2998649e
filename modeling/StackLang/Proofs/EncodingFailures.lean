import StackLang.Proofs.EncodingInPlace
import StackLang.Proofs.EncodingOutcome

namespace StackLang.Image

/-- Why an instruction has no encoding. -/
inductive InstrFault : Instr → EncodeError → Prop
  | unknown {kind : Bytes} {op : UInt8} : InstrFault (.other kind op) (.unsupported kind)
  | longPush {text : Bytes} : maxOperand < text.length →
      InstrFault (.push text) (.operandTooLong text.length)
  | longCall {name : Bytes} : maxOperand < name.length →
      InstrFault (.call name) (.operandTooLong name.length)

/-- Why an element has no code: it is no function, a built-in function without a template, or a
function with a faulty instruction, of which the first counts. -/
inductive ElementFault (templates : NameMap Bytes) (name : Bytes) :
    Element → Failure ImageError → Prop
  | placeholder : ElementFault templates name .placeholder (.bare (.unencodable name .placeholder))
  | «variable» : ElementFault templates name .variable (.bare (.unencodable name .variable))
  | unset : ElementFault templates name .unset (.bare (.unencodable name .unset))
  | noTemplate : templates.get? name = none →
      ElementFault templates name .builtin (.bare (.noTemplate name))
  | instr {front rest : List Instr} {i : Instr} {cause : EncodeError} :
      (∀ j ∈ front, ∀ c, ¬ InstrFault j c) → InstrFault i cause →
      ElementFault templates name (.function (front ++ i :: rest))
        ⟨[instrContext front.length], .instr cause⟩

/-- Why an entry has no record. The name is looked at last. -/
inductive EntryFault (templates : NameMap Bytes) (name : Bytes) (e : Element) :
    Failure ImageError → Prop
  | element {f : Failure ImageError} : ElementFault templates name e f →
      EntryFault templates name e f
  | name : (∀ f, ¬ ElementFault templates name e f) → maxOperand < name.length →
      EntryFault templates name e ⟨[bytes "name"], .instr (.operandTooLong name.length)⟩

/-- An entry that cannot be encoded. -/
inductive Unencodable (templates : NameMap Bytes) (name : Bytes) : Element → Prop
  | placeholder : Unencodable templates name .placeholder
  | «variable» : Unencodable templates name .variable
  | unset : Unencodable templates name .unset
  | noTemplate : templates.get? name = none → Unencodable templates name .builtin
  | unknown {body : List Instr} {kind : Bytes} {op : UInt8} : .other kind op ∈ body →
      Unencodable templates name (.function body)
  | longOperand {body : List Instr} {text : Bytes} : .push text ∈ body ∨ .call text ∈ body →
      maxOperand < text.length → Unencodable templates name (.function body)
  | longName {e : Element} : maxOperand < name.length → Unencodable templates name e

/-- No other entry that cannot be encoded has a smaller name. -/
structure LeastUnencodable (templates : NameMap Bytes) (ns : Namespace) (name : Bytes)
    (e : Element) : Prop where
  entry : ns.get? name = some e
  unencodable : Unencodable templates name e
  least : ∀ other e', ns.get? other = some e' → Unencodable templates other e' →
    compare name other ≠ .gt

section Element

variable {templates : NameMap Bytes} {name : Bytes}

theorem encode_instr_eq_error_iff {i : Instr} (present : i ≠ .absent) {cause : EncodeError} :
    i.encode = .error cause ↔ InstrFault i cause := by
  constructor
  · intro h
    rcases encode_instr_eq_error h with ⟨text, rfl | rfl, long, rfl⟩ |
      ⟨kind, op, rfl, rfl⟩ | ⟨rfl, -⟩
    · exact .longPush long
    · exact .longCall long
    · exact .unknown
    · exact absurd rfl present
  · intro h
    cases h with
    | unknown => rfl
    | longPush long => simp [Instr.encode, Instr.operand, encodeOperand, long, Except.map]
    | longCall long => simp [Instr.encode, Instr.operand, encodeOperand, long, Except.map]

theorem exists_encode_iff {i : Instr} (present : i ≠ .absent) :
    (∃ b, i.encode = .ok b) ↔ ∀ c, ¬ InstrFault i c := by
  have faults (c : EncodeError) : InstrFault i c ↔ i.encode = .error c :=
    (encode_instr_eq_error_iff present).symm
  simp only [faults]
  cases i.encode with
  | ok b => simp
  | error e => simp

/-- A body fails at its first faulty instruction. -/
theorem encodeBody_eq_error_iff {body : List Instr} (present : .absent ∉ body)
    {f : Failure ImageError} :
    encodeBody body = .error f ↔ ∃ front i rest cause, body = front ++ i :: rest ∧
      (∀ j ∈ front, ∀ c, ¬ InstrFault j c) ∧ InstrFault i cause ∧
        f = ⟨[instrContext front.length], .instr cause⟩ := by
  have known {i : Instr} (mem : i ∈ body) : i ≠ .absent := by
    rintro rfl
    exact present mem
  have failed : encodeBody body = .error f ↔ body.zipIdx.mapM (fun y =>
      (y.1.encode.mapError fun e => ⟨[instrContext y.2], .instr e⟩ : Result Bytes)) = .error f := by
    rw [encodeBody, bind_eq_error_iff]
    simp
  have inFront (front : List Instr) : (∀ y ∈ front.zipIdx, ∃ b, y.1.encode = .ok b) ↔
      ∀ j ∈ front, ∃ b, j.encode = .ok b := by
    refine ⟨fun fine j hj => ?_, fun fine y hy => fine _ (List.fst_mem_of_mem_zipIdx hy)⟩
    rw [← List.zipIdx_map_fst 0 front] at hj
    obtain ⟨y, hy, rfl⟩ := List.mem_map.mp hj
    exact fine y hy
  rw [failed, mapM_eq_error_iff]
  constructor
  · rintro ⟨before, ⟨i, index⟩, after, split, fine, wrong⟩
    obtain ⟨front, others, rfl, rfl, tail⟩ := List.zipIdx_eq_append_iff.mp split
    obtain ⟨j, rest, rfl, same, -⟩ := List.zipIdx_eq_cons_iff.mp tail.symm
    obtain ⟨rfl, rfl⟩ := Prod.mk.inj same
    obtain ⟨cause, hcause, rfl⟩ := mapError_eq_error_iff.mp wrong
    simp only [mapError_eq_ok_iff] at fine
    have encodable := (inFront front).mp fine
    refine ⟨front, i, rest, cause, rfl, fun j hj => ?_,
      (encode_instr_eq_error_iff (known (by simp))).mp hcause, by simp⟩
    exact (exists_encode_iff (known (by simp [hj]))).mp (encodable j hj)
  · rintro ⟨front, i, rest, cause, rfl, fine, fault, rfl⟩
    refine ⟨front.zipIdx, (i, front.length), rest.zipIdx (front.length + 1), ?_, ?_, ?_⟩
    · rw [List.zipIdx_append, List.zipIdx_cons, Nat.zero_add]
    · simp only [mapError_eq_ok_iff]
      apply (inFront front).mpr
      exact fun j hj => (exists_encode_iff (known (by simp [hj]))).mpr (fine j hj)
    · exact mapError_eq_error_iff.mpr ⟨cause,
        (encode_instr_eq_error_iff (known (by simp))).mpr fault, rfl⟩

theorem encodeElement_eq_error_iff {e : Element}
    (present : ∀ body, e = .function body → .absent ∉ body) {f : Failure ImageError} :
    encodeElement templates name e = .error f ↔ ElementFault templates name e f := by
  constructor
  · intro h
    cases e with
    | function body =>
      obtain ⟨front, i, rest, cause, rfl, fine, fault, rfl⟩ :=
        (encodeBody_eq_error_iff (present body rfl)).mp h
      exact .instr fine fault
    | builtin =>
      cases found : templates.get? name with
      | none =>
        simp only [encodeElement, found] at h
        cases h
        exact .noTemplate found
      | some template => simp [encodeElement, found] at h
    | placeholder =>
      cases h
      exact .placeholder
    | «variable» =>
      cases h
      exact .variable
    | unset =>
      cases h
      exact .unset
  · intro h
    cases h with
    | placeholder => rfl
    | «variable» => rfl
    | unset => rfl
    | noTemplate none => simp only [encodeElement, none]
    | instr fine fault =>
      exact (encodeBody_eq_error_iff (present _ rfl)).mpr ⟨_, _, _, _, rfl, fine, fault, rfl⟩

theorem encodeFields_eq_error_iff {e : Element}
    (present : ∀ body, e = .function body → .absent ∉ body) {f : Failure ImageError} :
    encodeFields templates name e = .error f ↔ EntryFault templates name e f := by
  constructor
  · intro h
    rcases bind_eq_error_iff.mp h with element | ⟨code, hcode, more⟩
    · exact .element ((encodeElement_eq_error_iff present).mp element)
    · rcases bind_eq_error_iff.mp more with field | ⟨field, -, last⟩
      · obtain ⟨cause, hcause, rfl⟩ := mapError_eq_error_iff.mp field
        obtain ⟨long, rfl⟩ := encodeOperand_eq_error hcause
        refine .name (fun f fault => ?_) long
        rw [(encodeElement_eq_error_iff present).mpr fault] at hcode
        cases hcode
      · cases last
  · intro h
    cases h with
    | element fault =>
      exact bind_eq_error_iff.mpr (.inl ((encodeElement_eq_error_iff present).mpr fault))
    | name fine long =>
      have operand : encodeOperand name = .error (.operandTooLong name.length) := by
        simp [encodeOperand, long]
      cases hcode : encodeElement templates name e with
      | error f => exact absurd ((encodeElement_eq_error_iff present).mp hcode) (fine f)
      | ok code =>
        refine bind_eq_error_iff.mpr (.inr ⟨code, hcode, bind_eq_error_iff.mpr (.inl ?_)⟩)
        rw [operand]
        rfl

theorem EntryFault.unencodable {e : Element} {f : Failure ImageError}
    (h : EntryFault templates name e f) :
    Unencodable templates name e := by
  cases h with
  | name _ long => exact .longName long
  | element fault =>
    cases fault with
    | placeholder => exact .placeholder
    | «variable» => exact .variable
    | unset => exact .unset
    | noTemplate none => exact .noTemplate none
    | instr _ fault =>
      cases fault with
      | unknown => exact .unknown (List.mem_append_right _ List.mem_cons_self)
      | longPush long => exact .longOperand (.inl (List.mem_append_right _ List.mem_cons_self)) long
      | longCall long => exact .longOperand (.inr (List.mem_append_right _ List.mem_cons_self)) long

theorem Unencodable.not_encodable {e : Element} (h : Unencodable templates name e) :
    ¬ EncodableEntry templates (name, e) := by
  rintro ⟨short, fits⟩
  cases h with
  | placeholder => exact fits
  | «variable» => exact fits
  | unset => exact fits
  | noTemplate none => simp [NameMap.contains, none] at fits
  | unknown mem => exact fits _ mem
  | longOperand mem long =>
    rcases mem with mem | mem
    · exact Nat.not_le_of_gt long (fits _ mem)
    · exact Nat.not_le_of_gt long (fits _ mem)
  | longName long => exact Nat.not_le_of_gt long short

/-- A record fails just if its entry cannot be encoded. -/
theorem encodeRecord_eq_error_iff {e : Element}
    (present : ∀ body, e = .function body → .absent ∉ body) {f : Failure ImageError} :
    encodeRecord templates name e = .error f ↔
      ∃ fault, EntryFault templates name e fault ∧ f = fault.within (funcContext name) := by
  simp only [encodeRecord, bind_eq_error_iff, mapError_eq_error_iff,
    encodeFields_eq_error_iff present, eq_comm (a := f)]
  simp

theorem exists_encodeRecord_iff {e : Element}
    (present : ∀ body, e = .function body → .absent ∉ body) :
    (∃ b, encodeRecord templates name e = .ok b) ↔ ¬ Unencodable templates name e := by
  constructor
  · rintro ⟨b, h⟩ unencodable
    exact unencodable.not_encodable (encodableEntry_of_encodeRecord (e := (name, e)) h).1
  · intro h
    cases record : encodeRecord templates name e with
    | ok b => exact ⟨b, rfl⟩
    | error f =>
      obtain ⟨fault, found, -⟩ := (encodeRecord_eq_error_iff present).mp record
      exact absurd found.unencodable h

end Element

section Namespace

variable {templates : NameMap Bytes} {ns : Namespace}

/-- Records fail as the entry with the least name of those that cannot be encoded. -/
theorem encodeRecords_eq_error_iff
    (present : ∀ name body, ns.get? name = some (.function body) → .absent ∉ body)
    {f : Failure ImageError} :
    ns.entries.mapM (fun e => encodeRecord templates e.1 e.2) = .error f ↔
      ∃ name e fault, LeastUnencodable templates ns name e ∧ EntryFault templates name e fault ∧
        f = fault.within (funcContext name) := by
  have known {name : Bytes} {e : Element} (mem : (name, e) ∈ ns.entries) :
      ∀ body, e = .function body → .absent ∉ body := by
    rintro body rfl
    exact present name body (NameMap.get?_eq_some_iff.mpr mem)
  have ascending := ns.ascending
  rw [mapM_eq_error_iff]
  constructor
  · rintro ⟨front, ⟨name, e⟩, rest, split, fine, failed⟩
    have mem : (name, e) ∈ ns.entries := by simp [split]
    obtain ⟨fault, found, rfl⟩ := (encodeRecord_eq_error_iff (known mem)).mp failed
    refine ⟨name, e, fault, ⟨NameMap.get?_eq_some_iff.mpr mem, found.unencodable, ?_⟩, found, rfl⟩
    intro other e' entry unencodable
    have otherMem := NameMap.get?_eq_some_iff.mp entry
    rw [split, List.pairwise_append, List.pairwise_cons] at ascending
    have place : (other, e') ∈ front ∨ (other, e') = (name, e) ∨ (other, e') ∈ rest := by
      simpa [split] using otherMem
    rcases place with before | same | after
    · exact absurd unencodable ((exists_encodeRecord_iff (known otherMem)).mp (fine _ before))
    · cases same
      simp
    · simp [ascending.2.1.1 _ after]
  · rintro ⟨name, e, fault, ⟨entry, -, least⟩, found, rfl⟩
    have mem := NameMap.get?_eq_some_iff.mp entry
    obtain ⟨front, rest, split⟩ := List.append_of_mem mem
    refine ⟨front, (name, e), rest, split, ?_,
      (encodeRecord_eq_error_iff (known mem)).mpr ⟨fault, found, rfl⟩⟩
    rintro ⟨other, e'⟩ before
    have otherMem : (other, e') ∈ ns.entries := by simp [split, before]
    rw [split, List.pairwise_append] at ascending
    have smaller : compare other name = .lt := ascending.2.2 _ before _ List.mem_cons_self
    apply (exists_encodeRecord_iff (known otherMem)).mpr
    intro unencodable
    exact least other e' (NameMap.get?_eq_some_iff.mpr otherMem) unencodable
      (Std.OrientedCmp.gt_of_lt smaller)

theorem EntryFault.ne_tooBig {name : Bytes} {e : Element} {fault : Failure ImageError}
    (h : EntryFault templates name e fault) (size : Nat) : fault.cause ≠ .tooBig size := by
  cases h with
  | name => simp
  | element fault => cases fault <;> simp [Failure.bare]

theorem exists_encodeRecords_iff
    (present : ∀ name body, ns.get? name = some (.function body) → .absent ∉ body) :
    (∃ parts, ns.entries.mapM (fun e => encodeRecord templates e.1 e.2) = .ok parts) ↔
      ∀ name e, ns.get? name = some e → ¬ Unencodable templates name e := by
  constructor
  · rintro ⟨parts, records⟩ name e entry
    obtain ⟨b, -, record⟩ :=
      exists_of_forall₂ (mapM_eq_ok_iff.mp records) (NameMap.get?_eq_some_iff.mp entry)
    refine (exists_encodeRecord_iff ?_).mp ⟨b, record⟩
    rintro body rfl
    exact present name body entry
  · intro fine
    cases records : ns.entries.mapM fun e => encodeRecord templates e.1 e.2 with
    | ok parts => exact ⟨parts, rfl⟩
    | error f =>
      obtain ⟨name, e, -, found, -, -⟩ := (encodeRecords_eq_error_iff present).mp records
      exact absurd found.unencodable (fine name e found.entry)

end Namespace

/-- Apart from the limit on the size of a program, encoding fails just if some entry cannot be
encoded. The failure is that of the least name among such entries, and it does not depend on the
order in which the names come or on what is in the buffer. -/
theorem encode_fails_at_least_unencodable (templates : NameMap Bytes) (buffer : Bytes)
    {ns : Namespace}
    (present : ∀ name body, ns.get? name = some (.function body) → .absent ∉ body) :
    ((∃ failure, encode templates buffer ns = .error failure ∧
      ∀ size, failure.cause ≠ .tooBig size) ↔
      ∃ name e, ns.get? name = some e ∧ Unencodable templates name e) ∧
    (∀ failure, (∀ size, failure.cause ≠ .tooBig size) →
      (encode templates buffer ns = .error failure ↔
        ∃ name e fault, LeastUnencodable templates ns name e ∧ EntryFault templates name e fault ∧
          failure = fault.within (funcContext name))) ∧
    ((∀ name e, ns.get? name = some e → ¬ Unencodable templates name e) →
      (∃ image, encode templates buffer ns = .ok image) ∨ maxBody < bodySize templates ns ∧
        encode templates buffer ns = .error (.bare (.tooBig (bodySize templates ns)))) ∧
    ∀ order names, order.Perm ns.keys → NameMap.Drained order names →
      encodeInPlace templates buffer ns names = encode templates buffer ns := by
  have exact_failure : ∀ failure, (∀ size, failure.cause ≠ .tooBig size) →
      (encode templates buffer ns = .error failure ↔
        ∃ name e fault, LeastUnencodable templates ns name e ∧ EntryFault templates name e fault ∧
          failure = fault.within (funcContext name)) := by
    intro failure other
    rw [encode_eq_error_iff_records other, encodeRecords_eq_error_iff present]
  refine ⟨⟨?_, ?_⟩, exact_failure, ?_, fun _ _ filled drained =>
    encodeInPlace_of_drained filled drained⟩
  · rintro ⟨failure, failed, other⟩
    obtain ⟨name, e, -, found, -, -⟩ := (exact_failure failure other).mp failed
    exact ⟨name, e, found.entry, found.unencodable⟩
  · rintro ⟨name, e, entry, unencodable⟩
    cases records : ns.entries.mapM fun e => encodeRecord templates e.1 e.2 with
    | ok parts =>
      exact absurd unencodable ((exists_encodeRecords_iff present).mp ⟨parts, records⟩ name e entry)
    | error failure =>
      obtain ⟨least, e, fault, -, why, rfl⟩ := (encodeRecords_eq_error_iff present).mp records
      have other : ∀ size, (fault.within (funcContext least)).cause ≠ .tooBig size := why.ne_tooBig
      exact ⟨_, (encode_eq_error_iff_records other).mpr records, other⟩
  · intro fine
    obtain ⟨parts, records⟩ := (exists_encodeRecords_iff present).mpr fine
    exact encode_of_records buffer records

/-- A function whose second instruction is of an unknown kind, and after it, by name, a
placeholder. -/
def faultyNamespace : Namespace :=
  ⟨[(bytes "a", .function []), (bytes "f", .function [.write, .other (bytes "T") 1]),
    (bytes "g", .placeholder)], by decide +kernel⟩

theorem faultyNamespace_fails_at_instruction :
    (∀ name body, faultyNamespace.get? name = some (.function body) → .absent ∉ body) ∧
      LeastUnencodable Builtin.templates faultyNamespace (bytes "f")
        (.function [.write, .other (bytes "T") 1]) ∧ encode Builtin.templates [7] faultyNamespace =
        .error ⟨[bytes "func f", bytes "instr 1"], .instr (.unsupported (bytes "T"))⟩ := by
  have present : ∀ name body, faultyNamespace.get? name = some (.function body) →
      .absent ∉ body := by
    intro name body entry
    have mem := NameMap.get?_eq_some_iff.mp entry
    obtain ⟨-, rfl⟩ | ⟨-, rfl⟩ : (name = bytes "a" ∧ body = []) ∨
        (name = bytes "f" ∧ body = [.write, .other (bytes "T") 1]) := by
      simpa [faultyNamespace] using mem
    · simp
    · simp
  have fine : ¬ Unencodable Builtin.templates (bytes "a") (.function []) := by
    intro wrong
    cases wrong with
    | unknown mem => simp at mem
    | longOperand mem => simp at mem
    | longName long => exact absurd long (by decide +kernel)
  have least : LeastUnencodable Builtin.templates faultyNamespace (bytes "f")
      (.function [.write, .other (bytes "T") 1]) := by
    refine ⟨by decide +kernel, .unknown (List.mem_cons_of_mem _ List.mem_cons_self), ?_⟩
    intro other e entry unencodable
    have mem := NameMap.get?_eq_some_iff.mp entry
    simp only [faultyNamespace, List.mem_cons, Prod.mk.injEq, List.not_mem_nil, or_false] at mem
    rcases mem with ⟨rfl, rfl⟩ | ⟨rfl, -⟩ | ⟨rfl, -⟩
    · exact absurd unencodable fine
    · decide +kernel
    · decide +kernel
  have before : ∀ j ∈ [Instr.write], ∀ c, ¬ InstrFault j c := by
    intro j hj c wrong
    cases List.mem_singleton.mp hj
    cases wrong
  have fault : ElementFault Builtin.templates (bytes "f")
      (.function ([.write] ++ .other (bytes "T") 1 :: []))
      ⟨[instrContext 1], .instr (.unsupported (bytes "T"))⟩ :=
    .instr before .unknown
  obtain ⟨-, exact_failure, -⟩ := encode_fails_at_least_unencodable Builtin.templates [7] present
  exact ⟨present, least, (exact_failure _ (by simp)).mpr ⟨_, _, _, least, .element fault, rfl⟩⟩

end StackLang.Image
