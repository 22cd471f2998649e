import StackLang.Proofs.EncodingInPlace
import StackLang.Proofs.EncodingOutcome
import StackLang.Proofs.RecordOrder

namespace StackLang.Image

/-- The bytes of a length field of the given width, read back as the length of the text. -/
def Announces (width : Nat) (field text : Bytes) : Prop :=
  field.length = width ∧ Word.decode field = text.length

theorem announces_encode {width : Nat} {text : Bytes} (fits : text.length < 256 ^ width) :
    Announces width (Word.encode width text.length) text :=
  ⟨Word.length_encode width _, Word.decode_encode fits⟩

theorem announces_encode_operand {text : Bytes} (short : text.length ≤ maxOperand) :
    Announces 2 (Word.encode 2 text.length) text := by
  apply announces_encode
  simp only [maxOperand] at short
  omega

/-- How an instruction is stored: the operation, and for an operand its length and the operand. -/
inductive InstrCode : Instr → Bytes → Prop
  | write : InstrCode .write [Opcode.write]
  | push {field text : Bytes} :
    Announces 2 field text → InstrCode (.push text) (Opcode.push :: (field ++ text))
  | call {field name : Bytes} :
    Announces 2 field name → InstrCode (.call name) (Opcode.call :: (field ++ name))

/-- What the entry of a namespace is to have as code: its instructions one behind another, or its
template. -/
def CodeOf (templates : NameMap Bytes) (name code : Bytes) : Element → Prop
  | .function body => ∃ parts, List.Forall₂ InstrCode body parts ∧ code = parts.flatten
  | .builtin => templates.get? name = some code
  | _ => False

theorem instrCode_instrForm {i : Instr} (h : EncodableInstr i) : InstrCode i (instrForm i) := by
  cases i with
  | write => exact .write
  | push text => exact .push (announces_encode_operand h)
  | call name => exact .call (announces_encode_operand h)
  | other kind op => exact h.elim
  | absent => exact h.elim

theorem codeOf_of_encodeElement {templates : NameMap Bytes} {name code : Bytes} {element : Element}
    (h : encodeElement templates name element = .ok code) : CodeOf templates name code element := by
  cases element with
  | function body =>
    obtain ⟨encodable, rfl⟩ := encodeBody_eq_ok_iff.mp h
    refine ⟨body.map instrForm, ?_, by rw [codeForm, List.flatMap_def]⟩
    apply List.forall₂_map_right_iff.mpr
    exact List.forall₂_same.mpr fun i hi => instrCode_instrForm (encodable i hi)
  | builtin =>
    cases found : templates.get? name with
    | none => simp [encodeElement, found] at h
    | some template =>
      obtain rfl : template = code := by simpa [encodeElement, found] using h
      exact found
  | placeholder => cases h
  | «variable» => cases h
  | unset => cases h

theorem RawRecord.exists_fields (r : RawRecord) :
    ∃ nameSize codeSize, r.form = nameSize ++ r.name ++ codeSize ++ r.code ∧
      Announces 2 nameSize r.name ∧ Announces 4 codeSize r.code := by
  refine ⟨Word.encode 2 r.name.length, Word.encode 4 r.code.length, ?_, ?_, ?_⟩
  · rw [form, textForm]
  · exact announces_encode_operand r.name_short
  · exact announces_encode r.code_fits

/-- The record is what the entry of a namespace is encoded as. -/
def RawRecord.Encodes (r : RawRecord) (templates : NameMap Bytes) (e : Bytes × Element) : Prop :=
  r.name = e.1 ∧ CodeOf templates e.1 r.code e.2

theorem exists_raw_of_encodeRecord {templates : NameMap Bytes} {e : Bytes × Element} {b : Bytes}
    (h : encodeRecord templates e.1 e.2 = .ok b) (small : b.length ≤ maxBody) :
    ∃ r : RawRecord, r.form = b ∧ r.Encodes templates e := by
  obtain ⟨code, hcode, short, rfl⟩ := encodeRecord_eq_ok h
  have fits : code.length < 256 ^ 4 := by
    simp only [List.length_append, maxBody] at small
    omega
  exact ⟨⟨e.1, code, short, fits⟩, rfl, rfl, codeOf_of_encodeElement hcode⟩

/-- What encoding appends: the fixed first bytes, the length of the body, and a record for each
name, in strictly ascending order. All length fields hold the lengths they stand for. What was in
the buffer stays, and what is appended is the same behind any buffer, and in whatever order the
names come. -/
theorem encode_layout {templates : NameMap Bytes} {buffer image : Bytes} {ns : Namespace}
    (h : encode templates buffer ns = .ok image) :
    ∃ (field : Bytes) (records : List RawRecord),
      image = buffer ++ (bytes "NENC" ++ field ++ records.flatMap RawRecord.form) ∧
      Announces 4 field (records.flatMap RawRecord.form) ∧
      records.map RawRecord.name = ns.keys ∧ ns.keys.Pairwise (fun a b => compare a b = .lt) ∧
      (∀ r ∈ records,
        (∃ element, ns.get? r.name = some element ∧ CodeOf templates r.name r.code element) ∧
        ∃ nameSize codeSize, r.form = nameSize ++ r.name ++ codeSize ++ r.code ∧
          Announces 2 nameSize r.name ∧ Announces 4 codeSize r.code) ∧
      (∀ other, encode templates other ns =
        .ok (other ++ (bytes "NENC" ++ field ++ records.flatMap RawRecord.form))) ∧
      ∀ order names, order.Perm ns.keys → NameMap.Drained order names →
        encodeInPlace templates buffer ns names = .ok image := by
  obtain ⟨parts, encoded, small, rfl⟩ := encode_eq_ok_iff.mp h
  have fits : parts.flatten.length < 256 ^ 4 := by
    simp only [maxBody] at small
    omega
  have each : ∀ e ∈ ns.entries, ∀ b, encodeRecord templates e.1 e.2 = .ok b →
      b.length ≤ maxBody → ∃ r : RawRecord, r.form = b ∧ r.Encodes templates e :=
    fun _ _ _ => exists_raw_of_encodeRecord
  obtain ⟨records, form, encodes⟩ := exists_forms_of_encodeRecords encoded each small
  have appended (other : Bytes) : other ++ header parts.flatten.length ++ parts.flatten =
      other ++ (bytes "NENC" ++ Word.encode 4 parts.flatten.length ++
        records.flatMap RawRecord.form) := by
    rw [header, Word.encode32_natCast fits, form, List.append_assoc]
    rfl
  refine ⟨Word.encode 4 parts.flatten.length, records, appended buffer, ?_, ?_,
    ns.keys_ascending, ?_, ?_, ?_⟩
  · rw [form]
    exact announces_encode fits
  · exact map_eq_of_forall₂ (fun _ _ encodes => encodes.1) encodes
  · intro r mem
    obtain ⟨⟨name, element⟩, entry, rfl, code⟩ := exists_of_forall₂ encodes.flip mem
    exact ⟨⟨element, NameMap.get?_eq_some_iff.mpr entry, code⟩, r.exists_fields⟩
  · intro other
    rw [← appended]
    exact encode_eq_ok_iff.mpr ⟨parts, encoded, small, rfl⟩
  · intro order names filled drained
    rw [encodeInPlace_of_drained filled drained, h]

/-- The first record holds a literal and a call, each behind its length in two bytes, and the second
the template of a built-in function. -/
theorem encode_layout_greeting :
    ∃ (image field : Bytes) (main println : RawRecord),
      encode Builtin.templates [7] greeting = .ok image ∧
      image = 7 :: (bytes "NENC" ++ field ++ (main.form ++ println.form)) ∧
      Announces 4 field (main.form ++ println.form) ∧
      (∃ nameSize codeSize literalSize calleeSize,
        main.form = nameSize ++ mainName ++ codeSize ++ main.code ∧
        Announces 2 nameSize mainName ∧ Announces 4 codeSize main.code ∧
        main.code = Opcode.push :: (literalSize ++ bytes "hi") ++
          Opcode.call :: (calleeSize ++ bytes "println") ∧
        Announces 2 literalSize (bytes "hi") ∧ Announces 2 calleeSize (bytes "println")) ∧
      Builtin.templates.get? (bytes "println") = some println.code ∧
      [bytes "println", mainName].Perm greeting.keys ∧
      NameMap.Drained [bytes "println", mainName] [mainName, bytes "println"] ∧
      encodeInPlace Builtin.templates [7] greeting [mainName, bytes "println"] = .ok image := by
  have encodes : (encode Builtin.templates [7] greeting).toOption.isSome := by decide +kernel
  have mainFound : greeting.get? mainName =
      some (.function [.push (bytes "hi"), .call (bytes "println")]) := by
    decide +kernel
  have printlnFound : greeting.get? (bytes "println") = some .builtin := by decide +kernel
  have filled : [bytes "println", mainName].Perm greeting.keys := .swap ..
  have drained : NameMap.Drained [bytes "println", mainName] [mainName, bytes "println"] :=
    (NameMap.drained_iff filled).mpr rfl
  cases encoded : encode Builtin.templates [7] greeting with
  | error e => simp [encoded, Except.toOption] at encodes
  | ok image =>
    obtain ⟨field, records, layout, size, names, -, each, -, inPlace⟩ := encode_layout encoded
    obtain ⟨main, others, rfl, mainNamed, rest⟩ := List.map_eq_cons_iff.mp names
    obtain ⟨println, others, rfl, printlnNamed, rest⟩ := List.map_eq_cons_iff.mp rest
    obtain rfl := List.map_eq_nil_iff.mp rest
    obtain ⟨⟨mainElement, mainEntry, mainCode⟩, mainFields⟩ := each main (by simp)
    obtain ⟨⟨printlnElement, printlnEntry, printlnCode⟩, -⟩ := each println (by simp)
    rw [mainNamed] at mainEntry mainCode mainFields
    rw [printlnNamed] at printlnEntry printlnCode
    cases mainFound.symm.trans mainEntry
    cases printlnFound.symm.trans printlnEntry
    obtain ⟨nameSize, codeSize, form, nameSized, codeSized⟩ := mainFields
    obtain ⟨parts, stored, whole⟩ := mainCode
    cases stored with
    | cons literal stored =>
      cases stored with
      | cons callee stored =>
        cases stored
        cases literal with
        | push literalSized =>
          cases callee with
          | call calleeSized =>
            simp only [List.flatMap_cons, List.flatMap_nil, List.append_nil] at layout size
            refine ⟨image, field, main, println, rfl, layout, size, ?_, printlnCode, filled,
              drained, inPlace _ _ filled drained⟩
            exact ⟨nameSize, codeSize, _, _, form, nameSized, codeSized, by simpa using whole,
              literalSized, calleeSized⟩

end StackLang.Image
