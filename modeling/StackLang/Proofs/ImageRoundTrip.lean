import Mathlib.Data.List.Forall2
import StackLang.Code.Builtin
import StackLang.Image.Encode
import StackLang.Proofs.ImageFormat

namespace StackLang

section Traversal

variable {ε α β γ : Type}

theorem mapM_eq_ok_iff {f : α → Except ε β} {l : List α} {r : List β} :
    l.mapM f = .ok r ↔ List.Forall₂ (fun x y => f x = .ok y) l r := by
  induction l generalizing r with
  | nil => cases r <;> simp [pure, Except.pure]
  | cons x rest ih =>
    rw [List.mapM_cons]
    constructor
    · intro h
      obtain ⟨y, hy, more⟩ := bind_eq_ok_iff.mp h
      obtain ⟨ys, hys, last⟩ := bind_eq_ok_iff.mp more
      cases last
      exact .cons hy (ih.mp hys)
    · intro h
      cases h with
      | cons hy hys => exact bind_eq_ok_iff.mpr ⟨_, hy, bind_eq_ok_iff.mpr ⟨_, ih.mpr hys, rfl⟩⟩

theorem exists_of_forall₂ {R : α → β → Prop} {l : List α} {r : List β} (h : List.Forall₂ R l r)
    {x : α} (mem : x ∈ l) :
    ∃ y ∈ r, R x y := by
  induction h with
  | nil => simp at mem
  | @cons a b l r first _ ih =>
    rcases List.mem_cons.mp mem with rfl | mem
    · exact ⟨b, List.mem_cons_self, first⟩
    · obtain ⟨y, hy, related⟩ := ih mem
      exact ⟨y, List.mem_cons_of_mem _ hy, related⟩

theorem map_eq_of_forall₂ {R : α → β → Prop} {f : α → γ} {g : β → γ}
    (each : ∀ x y, R x y → g y = f x) {l : List α} {r : List β} (h : List.Forall₂ R l r) :
    r.map g = l.map f := by
  induction h with
  | nil => rfl
  | cons first _ ih => rw [List.map_cons, List.map_cons, each _ _ first, ih]

end Traversal

namespace Image

/-- An instruction that has an encoding. -/
def EncodableInstr : Instr → Prop
  | .write => True
  | .push text => text.length ≤ maxOperand
  | .call name => name.length ≤ maxOperand
  | .other _ _ => False
  | .absent => False

/-- An instruction without an operand, or with one that is valid UTF-8. -/
def ValidOperand : Instr → Prop
  | .push text => Utf8.valid text
  | .call name => Utf8.valid name
  | _ => True

theorem loadableInstr_iff {i : Instr} : LoadableInstr i ↔ EncodableInstr i ∧ ValidOperand i := by
  cases i <;> simp [LoadableInstr, EncodableInstr, ValidOperand, LoadableText]

theorem encodeOperand_eq_ok_iff {text b : Bytes} :
    encodeOperand text = .ok b ↔ text.length ≤ maxOperand ∧ b = textForm text := by
  by_cases long : text.length > maxOperand
  · simp [encodeOperand, long, Nat.not_le_of_gt long]
  · simp [encodeOperand, long, textForm, Nat.le_of_not_gt long, eq_comm]

theorem encode_instr_eq_ok_iff {i : Instr} {b : Bytes} :
    i.encode = .ok b ↔ EncodableInstr i ∧ b = instrForm i := by
  have operand {op : UInt8} {text : Bytes} :
      (encodeOperand text).map (op :: ·) = .ok b ↔
        text.length ≤ maxOperand ∧ b = op :: textForm text := by
    by_cases long : text.length > maxOperand
    · simp [encodeOperand, long, Except.map, Nat.not_le_of_gt long]
    · simp [encodeOperand, long, Except.map, textForm, Nat.le_of_not_gt long, eq_comm]
  cases i with
  | write =>
    simp [Instr.encode, Instr.operand, Except.map, EncodableInstr, instrForm, Instr.opcode, eq_comm]
  | push text => exact operand
  | call name => exact operand
  | other kind op => simp [Instr.encode, Instr.operand, Except.map, EncodableInstr]
  | absent => simp [Instr.encode, Instr.operand, Except.map, EncodableInstr]

theorem encodeParts_eq_ok_iff {body : List Instr} {start : Nat} {parts : List Bytes} :
    (body.zipIdx start).mapM (fun (i, index) =>
        (i.encode.mapError fun e => ⟨[instrContext index], .instr e⟩ : Result Bytes)) = .ok parts ↔
      (∀ i ∈ body, EncodableInstr i) ∧ parts = body.map instrForm := by
  induction body generalizing start parts with
  | nil => simp [pure, Except.pure, eq_comm]
  | cons i rest ih =>
    rw [List.zipIdx_cons, List.mapM_cons]
    constructor
    · intro h
      obtain ⟨first, hfirst, more⟩ := bind_eq_ok_iff.mp h
      obtain ⟨others, hothers, last⟩ := bind_eq_ok_iff.mp more
      obtain ⟨encodable, rfl⟩ := encode_instr_eq_ok_iff.mp (mapError_eq_ok_iff.mp hfirst)
      obtain ⟨restEncodable, rfl⟩ := ih.mp hothers
      cases last
      exact ⟨by simpa [encodable] using restEncodable, rfl⟩
    · rintro ⟨encodable, rfl⟩
      have hfirst : i.encode = .ok (instrForm i) :=
        encode_instr_eq_ok_iff.mpr ⟨encodable i (by simp), rfl⟩
      have restEncodable : ∀ j ∈ rest, EncodableInstr j := fun j hj => encodable j (by simp [hj])
      exact bind_eq_ok_iff.mpr ⟨_, mapError_eq_ok_iff.mpr hfirst,
        bind_eq_ok_iff.mpr ⟨_, ih.mpr ⟨restEncodable, rfl⟩, rfl⟩⟩

theorem encodeBody_eq_ok_iff {body : List Instr} {code : Bytes} :
    encodeBody body = .ok code ↔ (∀ i ∈ body, EncodableInstr i) ∧ code = codeForm body := by
  constructor
  · intro h
    obtain ⟨parts, hparts, last⟩ := bind_eq_ok_iff.mp h
    obtain ⟨encodable, rfl⟩ := encodeParts_eq_ok_iff.mp hparts
    cases last
    exact ⟨encodable, by simp [codeForm, List.flatMap_def]⟩
  · rintro ⟨encodable, rfl⟩
    exact bind_eq_ok_iff.mpr ⟨_,
      encodeParts_eq_ok_iff.mpr ⟨encodable, rfl⟩, by simp [codeForm, List.flatMap_def]⟩

theorem encodeRecord_eq_ok {templates : NameMap Bytes} {name b : Bytes} {element : Element}
    (h : encodeRecord templates name element = .ok b) :
    ∃ code, encodeElement templates name element = .ok code ∧ name.length ≤ maxOperand ∧
      b = textForm name ++ Word.encode 4 code.length ++ code := by
  obtain ⟨⟨field, code⟩, fields, last⟩ := bind_eq_ok_iff.mp h
  obtain ⟨found, hcode, more⟩ := bind_eq_ok_iff.mp (mapError_eq_ok_iff.mp fields)
  obtain ⟨stored, hfield, same⟩ := bind_eq_ok_iff.mp more
  obtain ⟨short, rfl⟩ := encodeOperand_eq_ok_iff.mp (mapError_eq_ok_iff.mp hfield)
  cases same
  cases last
  exact ⟨code, hcode, short, rfl⟩

/-- What loading needs of a namespace: names and operands are valid UTF-8, and the templates of its
built-in functions are code with such operands. -/
structure ValidTexts (templates : NameMap Bytes) (ns : Namespace) : Prop where
  names : ∀ name ∈ ns.keys, Utf8.valid name
  bodies : ∀ name body, ns.get? name = some (.function body) → ∀ i ∈ body, ValidOperand i
  templates : ∀ name template, ns.get? name = some .builtin → templates.get? name = some template →
    ∃ code, encodeBody code = .ok template ∧ ∀ i ∈ code, ValidOperand i

/-- The function `r` is what the entry of a namespace is stored as. -/
def Stores (templates : NameMap Bytes) (e : Bytes × Element) (r : Entry) : Prop :=
  r.name = e.1 ∧
    match e.2 with
    | .function body => r.code = body
    | .builtin => templates.get? e.1 = some (codeForm r.code)
    | _ => False

theorem stores_of_encodeRecord {templates : NameMap Bytes} {ns : Namespace}
    (valid : ValidTexts templates ns) {name b : Bytes} {element : Element}
    (entry : ns.get? name = some element) (h : encodeRecord templates name element = .ok b)
    (small : b.length ≤ maxBody) :
    ∃ r : Entry, r.form = b ∧ Stores templates (name, element) r := by
  obtain ⟨code, hcode, short, rfl⟩ := encodeRecord_eq_ok h
  have nameValid := valid.names name (NameMap.mem_keys_iff.mpr ⟨element, entry⟩)
  have fits : code.length < 256 ^ 4 := by
    simp only [List.length_append, maxBody] at small
    omega
  cases element with
  | function body =>
    obtain ⟨encodable, rfl⟩ := encodeBody_eq_ok_iff.mp hcode
    have loadable : ∀ i ∈ body, LoadableInstr i := fun i hi =>
      loadableInstr_iff.mpr ⟨encodable i hi, valid.bodies name body entry i hi⟩
    exact ⟨⟨name, body, ⟨short, nameValid⟩, loadable, fits⟩, rfl, rfl, rfl⟩
  | builtin =>
    cases found : templates.get? name with
    | none => simp [encodeElement, found] at hcode
    | some template =>
      obtain rfl : template = code := by simpa [encodeElement, found] using hcode
      obtain ⟨instrs, encoded, operands⟩ := valid.templates name template entry found
      obtain ⟨encodable, rfl⟩ := encodeBody_eq_ok_iff.mp encoded
      have loadable : ∀ i ∈ instrs, LoadableInstr i := fun i hi =>
        loadableInstr_iff.mpr ⟨encodable i hi, operands i hi⟩
      exact ⟨⟨name, instrs, ⟨short, nameValid⟩, loadable, fits⟩, rfl, rfl, found⟩
  | placeholder => cases hcode
  | «variable» => cases hcode
  | unset => cases hcode

/-- Records one behind another are as many things of some kind, if each record is one. -/
theorem exists_forms_of_encodeRecords {β : Type} {templates : NameMap Bytes} {form : β → Bytes}
    {R : Bytes × Element → β → Prop} {l : List (Bytes × Element)} {parts : List Bytes}
    (h : List.Forall₂ (fun e b => encodeRecord templates e.1 e.2 = .ok b) l parts)
    (each : ∀ e ∈ l, ∀ b, encodeRecord templates e.1 e.2 = .ok b → b.length ≤ maxBody →
      ∃ r, form r = b ∧ R e r) (small : parts.flatten.length ≤ maxBody) :
    ∃ stored, stored.flatMap form = parts.flatten ∧ List.Forall₂ R l stored := by
  induction h with
  | nil => exact ⟨[], rfl, .nil⟩
  | @cons e b l parts first _ ih =>
    rw [List.flatten_cons, List.length_append] at small
    obtain ⟨r, hr, related⟩ := each e List.mem_cons_self b first (by omega)
    obtain ⟨stored, others, all⟩ := ih (fun e he => each e (List.mem_cons_of_mem _ he)) (by omega)
    exact ⟨r :: stored, by rw [List.flatMap_cons, hr, others, List.flatten_cons], .cons related all⟩

theorem length_header (n : Int) : (header n).length = 8 := by
  have : magic.length = 4 := by decide
  simp [header, Word.encode32, this]

theorem encode_eq_ok_iff {templates : NameMap Bytes} {buffer image : Bytes} {ns : Namespace} :
    encode templates buffer ns = .ok image ↔
      ∃ parts, List.Forall₂ (fun e b => encodeRecord templates e.1 e.2 = .ok b) ns.entries parts ∧
        parts.flatten.length ≤ maxBody ∧ image = buffer ++ header parts.flatten.length ++
          parts.flatten := by
  constructor
  · intro h
    obtain ⟨parts, encoded, last⟩ := bind_eq_ok_iff.mp h
    dsimp only at last
    split at last
    next => cases last
    next fits =>
      exact ⟨parts, mapM_eq_ok_iff.mp encoded, Nat.le_of_not_gt fits, (Except.ok.inj last).symm⟩
  · rintro ⟨parts, encoded, fits, rfl⟩
    exact bind_eq_ok_iff.mpr ⟨parts, mapM_eq_ok_iff.mpr encoded, if_neg (Nat.not_lt_of_ge fits)⟩

/-- An encoded namespace is the image of the functions that its entries are stored as. -/
theorem isImage_of_encode {templates : NameMap Bytes} {ns : Namespace} {image : Bytes}
    (h : encode templates [] ns = .ok image) (valid : ValidTexts templates ns) :
    ∃ field stored, IsImage image field stored ∧ Word.decode field + 8 = image.length ∧
      List.Forall₂ (Stores templates) ns.entries stored := by
  obtain ⟨parts, encoded, small, rfl⟩ := encode_eq_ok_iff.mp h
  have fits : parts.flatten.length < 256 ^ 4 := by
    simp only [maxBody] at small
    omega
  have each : ∀ e ∈ ns.entries, ∀ b, encodeRecord templates e.1 e.2 = .ok b → b.length ≤ maxBody →
      ∃ r : Entry, r.form = b ∧ Stores templates e r := fun _ he _ record =>
    stores_of_encodeRecord valid (NameMap.get?_eq_some_iff.mpr he) record
  obtain ⟨stored, form, hstored⟩ := exists_forms_of_encodeRecords encoded each small
  refine ⟨Word.encode 4 parts.flatten.length, stored, ⟨Word.length_encode _ _, ?_⟩, ?_, hstored⟩
  · rw [List.nil_append, header, Word.encode32_natCast fits, entriesForm, form]
  · rw [Word.decode_encode fits, List.nil_append, List.length_append, length_header]
    omega

theorem names_of_stores {templates : NameMap Bytes} {l : List (Bytes × Element)}
    {stored : List Entry} (h : List.Forall₂ (Stores templates) l stored) :
    stored.map Entry.name = l.map (·.1) :=
  map_eq_of_forall₂ (fun _ _ stores => stores.1) h

theorem get?_of_stores {templates : NameMap Bytes} {ns : Namespace} {stored : List Entry}
    (h : List.Forall₂ (Stores templates) ns.entries stored) {name : Bytes} {element : Element}
    (entry : ns.get? name = some element) :
    ∃ r, Stores templates (name, element) r ∧ (entriesTable stored).get? name = some r.routine := by
  have distinct : (stored.map Entry.name).Nodup := by
    rw [names_of_stores h]
    exact NameMap.nodup_of_ascending Prod.fst ns.ascending
  obtain ⟨r, mem, stores⟩ := exists_of_forall₂ h (NameMap.get?_eq_some_iff.mp entry)
  have found := get?_entriesTable_of_mem distinct mem
  rw [stores.1] at found
  exact ⟨r, stores, found⟩

theorem keys_of_stores {templates : NameMap Bytes} {ns : Namespace} {stored : List Entry}
    (h : List.Forall₂ (Stores templates) ns.entries stored) :
    (entriesTable stored).keys = ns.keys := by
  apply NameMap.keys_eq_of_mem_iff
  intro name
  rw [mem_keys_entriesTable, NameMap.keys, ← names_of_stores h, List.mem_map]

/-- Loading an encoded namespace gives for each name the function it is stored as; without a main
function it fails. -/
theorem load_of_encode {templates : NameMap Bytes} {ns : Namespace} {image : Bytes}
    (h : encode templates [] ns = .ok image) (valid : ValidTexts templates ns) :
    ∃ program, program.bodyLen + 8 = image.length ∧ program.routines.keys = ns.keys ∧
      (∀ name element, ns.get? name = some element →
        ∃ r, Stores templates (name, element) r ∧ program.routines.get? name = some r.routine) ∧
      Program.load image = if ns.contains mainName then .ok program
      else .error (.bare .noMain) := by
  obtain ⟨field, stored, ⟨size, rfl⟩, length, hstored⟩ := isImage_of_encode h valid
  refine ⟨⟨Word.decode field, entriesTable stored⟩, length, keys_of_stores hstored,
    fun name element => get?_of_stores hstored, ?_⟩
  have main : (∃ e ∈ stored, e.name = mainName) ↔ ns.contains mainName := by
    rw [← mem_keys_entriesTable, keys_of_stores hstored, NameMap.mem_keys_iff, NameMap.contains_iff]
  rw [load_entriesForm size]
  simp only [main]

theorem codeForm_injective {a b : List Instr} (ha : ∀ i ∈ a, LoadableInstr i)
    (hb : ∀ i ∈ b, LoadableInstr i) (h : codeForm a = codeForm b) : a = b := by
  have first := decodeAfter_codeForm ha [] 0
  have second := decodeAfter_codeForm hb [] 0
  rw [h, second] at first
  have same : located 0 b = located 0 a := by simpa using first
  rw [← located_instrs 0 a, ← located_instrs 0 b, same]

/-- Loading undoes encoding. -/
theorem load_encode_namespace {templates : NameMap Bytes} {ns : Namespace} {image : Bytes}
    (encoded : encode templates [] ns = .ok image) (valid : ValidTexts templates ns) :
    (ns.contains mainName → ∃ program, Program.load image = .ok program ∧
      program.bodyLen + 8 = image.length ∧ program.routines.keys = ns.keys ∧
      (∀ name body, ns.get? name = some (.function body) →
        ∃ routine code, program.routines.get? name = some routine ∧ encodeBody body = .ok code ∧
          routine.code.map (·.2) = body ∧ routine.size = code.length) ∧
      ∀ name, ns.get? name = some .builtin →
        ∃ routine template, program.routines.get? name = some routine ∧
          templates.get? name = some template ∧ routine.size = template.length ∧
          ∀ code, encodeBody code = .ok template → (∀ i ∈ code, ValidOperand i) →
            routine.code.map (·.2) = code) ∧
    (¬ ns.contains mainName → Program.load image = .error (.bare .noMain)) := by
  obtain ⟨program, length, keys, routines, load⟩ := load_of_encode encoded valid
  refine ⟨fun main => ⟨program, by rw [load, if_pos main], length, keys, ?_, ?_⟩,
    fun noMain => by rw [load, if_neg noMain]⟩
  · intro name body entry
    obtain ⟨r, ⟨-, rfl⟩, found⟩ := routines name _ entry
    have encodable : ∀ i ∈ r.code, EncodableInstr i :=
      fun i hi => (loadableInstr_iff.mp (r.code_loadable i hi)).1
    exact ⟨r.routine, codeForm r.code, found, encodeBody_eq_ok_iff.mpr ⟨encodable, rfl⟩,
      r.routine_instrs, rfl⟩
  · intro name entry
    obtain ⟨r, ⟨-, template⟩, found⟩ := routines name _ entry
    refine ⟨r.routine, codeForm r.code, found, template, rfl, ?_⟩
    intro code hcode operands
    obtain ⟨encodable, form⟩ := encodeBody_eq_ok_iff.mp hcode
    have loadable : ∀ i ∈ code, LoadableInstr i :=
      fun i hi => loadableInstr_iff.mpr ⟨encodable i hi, operands i hi⟩
    rw [r.routine_instrs]
    exact codeForm_injective r.code_loadable loadable form

/-- A main function that calls a built-in one. -/
def greeting : Namespace :=
  ⟨[(mainName, .function [.push (bytes "hi"), .call (bytes "println")]),
    (bytes "println", .builtin)], by decide +kernel⟩

theorem load_encode_greeting :
    ∃ image program, encode Builtin.templates [] greeting = .ok image ∧
      ValidTexts Builtin.templates greeting ∧
      Program.load image = .ok program ∧ program.bodyLen + 8 = image.length ∧
      program.routines.keys = [mainName, bytes "println"] ∧
      ∃ routine, program.routines.get? mainName = some routine ∧
        routine.code.map (·.2) = [.push (bytes "hi"), .call (bytes "println")] := by
  obtain ⟨image, encoded⟩ : ∃ image, encode Builtin.templates [] greeting = .ok image :=
    ⟨[78, 69, 78, 67, 0, 0, 0, 44, 0, 4, 109, 97, 105, 110, 0, 0, 0, 15, 225, 0, 2, 104, 105, 161,
      0, 7, 112, 114, 105,
      110, 116, 108, 110, 0, 7, 112, 114, 105, 110, 116, 108, 110, 0, 0, 0, 6, 18, 225, 0, 1, 10,
      18], by decide +kernel⟩
  have valid : ValidTexts Builtin.templates greeting := by
    refine ⟨by decide +kernel, ?_, ?_⟩
    · intro name body entry i hi
      have mem := NameMap.get?_eq_some_iff.mp entry
      obtain ⟨-, rfl⟩ : name = mainName ∧ body = [.push (bytes "hi"), .call (bytes "println")] := by
        simpa [greeting] using mem
      rcases List.mem_pair.mp hi with rfl | rfl
      · exact (by decide +kernel : Utf8.valid (bytes "hi"))
      · exact (by decide +kernel : Utf8.valid (bytes "println"))
    · intro name template entry found
      have mem := NameMap.get?_eq_some_iff.mp entry
      obtain rfl : name = bytes "println" := by simpa [greeting] using mem
      have known : Builtin.templates.get? (bytes "println") = some [18, 225, 0, 1, 10, 18] := by
        decide +kernel
      obtain rfl : [18, 225, 0, 1, 10, 18] = template := Option.some.inj (known.symm.trans found)
      refine ⟨[.write, .push [Ascii.newline], .write], by decide +kernel, ?_⟩
      simpa [ValidOperand] using (by decide +kernel : Utf8.valid [Ascii.newline])
  obtain ⟨program, load, length, keys, functions, -⟩ :=
    (load_encode_namespace encoded valid).1 (by decide +kernel)
  obtain ⟨routine, code, found, -, body, -⟩ := functions mainName _ rfl
  exact ⟨image, program, encoded, valid, load, length, keys, routine, found, body⟩

end Image

end StackLang
