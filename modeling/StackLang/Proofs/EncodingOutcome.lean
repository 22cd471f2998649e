import StackLang.Proofs.ImageRoundTrip

namespace StackLang

section Traversal

variable {ε α β : Type}

/-- A traversal fails as the first of its steps that fails. -/
theorem mapM_eq_error_iff {f : α → Except ε β} {l : List α} {e : ε} :
    l.mapM f = .error e ↔
      ∃ front x rest, l = front ++ x :: rest ∧ (∀ y ∈ front, ∃ z, f y = .ok z) ∧
        f x = .error e := by
  induction l with
  | nil => simp [pure, Except.pure]
  | cons a rest ih =>
    rw [List.mapM_cons]
    constructor
    · intro h
      rcases bind_eq_error_iff.mp h with first | ⟨y, hy, more⟩
      · exact ⟨[], a, rest, rfl, by simp, first⟩
      · rcases bind_eq_error_iff.mp more with others | ⟨ys, -, last⟩
        · obtain ⟨front, x, tail, rfl, before, failed⟩ := ih.mp others
          exact ⟨a :: front, x, tail, rfl, List.forall_mem_cons.mpr ⟨⟨y, hy⟩, before⟩, failed⟩
        · cases last
    · rintro ⟨front, x, tail, split, before, failed⟩
      apply bind_eq_error_iff.mpr
      cases front with
      | nil =>
        obtain ⟨rfl, rfl⟩ := List.cons.inj split
        exact .inl failed
      | cons b front =>
        obtain ⟨rfl, rfl⟩ := List.cons.inj split
        obtain ⟨⟨y, hy⟩, before⟩ := List.forall_mem_cons.mp before
        exact .inr ⟨y, hy, bind_eq_error_iff.mpr
          (.inl (ih.mpr ⟨front, x, tail, rfl, before, failed⟩))⟩

end Traversal

/-- How many bytes an instruction takes in an image. -/
def Instr.size : Instr → Nat
  | write => 1
  | push text => 3 + text.length
  | call name => 3 + name.length
  | other _ _ => 0
  | absent => 0

namespace Image

/-- How many bytes a function takes in an image: its name after two bytes for its length, and its
code after four. -/
def recordSize (name : Bytes) (code : List Instr) : Nat :=
  2 + name.length + 4 + (code.map Instr.size).sum

theorem length_codeForm {code : List Instr} (h : ∀ i ∈ code, EncodableInstr i) :
    (codeForm code).length = (code.map Instr.size).sum := by
  have each : ∀ i ∈ code, (instrForm i).length = i.size := by
    intro i hi
    have encodable := h i hi
    cases i with
    | write => rfl
    | push text => simp [instrForm, Instr.size]; omega
    | call name => simp [instrForm, Instr.size]; omega
    | other kind op => exact encodable.elim
    | absent => exact encodable.elim
  rw [codeForm, List.length_flatMap, List.map_congr_left each]

/-- An entry of a namespace that can be stored: its name is short enough, and it is a built-in
function with a template or a function whose instructions can be encoded. -/
def EncodableEntry (templates : NameMap Bytes) (e : Bytes × Element) : Prop :=
  e.1.length ≤ maxOperand ∧
    match e.2 with
    | .function body => ∀ i ∈ body, EncodableInstr i
    | .builtin => templates.contains e.1
    | _ => False

/-- How many bytes an entry of a namespace takes in an image. -/
def entrySize (templates : NameMap Bytes) (e : Bytes × Element) : Nat :=
  match e.2 with
  | .function body => recordSize e.1 body
  | .builtin => 2 + e.1.length + 4 + ((templates.get? e.1).getD []).length
  | _ => 0

theorem encodableEntry_of_encodeRecord {templates : NameMap Bytes} {e : Bytes × Element} {b : Bytes}
    (h : encodeRecord templates e.1 e.2 = .ok b) :
    EncodableEntry templates e ∧ b.length = entrySize templates e := by
  obtain ⟨name, element⟩ := e
  obtain ⟨code, hcode, short, rfl⟩ := encodeRecord_eq_ok h
  have length : (textForm name ++ Word.encode 4 code.length ++ code).length =
      2 + name.length + 4 + code.length := by
    simp [Word.length_encode, Nat.add_assoc]
  rw [length]
  cases element with
  | function body =>
    obtain ⟨encodable, rfl⟩ := encodeBody_eq_ok_iff.mp hcode
    exact ⟨⟨short, encodable⟩, by rw [length_codeForm encodable]; rfl⟩
  | builtin =>
    cases found : templates.get? name with
    | none => simp [encodeElement, found] at hcode
    | some template =>
      obtain rfl : template = code := by simpa [encodeElement, found] using hcode
      exact ⟨⟨short, NameMap.contains_iff.mpr ⟨template, found⟩⟩, by simp [entrySize, found]⟩
  | placeholder => cases hcode
  | «variable» => cases hcode
  | unset => cases hcode

theorem encodeOperand_eq_error {text : Bytes} {e : EncodeError}
    (h : encodeOperand text = .error e) :
    maxOperand < text.length ∧ e = .operandTooLong text.length := by
  by_cases long : text.length > maxOperand
  · simp only [encodeOperand, long, if_true] at h
    cases h
    exact ⟨long, rfl⟩
  · simp [encodeOperand, long] at h

/-- Why an instruction has no encoding. -/
theorem encode_instr_eq_error {i : Instr} {e : EncodeError} (h : i.encode = .error e) :
    (∃ text, (i = .push text ∨ i = .call text) ∧ maxOperand < text.length ∧
      e = .operandTooLong text.length) ∨
      (∃ kind op, i = .other kind op ∧ e = .unsupported kind) ∨
        i = .absent ∧ e = .unsupported (bytes "<nil>") := by
  have failed : i.operand = .error e := by
    cases operand : i.operand <;> simp_all [Instr.encode, Except.map]
  cases i with
  | write => cases failed
  | push text => exact .inl ⟨text, .inl rfl, encodeOperand_eq_error failed⟩
  | call name => exact .inl ⟨name, .inr rfl, encodeOperand_eq_error failed⟩
  | other kind op =>
    cases failed
    exact .inr (.inl ⟨kind, op, rfl, rfl⟩)
  | absent =>
    cases failed
    exact .inr (.inr ⟨rfl, rfl⟩)

theorem encodeBody_eq_error {body : List Instr} {e : Failure ImageError}
    (h : encodeBody body = .error e) :
    ∃ i ∈ body, ∃ cause, i.encode = .error cause ∧ e.cause = .instr cause := by
  rcases bind_eq_error_iff.mp h with failed | ⟨parts, -, last⟩
  · obtain ⟨front, ⟨i, index⟩, rest, split, -, failed⟩ := mapM_eq_error_iff.mp failed
    obtain ⟨cause, hcause, rfl⟩ := mapError_eq_error_iff.mp failed
    have hi : (i, index) ∈ body.zipIdx := by simp [split]
    exact ⟨i, (List.mem_zipIdx' hi).2 ▸ List.getElem_mem _, cause, hcause, rfl⟩
  · cases last

/-- A record fails for its element, or else for its name. -/
theorem encodeRecord_eq_error {templates : NameMap Bytes} {name : Bytes} {element : Element}
    {e : Failure ImageError} (h : encodeRecord templates name element = .error e) :
    (∃ inner, encodeElement templates name element = .error inner ∧ e.cause = inner.cause) ∨
      maxOperand < name.length ∧ e.cause = .instr (.operandTooLong name.length) := by
  rcases bind_eq_error_iff.mp h with failed | ⟨fields, -, last⟩
  · obtain ⟨inner, fields, rfl⟩ := mapError_eq_error_iff.mp failed
    rcases bind_eq_error_iff.mp fields with element | ⟨code, -, more⟩
    · exact .inl ⟨inner, element, rfl⟩
    · rcases bind_eq_error_iff.mp more with field | ⟨field, -, last⟩
      · obtain ⟨cause, hcause, rfl⟩ := mapError_eq_error_iff.mp field
        obtain ⟨long, rfl⟩ := encodeOperand_eq_error hcause
        exact .inr ⟨long, rfl⟩
      · cases last
  · cases last

/-- How many bytes the entries of a namespace take in an image. -/
def bodySize (templates : NameMap Bytes) (ns : Namespace) : Nat :=
  (ns.entries.map (entrySize templates)).sum

theorem length_of_encodeRecords {templates : NameMap Bytes} {l : List (Bytes × Element)}
    {records : List Bytes}
    (h : List.Forall₂ (fun e b => encodeRecord templates e.1 e.2 = .ok b) l records) :
    (∀ e ∈ l, EncodableEntry templates e) ∧
      records.flatten.length = (l.map (entrySize templates)).sum := by
  induction h with
  | nil => simp
  | @cons e b l records first _ ih =>
    obtain ⟨encodable, length⟩ := encodableEntry_of_encodeRecord first
    obtain ⟨others, total⟩ := ih
    refine ⟨by simpa [encodable] using others, ?_⟩
    rw [List.flatten_cons, List.length_append, length, total, List.map_cons, List.sum_cons]

theorem encodable_of_encode {templates : NameMap Bytes} {buffer image : Bytes} {ns : Namespace}
    (h : encode templates buffer ns = .ok image) :
    (∀ e ∈ ns.entries, EncodableEntry templates e) ∧ bodySize templates ns ≤ maxBody ∧
      image.length = buffer.length + 8 + bodySize templates ns := by
  obtain ⟨parts, encoded, fits, rfl⟩ := encode_eq_ok_iff.mp h
  obtain ⟨encodable, length⟩ := length_of_encodeRecords encoded
  rw [length] at fits
  refine ⟨encodable, fits, ?_⟩
  rw [bodySize, ← length, List.length_append, List.length_append, length_header]

/-- Once all entries are encoded, only their size can fail. -/
theorem encode_of_records {templates : NameMap Bytes} (buffer : Bytes) {ns : Namespace}
    {parts : List Bytes}
    (records : ns.entries.mapM (fun e => encodeRecord templates e.1 e.2) = .ok parts) :
    (∃ image, encode templates buffer ns = .ok image) ∨ maxBody < bodySize templates ns ∧
      encode templates buffer ns = .error (.bare (.tooBig (bodySize templates ns))) := by
  obtain ⟨-, length⟩ := length_of_encodeRecords (mapM_eq_ok_iff.mp records)
  by_cases big : parts.flatten.length > maxBody
  · have failed : encode templates buffer ns = .error (.bare (.tooBig parts.flatten.length)) :=
      bind_eq_error_iff.mpr (.inr ⟨parts, records, if_pos big⟩)
    rw [length] at big failed
    exact .inr ⟨big, failed⟩
  · exact .inl ⟨_, encode_eq_ok_iff.mpr ⟨parts, mapM_eq_ok_iff.mp records,
      Nat.le_of_not_gt big, rfl⟩⟩

theorem encode_eq_error_iff_records {templates : NameMap Bytes} {buffer : Bytes} {ns : Namespace}
    {e : Failure ImageError} (other : ∀ size, e.cause ≠ .tooBig size) :
    encode templates buffer ns = .error e ↔
      ns.entries.mapM (fun e => encodeRecord templates e.1 e.2) = .error e := by
  constructor
  · intro h
    cases records : ns.entries.mapM fun e => encodeRecord templates e.1 e.2 with
    | error e' =>
      have failed : encode templates buffer ns = .error e' := bind_eq_error_iff.mpr (.inl records)
      rw [h] at failed
      cases failed
      rfl
    | ok parts =>
      rcases encode_of_records buffer records with ⟨image, ok⟩ | ⟨-, failed⟩
      · rw [ok] at h
        cases h
      · rw [failed] at h
        cases h
        exact absurd rfl (other _)
  · exact fun records => bind_eq_error_iff.mpr (.inl records)

theorem encode_eq_error {templates : NameMap Bytes} {buffer : Bytes} {ns : Namespace}
    {e : Failure ImageError} (h : encode templates buffer ns = .error e) :
    (∃ entry ∈ ns.entries, encodeRecord templates entry.1 entry.2 = .error e) ∨
      maxBody < bodySize templates ns ∧ e = .bare (.tooBig (bodySize templates ns)) := by
  rcases bind_eq_error_iff.mp h with failed | ⟨parts, records, -⟩
  · obtain ⟨front, entry, rest, split, -, failed⟩ := mapM_eq_error_iff.mp failed
    exact .inl ⟨entry, by simp [split], failed⟩
  · rcases encode_of_records buffer records with ⟨image, ok⟩ | ⟨big, failed⟩
    · rw [ok] at h
      cases h
    · rw [failed] at h
      cases h
      exact .inr ⟨big, rfl⟩

end Image

end StackLang
