import StackLang.Proofs.ImageRoundTrip

namespace StackLang

/-- Instructions appended one after another, up to the first that cannot be. -/
def Instr.appendAll (buffer : Bytes) : List Instr → Bytes × Option EncodeError
  | [] => (buffer, none)
  | i :: rest =>
    match i.append buffer with
    | (longer, none) => appendAll longer rest
    | (longer, some e) => (longer, some e)

namespace Image

theorem append_eq_encode (buffer : Bytes) (i : Instr) :
    i.append buffer = match i.encode with
      | .ok form => (buffer ++ form, none)
      | .error e => (buffer ++ [i.opcode], some e) := by
  cases operand : i.operand with
  | ok stored => simp only [Instr.append, Instr.encode, operand, Except.map]
  | error e => simp only [Instr.append, Instr.encode, operand, Except.map]

theorem append_of_encodable {i : Instr} (encodable : EncodableInstr i) (buffer : Bytes) :
    i.append buffer = (buffer ++ instrForm i, none) := by
  have encoded : i.encode = .ok (instrForm i) := encode_instr_eq_ok_iff.mpr ⟨encodable, rfl⟩
  rw [append_eq_encode, encoded]

theorem appendAll_of_encodable {code : List Instr} (encodable : ∀ i ∈ code, EncodableInstr i)
    (buffer : Bytes) :
    Instr.appendAll buffer code = (buffer ++ codeForm code, none) := by
  induction code generalizing buffer with
  | nil => simp [Instr.appendAll, codeForm]
  | cons i rest ih =>
    have first := append_of_encodable (encodable i List.mem_cons_self) buffer
    have others := ih (fun j hj => encodable j (List.mem_cons_of_mem _ hj)) (buffer ++ instrForm i)
    simp only [Instr.appendAll, first, others]
    simp [codeForm]

theorem exists_instrForm_eq (i : Instr) : ∃ operand, instrForm i = i.opcode :: operand := by
  cases i with
  | write => exact ⟨[], rfl⟩
  | push text => exact ⟨textForm text, rfl⟩
  | call name => exact ⟨textForm name, rfl⟩
  | other kind op => exact ⟨[], rfl⟩
  | absent => exact ⟨[], rfl⟩

theorem codeForm_append (a b : List Instr) : codeForm (a ++ b) = codeForm a ++ codeForm b := by
  simp [codeForm]

/-- Code is what stands before an instruction, the instruction and what follows it. -/
theorem exists_codeForm_split {code : List Instr} {k : Nat} {i : Instr} (h : code[k]? = some i) :
    ∃ operand, codeForm code = codeForm (code.take k) ++ i.opcode :: operand := by
  obtain ⟨inside, rfl⟩ := List.getElem?_eq_some_iff.mp h
  obtain ⟨operand, form⟩ := exists_instrForm_eq code[k]
  refine ⟨operand ++ codeForm (code.drop (k + 1)), ?_⟩
  have split : code = code.take k ++ code[k] :: code.drop (k + 1) := by simp
  calc codeForm code = codeForm (code.take k ++ code[k] :: code.drop (k + 1)) := by rw [← split]
    _ = codeForm (code.take k) ++ (instrForm code[k] ++ codeForm (code.drop (k + 1))) := by
      rw [codeForm_append]
      rfl
    _ = codeForm (code.take k) ++ code[k].opcode :: (operand ++ codeForm (code.drop (k + 1))) := by
      rw [form, List.cons_append]

theorem getElem?_located (pos : Nat) (code : List Instr) (k : Nat) :
    (located pos code)[k]? = code[k]?.map fun i =>
      (((pos + (codeForm (code.take k)).length : Nat) : Int), i) := by
  induction code generalizing pos k with
  | nil => simp [located]
  | cons i rest ih =>
    cases k with
    | zero => simp [located, codeForm]
    | succ k =>
      have length : (codeForm ((i :: rest).take (k + 1))).length =
          (instrForm i).length + (codeForm (rest.take k)).length := by
        simp [codeForm]
      rw [located, List.getElem?_cons_succ, ih, List.getElem?_cons_succ, length, Nat.add_assoc]

theorem le_of_mem_located {pos : Nat} {code : List Instr} {e : Int × Instr}
    (h : e ∈ located pos code) :
    (pos : Int) ≤ e.1 := by
  obtain ⟨k, hk⟩ := List.getElem?_of_mem h
  rw [getElem?_located] at hk
  obtain ⟨i, -, rfl⟩ := Option.map_eq_some_iff.mp hk
  dsimp only
  omega

theorem offsets_ascending (pos : Nat) (code : List Instr) :
    ((located pos code).map (·.1)).Pairwise (· < ·) := by
  induction code generalizing pos with
  | nil => simp [located]
  | cons i rest ih =>
    obtain ⟨operand, form⟩ := exists_instrForm_eq i
    have positive : 0 < (instrForm i).length := by simp [form]
    rw [located, List.map_cons, List.pairwise_cons]
    refine ⟨fun offset h => ?_, ih _⟩
    obtain ⟨e, he, rfl⟩ := List.mem_map.mp h
    have later := le_of_mem_located he
    dsimp only
    omega

/-- Reading undoes appending: code appended from instructions with loadable operands is read as
those instructions. Appending undoes reading: if code can be read, then appending what was read
gives the code again. Each instruction comes with its offset, the length of the code of those before
it, and its operation stands there. -/
theorem decode_inverts_append :
    (∀ l : List Instr, (∀ i ∈ l, LoadableInstr i) →
      ∃ code read, Instr.appendAll [] l = (code, none) ∧ encodeBody l = .ok code ∧
        decode code = .ok read ∧ read.map (·.2) = l) ∧
    ∀ code read, decode code = .ok read →
      Instr.appendAll [] (read.map (·.2)) = (code, none) ∧ encodeBody (read.map (·.2)) = .ok code ∧
      (∀ (k : Nat) (offset : Int) (i : Instr), read[k]? = some (offset, i) →
        ∃ front, Instr.appendAll [] ((read.map (·.2)).take k) = (front, none) ∧
          offset = front.length ∧ offset < code.length ∧ code[front.length]? = some i.opcode) ∧
      (read.map (·.1)).Pairwise (· < ·) ∧ ∀ offset i rest, read = (offset, i) :: rest →
        offset = 0 := by
  constructor
  · intro l loadable
    have encodable : ∀ i ∈ l, EncodableInstr i :=
      fun i hi => (loadableInstr_iff.mp (loadable i hi)).1
    refine ⟨codeForm l, located 0 l, ?_, encodeBody_eq_ok_iff.mpr ⟨encodable, rfl⟩, ?_,
      located_instrs 0 l⟩
    · rw [appendAll_of_encodable encodable, List.nil_append]
    · exact decode_eq_ok_iff.mpr ⟨l, loadable, rfl, rfl⟩
  · intro code read h
    obtain ⟨l, loadable, rfl, rfl⟩ := decode_eq_ok_iff.mp h
    have encodable : ∀ i ∈ l, EncodableInstr i :=
      fun i hi => (loadableInstr_iff.mp (loadable i hi)).1
    rw [located_instrs]
    refine ⟨?_, encodeBody_eq_ok_iff.mpr ⟨encodable, rfl⟩, ?_, offsets_ascending 0 l, ?_⟩
    · rw [appendAll_of_encodable encodable, List.nil_append]
    · intro k offset i found
      rw [getElem?_located] at found
      obtain ⟨j, hj, same⟩ := Option.map_eq_some_iff.mp found
      obtain ⟨rfl, rfl⟩ := Prod.mk.inj same
      obtain ⟨operand, split⟩ := exists_codeForm_split hj
      have front : ∀ i ∈ l.take k, EncodableInstr i :=
        fun i hi => encodable i (List.mem_of_mem_take hi)
      refine ⟨codeForm (l.take k), appendAll_of_encodable front [], by simp, ?_, by simp [split]⟩
      have length := congrArg List.length split
      rw [List.length_append, List.length_cons] at length
      omega
    · intro offset i rest same
      have first : (located 0 l)[0]? = some (offset, i) := by rw [same, List.getElem?_cons_zero]
      rw [getElem?_located] at first
      obtain ⟨j, -, pair⟩ := Option.map_eq_some_iff.mp first
      have offset_eq := (Prod.mk.inj pair).1
      simpa [codeForm] using offset_eq.symm

/-- Code in whose operands the byte of every operation occurs. -/
def lookalikeCode : List Instr :=
  [.push [0x12, 0xE1, 0xBA, 0x81], .call [0xC3, 0xA1], .write]

theorem lookalikeCode_read_back :
    ∃ code read, Instr.appendAll [] lookalikeCode = (code, none) ∧
      code = [0xE1, 0, 4, 0x12, 0xE1, 0xBA, 0x81, 0xA1, 0, 2, 0xC3, 0xA1, 0x12] ∧
      decode code = .ok read ∧
      read.map (·.2) = lookalikeCode ∧ Instr.appendAll [] (read.map (·.2)) = (code, none) ∧
      (read.map (·.1)).Pairwise (· < ·) := by
  obtain ⟨undone, redone⟩ := decode_inverts_append
  obtain ⟨code, read, appended, -, decoded, instrs⟩ := undone lookalikeCode (by decide)
  have bytes : (Instr.appendAll [] lookalikeCode).1 =
      [0xE1, 0, 4, 0x12, 0xE1, 0xBA, 0x81, 0xA1, 0, 2, 0xC3, 0xA1, 0x12] := by decide
  rw [appended] at bytes
  obtain ⟨again, -, -, ascending, -⟩ := redone code read decoded
  exact ⟨code, read, appended, bytes, decoded, instrs, again, ascending⟩

end Image

end StackLang
