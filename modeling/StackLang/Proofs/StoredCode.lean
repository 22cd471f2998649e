import StackLang.Image.Load
import StackLang.Proofs.WordValue

namespace StackLang.Image

/-- A text behind its length in two bytes. -/
def textForm (text : Bytes) : Bytes :=
  Word.encode 2 text.length ++ text

/-- A text that two bytes can announce and that the loader takes for a text. -/
def LoadableText (text : Bytes) : Prop :=
  text.length ≤ maxOperand ∧ Utf8.valid text

instance : DecidablePred LoadableText := fun _ => instDecidableAnd

/-- An instruction of the machine whose operand, if it has one, can be loaded. -/
def LoadableInstr : Instr → Prop
  | .write => True
  | .push text => LoadableText text
  | .call name => LoadableText name
  | .other _ _ => False
  | .absent => False

instance : DecidablePred LoadableInstr := fun i =>
  match i with
  | .write => .isTrue trivial
  | .push text => inferInstanceAs (Decidable (LoadableText text))
  | .call name => inferInstanceAs (Decidable (LoadableText name))
  | .other _ _ => .isFalse id
  | .absent => .isFalse id

def instrForm : Instr → Bytes
  | .write => [Opcode.write]
  | .push text => Opcode.push :: textForm text
  | .call name => Opcode.call :: textForm name
  | .other _ op => [op]
  | .absent => [0]

def codeForm (code : List Instr) : Bytes :=
  code.flatMap instrForm

/-- Instructions with the offsets of their stored forms, the first of which is at `pos`. -/
def located (pos : Nat) : List Instr → List (Int × Instr)
  | [] => []
  | i :: rest => (pos, i) :: located (pos + (instrForm i).length) rest

@[simp] theorem located_instrs (pos : Nat) (code : List Instr) :
(located pos code).map (·.2) = code := by
  induction code generalizing pos with
  | nil => rfl
  | cons i rest ih => simp [located, ih]

theorem takeBytes_eq_ok_iff {n : Nat} {b taken rest : Bytes} :
    takeBytes n b = .ok (taken, rest) ↔ b = taken ++ rest ∧ taken.length = n := by
  constructor
  · intro h
    have sizes := takeBytes_length h
    simp only [takeBytes] at h
    split at h
    next =>
      simp only [Except.ok.injEq, Prod.mk.injEq] at h
      obtain ⟨rfl, rfl⟩ := h
      exact ⟨(List.take_append_drop n b).symm, sizes.1⟩
    next => cases h
  · rintro ⟨rfl, rfl⟩
    simp [takeBytes]

theorem takeNumber_eq_ok_iff {width n : Nat} {b rest : Bytes} :
    takeNumber width b = .ok (n, rest) ↔ b = Word.encode width n ++ rest ∧ n < 256 ^ width := by
  constructor
  · intro h
    obtain ⟨⟨field, tail⟩, taken, value⟩ := bind_eq_ok_iff.mp h
    obtain ⟨rfl, size⟩ := takeBytes_eq_ok_iff.mp taken
    obtain ⟨rfl, rfl⟩ : Word.decode field = n ∧ tail = rest := by simpa using value
    obtain ⟨eq, fits⟩ := Word.eq_encode_iff.mpr ⟨size, rfl⟩
    exact ⟨by rw [← eq], fits⟩
  · rintro ⟨rfl, fits⟩
    refine bind_eq_ok_iff.mpr ⟨(Word.encode width n, rest), takeBytes_eq_ok_iff.mpr (by simp), ?_⟩
    simp [Word.decode_encode fits]

theorem takeText_eq_ok_iff {b text rest : Bytes} :
    takeText b = .ok (text, rest) ↔ b = textForm text ++ rest ∧ LoadableText text := by
  constructor
  · intro h
    obtain ⟨⟨size, tail⟩, number, more⟩ := bind_eq_ok_iff.mp h
    obtain ⟨⟨found, left⟩, taken, checked⟩ := bind_eq_ok_iff.mp more
    obtain ⟨rfl, bound⟩ := takeNumber_eq_ok_iff.mp number
    obtain ⟨rfl, rfl⟩ := takeBytes_eq_ok_iff.mp taken
    by_cases valid : Utf8.valid found
    · obtain ⟨rfl, rfl⟩ : found = text ∧ left = rest := by simpa [valid] using checked
      exact ⟨by simp [textForm], by simp only [maxOperand]; omega, valid⟩
    · simp [valid] at checked
  · rintro ⟨rfl, short, valid⟩
    have number : takeNumber 2 (textForm text ++ rest) = .ok (text.length, text ++ rest) :=
      takeNumber_eq_ok_iff.mpr ⟨by simp [textForm], by simp only [maxOperand] at short; omega⟩
    have taken : takeBytes text.length (text ++ rest) = .ok (text, rest) :=
      takeBytes_eq_ok_iff.mpr ⟨rfl, rfl⟩
    refine bind_eq_ok_iff.mpr ⟨_, number, bind_eq_ok_iff.mpr ⟨_, taken, ?_⟩⟩
    simp [valid]

@[simp] theorem length_textForm (text : Bytes) : (textForm text).length = 2 + text.length := by
  simp [textForm]

theorem decodeAfter_operand {op : UInt8} {text : Bytes}
    (known : op = Opcode.call ∨ op = Opcode.push) (loadable : LoadableText text)
    (read : List (Int × Instr)) (pos : Nat) (rest : Bytes) :
    decodeAfter read pos (op :: (textForm text ++ rest)) =
      decodeAfter ((pos, if op = Opcode.call then .call text else .push text) :: read)
        (pos + 3 + text.length) rest := by
  have operand : takeText (textForm text ++ rest) = .ok (text, rest) :=
    takeText_eq_ok_iff.mpr ⟨rfl, loadable⟩
  have notWrite : op ≠ Opcode.write := by rcases known with rfl | rfl <;> decide
  rw [decodeAfter, if_neg notWrite, if_pos known]
  split
  next found tail h =>
    rw [operand] at h
    cases h
    rfl
  next e h =>
    rw [operand] at h
    cases h

/-- The loader reads one loadable instruction and goes on behind it. -/
theorem decodeAfter_instrForm {i : Instr} (loadable : LoadableInstr i) (read : List (Int × Instr))
    (pos : Nat) (rest : Bytes) :
    decodeAfter read pos (instrForm i ++ rest) =
      decodeAfter ((pos, i) :: read) (pos + (instrForm i).length) rest := by
  cases i with
  | write =>
    rw [instrForm, List.singleton_append, decodeAfter, if_pos rfl]
    rfl
  | push text =>
    have size : pos + (instrForm (.push text)).length = pos + 3 + text.length := by
      simp only [instrForm, List.length_cons, length_textForm]
      omega
    rw [size, instrForm, List.cons_append, decodeAfter_operand (.inr rfl) loadable]
    rfl
  | call name =>
    have size : pos + (instrForm (.call name)).length = pos + 3 + name.length := by
      simp only [instrForm, List.length_cons, length_textForm]
      omega
    rw [size, instrForm, List.cons_append, decodeAfter_operand (.inl rfl) loadable]
    rfl
  | other kind op => exact loadable.elim
  | absent => exact loadable.elim

theorem decodeAfter_codeForm {code : List Instr} (loadable : ∀ i ∈ code, LoadableInstr i)
    (read : List (Int × Instr)) (pos : Nat) :
    decodeAfter read pos (codeForm code) = .ok (read.reverse ++ located pos code) := by
  induction code generalizing read pos with
  | nil => simp [codeForm, decodeAfter, located]
  | cons i rest ih =>
    have first := decodeAfter_instrForm (loadable i (by simp)) read pos (codeForm rest)
    have others :=
      ih (fun j hj => loadable j (by simp [hj])) ((pos, i) :: read) (pos + (instrForm i).length)
    rw [codeForm, List.flatMap_cons, ← codeForm, first, others]
    simp [located]

theorem codeForm_of_decodeAfter {read l : List (Int × Instr)} {pos : Nat} {code : Bytes}
    (h : decodeAfter read pos code = .ok l) :
    ∃ instrs, (∀ i ∈ instrs, LoadableInstr i) ∧ code = codeForm instrs := by
  fun_induction decodeAfter read pos code with
  | case1 => exact ⟨[], by simp, rfl⟩
  | case2 read pos rest ih =>
    obtain ⟨instrs, loadable, rfl⟩ := ih h
    refine ⟨.write :: instrs, ?_, rfl⟩
    simpa [LoadableInstr] using loadable
  | case3 read pos op rest notWrite known text tail found i ih =>
    obtain ⟨instrs, loadable, rfl⟩ := ih h
    obtain ⟨rfl, good⟩ := takeText_eq_ok_iff.mp found
    by_cases isCall : op = Opcode.call
    · refine ⟨.call text :: instrs, ?_, by simp [codeForm, instrForm, isCall]⟩
      simpa [LoadableInstr, good] using loadable
    · have isPush : op = Opcode.push := known.resolve_left isCall
      refine ⟨.push text :: instrs, ?_, by simp [codeForm, instrForm, isPush]⟩
      simpa [LoadableInstr, good] using loadable
  | case4 => cases h
  | case5 => cases h

/-- Code is read as the instructions whose stored forms make it up, at their offsets. -/
theorem decode_eq_ok_iff {code : Bytes} {l : List (Int × Instr)} :
    decode code = .ok l ↔
      ∃ instrs, (∀ i ∈ instrs, LoadableInstr i) ∧ code = codeForm instrs ∧
        l = located 0 instrs := by
  constructor
  · intro h
    obtain ⟨instrs, loadable, rfl⟩ := codeForm_of_decodeAfter h
    have read := (decodeAfter_codeForm loadable [] 0).symm.trans h
    exact ⟨instrs, loadable, rfl, by simpa using read.symm⟩
  · rintro ⟨instrs, loadable, rfl, rfl⟩
    exact decodeAfter_codeForm loadable [] 0

end StackLang.Image
