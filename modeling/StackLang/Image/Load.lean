import StackLang.Code.Program
import StackLang.Failure
import StackLang.Image.Layout
import StackLang.Names.Namespace

namespace StackLang

inductive LoadError where
  | badMagic
  | truncated (need available : Nat)
  | invalidUtf8
  | unknownOpcode (op : UInt8) (pos : Nat)
  | noMain
  deriving DecidableEq, Repr

def LoadError.message : LoadError → Bytes
  | badMagic => bytes "bad magic"
  | truncated need available => bytes "need " ++ Text.decimal need ++ bytes " bytes, have " ++
      Text.decimal available ++ bytes ": truncated input"
  | invalidUtf8 => bytes "invalid utf-8"
  | unknownOpcode op pos => bytes "unrecognized opcode 0x" ++ Text.hexPadded 2 op.toNat ++
      bytes " at " ++ Text.hexOffset pos
  | noMain => bytes "no main function found"

abbrev LoadFailure := Failure LoadError

namespace Image

/-- The first `n` bytes, and the rest. -/
def takeBytes (n : Nat) (b : Bytes) : Except LoadFailure (Bytes × Bytes) :=
  let taken := b.take n
  if taken.length = n then .ok (taken, b.drop n)
  else .error (.bare (.truncated n taken.length))

theorem takeBytes_length {n : Nat} {b taken rest : Bytes} (h : takeBytes n b = .ok (taken, rest)) :
    taken.length = n ∧ rest.length + n = b.length := by
  simp only [takeBytes] at h
  split at h
  next enough =>
    simp only [Except.ok.injEq, Prod.mk.injEq] at h
    obtain ⟨rfl, rfl⟩ := h
    refine ⟨enough, ?_⟩
    simp only [List.length_take, List.length_drop] at *
    omega
  next => simp at h

/-- A number of `width` bytes. -/
def takeNumber (width : Nat) (b : Bytes) : Except LoadFailure (Nat × Bytes) := do
  let (field, rest) ← takeBytes width b
  .ok (Word.decode field, rest)

/-- A text after its length in two bytes. -/
def takeText (b : Bytes) : Except LoadFailure (Bytes × Bytes) := do
  let (size, rest) ← takeNumber 2 b
  let (text, rest) ← takeBytes size rest
  if Utf8.valid text then .ok (text, rest) else .error (.bare .invalidUtf8)

theorem takeNumber_length {width n : Nat} {b rest : Bytes}
    (h : takeNumber width b = .ok (n, rest)) :
    rest.length + width = b.length := by
  unfold takeNumber at h
  match hb : takeBytes width b with
  | .error e => rw [hb] at h; cases h
  | .ok (field, tail) =>
    rw [hb] at h
    cases h
    exact (takeBytes_length hb).2

theorem takeText_length {b text rest : Bytes} (h : takeText b = .ok (text, rest)) :
    rest.length + text.length + 2 = b.length := by
  unfold takeText at h
  match hn : takeNumber 2 b with
  | .error e => rw [hn] at h; cases h
  | .ok (size, tail) =>
    rw [hn] at h
    match ht : takeBytes size tail with
    | .error e => simp only [bind, Except.bind, ht] at h; cases h
    | .ok (found, left) =>
      simp only [bind, Except.bind, ht] at h
      split at h
      next =>
        cases h
        have first := takeNumber_length hn
        have second := takeBytes_length ht
        omega
      next => cases h

def opcodeContext (op : UInt8) (pos : Nat) : Bytes :=
  Opcode.name op ++ bytes " at " ++ Text.hexOffset pos

/-- The instructions of a code, the first of which is at `pos`, behind those already read, which
stand latest first. -/
def decodeAfter (read : List (Int × Instr)) (pos : Nat) (code : Bytes) :
    Except LoadFailure (List (Int × Instr)) :=
  match code with
  | [] => .ok read.reverse
  | op :: rest =>
    if op = Opcode.write then decodeAfter ((pos, .write) :: read) (pos + 1) rest
    else if op = Opcode.call ∨ op = Opcode.push then
      match _h : takeText rest with
      | .ok (text, rest) =>
        let i := if op = Opcode.call then Instr.call text else Instr.push text
        decodeAfter ((pos, i) :: read) (pos + 3 + text.length) rest
      | .error e => .error (e.within (opcodeContext op pos))
    else .error (.bare (.unknownOpcode op pos))
termination_by code.length
decreasing_by
  · simp
  · have := takeText_length _h
    simp only [List.length_cons]
    omega

def decode (code : Bytes) : Except LoadFailure (List (Int × Instr)) :=
  decodeAfter [] 0 code

/-- A record of a compiled program and the offset it starts at. -/
structure Record where
  pos : Nat
  name : Bytes
  routine : Routine
  deriving DecidableEq, Repr

/-- The name of a record, the size of its code, the code, and what follows the record. -/
structure Framed where
  name : Bytes
  size : Nat
  code : Bytes
  rest : Bytes
  deriving DecidableEq, Repr

/-- Splits a record off, without looking into its code. -/
def takeFramed (b : Bytes) : Except LoadFailure Framed := do
  let (name, rest) ← (takeText b).mapError (.within (bytes "name"))
  let (size, rest) ← (takeNumber 4 rest).mapError (.within (name ++ bytes ": code length"))
  let (code, rest) ← (takeBytes size rest).mapError (.within (name ++ bytes ": code"))
  .ok ⟨name, size, code, rest⟩

theorem takeFramed_length {b : Bytes} {r : Framed} (h : takeFramed b = .ok r) :
    r.rest.length < b.length := by
  unfold takeFramed at h
  match hn : takeText b with
  | .error e => rw [hn] at h; cases h
  | .ok (name, first) =>
    rw [hn] at h
    match hs : takeNumber 4 first with
    | .error e => simp only [bind, Except.bind, mapError_ok, mapError_error, hs] at h; cases h
    | .ok (size, second) =>
      match hc : takeBytes size second with
      | .error e => simp only [bind, Except.bind, mapError_ok, mapError_error, hs, hc] at h; cases h
      | .ok (code, third) =>
        simp only [bind, Except.bind, mapError_ok, hs, hc] at h
        cases h
        have text := takeText_length hn
        have number := takeNumber_length hs
        have body := takeBytes_length hc
        simp only
        omega

def recordContext (pos : Nat) : Bytes :=
  bytes "record at " ++ Text.hexOffset pos

/-- The records of `b`, whose first byte is at `pos`, up to the first that cannot be read, behind
those already read, which stand latest first. -/
def recordsAfter (read : List Record) (pos : Nat) (b : Bytes) : List Record × Option LoadFailure :=
  if b.isEmpty then (read.reverse, none)
  else
    match _h : takeFramed b with
    | .error e => (read.reverse, some (e.within (recordContext pos)))
    | .ok r =>
      match decode r.code with
      | .error e => (read.reverse, some ((e.within r.name).within (recordContext pos)))
      | .ok code =>
        recordsAfter (⟨pos, r.name, r.size, code⟩ :: read) (pos + 6 + r.name.length + r.size) r.rest
termination_by b.length
decreasing_by exact takeFramed_length _h

/-- The length in the header, and what follows the header. -/
def takeHeader (data : Bytes) : Except LoadFailure (Nat × Bytes) :=
  if data.take magic.length = magic then
    (takeNumber 4 (data.drop magic.length)).mapError (.within (bytes "body length"))
  else .error (.bare .badMagic)

/-- The records behind a header. -/
def records (body : Bytes) : List Record × Option LoadFailure :=
  recordsAfter [] 8 body

/-- The last record of a name counts. -/
def table (records : List Record) : NameMap Routine :=
  .ofList (records.map fun r => (r.name, r.routine))

end Image

def Program.load (data : Bytes) : Except LoadFailure Program := do
  let (bodyLen, body) ← Image.takeHeader data
  match Image.records body with
  | (_, some e) => .error e
  | (records, none) =>
    let routines := Image.table records
    if routines.contains mainName then .ok ⟨bodyLen, routines⟩ else .error (.bare .noMain)

end StackLang
