import StackLang.Code.Word
import StackLang.Text.Quoted

namespace StackLang

inductive Instr where
  | write
  | push (text : Bytes)
  | call (name : Bytes)
  | other (kind : Bytes) (opcode : UInt8)
  | absent
  deriving DecidableEq, Repr

namespace Opcode

def write : UInt8 := 0x12
def call : UInt8 := 0xA1
def push : UInt8 := 0xE1

def name (op : UInt8) : Bytes :=
  if op = write then bytes "WRITE"
  else if op = call then bytes "CALL"
  else if op = push then bytes "PUSH"
  else bytes "OP(0x" ++ Text.hexPadded 2 op.toNat ++ bytes ")"

end Opcode

inductive EncodeError where
  | operandTooLong (size : Nat)
  | unsupported (kind : Bytes)
  deriving DecidableEq, Repr

def EncodeError.message : EncodeError → Bytes
  | operandTooLong size => Text.decimal size ++ bytes " bytes: operand too long"
  | unsupported kind => bytes "unsupported instruction: " ++ kind

/-- The longest operand that its two length bytes can announce. -/
def maxOperand : Nat := 0xFFFF

/-- A text after its length. -/
def encodeOperand (text : Bytes) : Except EncodeError Bytes :=
  let size := text.length
  if size > maxOperand then .error (.operandTooLong size)
  else .ok (Word.encode 2 size ++ text)

namespace Instr

/-- An absent instruction has no operation; it counts as zero. -/
def opcode : Instr → UInt8
  | write => Opcode.write
  | push _ => Opcode.push
  | call _ => Opcode.call
  | other _ op => op
  | absent => 0

def operand : Instr → Except EncodeError Bytes
  | write => .ok []
  | push text => encodeOperand text
  | call name => encodeOperand name
  | other kind _ => .error (.unsupported kind)
  | absent => .error (.unsupported (bytes "<nil>"))

def encode (i : Instr) : Except EncodeError Bytes :=
  i.operand.map (i.opcode :: ·)

/-- Appends an instruction. If its operand fails, the operation has been appended already. -/
def append (buffer : Bytes) (i : Instr) : Bytes × Option EncodeError :=
  match i.operand with
  | .ok operand => (buffer ++ i.opcode :: operand, none)
  | .error e => (buffer ++ [i.opcode], some e)

def text : Instr → Bytes
  | write => bytes "Write"
  | push text => bytes "PushString(" ++ Text.quoted text ++ bytes ")"
  | call name => bytes "Call(" ++ name ++ bytes ")"
  | other _ op => Text.decimal op.toNat
  | absent => bytes "<nil>"

/-- A text in a log record: a byte that tells how long the text or its length is, and the text. -/
def logText (text : Bytes) : Bytes :=
  let size := text.length
  if size < 24 then (0x60 + size).toUInt8 :: text
  else if size < 0x100 then 0x78 :: Word.encode 1 size ++ text
  else if size < 0x10000 then 0x79 :: Word.encode 2 size ++ text
  else 0x7A :: Word.encode 4 size ++ text

/-- A pair in a log record. -/
def logPair (key : String) (value : Bytes) : Bytes :=
  0xA1 :: logText (bytes key) ++ logText value

/-- An instruction in a log record. -/
def logForm : Instr → Bytes
  | write => logText (bytes "write")
  | push text => logPair "push" text
  | call name => logPair "call" name
  | other _ _ => []
  | absent => []

end Instr

end StackLang
