import StackLang.Code.Program
import StackLang.Machine.Sink

namespace StackLang.Listing

/-- An operation's name, filled up to six places. -/
def column (op : UInt8) : Bytes :=
  (Opcode.name op).rightpad 6 Ascii.space

def instr (i : Instr) : Bytes :=
  match i with
  | .push text => column i.opcode ++ Ascii.space :: Text.quoted text
  | .call name => column i.opcode ++ Ascii.space :: name
  | _ => Opcode.name i.opcode

def line (entry : Int × Instr) : Bytes :=
  Ascii.tab :: Text.hexColumn entry.1 ++ bytes "  " ++ Text.hexCapitals entry.2.opcode ++ bytes "  " ++
    instr entry.2 ++ [Ascii.newline]

def routine (name : Bytes) (r : Routine) : Bytes :=
  bytes "func " ++ name ++ bytes " (" ++ Text.decimal r.code.length ++ bytes " instrs, " ++
    Text.decimalInt r.size ++ bytes " bytes)\n" ++ r.code.flatMap line

def program (p : Program) : Bytes :=
  Bytes.join [Ascii.newline] (p.routines.entries.map fun e => routine e.1 e.2)

end StackLang.Listing
