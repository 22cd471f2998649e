import StackLang.Code.Instr
import StackLang.NameMap

namespace StackLang

namespace Builtin

def table : List (Bytes × List Instr) :=
  [(bytes "print", [.write]), (bytes "println", [.write, .push [Ascii.newline], .write])]

def names : List Bytes :=
  table.map (·.1)

/-- The encoded code of every built-in function. -/
def templates : NameMap Bytes :=
  .ofList (table.map fun b => (b.1, b.2.flatMap fun i => (i.append []).1))

end Builtin

end StackLang
