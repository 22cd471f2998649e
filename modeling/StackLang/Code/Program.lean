import StackLang.Code.Instr
import StackLang.NameMap

namespace StackLang

structure Routine where
  size : Int
  code : List (Int × Instr)
  deriving DecidableEq, Repr

/-- `bodyLen` is what the header of the compiled program said. -/
structure Program where
  bodyLen : Nat
  routines : NameMap Routine

end StackLang
