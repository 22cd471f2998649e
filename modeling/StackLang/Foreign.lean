import StackLang.Text.Numeral

namespace StackLang

inductive Foreign where
  | number (value : Int)
  | flag (value : Bool)
  | text (value : Bytes)
  | absent
  deriving DecidableEq, Repr

namespace Foreign

def kind : Foreign → Bytes
  | number _ => bytes "int"
  | flag _ => bytes "bool"
  | text _ => bytes "string"
  | absent => bytes "<nil>"

def shown : Foreign → Bytes
  | number value => Text.decimalInt value
  | flag value => if value then bytes "true" else bytes "false"
  | text value => value
  | absent => bytes "<nil>"

end Foreign

end StackLang
