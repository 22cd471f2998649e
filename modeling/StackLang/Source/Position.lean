import StackLang.Text.Numeral

namespace StackLang

structure Position where
  file : Bytes
  line : Int
  col : Int
  deriving DecidableEq, Repr

namespace Position

/-- `FILE:LINE:COL`, without the file if it has no name. -/
def text (p : Position) : Bytes :=
  let place := Text.decimalInt p.line ++ byte ':' :: Text.decimalInt p.col
  if p.file.isEmpty then place else p.file ++ byte ':' :: place

/-- The place right after `before`, the part of a file in front of it. -/
def after (file before : Bytes) : Position where
  file := file
  line := 1 + before.count Ascii.newline
  col := 1 + (before.reverse.takeWhile (· != Ascii.newline)).length

/-- The place of an offset that lies in no file. Columns are 64-bit words. -/
def nowhere (offset : Int) : Position :=
  ⟨[], 1, (Int64.ofInt (1 + offset)).toInt⟩

end Position

end StackLang
