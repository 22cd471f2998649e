namespace StackLang

abbrev Bytes := List UInt8

/-- The bytes of a fixed text. -/
def bytes (text : String) : Bytes :=
  text.toList.flatMap String.utf8EncodeChar

/-- The byte of an ASCII character. -/
def byte (c : Char) : UInt8 := c.toUInt8

namespace Bytes

/-- The parts of `texts` with `separator` between neighbours. -/
def join (separator : Bytes) (texts : List Bytes) : Bytes :=
  (texts.intersperse separator).flatten

/-- The bytes from one offset up to another. -/
def slice (text : Bytes) (start stop : Nat) : Bytes :=
  (text.take stop).drop start

end Bytes

namespace Ascii

def newline : UInt8 := 0x0A
def tab : UInt8 := 0x09
def carriageReturn : UInt8 := 0x0D
def space : UInt8 := 0x20
def quote : UInt8 := 0x22
def apostrophe : UInt8 := 0x27
def slash : UInt8 := 0x2F
def backslash : UInt8 := 0x5C
def underscore : UInt8 := 0x5F

def isLetter (c : UInt8) : Bool :=
  (0x61 ≤ c && c ≤ 0x7A) || (0x41 ≤ c && c ≤ 0x5A)

def isDigit (c : UInt8) : Bool :=
  0x30 ≤ c && c ≤ 0x39

end Ascii

end StackLang
