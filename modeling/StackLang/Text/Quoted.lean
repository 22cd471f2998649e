import StackLang.Text.Numeral
import StackLang.Text.Printable
import StackLang.Text.Utf8

namespace StackLang.Text

/-- The letter after the backslash of a short escape. -/
def shortEscape? (n : Nat) : Option UInt8 :=
  if n = 0x07 then some (byte 'a')
  else if n = 0x08 then some (byte 'b')
  else if n = 0x0C then some (byte 'f')
  else if n = 0x0A then some (byte 'n')
  else if n = 0x0D then some (byte 'r')
  else if n = 0x09 then some (byte 't')
  else if n = 0x0B then some (byte 'v')
  else none

/-- A backslash, `mark` and `n` in at least `width` hexadecimal digits. -/
def numericEscape (mark : Char) (width n : Nat) : Bytes :=
  Ascii.backslash :: byte mark :: hexPadded width n

/-- A character between quotes that are both `delimiter`. -/
def escaped (delimiter : UInt8) (n : Nat) : Bytes :=
  if n = delimiter.toNat then [Ascii.backslash, delimiter]
  else if n = Ascii.backslash.toNat then [Ascii.backslash, Ascii.backslash]
  else if isPrintable n then Utf8.encode n
  else
    match shortEscape? n with
    | some letter => [Ascii.backslash, letter]
    | none =>
      if n < 0x20 ∨ n = 0x7F then numericEscape 'x' 2 n
      else if n < 0x10000 then numericEscape 'u' 4 n
      else numericEscape 'U' 8 n

def escapedPiece (delimiter : UInt8) : Utf8.Piece → Bytes
  | .scalar n => escaped delimiter n
  | .stray b => numericEscape 'x' 2 b.toNat

/-- A text in double quotes. -/
def quoted (text : Bytes) : Bytes :=
  Ascii.quote :: (Utf8.pieces text).flatMap (escapedPiece Ascii.quote) ++ [Ascii.quote]

/-- The character whose number is the byte, in single quotes. -/
def quotedByte (b : UInt8) : Bytes :=
  Ascii.apostrophe :: escaped Ascii.apostrophe b.toNat ++ [Ascii.apostrophe]

end StackLang.Text
