import StackLang.Bytes

namespace StackLang.Text

def decimal (n : Nat) : Bytes :=
  (Nat.toDigits 10 n).map Char.toUInt8

def hex (n : Nat) : Bytes :=
  (Nat.toDigits 16 n).map Char.toUInt8

/-- Hexadecimal digits filled up with zeros to `width`. -/
def hexPadded (width n : Nat) : Bytes :=
  (hex n).leftpad width (byte '0')

/-- Two hexadecimal digits in capitals. -/
def hexCapitals (b : UInt8) : Bytes :=
  (hexPadded 2 b.toNat).map fun d => if Ascii.isLetter d then d - 0x20 else d

/-- A sign in front of a negative number, and the digits of its size. -/
def signed (digits : Nat → Bytes) : Int → Bytes
  | .ofNat n => digits n
  | .negSucc n => byte '-' :: digits (n + 1)

def decimalInt (i : Int) : Bytes :=
  signed decimal i

/-- `0x` and the digits; the sign of a negative number stands between them. -/
def hexOffset (i : Int) : Bytes :=
  bytes "0x" ++ signed hex i

/-- Four places, of which a sign takes one. -/
def hexColumn : Int → Bytes
  | .ofNat n => hexPadded 4 n
  | .negSucc n => byte '-' :: hexPadded 3 (n + 1)

end StackLang.Text
