import StackLang.Bytes

namespace StackLang.Yaml

def digitValue (d : UInt8) : Nat :=
  if Ascii.isDigit d then d.toNat - 0x30
  else if 0x61 ≤ d && d ≤ 0x7A then d.toNat - 0x57
  else if 0x41 ≤ d && d ≤ 0x5A then d.toNat - 0x37
  else 36

/-- The number that digits of a base stand for, if there are any and all belong to the base. -/
def inBase? (base : Nat) (digits : Bytes) : Option Nat :=
  if digits.isEmpty then none
  else digits.foldlM (fun n d => if digitValue d < base then some (n * base + digitValue d) else none) 0

/-- Digits behind an optional mark for the base. A leading zero alone means base eight. -/
def natural? (text : Bytes) : Option Nat :=
  match text with
  | 0x30 :: mark :: digits =>
    if mark = byte 'x' ∨ mark = byte 'X' then inBase? 16 digits
    else if mark = byte 'o' ∨ mark = byte 'O' then inBase? 8 digits
    else if mark = byte 'b' ∨ mark = byte 'B' then inBase? 2 digits
    else inBase? 8 (mark :: digits)
  | digits => inBase? 10 digits

inductive Sign where
  | plus
  | minus
  deriving DecidableEq, Repr

/-- A number's sign, if it has one, and what follows it. -/
def signOf (text : Bytes) : Option Sign × Bytes :=
  match text with
  | c :: rest =>
    if c = byte '-' then (some .minus, rest) else if c = byte '+' then (some .plus, rest)
    else (none, text)
  | [] => (none, [])

def withSign (sign : Option Sign) (n : Nat) : Int :=
  if sign = some .minus then -(n : Int) else n

/-- The least and the greatest signed integer of 64 bits. -/
def minInt : Int := -9223372036854775808

def maxInt : Int := 9223372036854775807

/-- The greatest integer of 64 bits without a sign. -/
def maxNat : Int := 18446744073709551615

/-- An integer of 64 bits, signed or, if it has no sign, unsigned. -/
def inRange (sign : Option Sign) (n : Nat) : Option Int :=
  let value := withSign sign n
  if minInt ≤ value ∧ (value ≤ maxInt ∨ (sign = none ∧ value ≤ maxNat)) then some value else none

def integer? (text : Bytes) : Option Int :=
  match signOf text with
  | (sign, digits) => (natural? digits).bind (inRange sign)

/-- An integer with its sign behind the mark for its base. -/
def innerSigned? (text : Bytes) : Option Int :=
  let read (base : Nat) (rest : Bytes) : Option Int :=
    match signOf rest with
    | (some sign, digits) => (inBase? base digits).bind (inRange (some sign))
    | (none, _) => none
  match text with
  | 0x30 :: mark :: rest =>
    if mark = byte 'b' then read 2 rest else if mark = byte 'o' then read 8 rest else none
  | _ => none

/-- A decimal number: `mantissa` times ten to the `exponent`. -/
structure Decimal where
  negative : Bool
  mantissa : Nat
  exponent : Int
  deriving DecidableEq, Repr

/-- The number of an exponent's digits. Behind the fifth they do not count. -/
def exponentSize? (digits : Bytes) : Option Nat :=
  let significant := (digits.dropWhile (· == byte '0')).take 5
  (inBase? 10 digits).bind fun n => if n < 10000 then some n else inBase? 10 significant

/-- The exponent after the digits of a number. -/
def exponent? : Bytes → Option Int
  | [] => some 0
  | mark :: rest =>
    if mark = byte 'e' ∨ mark = byte 'E' then
      match signOf rest with
      | (sign, digits) => (exponentSize? digits).map (withSign sign)
    else none

/-- Digits with an optional fraction and an optional exponent. -/
def decimal? (text : Bytes) : Option Decimal :=
  let (sign, text) := signOf text
  let whole := text.takeWhile Ascii.isDigit
  let rest := text.dropWhile Ascii.isDigit
  let (fraction, rest) := match rest with
    | c :: more =>
      if c = byte '.' then (more.takeWhile Ascii.isDigit, more.dropWhile Ascii.isDigit)
      else ([], rest)
    | [] => ([], [])
  match inBase? 10 (whole ++ fraction), exponent? rest with
  | some mantissa, some e => some ⟨sign == some .minus, mantissa, e - fraction.length⟩
  | _, _ => none

/-- A quotient rounded to the nearest integer, a half to the even one. -/
def roundDiv (num den : Nat) : Nat :=
  let q := num / den
  let twice := 2 * (num % den)
  if den < twice ∨ (twice = den ∧ q % 2 = 1) then q + 1 else q

/-- The integer part of the binary number of 53 bits that is nearest to a quotient. -/
def integerPart (num den : Nat) : Nat :=
  if num / den < 9007199254740992 then
    let places := if num < den then 53 else 52 - Nat.log2 (num / den)
    roundDiv (num <<< places) den >>> places
  else
    let places := Nat.log2 (num / den) - 52
    roundDiv num (den <<< places) <<< places

namespace Decimal

def ofInt (n : Int) : Decimal := ⟨n < 0, n.natAbs, 0⟩

/-- The size of a number without its fraction; none if no binary number comes near it. -/
def size? (d : Decimal) : Option Nat :=
  if d.mantissa = 0 ∨ (d.mantissa.log2 : Int) + 2 < -d.exponent then some 0
  else if 400 < d.exponent then none
  else
    let size :=
      integerPart (d.mantissa * Nat.pow 10 d.exponent.toNat) (Nat.pow 10 (-d.exponent).toNat)
    if size < 1 <<< 1024 then some size else none

/-- A number without its fraction. Whatever is below the least integer is the least integer; of what
is above the greatest, only the number next to it is accepted, and becomes the least. -/
def toInt? (d : Decimal) : Option Int :=
  match d.size? with
  | none => none
  | some size =>
    if d.negative then some (max minInt (-(size : Int)))
    else if (size : Int) ≤ maxInt then some size
    else if (size : Int) = maxInt + 1 then some minInt
    else none

end Decimal

/-- Whether every underscore stands between two digits. -/
def underscoresFit : Bool → Bytes → Bool
  | _, [] => true
  | afterDigit, c :: rest =>
    if c = Ascii.underscore then afterDigit && (rest.head?.any Ascii.isDigit) && underscoresFit false rest
    else underscoresFit (Ascii.isDigit c) rest

def withoutUnderscores (text : Bytes) : Bytes :=
  text.filter (· != Ascii.underscore)

end StackLang.Yaml
