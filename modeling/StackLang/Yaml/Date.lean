import StackLang.Yaml.Number

namespace StackLang.Yaml.Date

/-- A number of one or two digits. -/
def shortNumber? (text : Bytes) : Option (Nat × Bytes) :=
  match text with
  | c :: d :: rest =>
    if Ascii.isDigit c && Ascii.isDigit d then some (digitValue c * 10 + digitValue d, rest)
    else if Ascii.isDigit c then some (digitValue c, d :: rest)
    else none
  | [c] => if Ascii.isDigit c then some (digitValue c, []) else none
  | [] => none

/-- What follows a character that must come first. -/
def behind? (c : Char) (text : Bytes) : Option Bytes :=
  match text with
  | d :: rest => if d = byte c then some rest else none
  | [] => none

def isLeap (year : Nat) : Bool :=
  year % 4 == 0 && (year % 100 != 0 || year % 400 == 0)

def daysIn (year month : Nat) : Nat :=
  if month = 2 then if isLeap year then 29 else 28
  else if [4, 6, 9, 11].contains month then 30
  else 31

/-- A day, and what follows it. The year has four digits. -/
def day? (text : Bytes) : Option Bytes := do
  let digits := text.takeWhile Ascii.isDigit
  if digits.length ≠ 4 then none
  else do
    let year ← inBase? 10 digits
    let (month, rest) ← shortNumber? (← behind? '-' (text.drop 4))
    let (day, rest) ← shortNumber? (← behind? '-' rest)
    if 1 ≤ month ∧ month ≤ 12 ∧ 1 ≤ day ∧ day ≤ daysIn year month then some rest else none

/-- Skips a fraction of a second. -/
def skipFraction (text : Bytes) : Bytes :=
  match text with
  | mark :: c :: rest =>
    if (mark = byte '.' ∨ mark = byte ',') ∧ Ascii.isDigit c then rest.dropWhile Ascii.isDigit
    else text
  | _ => text

/-- A time of day, and what follows it. -/
def time? (text : Bytes) : Option Bytes := do
  let (hour, rest) ← shortNumber? text
  let (minute, rest) ← shortNumber? (← behind? ':' rest)
  let (second, rest) ← shortNumber? (← behind? ':' rest)
  if hour < 24 ∧ minute < 60 ∧ second < 60 then some (skipFraction rest) else none

def isZone (text : Bytes) : Bool :=
  match text with
  | [z] => z == byte 'Z'
  | [sign, a, b, colon, c, d] =>
    (sign == byte '+' || sign == byte '-') && colon == byte ':' && [a, b, c, d].all Ascii.isDigit &&
      digitValue a * 10 + digitValue b ≤ 24 && digitValue c * 10 + digitValue d ≤ 60
  | _ => false

/-- Whether a text is a date, with or without a time. -/
def isDate (text : Bytes) : Bool :=
  match day? text with
  | none => false
  | some [] => true
  | some (c :: rest) =>
    if c = byte 'T' ∨ c = byte 't' then (time? rest).any isZone
    else if c = Ascii.space then (time? (rest.dropWhile (· == Ascii.space))).any List.isEmpty
    else false

end StackLang.Yaml.Date
