import StackLang.Text.Utf8
import StackLang.Yaml.Problem

namespace StackLang.Yaml

/-- Whether a character may occur in YAML. -/
def isAllowed (n : Nat) : Bool :=
  n == 0x09 || n == 0x0A || n == 0x0D || (0x20 ≤ n && n ≤ 0x7E) || n == 0x85 || (0xA0 ≤ n && n ≤ 0xD7FF) ||
    (0xE000 ≤ n && n ≤ 0xFFFD) || (0x10000 ≤ n && n ≤ 0x10FFFF)

/-- The number of bytes that a lead byte announces, and its share of the character. -/
def lead? (c : UInt8) : Option (Nat × Nat) :=
  if c < 0x80 then some (1, c.toNat)
  else if 0xC0 ≤ c ∧ c < 0xE0 then some (2, c.toNat - 0xC0)
  else if 0xE0 ≤ c ∧ c < 0xF0 then some (3, c.toNat - 0xE0)
  else if 0xF0 ≤ c ∧ c < 0xF8 then some (4, c.toNat - 0xF0)
  else none

/-- The least character that needs so many bytes. -/
def leastOfWidth (width : Nat) : Nat :=
  if width = 1 then 0 else if width = 2 then 0x80 else if width = 3 then 0x800 else 0x10000

/-- The problem with a character that takes `width` bytes. -/
def characterProblem? (width n : Nat) : Option Problem :=
  if n < leastOfWidth width then some .longSequence
  else if (0xD800 ≤ n ∧ n ≤ 0xDFFF) ∨ 0x10FFFF < n then some .noCharacter
  else if !isAllowed n then some .controlCharacter
  else none

/-- Where decoding stops: what the problem is, and how many bytes show it. A character that is cut
off shows only at the end of the text, and has no such number. -/
structure Flaw where
  problem : Problem
  span : Option Nat
  deriving DecidableEq, Repr

/-- Characters with the number of bytes of each, up to a flaw. -/
structure Decoded where
  characters : List (Nat × Nat)
  flaw : Option Flaw
  deriving DecidableEq, Repr

namespace Decoded

def stop (problem : Problem) (span : Option Nat) : Decoded := ⟨[], some ⟨problem, span⟩⟩

def push (n width : Nat) (d : Decoded) :
    Decoded := { d with characters := (n, width) :: d.characters }

/-- A text in UTF-8. `owed` is the number of bytes that the character being read still needs,
`width` the number it has in all, and `n` its value so far. -/
def ofUtf8 (owed width n : Nat) : Bytes → Decoded
  | [] => ⟨[], none⟩
  | c :: rest =>
    if owed = 0 then
      match lead? c with
      | none => stop .strayLead (some 1)
      | some (width, n) =>
        if (rest.take 3).length + 1 < width then stop .cutSequence none
        else if width = 1 then
          match characterProblem? 1 n with
          | some problem => stop problem (some 1)
          | none => push n 1 (ofUtf8 0 0 0 rest)
        else ofUtf8 (width - 1) width n rest
    else if c < 0x80 ∨ 0xC0 ≤ c then stop .strayTrail (some width)
    else
      let n := n * 64 + (c.toNat - 0x80)
      if owed = 1 then
        match characterProblem? width n with
        | some problem => stop problem (some width)
        | none => push n width (ofUtf8 0 0 0 rest)
      else ofUtf8 (owed - 1) width n rest

/-- A text in UTF-16. `high` is the first half of a character whose second half follows. -/
def ofUtf16 (littleEnd : Bool) (high : Option Nat) : Bytes → Decoded
  | [] => ⟨[], none⟩
  | [_] => stop .cutUnit none
  | a :: b :: rest =>
    let unit := if littleEnd then b.toNat * 256 + a.toNat else a.toNat * 256 + b.toNat
    let isLow := 0xDC00 ≤ unit && unit ≤ 0xDFFF
    match high with
    | some high =>
      if isLow then
        push (0x10000 + (high - 0xD800) * 1024 + (unit - 0xDC00)) 4 (ofUtf16 littleEnd none rest)
      else stop .noLowHalf (some 4)
    | none =>
      if isLow then stop .strayLowHalf (some 2)
      else if 0xD800 ≤ unit ∧ unit ≤ 0xDBFF then
        if (rest.take 2).length < 2 then stop .cutPair none else ofUtf16 littleEnd (some unit) rest
      else if isAllowed unit then push unit 2 (ofUtf16 littleEnd none rest)
      else stop .controlCharacter (some 2)

/-- A text behind its byte order mark, and the length of the mark. -/
def ofBytes : Bytes → Decoded × Nat
  | 0xFF :: 0xFE :: rest => (ofUtf16 true none rest, 2)
  | 0xFE :: 0xFF :: rest => (ofUtf16 false none rest, 2)
  | 0xEF :: 0xBB :: 0xBF :: rest => (ofUtf8 0 0 0 rest, 3)
  | text => (ofUtf8 0 0 0 text, 0)

end Decoded

/-- What a text supplies at a time: a number of characters, or a problem. -/
inductive Supply where
  | piece (count : Nat)
  | failure (problem : Problem)
  deriving DecidableEq, Repr

namespace Supply

/-- How many bytes are decoded at a time. -/
def pieceSize : Nat := 512

/-- The pieces of a text, the first of which has `count` characters so far and room for `room` more
bytes. A flaw spoils its whole piece. -/
def pieces (room count : Nat) (flaw : Option Flaw) : List (Nat × Nat) → List Supply
  | [] =>
    match flaw with
    | none => [piece count]
    | some ⟨problem, span⟩ =>
      if span.any (· ≤ room) then [failure problem] else [piece count, failure problem]
  | (_, width) :: rest =>
    if width ≤ room then pieces (room - width) (count + 1) flaw rest
    else piece count :: pieces (pieceSize - width) 1 flaw rest

/-- The supply of a whole text. The end of a text of one or two bytes is known from the start, and
counts as one more character. -/
def ofBytes (text : Bytes) : List Supply :=
  match Decoded.ofBytes text with
  | (d, mark) =>
    if 2 < text.length then pieces (pieceSize - mark) 0 d.flaw d.characters
    else
      match d.flaw with
      | none => [piece (d.characters.length + 1)]
      | some flaw => [failure flaw.problem]

end Supply

/-- A carriage return that stands for itself and for the line feed behind it; any other one becomes
a line feed. -/
def pairReturns : List Nat → List Nat
  | [] => []
  | 0x0D :: 0x0A :: rest => 0x0D :: pairReturns rest
  | n :: rest => (if n = 0x0D then 0x0A else n) :: pairReturns rest

def characters (text : Bytes) : List Char :=
  (pairReturns ((Decoded.ofBytes text).1.characters.map (·.1))).map Char.ofNat

/-- The bytes of some characters. -/
def toBytes (text : List Char) : Bytes :=
  text.flatMap fun c => Utf8.encode c.toNat

end StackLang.Yaml
