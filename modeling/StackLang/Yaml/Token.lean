import StackLang.Yaml.Scalar

namespace StackLang.Yaml

inductive Token where
  | streamEnd
  | version (major minor : Nat)
  | tagHandle (handle meaning : Bytes)
  | documentStart
  | documentEnd
  | blockSequenceStart
  | blockMappingStart
  | blockEnd
  | flowSequenceStart
  | flowSequenceEnd
  | flowMappingStart
  | flowMappingEnd
  | blockEntry
  | flowEntry
  | key
  | value
  | reference (name : Bytes)
  | anchor (name : Bytes)
  | tag (handle suffix : Bytes)
  | scalar (text : Bytes) (plain : Bool)
  deriving DecidableEq, Repr

structure PlacedToken where
  token : Token
  line : Nat
  deriving DecidableEq, Repr

def isWordChar (c : Char) : Bool :=
  ('0' ≤ c && c ≤ '9') || ('A' ≤ c && c ≤ 'Z') || ('a' ≤ c && c ≤ 'z') || c == '_' || c == '-'

/-- The bytes of a text that is all ASCII. -/
def asciiBytes (text : List Char) : Bytes :=
  text.map Char.toUInt8

/-- Whether what follows ends the name of an anchor. -/
def endsName (text : List Char) : Bool :=
  atGap text || ['?', ':', ',', ']', '\x7d', '%', '@', '\x60'].any fun c => text.head? == some c

/-- The name of an anchor or an alias, behind its mark. -/
def anchorName (i : Input) : Except Fault (Bytes × Input) := do
  let name := i.ahead.takeWhile isWordChar
  let behind ← i.advance name.length
  if name.isEmpty || !endsName behind.ahead then .error (.inToken i.cursor.line i.cursor.line .noName)
  else .ok (asciiBytes name, behind)

def isTagChar (c : Char) : Bool :=
  isWordChar c || [';', '/', '?', ':', '@', '&', '=', '+', '$', ',', '.', '!', '~', '*', '\'', '(', ')', '[', ']'].contains c

/-- The number of bytes that a lead byte in a tag announces. -/
def tagByteWidth? (octet : Nat) : Option Nat :=
  if octet < 0x80 then some 1
  else if 0xC0 ≤ octet ∧ octet < 0xE0 then some 2
  else if 0xE0 ≤ octet ∧ octet < 0xF0 then some 3
  else if 0xF0 ≤ octet ∧ octet < 0xF8 then some 4
  else none

/-- The text of a tag, latest byte first, and what follows it. `owed` is the number of escaped bytes
that a character still needs. -/
def tagText (read : Bytes) (owed : Nat) : List Char → Except Problem (Bytes × List Char)
  | [] => if owed = 0 then .ok (read, []) else .error .noTagByte
  | c :: rest =>
    if c == '%' then
      match rest with
      | high :: low :: rest =>
        match hexDigit? high, hexDigit? low with
        | some h, some l =>
          let octet := h * 16 + l
          if owed = 0 then
            match tagByteWidth? octet with
            | some width => tagText (UInt8.ofNat octet :: read) (width - 1) rest
            | none => .error .strayTagLead
          else if 0x80 ≤ octet ∧ octet < 0xC0 then tagText (UInt8.ofNat octet :: read) (owed - 1) rest
          else .error .strayTagTrail
        | _, _ => .error .noTagByte
      | _ => .error .noTagByte
    else if owed ≠ 0 then .error .noTagByte
    else if isTagChar c then tagText (c.toUInt8 :: read) 0 rest
    else .ok (read, c :: rest)

/-- The text of a tag, which must not be empty. -/
def tagTextOf (text : List Char) : Except Problem (Bytes × List Char) :=
  match tagText [] 0 text with
  | .error problem => .error problem
  | .ok (read, rest) =>
    if rest.length = text.length then .error .noTagText else .ok (read.reverse, rest)

/-- A word behind an exclamation mark, and the mark that closes it, if there is one. -/
def tagHandleOf (text : List Char) : List Char × Bool × List Char :=
  let word := text.takeWhile isWordChar
  match text.dropWhile isWordChar with
  | '!' :: rest => (word, true, rest)
  | rest => (word, false, rest)

/-- A tag behind its exclamation mark. A tag between angle brackets has no handle, and neither has
the mark alone; a mark and a suffix have the mark as a handle. -/
def readTag (text : List Char) : Except Problem (Token × List Char) := do
  let (tag, rest) ← match text with
    | '<' :: inner => do
      match ← tagTextOf inner with
      | (suffix, '>' :: rest) => .ok (Token.tag [] suffix, rest)
      | _ => .error .noTagClose
    | text =>
      match tagHandleOf text with
      | (word, true, rest) => do
        let (suffix, rest) ← tagTextOf rest
        .ok (Token.tag (bytes "!" ++ asciiBytes word ++ bytes "!") suffix, rest)
      | (word, false, rest) => do
        let (read, rest) ← tagText (asciiBytes word).reverse 0 rest
        .ok (if read.isEmpty then Token.tag [] (bytes "!") else Token.tag (bytes "!") read.reverse, rest)
  if atGap rest then .ok (tag, rest) else .error .noTagEnd

/-- A number of one or two digits. -/
def versionNumber (text : List Char) : Except Problem (Nat × List Char) :=
  let digits := text.takeWhile Char.isDigit
  if digits.isEmpty then .error .noVersionNumber
  else if 2 < digits.length then .error .longVersionNumber
  else .ok (digits.foldl (fun n d => n * 10 + (d.toNat - 0x30)) 0, text.dropWhile Char.isDigit)

def readVersion (text : List Char) : Except Problem (Token × List Char) := do
  let (major, rest) ← versionNumber text
  match rest with
  | '.' :: rest => do
    let (minor, rest) ← versionNumber rest
    .ok (.version major minor, rest)
  | _ => .error .noVersionDot

/-- A tag handle and its meaning. -/
def readHandle (text : List Char) : Except Problem (Token × List Char) := do
  match text with
  | '!' :: text =>
    let (word, closed, rest) := tagHandleOf text
    if !closed && !word.isEmpty then .error .noTagMark
    else
      match rest with
      | c :: _ =>
        if isBlank c then
          let (meaning, rest) ← tagTextOf (rest.dropWhile isBlank)
          let close := if closed then bytes "!" else []
          if atGap rest then .ok (.tagHandle (bytes "!" ++ asciiBytes word ++ close) meaning, rest)
          else .error .noTagEnd
        else .error .noTagSpace
      | [] => .error .noTagSpace
  | _ => .error .noTagMark

/-- A directive behind its percent sign, up to the end of its line. -/
def readDirective (text : List Char) : Except Problem (Token × List Char) := do
  let name := text.takeWhile isWordChar
  let rest := text.dropWhile isWordChar
  if name.isEmpty then .error .noDirectiveName
  else if !atGap rest then .error .badDirectiveName
  else do
    let value := rest.dropWhile isBlank
    let (token, rest) ←
      if name == ['Y', 'A', 'M', 'L'] then readVersion value
      else if name == ['T', 'A', 'G'] then readHandle value
      else .error .unknownDirective
    match rest.dropWhile isBlank with
    | '#' :: rest => .ok (token, rest.dropWhile (!isBreak ·))
    | rest => if atBreak rest then .ok (token, rest) else .error .noLineEnd

/-- A token that is read inside one line. -/
def withinLine (i : Input) (read : List Char → Except Problem (Token × List Char)) :
    Except Fault (Token × Input) :=
  match read i.ahead with
  | .ok (token, rest) => do .ok (token, ← i.advanceTo rest)
  | .error problem => .error (.inToken i.cursor.line i.cursor.line problem)

end StackLang.Yaml
