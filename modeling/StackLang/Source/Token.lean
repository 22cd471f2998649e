import StackLang.Foreign
import StackLang.Text.Quoted

namespace StackLang

inductive Mark where
  | openParen
  | closeParen
  | openBrace
  | closeBrace
  | comma
  | semicolon
  deriving DecidableEq, Repr

namespace Mark

def toByte : Mark → UInt8
  | openParen => 0x28
  | closeParen => 0x29
  | openBrace => 0x7B
  | closeBrace => 0x7D
  | comma => 0x2C
  | semicolon => 0x3B

def ofByte? (c : UInt8) : Option Mark :=
  if c = 0x28 then some openParen
  else if c = 0x29 then some closeParen
  else if c = 0x7B then some openBrace
  else if c = 0x7D then some closeBrace
  else if c = 0x2C then some comma
  else if c = 0x3B then some semicolon
  else none

theorem ofByte?_toByte (m : Mark) : ofByte? m.toByte = some m := by
  cases m <;> decide

end Mark

inductive Keyword where
  | fn
  | impure
  deriving DecidableEq, Repr

namespace Keyword

def word : Keyword → Bytes
  | fn => bytes "fn"
  | impure => bytes "impure"

def ofWord? (w : Bytes) : Option Keyword :=
  if w == word fn then some fn
  else if w == word impure then some impure
  else none

theorem ofWord?_word (k : Keyword) : ofWord? k.word = some k := by
  cases k <;> decide

end Keyword

inductive Token where
  | mark (m : Mark)
  | keyword (k : Keyword)
  | ident (name : Bytes)
  | literal (text : Bytes)
  deriving DecidableEq, Repr

/-- What a diagnostic can say was met or wanted. -/
inductive Symbol where
  | char (c : UInt8)
  | keyword (word : Bytes)
  | ident (name : Bytes)
  | literal (text : Bytes)
  | foreign (value : Foreign)
  deriving DecidableEq, Repr

namespace Symbol

/-- The end of the input. -/
def ending : Symbol := foreign .absent

/-- The character with the byte's number, quoted. -/
def charText (c : UInt8) : Bytes :=
  Text.quoted (Utf8.encode c.toNat)

/-- How a symbol that was met is written. -/
def shown : Symbol → Bytes
  | char c => charText c
  | keyword word => Text.quoted word
  | ident name => name
  | literal text => Text.quoted text
  | foreign .absent => bytes "EOF"
  | foreign value => value.shown

/-- How a symbol that was wanted is written: by its kind, unless only one spelling will do. -/
def wanted : Symbol → Bytes
  | char c => charText c
  | keyword word => Text.quoted word
  | ident _ => bytes "ident"
  | literal _ => bytes "string"
  | foreign value => value.kind

end Symbol

def Token.symbol : Token → Symbol
  | .mark m => .char m.toByte
  | .keyword k => .keyword k.word
  | .ident name => .ident name
  | .literal text => .literal text

/-- A symbol stands where the grammar has no place for it. -/
structure Unexpected where
  got : Symbol
  want : List Symbol
  deriving DecidableEq, Repr

def Unexpected.message (u : Unexpected) : Bytes :=
  bytes "unexpected token: " ++ u.got.shown ++ bytes " want: " ++
    Bytes.join (bytes ", ") (u.want.map Symbol.wanted)

end StackLang
