import StackLang.Yaml.Cursor

namespace StackLang.Yaml

/-- What becomes of the line breaks at the end of a block scalar. -/
inductive Chomping where
  | strip
  | clip
  | keep
  deriving DecidableEq, Repr

/-- What stands behind the start of a block scalar; the indentation is zero if it is not given. -/
structure BlockHeader where
  chomping : Chomping
  indent : Nat
  deriving DecidableEq, Repr

namespace BlockHeader

def chomping? (text : List Char) : Option (Chomping × List Char) :=
  match text with
  | '+' :: rest => some (.keep, rest)
  | '-' :: rest => some (.strip, rest)
  | _ => none

def digit? (text : List Char) : Option (Nat × List Char) :=
  match text with
  | c :: rest => if '0' ≤ c ∧ c ≤ '9' then some (c.toNat - 0x30, rest) else none
  | [] => none

/-- The two marks in either order. -/
def read (text : List Char) : BlockHeader × List Char :=
  match chomping? text with
  | some (chomping, rest) =>
    match digit? rest with
    | some (indent, rest) => (⟨chomping, indent⟩, rest)
    | none => (⟨chomping, 0⟩, rest)
  | none =>
    match digit? text with
    | some (indent, rest) =>
      match chomping? rest with
      | some (chomping, rest) => (⟨chomping, indent⟩, rest)
      | none => (⟨.clip, indent⟩, rest)
    | none => (⟨.clip, 0⟩, text)

/-- Whether the indentation is given as zero. -/
def givesZero (text : List Char) : Bool :=
  match text with
  | '+' :: '0' :: _ => true
  | '-' :: '0' :: _ => true
  | '0' :: _ => true
  | _ => false

end BlockHeader

/-- A block scalar being read. Its indentation is zero until a line shows it. `lead` is the line
break of the line before, `trail` the empty lines behind it, latest first; `widest` is the widest of
the empty lines at the front, and `shifted` says that the line before starts with a blank. -/
structure BlockText where
  literal : Bool
  chomping : Chomping
  least : Nat
  indent : Nat
  read : List Char
  lead : Option Char
  trail : List Char
  widest : Nat
  shifted : Bool

namespace BlockText

/-- The whole text at the end of the scalar. -/
def close (b : BlockText) : List Char :=
  let kept := match b.chomping with
    | .strip => b.read
    | .clip => b.lead.toList ++ b.read
    | .keep => b.trail ++ b.lead.toList ++ b.read
  kept.reverse

/-- The indentation, if the next line that is not empty starts at `column`. -/
def settled (b : BlockText) (column : Nat) : Nat :=
  if b.indent = 0 then max (max b.widest column) (max b.least 1) else b.indent

/-- Whether a blank at `column` belongs to the indentation. -/
def indents (b : BlockText) (column : Nat) : Bool :=
  b.indent == 0 || column < b.indent

/-- Starts a line with a character. -/
def startLine (b : BlockText) (indent : Nat) (c : Char) : BlockText :=
  let folded := !b.literal && !b.shifted && !isBlank c && b.lead == some '\n'
  let read := if folded then if b.trail.isEmpty then ' ' :: b.read else b.read
    else b.lead.toList ++ b.read
  { b with indent, read := c :: (b.trail ++ read), lead := none, trail := [], shifted := isBlank c }

/-- The rest of a block scalar, inside a line or before one. -/
def scan (origin : Nat) (inLine : Bool) (b : BlockText) (cursor : Cursor) :
    List Char → Except Fault (List Char × Input)
  | [] => .ok (b.close, ⟨[], cursor⟩)
  | c :: rest =>
    if isBreak c then do
      let b :=
        if inLine then { b with lead := some (breakText c) }
        else { b with trail := breakText c :: b.trail, widest := max b.widest cursor.column }
      scan origin false b (← cursor.stepLine c rest) rest
    else if inLine then do scan origin true { b with read := c :: b.read } (← cursor.step c rest) rest
    else if c == ' ' && b.indents cursor.column then do scan origin false b (← cursor.step c rest) rest
    else if c == '\t' && b.indents cursor.column then .error (.inToken origin cursor.line .tabInBlock)
    else if cursor.column = b.settled cursor.column then do
      scan origin true (b.startLine cursor.column c) (← cursor.step c rest) rest
    else .ok (b.close, ⟨c :: rest, cursor⟩)

end BlockText

/-- A block scalar behind its first character, in a block that is indented by `indent`. -/
def blockScalar (literal : Bool) (indent : Int) (i : Input) : Except Fault (List Char × Input) := do
  let origin := i.cursor.line
  if BlockHeader.givesZero i.ahead then .error (.inToken origin origin .zeroIndent)
  else
    let (header, rest) := BlockHeader.read i.ahead
    let i ← (← i.advanceTo rest).advanceWhile isBlank
    let i ← if i.startsWith '#' then i.advanceLine else .ok i
    if atBreak i.ahead then
      let i ← i.advanceBreak
      let given := if header.indent = 0 then 0 else (max indent 0).toNat + header.indent
      BlockText.scan origin false ⟨literal, header.chomping, (indent + 1).toNat, given, [], none, [], 0, false⟩
        i.cursor i.ahead
    else .error (.inToken origin origin .noLineEnd)

end StackLang.Yaml
