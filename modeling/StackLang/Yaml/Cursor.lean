import StackLang.Yaml.Characters

namespace StackLang.Yaml

def isBlank (c : Char) : Bool :=
  c == ' ' || c == '\t'

/-- Whether a character ends a line. A carriage return includes the line feed behind it. -/
def isBreak (c : Char) : Bool :=
  c == '\n' || c == '\r' || c == '\u0085' || c == '\u2028' || c == '\u2029'

/-- A line break as it is read into a text: separators are kept, all others are line feeds. -/
def breakText (c : Char) : Char :=
  if c == '\u2028' || c == '\u2029' then c else '\n'

/-- Whether a blank, a line break or the end follows. -/
def atGap : List Char → Bool
  | [] => true
  | c :: _ => isBlank c || isBreak c

/-- Whether a line break or the end follows. -/
def atBreak : List Char → Bool
  | [] => true
  | c :: _ => isBreak c

/-- `marked` says that the window starts with a byte order mark. -/
structure Cursor where
  line : Nat
  column : Nat
  fresh : Bool
  loaded : Nat
  marked : Bool
  supply : List Supply
  deriving DecidableEq, Repr

namespace Cursor

def start (supply : List Supply) : Cursor := ⟨0, 0, false, 0, false, supply⟩

/-- Loads pieces until `count` characters are there. The end of the text counts as a character, and
once more each time that it is reached. -/
def load (count loaded : Nat) : List Supply → Except Fault (Nat × List Supply)
  | [] => .ok (loaded + 1, [])
  | .failure problem :: _ => .error (.whole problem)
  | .piece more :: supply =>
    if count ≤ loaded + more then .ok (loaded + more, supply) else load count (loaded + more) supply

/-- Makes sure that `count` characters of the text ahead are loaded. -/
def want (cursor : Cursor) (count : Nat) (ahead : List Char) : Except Fault Cursor :=
  if count ≤ cursor.loaded then .ok cursor
  else
    match load count cursor.loaded cursor.supply with
    | .ok (loaded, supply) =>
      .ok { cursor with loaded, supply, marked := ahead.head? == some '\uFEFF' }
    | .error fault => .error fault

/-- The cursor behind a character inside a line. -/
def pass (cursor : Cursor) (c : Char) : Cursor :=
  { cursor with column := cursor.column + 1, fresh := cursor.fresh && isBlank c, loaded := cursor.loaded - 1 }

/-- The cursor behind a character. -/
def after (cursor : Cursor) (c : Char) : Cursor :=
  if isBreak c then
    let width := if c == '\r' then 2 else 1
    { cursor with line := cursor.line + 1, column := 0, fresh := true, loaded := cursor.loaded - width }
  else cursor.pass c

/-- Moves behind a character and looks at the next one. -/
def step (cursor : Cursor) (c : Char) (rest : List Char) : Except Fault Cursor :=
  (cursor.after c).want 1 rest

/-- Moves behind a line break. -/
def stepLine (cursor : Cursor) (c : Char) (rest : List Char) : Except Fault Cursor := do
  (← cursor.want 2 (c :: rest)).step c rest

/-- Whether the character at the cursor is dropped. While the window starts with a byte order mark,
the first character of every line is taken for one. -/
def dropsFirst (cursor : Cursor) : Bool :=
  cursor.column == 0 && cursor.marked

end Cursor

/-- What is left of a text, and where it starts. -/
structure Input where
  ahead : List Char
  cursor : Cursor
  deriving DecidableEq, Repr

namespace Input

def ofBytes (text : Bytes) : Input :=
  ⟨characters text, .start (Supply.ofBytes text)⟩

def want (i : Input) (count : Nat) : Except Fault Input := do
  .ok { i with cursor := ← i.cursor.want count i.ahead }

/-- The input behind the next `n` characters, which are loaded. -/
def skip (i : Input) : Nat → Input
  | 0 => i
  | n + 1 =>
    match i.ahead with
    | [] => i
    | c :: rest => skip ⟨rest, i.cursor.after c⟩ n

/-- Moves behind the next `n` characters one by one. -/
def advance (i : Input) : Nat → Except Fault Input
  | 0 => i.want 1
  | n + 1 =>
    match i.ahead with
    | [] => i.want 1
    | c :: rest => do advance ⟨rest, ← i.cursor.step c rest⟩ n

/-- Moves on to `rest`, which ends the text of this input. -/
def advanceTo (i : Input) (rest : List Char) : Except Fault Input :=
  i.advance (i.ahead.length - rest.length)

/-- Moves to the first character that `drop` does not hold of. -/
def advanceWhile (i : Input) (drop : Char → Bool) : Except Fault Input :=
  i.advance (i.ahead.takeWhile drop).length

/-- Moves to the end of the line. -/
def advanceLine (i : Input) : Except Fault Input :=
  i.advanceWhile (!isBreak ·)

/-- Moves behind a line break, if there is one. -/
def advanceBreak (i : Input) : Except Fault Input := do
  match i.ahead with
  | c :: rest => if isBreak c then .ok ⟨rest, ← i.cursor.stepLine c rest⟩ else .ok i
  | [] => .ok i

def startsWith (i : Input) (c : Char) : Bool :=
  i.ahead.head? == some c

end Input

/-- Whether a document marker stands at the front of a line. -/
def atMarker (cursor : Cursor) (text : List Char) : Bool :=
  cursor.column == 0 && (text.take 3 == ['-', '-', '-'] || text.take 3 == ['.', '.', '.']) && atGap (text.drop 3)

/-- How far one looks ahead for a comment. -/
def commentReach : Nat := 512

/-- Looks for a comment behind blanks and line feeds, from a distance on. Gives how far one has to
look, and whether there is one. -/
def lookForComment (distance : Nat) : List Char → Nat × Bool
  | [] => (min commentReach (distance + 1), false)
  | c :: rest =>
    if commentReach ≤ distance then (commentReach, false)
    else if isBlank c || c == '\n' then lookForComment (distance + 1) rest
    else if c == '\r' then lookForComment (distance + 2) rest
    else if isBreak c then (min commentReach (distance + 2), false)
    else (distance + 1, c == '#')

/-- Looks for a comment behind a line break. Behind a separator or a next line there is none to
find. -/
def commentBehind (c : Char) (rest : List Char) : Nat × Bool :=
  if c == '\n' then lookForComment 1 rest
  else if c == '\r' then lookForComment 2 rest
  else (2, false)

/-- Where the search for the next token is: between tokens, in a comment, or on the way from one
comment to the next. -/
inductive Search where
  | between
  | inComment
  | toComment
  deriving DecidableEq, Repr

/-- Skips what stands before the next token. A line break outside of flows lets a key start, and
where a key may start tabs do not indent, except on the way to another comment. Gives whether a key
may start. -/
def skipToToken (inFlow : Bool) (search : Search) (keyAllowed : Bool) (cursor : Cursor) :
    List Char → Except Fault (Bool × Input)
  | [] => do
    let cursor ← cursor.want (if search = .between then 1 else 2) []
    if cursor.dropsFirst then .ok (keyAllowed, ⟨[], ← (cursor.pass '\x00').want 1 []⟩)
    else .ok (keyAllowed, ⟨[], cursor⟩)
  | c :: rest => do
    let cursor ← cursor.want 1 (c :: rest)
    match search with
    | .between =>
      if cursor.dropsFirst then
        if c == '\r' then
          let cursor ← (cursor.pass c).want 2 ('\n' :: rest)
          skipToToken inFlow .between (keyAllowed || !inFlow) (cursor.after '\n') rest
        else skipToToken inFlow .between keyAllowed (cursor.pass c) rest
      else if c == ' ' || (c == '\t' && (inFlow || !keyAllowed)) then
        skipToToken inFlow .between keyAllowed (cursor.after c) rest
      else if c == '#' then skipToToken inFlow .inComment keyAllowed (cursor.after c) rest
      else if isBreak c then
        let cursor ← cursor.want 2 (c :: rest)
        skipToToken inFlow .between (keyAllowed || !inFlow) (cursor.after c) rest
      else .ok (keyAllowed, ⟨c :: rest, cursor⟩)
    | .inComment =>
      if !isBreak c then skipToToken inFlow .inComment keyAllowed (cursor.after c) rest
      else
        let (reach, found) := commentBehind c rest
        let cursor ← cursor.want reach (c :: rest)
        if found then skipToToken inFlow .toComment keyAllowed (cursor.after c) rest
        else skipToToken inFlow .between (keyAllowed || !inFlow) (cursor.after c) rest
    | .toComment =>
      let search := if c == '#' then Search.inComment else .toComment
      skipToToken inFlow search keyAllowed (cursor.after c) rest

/-- Skips a comment on the line of the token before it. -/
def skipLineComment (i : Input) : Except Fault Input := do
  if i.cursor.fresh then .ok i
  else
    let blanks := (i.ahead.takeWhile isBlank).length
    let i ← i.want (min commentReach (blanks + 1))
    let comment := i.skip blanks
    if blanks < commentReach && comment.startsWith '#' then comment.advanceLine else .ok i

end StackLang.Yaml
