import StackLang.Yaml.BlockScalar
import StackLang.Yaml.Token

namespace StackLang.Yaml

/-- Where a key may have started. `number` counts the tokens before it. A key that is `required` is
a fault without its colon, and one that is `awaited` holds its token back. -/
structure KeyStart where
  possible : Bool
  required : Bool
  awaited : Bool
  number : Nat
  line : Nat
  column : Nat
  deriving DecidableEq, Repr

/-- The input and the tokens read ahead. `indent` is the column of the innermost block, with those
around it in `indents`; `key` may have started in the innermost flow, with those around it in
`outer`; `taken` counts the tokens handed out, and `size` the characters of the whole text. -/
structure TokenStream where
  size : Nat
  input : Input
  indent : Int
  indents : List Int
  keyAllowed : Bool
  key : KeyStart
  outer : List KeyStart
  queue : List PlacedToken
  taken : Nat
  deriving DecidableEq, Repr

namespace TokenStream

def ofInput (input : Input) : TokenStream where
  size := input.ahead.length
  input := input
  indent := -1
  indents := []
  keyAllowed := true
  key := ⟨false, false, false, 0, 0, 0⟩
  outer := []
  queue := []
  taken := 0

def inFlow (s : TokenStream) : Bool :=
  !s.outer.isEmpty

def line (s : TokenStream) : Nat :=
  s.input.cursor.line

def column (s : TokenStream) : Nat :=
  s.input.cursor.column

/-- A fault at the place of the input. -/
def fault {α : Type} (s : TokenStream) (problem : Problem) : Except Fault α :=
  .error (.inToken s.line s.line problem)

/-- The number of the next token. -/
def nextNumber (s : TokenStream) : Nat :=
  s.taken + s.queue.length

def add (s : TokenStream) (token : Token) (line : Nat) : TokenStream :=
  { s with queue := s.queue ++ [⟨token, line⟩] }

/-- Inserts a token in front of the one with a number, or behind all if that was handed out. -/
def insert (s : TokenStream) (number : Nat) (token : Token) (line : Nat) : TokenStream :=
  if number < s.taken then s.add token line
  else
    let ahead := number - s.taken
    { s with queue := s.queue.take ahead ++ ⟨token, line⟩ :: s.queue.drop ahead }

/-- How far behind its start a key may end. -/
def keyReach : Nat := 1024

/-- Whether a colon here would make a key of what started there: it must stand on the same line, and
not too far away. -/
def isKey (s : TokenStream) (key : KeyStart) : Except Fault Bool :=
  if !key.possible then .ok false
  else if key.line < s.line ∨ key.column + keyReach < s.column then
    if key.required then .error (.inToken key.line s.line .noColon) else .ok false
  else .ok true

/-- Gives up the key that may have started. -/
def dropKey (s : TokenStream) : Except Fault TokenStream :=
  if s.key.possible && s.key.required then .error (.inToken s.key.line s.line .noColon)
  else .ok { s with key := { s.key with possible := false } }

/-- Notes that a key may start here. -/
def startKey (s : TokenStream) : Except Fault TokenStream :=
  if s.keyAllowed then do
    let s ← s.dropKey
    let required := !s.inFlow && s.indent == s.column
    .ok { s with key := ⟨true, required, true, s.nextNumber, s.line, s.column⟩ }
  else .ok s

/-- Opens a block at a column, if none is open there. -/
def openBlock (s : TokenStream) (column number : Nat) (token : Token) (line : Nat) :
    Except Fault TokenStream :=
  if s.inFlow || column ≤ s.indent then .ok s
  else if maxNesting ≤ s.indents.length then .error (.inToken s.key.line s.line .tooDeep)
  else .ok ({ s with indent := column, indents := s.indent :: s.indents }.insert number token line)

/-- The block that is left when those deeper than a column are closed, the ones around it, and how
many were closed. -/
def closed (column : Int) : Int → List Int → Int × List Int × Nat
  | indent, [] => (indent, [], 0)
  | indent, next :: indents =>
    if column < indent then
      match closed column next indents with
      | (indent, indents, count) => (indent, indents, count + 1)
    else (indent, next :: indents, 0)

/-- Closes the blocks that are deeper than a column. -/
def closeBlocks (s : TokenStream) (column : Int) : TokenStream :=
  if s.inFlow then s
  else
    match closed column s.indent s.indents with
    | (indent, indents, count) =>
      { s with indent, indents, queue := s.queue ++ List.replicate count ⟨.blockEnd, s.line⟩ }

/-- Ends what a line can hold: all blocks are closed and no key may start. -/
def closeAll (s : TokenStream) : Except Fault TokenStream := do
  let s ← (s.closeBlocks (-1)).dropKey
  .ok { s with keyAllowed := false }

def fetchEnd (s : TokenStream) : Except Fault TokenStream := do
  let line := if s.column = 0 then s.line else s.line + 1
  let s ← { s with input := ⟨[], { s.input.cursor with line, column := 0 }⟩ }.closeAll
  .ok (s.add .streamEnd line)

def fetchDirective (s : TokenStream) : Except Fault TokenStream := do
  let s ← s.closeAll
  let (token, input) ← withinLine (s.input.skip 1) readDirective
  .ok ({ s with input := ← input.advanceBreak }.add token s.line)

def fetchMarker (s : TokenStream) (token : Token) : Except Fault TokenStream := do
  let s ← s.closeAll
  .ok ({ s with input := s.input.skip 3 }.add token s.line)

/-- Adds a token of one character. -/
def addMark (s : TokenStream) (token : Token) : TokenStream :=
  { s.add token s.line with input := s.input.skip 1 }

def openFlow (s : TokenStream) (token : Token) : Except Fault TokenStream := do
  let s ← s.startKey
  if maxNesting ≤ s.outer.length then s.fault .tooDeep
  else
    let key : KeyStart := ⟨false, false, false, s.nextNumber, s.line, s.column⟩
    .ok ({ s with outer := s.key :: s.outer, key, keyAllowed := true }.addMark token)

/-- Leaves a flow. If no key started in it, nothing waits for the key that the flow itself may
be. -/
def leaveFlow (s : TokenStream) : TokenStream :=
  match s.outer with
  | [] => s
  | key :: outer =>
    { s with key := { key with awaited := key.awaited && key.number != s.key.number }, outer }

def closeFlow (s : TokenStream) (token : Token) : Except Fault TokenStream := do
  let s ← s.dropKey
  .ok ({ s.leaveFlow with keyAllowed := false }.addMark token)

def fetchFlowEntry (s : TokenStream) : Except Fault TokenStream := do
  let s ← s.dropKey
  .ok ({ s with keyAllowed := true }.addMark .flowEntry)

/-- Opens a block for an entry here, where one must be allowed. -/
def openHere (s : TokenStream) (token : Token) (problem : Problem) : Except Fault TokenStream :=
  if s.inFlow then .ok s
  else if s.keyAllowed then s.openBlock s.column s.nextNumber token s.line
  else s.fault problem

def fetchBlockEntry (s : TokenStream) : Except Fault TokenStream := do
  let s ← s.openHere .blockSequenceStart .misplacedEntry
  let s ← s.dropKey
  .ok ({ s with keyAllowed := true }.addMark .blockEntry)

def fetchKey (s : TokenStream) : Except Fault TokenStream := do
  let s ← s.openHere .blockMappingStart .misplacedKey
  let s ← s.dropKey
  .ok ({ s with keyAllowed := !s.inFlow }.addMark .key)

/-- A colon: what may have been a key is one now. -/
def fetchValue (s : TokenStream) : Except Fault TokenStream := do
  if ← s.isKey s.key then
    let key := s.key
    let s := s.insert key.number .key key.line
    let s ← s.openBlock key.column key.number .blockMappingStart key.line
    .ok ({ s with key := { key with possible := false }, keyAllowed := false }.addMark .value)
  else
    let s ← s.openHere .blockMappingStart .misplacedValue
    .ok ({ s with keyAllowed := !s.inFlow }.addMark .value)

/-- Starts a token that may be a key and after which no key may start. -/
def startNode (s : TokenStream) : Except Fault TokenStream := do
  let s ← s.startKey
  .ok { s with keyAllowed := false }

def fetchAnchor (s : TokenStream) (token : Bytes → Token) : Except Fault TokenStream := do
  let s ← s.startNode
  let (name, input) ← anchorName (s.input.skip 1)
  .ok ({ s with input }.add (token name) s.line)

def fetchTag (s : TokenStream) : Except Fault TokenStream := do
  let s ← s.startNode
  let (token, input) ← withinLine ((← s.input.want 2).skip 1) readTag
  .ok ({ s with input }.add token s.line)

def fetchBlockScalar (s : TokenStream) (literal : Bool) : Except Fault TokenStream := do
  let s ← s.dropKey
  let (text, input) ← blockScalar literal s.indent (s.input.skip 1)
  .ok ({ s with input, keyAllowed := true }.add (.scalar (toBytes text) false) s.line)

def fetchQuoted (s : TokenStream) (double : Bool) : Except Fault TokenStream := do
  let s ← s.startNode
  let i ← (s.input.skip 1).want markerReach
  let (text, input) ←
    if double then doubleQuoted s.line [] .none none i.cursor i.ahead
    else singleQuoted s.line [] .none i.cursor i.ahead
  .ok ({ s with input }.add (.scalar (toBytes text) false) s.line)

def fetchPlain (s : TokenStream) : Except Fault TokenStream := do
  let s ← s.startNode
  let (text, broken, input) ← plain s.inFlow (s.indent + 1).toNat s.line [] .none s.input.cursor s.input.ahead
  .ok ({ s with input, keyAllowed := broken }.add (.scalar (toBytes text) true) s.line)

/-- Whether a character has a meaning of its own where a token starts. -/
def isIndicator (c : Char) : Bool :=
  ['-', '?', ':', ',', '[', ']', '\x7b', '\x7d', '#', '&', '*', '!', '|', '>', '\'', '"', '%', '@',
    '\x60'].contains c

/-- Whether a plain scalar starts here. -/
def startsPlain (inFlow : Bool) (c : Char) (rest : List Char) : Bool :=
  !(isBlank c || isBreak c || isIndicator c) || (c == '-' && !(rest.head?.any isBlank)) ||
    (!inFlow && (c == '?' || c == ':') && !atGap rest)

/-- The token that starts with a character. -/
def fetchToken (s : TokenStream) (c : Char) (rest : List Char) : Except Fault TokenStream :=
  if c == '[' then s.openFlow .flowSequenceStart
  else if c == '\x7b' then s.openFlow .flowMappingStart
  else if c == ']' then s.closeFlow .flowSequenceEnd
  else if c == '\x7d' then s.closeFlow .flowMappingEnd
  else if c == ',' then s.fetchFlowEntry
  else if c == '-' && atGap rest then s.fetchBlockEntry
  else if c == '?' && (s.inFlow || atGap rest) then s.fetchKey
  else if c == ':' && (s.inFlow || atGap rest) then s.fetchValue
  else if c == '*' then s.fetchAnchor .reference
  else if c == '&' then s.fetchAnchor .anchor
  else if c == '!' then s.fetchTag
  else if c == '|' && !s.inFlow then s.fetchBlockScalar true
  else if c == '>' && !s.inFlow then s.fetchBlockScalar false
  else if c == '\'' then s.fetchQuoted false
  else if c == '"' then s.fetchQuoted true
  else if startsPlain s.inFlow c rest then s.fetchPlain
  else s.fault .noToken

/-- Reads one more token. -/
def fetch (s : TokenStream) : Except Fault TokenStream := do
  let (keyAllowed, input) ← skipToToken s.inFlow .between s.keyAllowed s.input.cursor s.input.ahead
  let input ← input.want markerReach
  let s := { s with keyAllowed, input }.closeBlocks input.cursor.column
  match input.ahead with
  | [] => s.fetchEnd
  | c :: rest =>
    if c == '%' && s.column == 0 then s.fetchDirective
    else if atMarker input.cursor input.ahead then
      s.fetchMarker (if c == '-' then .documentStart else .documentEnd)
    else do
      let s ← s.fetchToken c rest
      if s.queue.getLast?.any (·.token == .blockEntry) then .ok s
      else .ok { s with input := ← skipLineComment s.input }

/-- How many tokens behind the next one are read before it is handed out. -/
def lookahead : Nat := 2

/-- Whether the next token may turn out to be a key. -/
def headMayBeKey (s : TokenStream) : Except Fault Bool :=
  match (s.key :: s.outer).find? fun key => key.possible && key.awaited && key.number == s.taken with
  | some key => s.isKey key
  | none => .ok false

/-- Reads tokens until the next one is known for certain. -/
def fill : Nat → TokenStream → Except Fault TokenStream
  | 0, s => .ok s
  | fuel + 1, s => do
    if s.queue.length ≤ lookahead then fill fuel (← s.fetch)
    else if ← s.headMayBeKey then fill fuel (← s.fetch)
    else .ok s

/-- The next token, and the stream that still holds it. Every token but the end takes a character,
so that the fuel lasts. -/
def peek (s : TokenStream) : Except Fault (PlacedToken × TokenStream) := do
  let s ← fill (s.size + lookahead + 2) s
  .ok (s.queue.head?.getD ⟨.streamEnd, s.line⟩, s)

/-- The stream behind its next token. -/
def next (s : TokenStream) : TokenStream :=
  { s with queue := s.queue.tail, taken := s.taken + 1 }

end TokenStream

end StackLang.Yaml
