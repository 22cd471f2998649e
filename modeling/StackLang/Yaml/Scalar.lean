import StackLang.Yaml.Cursor

namespace StackLang.Yaml

/-- Blanks and line breaks inside a scalar, latest first. Blanks around a line break do not count,
and the first line break may have been escaped. -/
inductive Gap where
  | none
  | blanks (read : List Char)
  | breaks (first : Option Char) (more : List Char)
  deriving DecidableEq, Repr

namespace Gap

def hasBreak : Gap → Bool
  | breaks _ _ => true
  | _ => false

/-- The gap with one more blank or line break. -/
def add (g : Gap) (c : Char) : Gap :=
  match g with
  | breaks first more => if isBreak c then breaks first (breakText c :: more) else g
  | blanks read => if isBreak c then breaks (some (breakText c)) [] else blanks (c :: read)
  | none => if isBreak c then breaks (some (breakText c)) [] else blanks [c]

/-- The text of a scalar, latest character first, with the gap behind it. -/
def close (g : Gap) (read : List Char) : List Char :=
  match g with
  | none => read
  | blanks between => between ++ read
  | breaks (some '\n') [] => ' ' :: read
  | breaks (some '\n') more => more ++ read
  | breaks (some c) more => more ++ c :: read
  | breaks Option.none more => more ++ read

end Gap

/-- Whether a character ends a plain scalar inside a flow. -/
def isFlowMark (c : Char) : Bool :=
  c == ',' || c == '?' || c == '[' || c == ']' || c == '\x7b' || c == '\x7d'

/-- Whether a plain scalar ends at a character. -/
def endsPlain (inFlow : Bool) (c : Char) (rest : List Char) : Bool :=
  (c == ':' && atGap rest) || (inFlow && isFlowMark c)

/-- How many characters are looked at where a line of a scalar may start with a document marker. -/
def markerReach : Nat := 4

/-- The rest of a plain scalar that starts at line `origin`. Outside of flows its lines are indented
by `indent` at least. Gives whether a line break ended it. -/
def plain (inFlow : Bool) (indent origin : Nat) (read : List Char) (gap : Gap) (cursor : Cursor) :
    List Char → Except Fault (List Char × Bool × Input)
  | [] => do
    let goesOn := gap != .none && (inFlow || indent ≤ cursor.column)
    let cursor ← if goesOn then cursor.want markerReach [] else .ok cursor
    .ok (read.reverse, gap.hasBreak, ⟨[], cursor⟩)
  | c :: rest =>
    if isBreak c then do
      plain inFlow indent origin read (gap.add c) (← cursor.stepLine c rest) rest
    else if isBlank c then
      if gap.hasBreak && c == '\t' && cursor.column < indent then .error (.inToken origin cursor.line .tabInPlain)
      else do plain inFlow indent origin read (gap.add c) (← cursor.step c rest) rest
    else if gap != .none && !inFlow && cursor.column < indent then
      .ok (read.reverse, gap.hasBreak, ⟨c :: rest, cursor⟩)
    else do
      let startsRun := read.isEmpty || gap != .none
      let cursor ← if startsRun then cursor.want markerReach (c :: rest) else .ok cursor
      if endsPlain inFlow c rest || (gap != .none && (c == '#' || atMarker cursor (c :: rest))) then
        .ok (read.reverse, gap.hasBreak, ⟨c :: rest, cursor⟩)
      else plain inFlow indent origin (c :: gap.close read) .none (← (cursor.after c).want 2 rest) rest

/-- The rest of a scalar in single quotes, in which a quote is written twice. -/
def singleQuoted (origin : Nat) (read : List Char) (gap : Gap) (cursor : Cursor) :
    List Char → Except Fault (List Char × Input)
  | [] => .error (.inToken origin cursor.line .endInQuotes)
  | c :: rest =>
    if isBreak c then do singleQuoted origin read (gap.add c) (← cursor.stepLine c rest) rest
    else if isBlank c then do singleQuoted origin read (gap.add c) (← cursor.step c rest) rest
    else do
      let cursor ← if gap = .none then .ok cursor else cursor.want markerReach (c :: rest)
      if atMarker cursor (c :: rest) then .error (.inToken origin cursor.line .markerInQuotes)
      else if c == '\'' then
        match rest with
        | '\'' :: rest =>
          singleQuoted origin ('\'' :: gap.close read) .none (← ((cursor.after c).after '\'').want 2 rest) rest
        | rest => .ok ((gap.close read).reverse, ⟨rest, cursor.after c⟩)
      else singleQuoted origin (c :: gap.close read) .none (← (cursor.after c).want 2 rest) rest

def hexDigit? (c : Char) : Option Nat :=
  if '0' ≤ c ∧ c ≤ '9' then some (c.toNat - 0x30)
  else if 'a' ≤ c ∧ c ≤ 'f' then some (c.toNat - 0x57)
  else if 'A' ≤ c ∧ c ≤ 'F' then some (c.toNat - 0x37)
  else none

/-- The character that a letter after a backslash stands for. -/
def escape? (c : Char) : Option Char :=
  match c with
  | '0' => some '\x00'
  | 'a' => some '\x07'
  | 'b' => some '\x08'
  | 't' => some '\t'
  | '\t' => some '\t'
  | 'n' => some '\n'
  | 'v' => some '\x0b'
  | 'f' => some '\x0c'
  | 'r' => some '\r'
  | 'e' => some '\x1b'
  | ' ' => some ' '
  | '"' => some '"'
  | '\'' => some '\''
  | '\\' => some '\\'
  | 'N' => some '\u0085'
  | '_' => some '\u00A0'
  | 'L' => some '\u2028'
  | 'P' => some '\u2029'
  | _ => none

/-- How many digits a numeric escape has. -/
def escapeDigits? (c : Char) : Option Nat :=
  match c with
  | 'x' => some 2
  | 'u' => some 4
  | 'U' => some 8
  | _ => none

/-- The character with a number, if there is one. -/
def charOf? (n : Nat) : Option Char :=
  if n ≤ 0x10FFFF ∧ ¬ (0xD800 ≤ n ∧ n ≤ 0xDFFF) then some (Char.ofNat n) else none

/-- The rest of a scalar in double quotes. `code` is a numeric escape that is being read: the number
of its digits still to come and its value so far. -/
def doubleQuoted (origin : Nat) (read : List Char) (gap : Gap) (code : Option (Nat × Nat))
    (cursor : Cursor) :
    List Char → Except Fault (List Char × Input)
  | [] => .error (.inToken origin cursor.line (if code.isSome then .noHexDigit else .endInQuotes))
  | c :: rest =>
    match code with
    | some (left, value) =>
      match hexDigit? c with
      | none => .error (.inToken origin cursor.line .noHexDigit)
      | some digit =>
        let value := value * 16 + digit
        if 1 < left then doubleQuoted origin read .none (some (left - 1, value)) (cursor.after c) rest
        else
          match charOf? value with
          | some decoded => do
            doubleQuoted origin (decoded :: read) .none none (← (cursor.after c).want 2 rest) rest
          | none => .error (.inToken origin cursor.line .escapedNonCharacter)
    | none =>
      if isBreak c then do doubleQuoted origin read (gap.add c) none (← cursor.stepLine c rest) rest
      else if isBlank c then do doubleQuoted origin read (gap.add c) none (← cursor.step c rest) rest
      else do
        let cursor ← if gap = .none then .ok cursor else cursor.want markerReach (c :: rest)
        if atMarker cursor (c :: rest) then .error (.inToken origin cursor.line .markerInQuotes)
        else if c == '"' then .ok ((gap.close read).reverse, ⟨rest, cursor.after c⟩)
        else if c == '\\' then
          match rest with
          | [] => .error (.inToken origin cursor.line .unknownEscape)
          | e :: rest =>
            let read := gap.close read
            if isBreak e then
              let cursor ← cursor.want 3 (c :: e :: rest)
              doubleQuoted origin read (.breaks none []) none (← (cursor.after c).step e rest) rest
            else
              let behind := (cursor.after c).after e
              match escapeDigits? e with
              | some count =>
                doubleQuoted origin read .none (some (count, 0)) (← behind.want count rest) rest
              | none =>
                match escape? e with
                | some decoded =>
                  doubleQuoted origin (decoded :: read) .none none (← behind.want 2 rest) rest
                | none => .error (.inToken origin cursor.line .unknownEscape)
        else doubleQuoted origin (c :: gap.close read) .none none (← (cursor.after c).want 2 rest) rest

end StackLang.Yaml
