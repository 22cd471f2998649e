import StackLang.Yaml.TokenStream
import StackLang.Yaml.Value

namespace StackLang.Yaml

/-- A node with its line, which counts from one, and its tag. -/
inductive Node where
  | scalar (line : Nat) (tag text : Bytes)
  | sequence (line : Nat) (tag : Bytes) (items : List Node)
  | mapping (line : Nat) (tag : Bytes) (pairs : List (Node × Node))
  | reference (line : Nat) (name : Bytes) (number target : Nat)
  deriving Repr

/-- A document: its root, its anchored nodes, and how many aliases it has. -/
structure Document where
  root : Node
  anchored : List (Nat × Node)
  references : Nat
  deriving Repr

/-- The node that an alias stands for. -/
def Document.target? (d : Document) (target : Nat) : Option Node :=
  (d.anchored.find? (·.1 == target)).map (·.2)

/-- A document being read: its tag handles, the number that each anchor stands for, latest first,
the anchored nodes that are complete, and the number of aliases so far. -/
structure Reading where
  stream : TokenStream
  handles : List (Bytes × Bytes)
  anchors : List (Bytes × Nat)
  anchored : List (Nat × Node)
  references : Nat

abbrev Reader := StateT Reading (Except Fault)

namespace Reader

def peek : Reader PlacedToken := do
  let r ← get
  let (token, stream) ← r.stream.peek
  set { r with stream }
  return token

def next : Reader Unit :=
  modify fun r => { r with stream := r.stream.next }

/-- What stands in front of a node. -/
structure Properties where
  anchor : Option Bytes
  tag : Option (Nat × Bytes × Bytes)

/-- An anchor and a tag in either order. -/
def properties : Reader Properties := do
  let first ← peek
  match first.token with
  | .anchor name =>
    next
    let second ← peek
    match second.token with
    | .tag handle suffix =>
      next
      return ⟨some name, some (second.line, handle, suffix)⟩
    | _ => return ⟨some name, none⟩
  | .tag handle suffix =>
    next
    match (← peek).token with
    | .anchor name =>
      next
      return ⟨some name, some (first.line, handle, suffix)⟩
    | _ => return ⟨none, some (first.line, handle, suffix)⟩
  | _ => return ⟨none, none⟩

/-- The tag of a node that starts at a line. It is empty if the node has none, or only the mark. -/
def fullTag (line : Nat) (p : Properties) : Reader Bytes := do
  match p.tag with
  | none => return []
  | some (tagLine, handle, suffix) =>
    if handle.isEmpty then return if suffix = bytes "!" then [] else Tag.short suffix
    else
      match (← get).handles.find? (·.1 == handle) with
      | some (_, meaning) => return Tag.short (meaning ++ suffix)
      | none => throw (.inNode line tagLine .unknownHandle)

/-- Gives an anchored node its number, before its content is read. -/
def announce (anchor : Option Bytes) : Reader (Option Nat) := do
  match anchor with
  | none => return none
  | some name =>
    let r ← get
    let number := r.anchors.length
    set { r with anchors := (name, number) :: r.anchors }
    return some number

/-- Keeps an anchored node. -/
def complete (number : Option Nat) (node : Node) : Reader Node := do
  match number with
  | none => return node
  | some number =>
    modify fun r => { r with anchored := (number, node) :: r.anchored }
    return node

/-- An alias of the node that a name stands for at this place. -/
def refer (line : Nat) (name : Bytes) : Reader Node := do
  let r ← get
  match r.anchors.find? (·.1 == name) with
  | some (_, target) =>
    set { r with references := r.references + 1 }
    return .reference (line + 1) name r.references target
  | none => throw (.whole (.unknownAnchor name))

/-- A node without a text. -/
def empty (line : Nat) : Node := .scalar (line + 1) Tag.null []

/-- A scalar; without a tag, a plain one is tagged by its text. -/
def scalarOf (line : Nat) (tag text : Bytes) (plain : Bool) : Node :=
  let ownTag := if plain then Value.plainTag text else Tag.string
  .scalar (line + 1) (if tag.isEmpty then ownTag else tag) text

def sequenceOf (line : Nat) (tag : Bytes) (items : List Node) : Node :=
  .sequence (line + 1) (if tag.isEmpty then Tag.sequence else tag) items

def mappingOf (line : Nat) (tag : Bytes) (pairs : List (Node × Node)) : Node :=
  .mapping (line + 1) (if tag.isEmpty then Tag.mapping else tag) pairs

/-- A node that an anchor or a tag alone makes. -/
def propertiesAlone (line : Nat) (p : Properties) (tag : Bytes) : Reader Node := do
  if p.anchor.isNone && p.tag.isNone then
    throw (.inNode line (← peek).line .noContent)
  else complete (← announce p.anchor) (scalarOf line tag [] true)

/-- Whether the next token is one of some. -/
def nextIs (tokens : List Token) : Reader Bool := do
  return tokens.contains (← peek).token

mutual

/-- A node. Blocks are read only where `block` says so, and the entries of a sequence may stand as
far left as the key before them where `indentless` says so. -/
def node : Nat → Bool → Bool → Reader Node
  | 0, _, _ => throw (.whole .noContent)
  | fuel + 1, block, indentless => do
    let start ← peek
    match start.token with
    | .reference name =>
      next
      refer start.line name
    | _ =>
      let p ← properties
      let first ← peek
      let tag ← fullTag start.line p
      match first.token, block, indentless with
      | .scalar text plain, _, _ =>
        next
        complete (← announce p.anchor) (scalarOf start.line tag text plain)
      | .flowSequenceStart, _, _ =>
        next
        let number ← announce p.anchor
        complete number (sequenceOf start.line tag (← flowItems fuel first.line true))
      | .flowMappingStart, _, _ =>
        next
        let number ← announce p.anchor
        complete number (mappingOf start.line tag (← flowPairs fuel first.line true))
      | .blockEntry, _, true =>
        let number ← announce p.anchor
        complete number (sequenceOf start.line tag (← indentlessItems fuel))
      | .blockSequenceStart, true, _ =>
        next
        let number ← announce p.anchor
        complete number (sequenceOf start.line tag (← blockItems fuel first.line))
      | .blockMappingStart, true, _ =>
        next
        let number ← announce p.anchor
        complete number (mappingOf start.line tag (← blockPairs fuel first.line))
      | _, _, _ => propertiesAlone start.line p tag

/-- The items of a sequence in a flow that starts at line `origin`. A key makes a mapping of one
pair. -/
def flowItems : Nat → Nat → Bool → Reader (List Node)
  | 0, _, _ => throw (.whole .noContent)
  | fuel + 1, origin, first => do
    if ← nextIs [.flowSequenceEnd] then
      next
      return []
    let separator ← peek
    if !first then
      if separator.token = .flowEntry then next
      else throw (.inNode origin separator.line .noSequenceEnd)
    let start ← peek
    match start.token with
    | .flowSequenceEnd =>
      next
      return []
    | .key =>
      next
      let place ← peek
      let skipped ← nextIs [.value, .flowEntry, .flowSequenceEnd]
      if skipped then next
      let key ← if skipped then pure (empty place.line) else node fuel false false
      let value ← pairValue fuel false [.flowEntry, .flowSequenceEnd]
      return mappingOf start.line [] [(key, value)] :: (← flowItems fuel origin false)
    | _ =>
      let item ← node fuel false false
      return item :: (← flowItems fuel origin false)

/-- The pairs of a mapping in a flow that starts at line `origin`. -/
def flowPairs : Nat → Nat → Bool → Reader (List (Node × Node))
  | 0, _, _ => throw (.whole .noContent)
  | fuel + 1, origin, first => do
    if ← nextIs [.flowMappingEnd] then
      next
      return []
    let separator ← peek
    if !first then
      if separator.token = .flowEntry then next
      else throw (.inNode origin separator.line .noMappingEnd)
    match (← peek).token with
    | .flowMappingEnd =>
      next
      return []
    | .key =>
      next
      let place ← peek
      let key ←
        if ← nextIs [.value, .flowEntry, .flowMappingEnd] then pure (empty place.line)
        else node fuel false false
      let value ← pairValue fuel false [.flowEntry, .flowMappingEnd]
      return (key, value) :: (← flowPairs fuel origin false)
    | _ =>
      let key ← node fuel false false
      let place ← peek
      return (key, empty place.line) :: (← flowPairs fuel origin false)

/-- The items of a sequence in a block that starts at line `origin`. -/
def blockItems : Nat → Nat → Reader (List Node)
  | 0, _ => throw (.whole .noContent)
  | fuel + 1, origin => do
    let place ← peek
    match place.token with
    | .blockEntry =>
      next
      let item ←
        if ← nextIs [.blockEntry, .blockEnd] then pure (empty place.line)
        else node fuel true false
      return item :: (← blockItems fuel origin)
    | .blockEnd =>
      next
      return []
    | _ => throw (.inNode origin place.line .noEntry)

/-- The items of a sequence that has no block of its own. -/
def indentlessItems : Nat → Reader (List Node)
  | 0 => throw (.whole .noContent)
  | fuel + 1 => do
    let place ← peek
    match place.token with
    | .blockEntry =>
      next
      let item ←
        if ← nextIs [.blockEntry, .key, .value, .blockEnd] then pure (empty place.line)
        else node fuel true false
      return item :: (← indentlessItems fuel)
    | _ => return []

/-- The pairs of a mapping in a block that starts at line `origin`. -/
def blockPairs : Nat → Nat → Reader (List (Node × Node))
  | 0, _ => throw (.whole .noContent)
  | fuel + 1, origin => do
    let place ← peek
    match place.token with
    | .key =>
      next
      let key ←
        if ← nextIs [.key, .value, .blockEnd] then pure (empty place.line)
        else node fuel true true
      let value ← pairValue fuel true [.key, .value, .blockEnd]
      return (key, value) :: (← blockPairs fuel origin)
    | .blockEnd =>
      next
      return []
    | _ => throw (.inNode origin place.line .noKey)

/-- The value of a pair, which is empty where one of `ends` follows. -/
def pairValue : Nat → Bool → List Token → Reader Node
  | 0, _, _ => throw (.whole .noContent)
  | fuel + 1, block, ends => do
    let place ← peek
    if place.token = .value then
      next
      if ← nextIs ends then return empty place.line
      else node fuel block block
    else return empty place.line

end

/-- The handles that every document has. -/
def ownHandles : List (Bytes × Bytes) :=
  [(bytes "!", bytes "!"), (bytes "!!", Tag.ownLead)]

/-- Reads directives. A version must be the known one and may be given once; so may each handle. -/
def directives : Nat → Bool → Reader Unit
  | 0, _ => return ()
  | fuel + 1, versionGiven => do
    let place ← peek
    match place.token with
    | .version major minor =>
      if versionGiven then throw (.inNode 0 place.line .repeatedVersion)
      else if major = 1 ∧ minor = 1 then
        next
        directives fuel true
      else throw (.inNode 0 place.line .wrongVersion)
    | .tagHandle handle meaning =>
      if (← get).handles.any (·.1 == handle) then throw (.inNode 0 place.line .repeatedHandle)
      else
        modify fun r => { r with handles := r.handles ++ [(handle, meaning)] }
        next
        directives fuel versionGiven
    | _ => return ()

/-- Whether a token belongs in front of a document. -/
def isHeading : Token → Bool
  | .version _ _ | .tagHandle _ _ | .documentStart => true
  | _ => false

/-- The root of a document behind its start marker. -/
def content (fuel : Nat) : Reader Node := do
  let place ← peek
  if isHeading place.token || place.token = .documentEnd || place.token = .streamEnd then return empty place.line
  else node fuel true false

/-- The root of the first document, if there is one. A document that has directives also has a start
marker. What follows the next token behind the document is not looked at. -/
def firstRoot (fuel : Nat) : Reader (Option Node) := do
  let first ← peek
  if first.token = .streamEnd then return none
  else
    if isHeading first.token then
      directives fuel false
      let place ← peek
      if place.token = .documentStart then next else throw (.inNode 0 place.line .noDocumentStart)
    modify fun r => { r with handles := r.handles ++ ownHandles }
    let root ← if isHeading first.token then content fuel else node fuel true false
    let _ ← peek
    return some root

end Reader

namespace Document

/-- How many steps reading a text may take: no character makes more than a few tokens. -/
def readFuel (input : Input) : Nat :=
  10 * input.ahead.length + 10

/-- The first document of a text. An empty text is an empty line. -/
def parse (text : Bytes) : Except Fault (Option Document) := do
  let input := Input.ofBytes (if text.isEmpty then [Ascii.newline] else text)
  let (root?, r) ← (Reader.firstRoot (readFuel input)).run ⟨.ofInput input, [], [], [], 0⟩
  return root?.map (⟨·, r.anchored, r.references⟩)

end Document

end StackLang.Yaml
