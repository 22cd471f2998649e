import StackLang.Text.Quoted
import StackLang.Yaml.Node

namespace StackLang.Yaml

/-- A node that is not what was asked for. -/
inductive Mismatch where
  | wrongType (line : Nat) (tag text : Bytes) (wanted : Bytes)
  | repeatedKey (line : Nat) (name : Bytes) (first : Nat)
  | repeatedField (line : Nat) (name record : Bytes)
  deriving DecidableEq, Repr

namespace Mismatch

/-- A scalar as a message shows it, cut if it is long. -/
def shown (text : Bytes) : Bytes :=
  if 10 < text.length then bytes " `" ++ text.take 7 ++ bytes "...`"
  else bytes " `" ++ text ++ bytes "`"

def message : Mismatch → Bytes
  | wrongType line tag text wanted =>
    let value := if tag = Tag.sequence ∨ tag = Tag.mapping then text else shown text
    bytes "line " ++ Text.decimal line ++ bytes ": cannot unmarshal " ++ tag ++ value ++
      bytes " into " ++ wanted
  | repeatedKey line name first =>
    bytes "line " ++ Text.decimal line ++ bytes ": mapping key " ++ Text.quoted name ++
      bytes " already defined at line " ++ Text.decimal first
  | repeatedField line name record =>
    bytes "line " ++ Text.decimal line ++ bytes ": field " ++ name ++
      bytes " already set in type " ++ record

end Mismatch

inductive Error where
  | malformed (fault : Fault)
  | mismatched (mismatches : List Mismatch)
  deriving DecidableEq, Repr

def Error.message : Error → Bytes
  | malformed fault => fault.message
  | mismatched mismatches =>
    bytes "yaml: unmarshal errors:\n  " ++
      Bytes.join (bytes "\n  ") (mismatches.map Mismatch.message)

namespace Node

def line : Node → Nat
  | scalar line _ _ => line
  | sequence line _ _ => line
  | mapping line _ _ => line
  | reference line _ _ _ => line

/-- What a node says by itself, without what it contains. -/
def ownText : Node → Bytes
  | scalar _ _ text => text
  | reference _ name _ _ => name
  | _ => []

def sameKind : Node → Node → Bool
  | scalar _ _ _, scalar _ _ _ => true
  | sequence _ _ _, sequence _ _ _ => true
  | mapping _ _ _, mapping _ _ _ => true
  | reference _ _ _ _, reference _ _ _ _ => true
  | _, _ => false

/-- Whether a key asks for a merge. -/
def isMerge : Node → Bool
  | scalar _ tag text => text == bytes "<<" && tag == Tag.merge
  | _ => false

end Node

/-- The keys that stand twice in a mapping. -/
def repeatedKeys : List (Node × Node) → List Mismatch
  | [] => []
  | (key, _) :: rest =>
    (rest.filter fun other => key.sameKind other.1 && key.ownText == other.1.ownText).map
      (fun other => .repeatedKey other.1.line other.1.ownText key.line) ++ repeatedKeys rest

/-- Reading in progress: the mismatches so far, how many nodes were looked at, how many of them
inside aliases, and the aliases around the place. -/
structure Decoding where
  mismatches : List Mismatch
  visits : Nat
  aliasVisits : Nat
  inside : List Nat
  deriving DecidableEq, Repr

namespace Decoding

def start : Decoding := ⟨[], 0, 0, []⟩

/-- How many visits a document may have before their share inside aliases is limited more and more,
and from how many on it is limited most. -/
def easyVisits : Nat := 400000

def hardVisits : Nat := 4000000

/-- Whether too many visits are inside aliases: more than 99 of 100, or in a document with very many
visits more than 10 of 100. -/
def excessive (s : Decoding) : Bool :=
  let share :=
    if s.visits ≤ easyVisits then 100 * s.aliasVisits > 99 * s.visits
    else if hardVisits ≤ s.visits then 100 * s.aliasVisits > 10 * s.visits
    else
      let range := hardVisits - easyVisits
      100 * range * s.aliasVisits > (99 * range - 89 * (s.visits - easyVisits)) * s.visits
  100 < s.aliasVisits && 1000 < s.visits && share

def visited (s : Decoding) : Decoding :=
  { s with visits := s.visits + 1, aliasVisits := s.aliasVisits + if s.inside.isEmpty then 0 else 1 }

end Decoding

/-- Reading a value: mismatches add up, and problems end it. -/
abbrev Decode := StateT Decoding (Except Problem)

namespace Decode

def report (mismatches : List Mismatch) : Decode Unit :=
  modify fun s => { s with mismatches := s.mismatches ++ mismatches }

/-- Counts a node that is looked at. -/
def visit : Decode Unit := do
  let s := (← get).visited
  if s.excessive then throw .tooManyAliases else set s

/-- The node itself, or the one that an alias stands for. -/
def followed (d : Document) (node : Node) : Node :=
  match node with
  | .reference _ _ _ target => (d.target? target).getD node
  | _ => node

/-- Looks at a node, or at the one that it stands for. An alias that stands for a node around itself
is a problem. -/
def visiting {β : Type} (d : Document) (node : Node) (act : Node → Decode β) : Decode β := do
  visit
  match node with
  | .reference _ name number _ =>
    if (← get).inside.contains number then throw (.containsItself name)
    modify fun s => { s with inside := number :: s.inside }
    visit
    let result ← act (followed d node)
    modify fun s => { s with inside := s.inside.tail }
    return result
  | _ => act node

/-- Reports that a node is not what is wanted. Of a mapping, repeated keys are reported instead. -/
def refuse (node : Node) (wanted : Bytes) : Decode Unit :=
  match node with
  | .scalar line tag text => report [.wrongType line tag text wanted]
  | .sequence line tag _ => report [.wrongType line tag [] wanted]
  | .mapping line tag pairs =>
    let repeated := repeatedKeys pairs
    report (if repeated.isEmpty then [.wrongType line tag [] wanted] else repeated)
  | .reference _ _ _ _ => return ()

/-- A text. Any scalar is taken by its text; no value gives none. -/
def text? (d : Document) (node : Node) : Decode (Option Bytes) :=
  visiting d node fun
    | .scalar _ tag text => do return (← Value.ofScalar tag text).toText? text
    | other => do
      refuse other (bytes "string")
      return none

/-- An integer; no value gives none. -/
def int? (d : Document) (node : Node) : Decode (Option Int) :=
  visiting d node fun
    | .scalar line tag text => do
      let value ← Value.ofScalar tag text
      if value = .null then return none
      else
        match value.toInt? with
        | some n => return some n
        | none =>
          refuse (.scalar line tag text) (bytes "int")
          return none
    | other => do
      refuse other (bytes "int")
      return none

end Decode

end StackLang.Yaml
