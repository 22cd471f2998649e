import StackLang.Yaml.Decode

namespace StackLang.Yaml

/-- A kind of record: its name in messages, and how its fields are read. -/
structure RecordKind (α : Type) where
  name : Bytes
  field? : Bytes → Option (α → Node → Decode α)

namespace RecordKind

variable {α : Type}

/-- A record being read from a mapping. `given` are the keys so far, and `fields` those of them that
are fields. In a merge, `settled` are the keys that count no more because they were given before.
`merged` is what is to be merged in the end. -/
structure Progress (α : Type) where
  record : α
  given : List Bytes
  fields : List Bytes
  settled : Option (List Bytes)
  merged : Option Node

/-- Reads one pair. -/
def step (kind : RecordKind α) (d : Document) (p : Progress α) (pair : Node × Node) :
    Decode (Progress α) := do
  if pair.1.isMerge then return { p with merged := some pair.2 }
  else
    match ← Decode.text? d pair.1 with
    | none => return p
    | some name =>
      if (p.settled.getD []).contains name then return p
      else
        let p := { p with given := name :: p.given, settled := p.settled.map (name :: ·) }
        match kind.field? name with
        | none => return p
        | some read =>
          if p.fields.contains name then
            Decode.report [.repeatedField pair.1.line name kind.name]
            return p
          else return { p with record := ← read p.record pair.2, fields := name :: p.fields }

/-- The nodes that a merge takes, in order. -/
def mergeItems (d : Document) (node : Node) : Except Problem (List Node) :=
  match node with
  | .sequence _ _ items => .ok items
  | .mapping _ _ _ => .ok [node]
  | .reference _ _ _ _ =>
    match Decode.followed d node with
    | .mapping _ _ _ => .ok [node]
    | _ => .error .mergedNonMapping
  | .scalar _ _ _ => .error .mergedNonMapping

/-- Looks at the keys of a mapping once more, to know which ones a merge does not change. -/
def revisitKeys (d : Document) (pairs : List (Node × Node)) : Decode Unit :=
  pairs.forM fun pair => Decode.visiting d pair.1 fun _ => return ()

/-- Reads a node into a record. `settled` are the keys that do not count any more, which are given
back with those of this node. -/
def readNode (kind : RecordKind α) (d : Document) :
    Nat → Option (List Bytes) → α → Node → Decode (α × Option (List Bytes))
  | 0, settled, record, _ => return (record, settled)
  | fuel + 1, settled, record, node =>
    Decode.visiting d node fun
      | .mapping _ _ pairs => do
        let repeated := repeatedKeys pairs
        if !repeated.isEmpty then
          Decode.report repeated
          return (record, settled)
        else
          let p ← pairs.foldlM (kind.step d) ⟨record, [], [], settled, none⟩
          match p.merged with
          | none => return (p.record, p.settled)
          | some merged =>
            if settled.isNone then revisitKeys d pairs
            let (record, taken) ← (← mergeItems d merged).foldlM
              (fun (state : α × Option (List Bytes)) item => do
                match Decode.followed d item with
                | .mapping _ _ _ => readNode kind d fuel state.2 state.1 item
                | _ => throw .mergedNonMapping)
              (p.record, some (p.settled.getD p.given))
            return (record, p.settled.bind fun _ => taken)
      | .scalar line tag text => do
        if (← Value.ofScalar tag text) ≠ .null then Decode.refuse (.scalar line tag text) kind.name
        return (record, settled)
      | other => do
        Decode.refuse other kind.name
        return (record, settled)

/-- How deep merges can nest: no alias is entered twice, and between two of them there are only
blocks and flows. -/
def mergeFuel (d : Document) : Nat :=
  (d.references + 1) * (4 * maxNesting)

/-- Reads a record. A node without a value changes nothing. -/
def read (kind : RecordKind α) (d : Document) (record : α) (node : Node) : Decode α := do
  return (← readNode kind d (mergeFuel d) none record node).1

/-- Reads a record from a document, which counts as a node too. -/
def readDocument (kind : RecordKind α) (d : Document) (record : α) : Decode α := do
  Decode.visit
  kind.read d record d.root

/-- Reads a record from the first document of a text. A text without a document changes nothing. -/
def ofText (kind : Document → RecordKind α) (record : α) (text : Bytes) : Except Error α :=
  match Document.parse text with
  | .error fault => .error (.malformed fault)
  | .ok none => .ok record
  | .ok (some d) =>
    match ((kind d).readDocument d record).run .start with
    | .error problem => .error (.malformed (.whole problem))
    | .ok (record, s) =>
      if s.mismatches.isEmpty then .ok record else .error (.mismatched s.mismatches)

end RecordKind

end StackLang.Yaml
