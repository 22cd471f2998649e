import StackLang.Names.Namespace

namespace StackLang

/-- The innermost namespace, and those around it from the inside out. -/
structure Scope where
  top : Namespace
  outer : List Namespace

namespace Scope

/-- All namespaces from the inside out. -/
def layers (s : Scope) : List Namespace :=
  s.top :: s.outer

def size (s : Scope) : Nat :=
  s.layers.length

def push (s : Scope) : Scope :=
  ⟨∅, s.layers⟩

/-- The last namespace cannot be popped. -/
def pop? (s : Scope) : Option (Namespace × Scope) :=
  match s.outer with
  | [] => none
  | next :: outer => some (s.top, ⟨next, outer⟩)

def define (s : Scope) (name : Bytes) (e : Element) : Scope :=
  { s with top := s.top.insert name e }

/-- The element of the first layer that has the name, and the number of layers around it. -/
def find (name : Bytes) : List Namespace → Option (Element × Nat)
  | [] => none
  | layer :: outer =>
    match layer.get? name with
    | some e => some (e, outer.length)
    | none => find name outer

def lookup (s : Scope) (name : Bytes) : Option (Element × Nat) :=
  find name s.layers

/-- What is done with a scope. -/
inductive Op where
  | push
  | pop
  | define (name : Bytes) (e : Element)
  | lookup (name : Bytes)
  deriving DecidableEq, Repr

/-- What a scope answers. An element comes with the index of its namespace, counted from the
outermost one, and with whether there is one. -/
inductive Answer where
  | done
  | popped (ns : Namespace)
  | lastNamespace
  | element (e : Element) (index : Int) (found : Bool)

/-- The last namespace stays, and a name that no namespace has is answered with the index -1. -/
def perform (s : Scope) : Op → Answer × Scope
  | .push => (.done, s.push)
  | .pop =>
    match s.pop? with
    | some (ns, rest) => (.popped ns, rest)
    | none => (.lastNamespace, s)
  | .define name e => (.done, s.define name e)
  | .lookup name =>
    match s.lookup name with
    | some (e, index) => (.element e index true, s)
    | none => (.element .unset (-1) false, s)

/-- A scope of one namespace. -/
def single (ns : Namespace) : Scope := ⟨ns, []⟩

/-- One namespace in which the given names are built in. -/
def withBuiltins (names : List Bytes) : Scope :=
  single (.ofList (names.map fun name => (name, .builtin)))

end Scope

end StackLang
