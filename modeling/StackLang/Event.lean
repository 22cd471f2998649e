import StackLang.Compile
import StackLang.Image.Load
import StackLang.Machine.Run

namespace StackLang

inductive Event where
  | funcRead (name : Bytes) (impure : Bool) (stmts : Nat)
  | fileRead (funcs : Nat)
  | funcDefined (name : Bytes) (impure : Bool) (instrs : Nat)
  | element (name : Bytes) (element : Element)
  | recordEncoded (name : Bytes) (codeLen : Nat)
  | programEncoded (bodyLen : Nat)
  | funcLoaded (name : Bytes) (instrs : Nat) (size : Int) (pos : Nat)
  | programLoaded (funcs bodyLen : Nat)
  | executed (step : Step)
  | valuesLeft (count : Nat)
  deriving DecidableEq, Repr

/-- Each function that was read, and the whole if nothing was wrong. -/
def Bundle.parseEvents (b : Bundle) : List Event :=
  let reading := b.read
  let funcs := reading.funcs.map fun f => .funcRead f.name f.impure f.body.length
  match reading.error with
  | some _ => funcs
  | none => funcs ++ [.fileRead reading.funcs.length]

namespace Scope

def defineEvents (s : Scope) : List Func → List Event
  | [] => []
  | f :: rest =>
    match s.defineFunc f with
    | (s, .ok code) => .funcDefined f.name f.impure code.length :: defineEvents s rest
    | (_, .error _) => []

/-- Each definition, and if none failed the elements of the namespace. -/
def buildEvents (s : Scope) (f : File) : List Event :=
  let elements := match s.defineAll f.funcs with
    | (⟨top, []⟩, none) => top.entries.map fun e => .element e.1 e.2
    | _ => []
  s.defineEvents f.funcs ++ elements

end Scope

namespace Image

def recordEvents (templates : NameMap Bytes) : List (Bytes × Element) → List Event
  | [] => []
  | e :: rest =>
    match encodeFields templates e.1 e.2 with
    | .ok (_, code) => .recordEncoded e.1 code.length :: recordEvents templates rest
    | .error _ => []

/-- Each record that was encoded, and the whole if none failed. -/
def encodeEvents (templates : NameMap Bytes) (ns : Namespace) : List Event :=
  let whole := match encode templates [] ns with
    | .ok image => [.programEncoded (image.length - (header 0).length)]
    | .error _ => []
  recordEvents templates ns.entries ++ whole

end Image

/-- Each record that was read, and the program if it is complete. -/
def Program.loadEvents (data : Bytes) : List Event :=
  match Image.takeHeader data with
  | .error _ => []
  | .ok (_, body) =>
    let funcs := (Image.records body).1.map fun r =>
      .funcLoaded r.name r.routine.code.length r.routine.size r.pos
    match load data with
    | .ok p => funcs ++ [.programLoaded p.routines.size p.bodyLen]
    | .error _ => funcs

def compileEvents (name text : Bytes) : List Event :=
  (Bundle.single name text).parseEvents ++
    match File.parse name text with
    | .error _ => []
    | .ok file =>
      standardScope.buildEvents file ++
        match file.resolve with
        | .ok ns => Image.encodeEvents Builtin.templates ns
        | .error _ => []

namespace Outcome

def callEvents (o : Outcome) : List Event :=
  o.1.steps.reverse.map .executed

/-- A run that ends well also reports what it left on its stack. -/
def runEvents (o : Outcome) : List Event :=
  let leftover := match o with
    | (⟨[], _, _⟩, _) => []
    | (_, some _) => []
    | (s, none) => [.valuesLeft s.stack.length]
  callEvents o ++ leftover

end Outcome

end StackLang
