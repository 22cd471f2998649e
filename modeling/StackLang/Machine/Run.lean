import StackLang.Code.Program
import StackLang.Machine.Sink
import StackLang.Names.Namespace

namespace StackLang

/-- A stack holds texts. An empty cell is a value that cannot be written. -/
inductive Value where
  | text (value : Bytes)
  | empty
  deriving DecidableEq, Repr

/-- An instruction about to be executed: where it stands, the height of the stack before it, and the
depth of the call. -/
structure Step where
  func : Bytes
  index : Nat
  instr : Instr
  height : Nat
  depth : Nat
  deriving DecidableEq, Repr

/-- The stack has its top first, and the steps so far stand latest first. -/
structure RunState where
  stack : List Value
  sink : Sink
  steps : List Step
  deriving DecidableEq, Repr

inductive RunFault where
  | notFound (name : Bytes)
  | tooDeep (name : Bytes) (depth : Nat)
  | underflow
  | refused
  | unwritable
  | unsupported (kind : Bytes)
  deriving DecidableEq, Repr

def RunFault.message : RunFault → Bytes
  | notFound name => bytes "function not found: " ++ name
  | tooDeep name depth =>
    name ++ bytes ": depth " ++ Text.decimal depth ++ bytes ": call depth limit exceeded"
  | underflow => bytes "stack underflow"
  | refused => Sink.full
  | unwritable => bytes "can't write <nil>"
  | unsupported kind => bytes "unsupported instruction: " ++ kind

/-- An instruction in the middle of a call. -/
structure Frame where
  func : Bytes
  offset : Int
  deriving DecidableEq, Repr

def Frame.text (f : Frame) : Bytes :=
  f.func ++ byte '+' :: Text.hexOffset f.offset

/-- A fault and the calls it happened in, outermost first. -/
structure RunError where
  path : List Frame
  fault : RunFault
  deriving DecidableEq, Repr

namespace RunError

def within (frame : Frame) (e : RunError) : RunError :=
  ⟨frame :: e.path, e.fault⟩

def message (e : RunError) : Bytes :=
  Bytes.join (bytes ": ") (e.path.map Frame.text ++ [e.fault.message])

end RunError

/-- The state a run ended in, and the error that ended it, if any. -/
abbrev Outcome := RunState × Option RunError

namespace RunState

def fail (s : RunState) (fault : RunFault) : Outcome :=
  (s, some ⟨[], fault⟩)

/-- Pops a value and writes it. -/
def write (s : RunState) : Outcome :=
  match s.stack with
  | [] => s.fail .underflow
  | value :: stack =>
    let s := { s with stack }
    match value with
    | .empty => s.fail .unwritable
    | .text text =>
      match s.sink.write? text with
      | some sink => ({ s with sink }, none)
      | none => s.fail .refused

end RunState

/-- A limit of zero is no limit; a negative one allows no call. -/
structure Machine where
  program : Program
  limit : Int

namespace Machine

/-- What calling a function does to a state; none if the fuel runs out. -/
abbrev Enter := Bytes → RunState → Option Outcome

def exec (enter : Enter) (s : RunState) : Instr → Option Outcome
  | .push text => some ({ s with stack := .text text :: s.stack }, none)
  | .write => some s.write
  | .call name => enter name s
  | .other kind _ => some (s.fail (.unsupported kind))
  | .absent => some (s.fail (.unsupported (bytes "<nil>")))

/-- Executes code of the function `func`, the first instruction of which has number `index`. -/
def runCode (enter : Enter) (func : Bytes) (depth : Nat) :
    (index : Nat) → List (Int × Instr) → RunState → Option Outcome
  | _, [], s => some (s, none)
  | index, (offset, i) :: rest, s =>
    let step : Step := ⟨func, index, i, s.stack.length, depth⟩
    match exec enter { s with steps := step :: s.steps } i with
    | none => none
    | some (s, some e) => some (s, some (e.within ⟨func, offset⟩))
    | some (s, none) => runCode enter func depth (index + 1) rest s

/-- Whether a call at `depth` is too deep. -/
def forbids (m : Machine) (depth : Nat) : Bool :=
  m.limit != 0 && m.limit < depth

/-- Calls a function at `depth`. -/
def callAt (m : Machine) : (fuel depth : Nat) → Enter
  | 0, _, _, _ => none
  | fuel + 1, depth, name, s =>
    match m.program.routines.get? name with
    | none => some (s.fail (.notFound name))
    | some routine =>
      if m.forbids depth then some (s.fail (.tooDeep name depth))
      else runCode (callAt m fuel (depth + 1)) name depth 0 routine.code s

/-- Calls a function from outside. -/
def call (m : Machine) (fuel : Nat) (name : Bytes) (s : RunState) : Option Outcome :=
  m.callAt fuel 1 name s

/-- Runs the main function on an empty stack. -/
def run (m : Machine) (fuel : Nat) (sink : Sink) : Option Outcome :=
  m.call fuel mainName ⟨[], sink, []⟩

/-- Enough fuel for every run under a limit. Without one it lasts for far more nested calls than a
computer has room for. -/
def fuel (m : Machine) : Nat :=
  if m.limit = 0 then 1000000000000 else m.limit.toNat + 1

end Machine

end StackLang
