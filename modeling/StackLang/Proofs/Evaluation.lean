import StackLang.Machine.Run
import StackLang.Source.Tree

namespace StackLang

def Stmt.value? : Stmt → Option Expr
  | .expr _ value => some value
  | .foreign _ => none

namespace Evaluation

/-- The texts on the stack, top first, and the sink. -/
structure State where
  stack : List Bytes
  sink : Sink

/-- The state that an evaluation ends in, and the fault that ended it, if any. -/
abbrev Result := State × Option RunFault

namespace State

def push (s : State) (text : Bytes) : State :=
  { s with stack := text :: s.stack }

def write (s : State) (text : Bytes) : Result :=
  match s.sink.write? text with
  | some sink => ({ s with sink }, none)
  | none => (s, some .refused)

/-- Pops a text and writes it. -/
def print (s : State) : Result :=
  match s.stack with
  | [] => (s, some .underflow)
  | text :: stack => write { s with stack } text

def println (s : State) : Result :=
  match s.print with
  | (s, none) => s.write [Ascii.newline]
  | failed => failed

end State

/-- What is to be evaluated: expressions in order, or the callee of a call whose arguments have
been. -/
inductive Task where
  | values (exprs : List Expr)
  | callee (name : Bytes)

/-- A limit of zero allows every depth. -/
def Allows (limit : Int) (depth : Nat) : Prop :=
  limit = 0 ∨ depth ≤ limit

/-- Evaluation of a task at a depth, from a state to a result. A callee's depth is that of its own
body. -/
inductive Evaluates (f : File) (limit : Int) : Nat → Task → State → Result → Prop
  | done {depth s} : Evaluates f limit depth (.values []) s (s, none)
  | literal {depth pos value rest s r} :
      Evaluates f limit depth (.values rest) (s.push value) r →
      Evaluates f limit depth (.values (.literal pos value :: rest)) s r
  | call {depth pos name args rest s s₁ s₂ r} :
      Evaluates f limit depth (.values args) s (s₁, none) →
      Evaluates f limit (depth + 1) (.callee name) s₁ (s₂, none) →
      Evaluates f limit depth (.values rest) s₂ r →
      Evaluates f limit depth (.values (.call pos name args :: rest)) s r
  | argFault {depth pos name args rest s s₁ fault} :
      Evaluates f limit depth (.values args) s (s₁, some fault) →
      Evaluates f limit depth (.values (.call pos name args :: rest)) s (s₁, some fault)
  | callFault {depth pos name args rest s s₁ s₂ fault} :
      Evaluates f limit depth (.values args) s (s₁, none) →
      Evaluates f limit (depth + 1) (.callee name) s₁ (s₂, some fault) →
      Evaluates f limit depth (.values (.call pos name args :: rest)) s (s₂, some fault)
  | tooDeep {depth name s} : ¬ Allows limit depth →
      Evaluates f limit depth (.callee name) s (s, some (.tooDeep name depth))
  | print {depth s} : Allows limit depth →
      Evaluates f limit depth (.callee (bytes "print")) s s.print
  | println {depth s} : Allows limit depth →
      Evaluates f limit depth (.callee (bytes "println")) s s.println
  | func {depth fn values s r} : Allows limit depth → fn ∈ f.funcs →
      fn.body.map Stmt.value? = values.map some →
      Evaluates f limit depth (.values values) s r →
      Evaluates f limit depth (.callee fn.name) s r

end Evaluation

/-- Direct evaluation of the main function on an empty stack. -/
def File.Runs (f : File) (limit : Int) (sink : Sink) (r : Evaluation.Result) : Prop :=
  Evaluation.Evaluates f limit 1 (.callee mainName) ⟨[], sink⟩ r

end StackLang
