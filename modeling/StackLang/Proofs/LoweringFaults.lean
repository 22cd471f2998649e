import StackLang.Proofs.Lowering
import StackLang.Proofs.ReadableTrees

namespace StackLang

mutual

/-- The foreign values in an expression, in the order in which lowering comes to them. -/
def Expr.faults : Expr → List ResolveFailure
  | .literal _ _ => []
  | .call _ name args => Expr.argFaults name 0 args
  | .foreign value => [.bare (.unsupportedExpr value.kind)]

/-- Those in the arguments of `callee` from the one with number `index` on. -/
def Expr.argFaults (callee : Bytes) (index : Nat) : List Expr → List ResolveFailure
  | [] => []
  | e :: rest =>
    e.faults.map (.within (argContext callee index)) ++ Expr.argFaults callee (index + 1) rest

end

def Stmt.faults : Stmt → List ResolveFailure
  | .expr _ value => value.faults
  | .foreign value => [.bare (.unsupportedStmt value.kind)]

def Func.faults (f : Func) : List ResolveFailure :=
  (f.body.flatMap Stmt.faults).map (.within (funcContext f.name))

namespace Draft

theorem callName_of_noVariable {d : Draft} (h : d.names.NoVariable) (name : Bytes) :
    (d.callName name).2 = none := by
  unfold callName
  split
  next bound => exact absurd bound (h name)
  next => rfl
  next => rfl

mutual

/-- Lowering fails at the first foreign value. -/
theorem expr_fault {d : Draft} (h : d.names.NoVariable) : (e : Expr) → (d.expr e).2 = e.faults.head?
  | .literal _ _ => rfl
  | .call _ name values => by
    have first := args_fault h name 0 values
    unfold expr
    split
    next d' lowered =>
      obtain rfl := args_eq_ok values lowered
      rw [callName_of_noVariable (h.declareCalls _), Expr.faults, ← first, lowered]
    next d' e failed => rw [Expr.faults, ← first, failed]
  | .foreign _ => rfl

theorem args_fault {d : Draft} (h : d.names.NoVariable) (callee : Bytes) (index : Nat) :
    (values : List Expr) →
    (d.args callee index values).2 = (Expr.argFaults callee index values).head?
  | [] => rfl
  | value :: rest => by
    have first := expr_fault h value
    rw [Expr.argFaults, List.head?_append, List.head?_map, ← first]
    unfold args
    split
    next d' lowered =>
      obtain rfl := expr_eq_ok value lowered
      rw [args_fault (h.declareCalls _) callee (index + 1) rest, lowered]
      rfl
    next d' e failed =>
      rw [failed]
      rfl

end

theorem stmt_fault {d : Draft} (h : d.names.NoVariable) (s : Stmt) :
    (d.stmt s).2 = s.faults.head? := by
  cases s with
  | expr pos value => exact expr_fault h value
  | foreign value => rfl

theorem body_fault {d : Draft} (h : d.names.NoVariable) (body : List Stmt) :
    (d.body body).2 = (body.flatMap Stmt.faults).head? := by
  induction body generalizing d with
  | nil => rfl
  | cons s rest ih =>
    have first := stmt_fault h s
    rw [List.flatMap_cons, List.head?_append, ← first]
    unfold Draft.body
    split
    next d' lowered =>
      obtain rfl := stmt_eq_ok lowered
      rw [ih (h.declareCalls _), lowered]
      rfl
    next d' e failed =>
      rw [failed]
      rfl

theorem func_fault {d : Draft} (h : d.names.NoVariable) (f : Func) :
    (d.body f.body).2.map (.within (funcContext f.name)) = f.faults.head? := by
  rw [body_fault h, Func.faults, List.head?_map]

example : Func.faults ⟨0, bytes "f", false,
  [.expr 0 (.call 0 (bytes "g") [.literal 0 [], .foreign .absent])]⟩ =
    [⟨[bytes "func f", bytes "g arg 1"], .unsupportedExpr (bytes "<nil>")⟩] := by
  decide +kernel

end Draft

mutual

theorem Expr.faults_of_readable : (e : Expr) → e.Readable → e.faults = []
  | .literal _ _, _ => rfl
  | .call _ name args, .call _ readable => Expr.argFaults_of_readable name 0 args readable

theorem Expr.argFaults_of_readable (callee : Bytes) (index : Nat) :
    (args : List Expr) → (∀ a ∈ args, a.Readable) →
    Expr.argFaults callee index args = []
  | [], _ => rfl
  | a :: rest, readable => by
    rw [Expr.argFaults, Expr.faults_of_readable a (readable a (by simp)),
      Expr.argFaults_of_readable callee (index + 1) rest fun b hb => readable b (by simp [hb])]
    rfl

end

/-- What is read from a text holds no foreign values. -/
theorem Func.faults_of_readable {f : Func} (readable : f.Readable) : f.faults = [] := by
  have sound : f.body.flatMap Stmt.faults = [] := by
    refine List.flatMap_eq_nil_iff.mpr fun s hs => ?_
    have readableStmt := readable.2 s hs
    cases s with
    | expr pos value => exact value.faults_of_readable readableStmt
    | foreign value => exact readableStmt.elim
  rw [faults, sound]
  rfl

end StackLang
