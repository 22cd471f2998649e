import StackLang.Proofs.Lowering

namespace StackLang

mutual

/-- An expression and the expressions inside it, arguments in front of their call. -/
def Expr.nodes : Expr → List Expr
  | .literal pos value => [.literal pos value]
  | .call pos name args => Expr.nodesAll args ++ [.call pos name args]
  | .foreign value => [.foreign value]

def Expr.nodesAll : List Expr → List Expr
  | [] => []
  | e :: rest => e.nodes ++ Expr.nodesAll rest

end

namespace Expr

def callee? : Expr → Option Bytes
  | .call _ name _ => some name
  | _ => none

def text? : Expr → Option Bytes
  | .literal _ value => some value
  | _ => none

/-- The instruction that a node becomes. -/
def instr? : Expr → Option Instr
  | .literal _ value => some (.push value)
  | .call _ name _ => some (.call name)
  | .foreign _ => none

end Expr

def Stmt.nodes : Stmt → List Expr
  | .expr _ value => value.nodes
  | .foreign _ => []

namespace Func

def nodes (f : Func) : List Expr :=
  f.body.flatMap Stmt.nodes

/-- The names that a function calls. -/
def callees (f : Func) : List Bytes :=
  f.nodes.filterMap Expr.callee?

/-- The texts of a function's literals. -/
def literals (f : Func) : List Bytes :=
  f.nodes.filterMap Expr.text?

end Func

namespace File

def names (f : File) : List Bytes :=
  f.funcs.map Func.name

def callees (f : File) : List Bytes :=
  f.funcs.flatMap Func.callees

def literals (f : File) : List Bytes :=
  f.funcs.flatMap Func.literals

end File

mutual

theorem Expr.lowered_eq_filterMap : (e : Expr) → e.lowered = e.nodes.filterMap Expr.instr?
  | .literal _ _ => rfl
  | .call _ name args => by
    rw [Expr.lowered, Expr.nodes, List.filterMap_append, ← Expr.loweredAll_eq_filterMap args]
    rfl
  | .foreign _ => rfl

theorem Expr.loweredAll_eq_filterMap : (exprs : List Expr) →
    Expr.loweredAll exprs = (Expr.nodesAll exprs).filterMap Expr.instr?
  | [] => rfl
  | e :: rest => by
    rw [Expr.loweredAll, Expr.nodesAll, List.filterMap_append, ← Expr.lowered_eq_filterMap e,
      ← Expr.loweredAll_eq_filterMap rest]

end

namespace Func

theorem lowered_eq_filterMap (f : Func) : f.lowered = f.nodes.filterMap Expr.instr? := by
  rw [lowered, nodes, List.filterMap_flatMap]
  congr 1
  funext s
  cases s with
  | expr pos value => exact value.lowered_eq_filterMap
  | foreign value => rfl

theorem call_mem_lowered_iff {f : Func} {name : Bytes} :
    .call name ∈ f.lowered ↔ name ∈ f.callees := by
  rw [lowered_eq_filterMap, callees, List.mem_filterMap, List.mem_filterMap]
  refine exists_congr fun node => and_congr_right fun _ => ?_
  cases node <;> simp [Expr.instr?, Expr.callee?]

theorem push_mem_lowered_iff {f : Func} {text : Bytes} :
    .push text ∈ f.lowered ↔ text ∈ f.literals := by
  rw [lowered_eq_filterMap, literals, List.mem_filterMap, List.mem_filterMap]
  refine exists_congr fun node => and_congr_right fun _ => ?_
  cases node <;> simp [Expr.instr?, Expr.text?]

end Func

end StackLang
