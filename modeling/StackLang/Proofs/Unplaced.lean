import StackLang.Source.Layout

namespace StackLang

mutual

def Expr.unplaced : Expr → Expr
  | .literal _ value => .literal 0 value
  | .call _ name args => .call 0 name (Expr.unplacedAll args)
  | .foreign value => .foreign value

def Expr.unplacedAll : List Expr → List Expr
  | [] => []
  | e :: rest => e.unplaced :: Expr.unplacedAll rest

end

def Stmt.unplaced : Stmt → Stmt
  | .expr _ value => .expr 0 value.unplaced
  | .foreign value => .foreign value

def Func.unplaced (f : Func) : Func :=
  ⟨0, f.name, f.impure, f.body.map Stmt.unplaced⟩

/-- The functions of a file, which are all of it but the positions and the name of the file. -/
def File.unplaced (f : File) : List Func :=
  f.funcs.map Func.unplaced

theorem Expr.unplacedAll_eq_map (exprs : List Expr) :
    Expr.unplacedAll exprs = exprs.map Expr.unplaced := by
  induction exprs with
  | nil => rfl
  | cons e rest ih => rw [Expr.unplacedAll, ih, List.map_cons]

namespace Layout

mutual

theorem expr_unplaced : (e : Expr) → expr e.unplaced = expr e
  | .literal _ _ => rfl
  | .call _ name values => by simp only [Expr.unplaced, expr, args_unplaced name 0 values]
  | .foreign _ => rfl

theorem args_unplaced (callee : Bytes) (index : Nat) : (values : List Expr) →
    args callee index (Expr.unplacedAll values) = args callee index values
  | [] => rfl
  | value :: rest => by
    simp only [Expr.unplacedAll, args, expr_unplaced value, args_unplaced callee (index + 1) rest]

end

theorem stmt_unplaced (s : Stmt) : stmt s.unplaced = stmt s := by
  cases s with
  | expr pos value => simp only [Stmt.unplaced, stmt, expr_unplaced]
  | foreign value => rfl

theorem func_unplaced (f : Func) : func f.unplaced = func f := by
  obtain ⟨pos, name, impure, body⟩ := f
  have lines : (body.map Stmt.unplaced).mapM stmt = body.mapM stmt := by
    rw [List.mapM_map]
    exact congrArg (body.mapM ·) (funext stmt_unplaced)
  rw [func, Func.unplaced, lines, func]

theorem file_unplaced (name : Bytes) (f : File) : file ⟨name, f.unplaced⟩ = file f := by
  have texts (fn : Func) :
      (func fn.unplaced).mapError (Failure.within (funcContext fn.unplaced.name)) =
      (func fn).mapError (Failure.within (funcContext fn.name)) := by
    rw [func_unplaced]
    rfl
  simp only [file, File.unplaced, List.mapM_map, Function.comp_def, texts]

end Layout

theorem File.format_eq_of_unplaced {f g : File} (h : f.unplaced = g.unplaced) :
    f.format = g.format := by
  rw [format, format, ← Layout.file_unplaced [] f, ← Layout.file_unplaced [] g, h]

end StackLang
