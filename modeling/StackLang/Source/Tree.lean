import StackLang.Foreign

namespace StackLang

inductive Expr where
  | literal (pos : Nat) (value : Bytes)
  | call (pos : Nat) (name : Bytes) (args : List Expr)
  | foreign (value : Foreign)
  deriving Repr

inductive Stmt where
  | expr (pos : Nat) (value : Expr)
  | foreign (value : Foreign)
  deriving Repr

structure Func where
  pos : Nat
  name : Bytes
  impure : Bool
  body : List Stmt
  deriving Repr

structure File where
  name : Bytes
  funcs : List Func
  deriving Repr

namespace Expr

/-- Where an expression was read from; a foreign value has no place. -/
def pos : Expr → Nat
  | literal p _ => p
  | call p _ _ => p
  | foreign _ => 0

end Expr

end StackLang
