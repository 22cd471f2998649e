import StackLang.Failure
import StackLang.Names.Scope
import StackLang.Source.Tree

namespace StackLang

abbrev ResolveFailure := Failure ResolveError

/-- A body being lowered: the namespace so far, and the code so far, latest instruction first. -/
structure Draft where
  names : Namespace
  code : List Instr

namespace Draft

def emit (d : Draft) (i : Instr) : Draft :=
  { d with code := i :: d.code }

/-- Lowers the call of a name whose arguments have been lowered. -/
def callName (d : Draft) (name : Bytes) : Draft × Option ResolveFailure :=
  match d.names.get? name with
  | some .variable => (d, some (.bare (.isVariable name .call)))
  | some _ => (d.emit (.call name), none)
  | none => ({ d with names := d.names.insert name .placeholder }.emit (.call name), none)

mutual

def expr (d : Draft) : Expr → Draft × Option ResolveFailure
  | .literal _ value => (d.emit (.push value), none)
  | .call _ name values =>
    match args d name 0 values with
    | (d, none) => d.callName name
    | (d, some e) => (d, some e)
  | .foreign value => (d, some (.bare (.unsupportedExpr value.kind)))

/-- The arguments of `callee` from the one with number `index` on. -/
def args (d : Draft) (callee : Bytes) (index : Nat) : List Expr → Draft × Option ResolveFailure
  | [] => (d, none)
  | value :: rest =>
    match expr d value with
    | (d, none) => args d callee (index + 1) rest
    | (d, some e) => (d, some (e.within (argContext callee index)))

end

def stmt (d : Draft) : Stmt → Draft × Option ResolveFailure
  | .expr _ value => d.expr value
  | .foreign value => (d, some (.bare (.unsupportedStmt value.kind)))

def body (d : Draft) : List Stmt → Draft × Option ResolveFailure
  | [] => (d, none)
  | s :: rest =>
    match d.stmt s with
    | (d, none) => body d rest
    | (d, some e) => (d, some e)

end Draft

namespace Scope

/-- What keeps a name from being defined as a function. -/
def clash? (s : Scope) (name : Bytes) : Option ResolveError :=
  match s.lookup name with
  | some (.function _, _) => some (.redefined name)
  | some (.builtin, _) => some (.builtinRedefined name)
  | some (.variable, _) => some (.isVariable name .define)
  | _ => none

/-- Lowers a function and binds it. Gives its code. -/
def defineFunc (s : Scope) (f : Func) : Scope × Except ResolveFailure (List Instr) :=
  match s.clash? f.name with
  | some e => (s, .error (.bare e))
  | none =>
    match s.outer with
    | _ :: _ => (s, .error ⟨[funcContext f.name], .notTopLevel⟩)
    | [] =>
      match Draft.body ⟨s.top, []⟩ f.body with
      | (d, some e) => (single d.names, .error (e.within (funcContext f.name)))
      | (d, none) =>
        let code := d.code.reverse
        (single (d.names.insert f.name (.function code)), .ok code)

/-- Defines functions up to the first that fails. -/
def defineAll (s : Scope) : List Func → Scope × Option ResolveFailure
  | [] => (s, none)
  | f :: rest =>
    match s.defineFunc f with
    | (s, .ok _) => defineAll s rest
    | (s, .error e) => (s, some e)

/-- The namespace of a scope in which all names are resolved. -/
def resolved (s : Scope) : Except ResolveFailure Namespace :=
  match s.outer with
  | _ :: _ => .error (.bare (.unbalanced s.size))
  | [] =>
    match s.top.problem? with
    | some e => .error (.bare e)
    | none => .ok s.top

/-- Lowers all functions of a file on top of what the scope holds. -/
def build (s : Scope) (f : File) : Scope × Except ResolveFailure Namespace :=
  match s.defineAll f.funcs with
  | (s, none) => (s, s.resolved)
  | (s, some e) => (s, .error e)

end Scope

end StackLang
