import StackLang.Names.Builder
import StackLang.Proofs.NameLookup

namespace StackLang

mutual

/-- The code of an expression: its arguments from left to right, and then the call. -/
def Expr.lowered : Expr → List Instr
  | .literal _ value => [.push value]
  | .call _ name args => Expr.loweredAll args ++ [.call name]
  | .foreign _ => []

def Expr.loweredAll : List Expr → List Instr
  | [] => []
  | e :: rest => e.lowered ++ Expr.loweredAll rest

end

def Stmt.lowered : Stmt → List Instr
  | .expr _ value => value.lowered
  | .foreign _ => []

def Func.lowered (f : Func) : List Instr :=
  f.body.flatMap Stmt.lowered

namespace Namespace

def declare (ns : Namespace) (name : Bytes) : Namespace :=
  if ns.contains name then ns else ns.insert name .placeholder

/-- The namespace with a placeholder for each unbound name that the code calls. -/
def declareCalls (ns : Namespace) (code : List Instr) : Namespace :=
  code.foldl (fun ns i => match i with
    | .call name => ns.declare name
    | _ => ns) ns

theorem declareCalls_append (ns : Namespace) (a b : List Instr) :
    ns.declareCalls (a ++ b) = (ns.declareCalls a).declareCalls b := by
  simp [declareCalls]

theorem get?_declare (ns : Namespace) (called name : Bytes) :
    (ns.declare called).get? name =
      (ns.get? name).or (if called = name then some .placeholder else none) := by
  unfold declare
  split
  next bound =>
    obtain ⟨e, he⟩ := NameMap.contains_iff.mp bound
    by_cases same : called = name
    · simp [← same, he]
    · simp [same]
  next unbound =>
    have absent : ns.get? called = none := by simpa [NameMap.contains] using unbound
    rw [NameMap.get?_insert]
    by_cases same : called = name
    · simp [← same, absent]
    · simp [same, Ne.symm same]

theorem get?_declareCalls (ns : Namespace) (code : List Instr) (name : Bytes) :
    (ns.declareCalls code).get? name =
      (ns.get? name).or (if .call name ∈ code then some .placeholder else none) := by
  induction code generalizing ns with
  | nil => simp [declareCalls]
  | cons i rest ih =>
    rw [← List.singleton_append, declareCalls_append, ih]
    cases i with
    | call called =>
      rw [show ns.declareCalls [.call called] = ns.declare called from rfl, get?_declare,
        Option.or_assoc]
      by_cases same : called = name
      · simp [same]
      · simp [same, Ne.symm same]
    | write => simp [declareCalls]
    | push text => simp [declareCalls]
    | other kind op => simp [declareCalls]
    | absent => simp [declareCalls]

def NoVariable (ns : Namespace) : Prop :=
  ∀ name, ns.get? name ≠ some .variable

theorem get?_declareCalls_of_some {ns : Namespace} {name : Bytes} {e : Element}
    (h : ns.get? name = some e) (code : List Instr) :
    (ns.declareCalls code).get? name = some e := by
  rw [get?_declareCalls, h]
  rfl

theorem get?_declareCalls_eq_some {ns : Namespace} {code : List Instr} {name : Bytes} {e : Element}
    (h : (ns.declareCalls code).get? name = some e) :
    ns.get? name = some e ∨ e = .placeholder ∧ .call name ∈ code := by
  rw [get?_declareCalls] at h
  cases old : ns.get? name with
  | some e' =>
    rw [old] at h
    exact .inl h
  | none =>
    rw [old, Option.none_or] at h
    split at h
    next called => exact .inr ⟨(Option.some.inj h).symm, called⟩
    next => cases h

theorem NoVariable.declareCalls {ns : Namespace} (h : ns.NoVariable) (code : List Instr) :
    (ns.declareCalls code).NoVariable := by
  intro name bound
  rcases get?_declareCalls_eq_some bound with old | ⟨wrong, -⟩
  · exact h name old
  · cases wrong

end Namespace

namespace Draft

theorem callName_eq_ok {d d' : Draft} {name : Bytes} (h : d.callName name = (d', none)) :
    d' = ⟨d.names.declare name, .call name :: d.code⟩ := by
  unfold callName at h
  split at h
  next => cases h
  next e _ bound =>
    cases h
    have found : d.names.contains name := NameMap.contains_iff.mpr ⟨_, bound⟩
    simp [emit, Namespace.declare, found]
  next unbound =>
    cases h
    have absent : d.names.contains name = false := by simp [NameMap.contains, unbound]
    simp [emit, Namespace.declare, absent]

mutual

theorem expr_eq_ok {d d' : Draft} : (e : Expr) → d.expr e = (d', none) →
    d' = ⟨d.names.declareCalls e.lowered, e.lowered.reverse ++ d.code⟩
  | .literal _ value, h => by
    cases h
    rfl
  | .call _ name values, h => by
    unfold expr at h
    split at h
    next middle lowered =>
      obtain rfl := args_eq_ok values lowered
      obtain rfl := callName_eq_ok h
      simp [Expr.lowered, Namespace.declareCalls]
    next => cases h
  | .foreign _, h => by cases h

theorem args_eq_ok {d d' : Draft} {callee : Bytes} {index : Nat} : (values : List Expr) →
    d.args callee index values = (d', none) →
    d' = ⟨d.names.declareCalls (Expr.loweredAll values), (Expr.loweredAll values).reverse ++ d.code⟩
  | [], h => by
    cases h
    rfl
  | value :: rest, h => by
    unfold args at h
    split at h
    next middle lowered =>
      obtain rfl := expr_eq_ok value lowered
      obtain rfl := args_eq_ok rest h
      simp [Expr.loweredAll, Namespace.declareCalls_append]
    next => cases h

end

theorem stmt_eq_ok {d d' : Draft} {s : Stmt} (h : d.stmt s = (d', none)) :
    d' = ⟨d.names.declareCalls s.lowered, s.lowered.reverse ++ d.code⟩ := by
  cases s with
  | expr pos value => exact expr_eq_ok value h
  | foreign value => cases h

theorem body_eq_ok {d d' : Draft} {body : List Stmt} (h : d.body body = (d', none)) :
    d' = ⟨d.names.declareCalls (body.flatMap Stmt.lowered),
      (body.flatMap Stmt.lowered).reverse ++ d.code⟩ := by
  induction body generalizing d with
  | nil =>
    cases h
    rfl
  | cons s rest ih =>
    unfold Draft.body at h
    split at h
    next middle lowered =>
      obtain rfl := stmt_eq_ok lowered
      obtain rfl := ih h
      simp [Namespace.declareCalls_append]
    next => cases h

end Draft

end StackLang
