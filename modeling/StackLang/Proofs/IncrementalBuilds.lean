import StackLang.Proofs.BuildOutcome

namespace StackLang

/-- The functions have been defined, but their namespace is not a program yet. -/
def ResolveError.Incomplete : ResolveError → Prop
  | undefined _ => True
  | noMain => True
  | _ => False

namespace Draft

theorem callName_error {d : Draft} {name : Bytes} {e : ResolveFailure}
    (h : (d.callName name).2 = some e) :
    ¬ e.cause.Incomplete := by
  unfold callName at h
  split at h
  next =>
    cases h
    exact id
  next => cases h
  next => cases h

mutual

theorem expr_error {d : Draft} {e : ResolveFailure} :
    (x : Expr) → (d.expr x).2 = some e → ¬ e.cause.Incomplete
  | .literal _ _, h => by cases h
  | .call _ name values, h => by
    unfold expr at h
    split at h
    next => exact callName_error h
    next d' e' failed =>
      cases h
      exact args_error values (congrArg Prod.snd failed)
  | .foreign _, h => by
    cases h
    exact id

theorem args_error {d : Draft} {callee : Bytes} {index : Nat} {e : ResolveFailure} :
    (values : List Expr) →
    (d.args callee index values).2 = some e → ¬ e.cause.Incomplete
  | [], h => by cases h
  | value :: rest, h => by
    unfold args at h
    split at h
    next => exact args_error rest h
    next d' e' failed =>
      cases h
      exact expr_error (e := e') value (congrArg Prod.snd failed)

end

theorem body_error {d : Draft} {body : List Stmt} {e : ResolveFailure}
    (h : (d.body body).2 = some e) :
    ¬ e.cause.Incomplete := by
  induction body generalizing d with
  | nil => cases h
  | cons s rest ih =>
    unfold Draft.body at h
    split at h
    next => exact ih h
    next d' e' failed =>
      cases h
      cases s with
      | expr pos value => exact expr_error value (congrArg Prod.snd failed)
      | foreign value =>
        cases failed
        exact id

end Draft

namespace Scope

theorem clash?_error {s : Scope} {name : Bytes} {e : ResolveError} (h : s.clash? name = some e) :
    ¬ e.Incomplete := by
  unfold clash? at h
  split at h
  next => cases h; exact id
  next => cases h; exact id
  next => cases h; exact id
  next => cases h

theorem defineFunc_error {s : Scope} {f : Func} {e : ResolveFailure}
    (h : (s.defineFunc f).2 = .error e) :
    ¬ e.cause.Incomplete := by
  unfold defineFunc at h
  split at h
  next clash =>
    cases h
    exact clash?_error clash
  next =>
    split at h
    next =>
      cases h
      exact id
    next =>
      split at h
      next d e' failed =>
        cases h
        exact Draft.body_error (e := e') (congrArg Prod.snd failed)
      next => cases h

theorem defineAll_error {s : Scope} {funcs : List Func} {e : ResolveFailure}
    (h : (s.defineAll funcs).2 = some e) :
    ¬ e.cause.Incomplete := by
  induction funcs generalizing s with
  | nil => cases h
  | cons f rest ih =>
    unfold defineAll at h
    split at h
    next => exact ih h
    next s' e' failed =>
      cases h
      exact defineFunc_error (congrArg Prod.snd failed)

theorem resolved_error {ns : Namespace} {e : ResolveFailure} (h : (single ns).resolved = .error e) :
    e.cause.Incomplete := by
  simp only [resolved, single] at h
  split at h
  next e' problem =>
    cases h
    rcases Namespace.problem?_eq_some problem with ⟨-, rfl⟩ | ⟨-, -, rfl⟩
    · trivial
    · trivial
  next => cases h

theorem defineAll_append (s : Scope) (a b : List Func) :
    s.defineAll (a ++ b) =
      match s.defineAll a with
      | (s', none) => s'.defineAll b
      | (s', some e) => (s', some e) := by
  induction a generalizing s with
  | nil => rfl
  | cons f rest ih =>
    simp only [List.cons_append, defineAll]
    split
    next s' code _ => exact ih s'
    next => rfl

/-- A build of two files together is the build of the second after that of the first. Only if the
first is abandoned at one of its functions, the second never starts. -/
theorem build_together (ns : Namespace) (f g : File) (name : Bytes) :
    ((∀ e, ((single ns).build f).2 = .error e → e.cause.Incomplete) →
      ((single ns).build f).1.build g = (single ns).build ⟨name, f.funcs ++ g.funcs⟩) ∧
    ∀ e, ((single ns).build f).2 = .error e → ¬ e.cause.Incomplete →
      (single ns).build ⟨name, f.funcs ++ g.funcs⟩ = (single ns).build f := by
  obtain ⟨ns', reached, -⟩ := runs_defineAll ns f.funcs
  have together := (single ns).defineAll_append f.funcs g.funcs
  cases first : (single ns).defineAll f.funcs with
  | mk s failure =>
    obtain rfl : s = single ns' := by rw [← reached, first]
    rw [first] at together
    cases failure with
    | none =>
      have built : (single ns).build f = (single ns', (single ns').resolved) := by rw [build, first]
      refine ⟨fun _ => ?_, fun e failed abandoned => ?_⟩
      · rw [built, build, build, together]
      · rw [built] at failed
        exact absurd (resolved_error failed) abandoned
    | some e =>
      have built : (single ns).build f = (single ns', .error e) := by rw [build, first]
      refine ⟨fun complete => ?_, fun _ _ _ => ?_⟩
      · have incomplete := complete e (by rw [built])
        exact absurd incomplete (defineAll_error (congrArg Prod.snd first))
      · rw [built, build, together]

/-- A scope in which something of every kind is bound. -/
def mixedNames : Namespace :=
  .ofList [(bytes "print", .builtin), (bytes "v", .variable), (bytes "f", .function []),
    (bytes "p", .placeholder)]

/-- The main function calls what the other file defines. -/
def mainFile : File :=
  ⟨[], [⟨0, mainName, false,
    [.expr 0 (.call 0 (bytes "g") [.call 0 (bytes "f") [], .literal 0 (bytes "a")])]⟩]⟩

def otherFile : File :=
  ⟨[], [⟨0, bytes "g", false, [.expr 0 (.call 0 (bytes "p") [])]⟩,
    ⟨0, bytes "p", false, [.expr 0 (.call 0 (bytes "print") [])]⟩]⟩

theorem otherFile_built_after_mainFile :
    ((single mixedNames).build mainFile).2 = .error (.bare (.undefined [bytes "g", bytes "p"])) ∧
      ((single mixedNames).build mainFile).1.build otherFile =
        (single mixedNames).build ⟨[], mainFile.funcs ++ otherFile.funcs⟩ := by
  have failed : ((single mixedNames).build mainFile).2 =
      .error (.bare (.undefined [bytes "g", bytes "p"])) := by
    rfl
  refine ⟨failed, (build_together mixedNames mainFile otherFile []).1 ?_⟩
  intro e again
  rw [failed] at again
  cases again
  trivial

end Scope

end StackLang
