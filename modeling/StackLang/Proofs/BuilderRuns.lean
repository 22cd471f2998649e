import StackLang.Proofs.BuiltNamespace
import StackLang.Proofs.LoweringFaults

namespace StackLang

namespace Draft

/-- The draft after lowering to `code`. -/
def after (d : Draft) (code : List Instr) : Draft :=
  ⟨d.names.declareCalls code, code.reverse ++ d.code⟩

theorem after_append (d : Draft) (a b : List Instr) : d.after (a ++ b) = (d.after a).after b := by
  simp [after, Namespace.declareCalls_append]

theorem callName_after (d : Draft) (name : Bytes) : ∃ code, (d.callName name).1 = d.after code := by
  cases failure : (d.callName name).2 with
  | none => exact ⟨[.call name], callName_eq_ok (Prod.ext rfl failure)⟩
  | some e =>
    refine ⟨[], ?_⟩
    unfold callName at failure ⊢
    split at failure
    next => rfl
    next => cases failure
    next => cases failure

mutual

/-- Lowering goes through the code of the tree up to its end or its first fault. -/
theorem expr_after (d : Draft) : (e : Expr) → ∃ code, (d.expr e).1 = d.after code
  | .literal _ value => ⟨[.push value], rfl⟩
  | .call _ name values => by
    obtain ⟨code, lowered⟩ := args_after d name 0 values
    unfold expr
    split
    next d' h =>
      obtain rfl : d' = d.after code := by rw [← lowered, h]
      obtain ⟨code', called⟩ := (d.after code).callName_after name
      exact ⟨code ++ code', by rw [called, after_append]⟩
    next d' e h => exact ⟨code, by rw [← lowered, h]⟩
  | .foreign _ => ⟨[], rfl⟩

theorem args_after (d : Draft) (callee : Bytes) (index : Nat) : (values : List Expr) →
    ∃ code, (d.args callee index values).1 = d.after code
  | [] => ⟨[], rfl⟩
  | value :: rest => by
    obtain ⟨code, lowered⟩ := expr_after d value
    unfold args
    split
    next d' h =>
      obtain rfl : d' = d.after code := by rw [← lowered, h]
      obtain ⟨code', others⟩ := args_after (d.after code) callee (index + 1) rest
      exact ⟨code ++ code', by rw [others, after_append]⟩
    next d' e h => exact ⟨code, by rw [← lowered, h]⟩

end

theorem body_after (d : Draft) (body : List Stmt) : ∃ code, (d.body body).1 = d.after code := by
  induction body generalizing d with
  | nil => exact ⟨[], rfl⟩
  | cons s rest ih =>
    obtain ⟨code, lowered⟩ : ∃ code, (d.stmt s).1 = d.after code := by
      cases s with
      | expr pos value => exact d.expr_after value
      | foreign value => exact ⟨[], rfl⟩
    unfold Draft.body
    split
    next d' h =>
      obtain rfl : d' = d.after code := by rw [← lowered, h]
      obtain ⟨code', others⟩ := ih (d.after code)
      exact ⟨code ++ code', by rw [others, after_append]⟩
    next d' e h => exact ⟨code, by rw [← lowered, h]⟩

end Draft

namespace Namespace

/-- What the attempt to define a function can do to a namespace: nothing; add placeholders, if the
function cannot be lowered; or bind the function. -/
inductive Step (f : Func) (ns : Namespace) : Namespace → Prop
  | refused : Step f ns ns
  | abandoned (code : List Instr) : (f.Readable → ¬ ns.NoVariable) →
      Step f ns (ns.declareCalls code)
  | defined : (∀ e, ns.get? f.name = some e → e = .placeholder ∨ e = .unset) →
      Step f ns ((ns.declareCalls f.lowered).insert f.name (.function f.lowered))

/-- Attempts to define functions one after the other. -/
inductive Runs : List Func → Namespace → Namespace → Prop
  | nil {ns} : Runs [] ns ns
  | cons {f rest ns ns' ns''} : Step f ns ns' → Runs rest ns' ns'' → Runs (f :: rest) ns ns''

theorem Runs.refused (funcs : List Func) (ns : Namespace) : Runs funcs ns ns := by
  induction funcs with
  | nil => exact .nil
  | cons f rest ih => exact .cons .refused ih

theorem Runs.append {a b : List Func} {ns ns' ns'' : Namespace} (first : Runs a ns ns')
    (second : Runs b ns' ns'') :
    Runs (a ++ b) ns ns'' := by
  induction first with
  | nil => exact second
  | cons step _ ih => exact .cons step (ih second)

end Namespace

namespace Scope

theorem step_defineFunc (ns : Namespace) (f : Func) :
    ∃ ns', ((single ns).defineFunc f).1 = single ns' ∧ ns.Step f ns' := by
  unfold defineFunc
  split
  next => exact ⟨ns, rfl, .refused⟩
  next clash =>
    simp only [single]
    split
    next d e failed =>
      obtain ⟨code, lowered⟩ := Draft.body_after ⟨ns, []⟩ f.body
      refine ⟨ns.declareCalls code, ?_, .abandoned code ?_⟩
      · obtain rfl : d = Draft.after ⟨ns, []⟩ code := by rw [← lowered, failed]
        rfl
      · intro readable noVariable
        have first := Draft.func_fault (d := ⟨ns, []⟩) noVariable f
        simp [failed, Func.faults_of_readable readable] at first
    next d lowered =>
      obtain rfl := Draft.body_eq_ok lowered
      refine ⟨_, ?_, .defined (clash?_single clash)⟩
      simp [Func.lowered]

theorem runs_defineAll (ns : Namespace) (funcs : List Func) :
    ∃ ns', ((single ns).defineAll funcs).1 = single ns' ∧ Namespace.Runs funcs ns ns' := by
  induction funcs generalizing ns with
  | nil => exact ⟨ns, rfl, .nil⟩
  | cons f rest ih =>
    obtain ⟨middle, reached, step⟩ := step_defineFunc ns f
    unfold defineAll
    split
    next s code defined =>
      obtain rfl : s = single middle := by rw [← reached, defined]
      obtain ⟨ns', reached', runs⟩ := ih middle
      exact ⟨ns', reached', .cons step runs⟩
    next s e failed =>
      obtain rfl : s = single middle := by rw [← reached, failed]
      exact ⟨middle, rfl, .cons step (.refused rest middle)⟩

theorem runs_build (ns : Namespace) (f : File) :
    ∃ ns', ((single ns).build f).1 = single ns' ∧ Namespace.Runs f.funcs ns ns' := by
  obtain ⟨ns', reached, runs⟩ := runs_defineAll ns f.funcs
  refine ⟨ns', ?_, runs⟩
  rw [← reached]
  unfold build
  split
  next s h => rw [h]
  next s e h => rw [h]

/-- The scope after building files one after the other, whether each build succeeds or fails. -/
def buildAll (s : Scope) (files : List File) : Scope :=
  files.foldl (fun s f => (s.build f).1) s

theorem runs_buildAll (ns : Namespace) (files : List File) :
    ∃ ns', (single ns).buildAll files = single ns' ∧
      Namespace.Runs (files.flatMap (·.funcs)) ns ns' := by
  induction files generalizing ns with
  | nil => exact ⟨ns, rfl, .nil⟩
  | cons f rest ih =>
    obtain ⟨middle, reached, runs⟩ := runs_build ns f
    obtain ⟨ns', reached', runs'⟩ := ih middle
    refine ⟨ns', ?_, runs.append runs'⟩
    rw [buildAll, List.foldl_cons, reached]
    exact reached'

end Scope

namespace Namespace

/-- Every name of the first namespace is bound in the second, to the same element unless a
placeholder has become a function. -/
def Extends (ns ns' : Namespace) : Prop :=
  ∀ name e, ns.get? name = some e →
    ns'.get? name = some e ∨ e = .placeholder ∧ ∃ body, ns'.get? name = some (.function body)

/-- Names are bound to built-in functions, functions and placeholders only, and functions call bound
names only. -/
structure Closed (ns : Namespace) : Prop where
  plain : ∀ name e, ns.get? name = some e → e = .builtin ∨ e = .placeholder ∨
    ∃ body, e = .function body
  called : ∀ name body callee, ns.get? name = some (.function body) → .call callee ∈ body →
    ∃ e, ns.get? callee = some e

/-- Every placeholder is called by a function. -/
def Needed (ns : Namespace) : Prop :=
  ∀ name, ns.get? name = some .placeholder → ∃ caller body, ns.get? caller = some (.function body) ∧
    .call name ∈ body

theorem Closed.noVariable {ns : Namespace} (h : ns.Closed) : ns.NoVariable := by
  intro name bound
  simpa using h.plain name _ bound

theorem Extends.refl (ns : Namespace) : ns.Extends ns :=
  fun _ _ bound => .inl bound

theorem Extends.trans {a b c : Namespace} (first : a.Extends b) (second : b.Extends c) :
    a.Extends c := by
  intro name e bound
  rcases first name e bound with same | ⟨rfl, body, becomes⟩
  · exact second name e same
  · rcases second name _ becomes with same | ⟨wrong, -⟩
    · exact .inr ⟨rfl, body, same⟩
    · cases wrong

theorem Extends.bound {ns ns' : Namespace} (h : ns.Extends ns') {name : Bytes} {e : Element}
    (bound : ns.get? name = some e) : ∃ e', ns'.get? name = some e' := by
  rcases h name e bound with same | ⟨-, body, becomes⟩
  · exact ⟨e, same⟩
  · exact ⟨_, becomes⟩

theorem Step.extends {f : Func} {ns ns' : Namespace} (step : ns.Step f ns') (closed : ns.Closed) :
    ns.Extends ns' := by
  cases step with
  | refused => exact .refl ns
  | abandoned code _ => exact fun name e bound => .inl (get?_declareCalls_of_some bound code)
  | defined free =>
    intro name e bound
    rw [NameMap.get?_insert]
    by_cases same : name = f.name
    · subst same
      rcases free e bound with rfl | rfl
      · exact .inr ⟨rfl, f.lowered, if_pos rfl⟩
      · simpa using closed.plain _ _ bound
    · exact .inl (by rw [if_neg same, get?_declareCalls_of_some bound])

theorem get?_defined_eq_some {f : Func} {ns : Namespace} {name : Bytes} {e : Element}
    (h : ((ns.declareCalls f.lowered).insert f.name (.function f.lowered)).get? name = some e) :
    e = .function f.lowered ∨ ns.get? name = some e ∨
    e = .placeholder ∧ .call name ∈ f.lowered := by
  rw [NameMap.get?_insert] at h
  split at h
  next => exact .inl (Option.some.inj h).symm
  next => exact .inr (get?_declareCalls_eq_some h)

theorem exists_get?_defined_of_call {f : Func} {ns : Namespace} {callee : Bytes}
    (call : .call callee ∈ f.lowered) :
    ∃ e, ((ns.declareCalls f.lowered).insert f.name (.function f.lowered)).get? callee =
      some e := by
  rw [NameMap.get?_insert, get?_declareCalls, if_pos call]
  by_cases same : callee = f.name
  · exact ⟨_, if_pos same⟩
  · rw [if_neg same]
    cases ns.get? callee <;> simp

theorem Step.closed {f : Func} {ns ns' : Namespace} (step : ns.Step f ns') (closed : ns.Closed) :
    ns'.Closed := by
  have keeps := step.extends closed
  cases step with
  | refused => exact closed
  | abandoned code _ =>
    refine ⟨?_, ?_⟩
    · intro name e bound
      rcases get?_declareCalls_eq_some bound with old | ⟨rfl, -⟩
      · exact closed.plain name e old
      · exact .inr (.inl rfl)
    · intro name body callee bound call
      rcases get?_declareCalls_eq_some bound with old | ⟨wrong, -⟩
      · obtain ⟨e, he⟩ := closed.called name body callee old call
        exact keeps.bound he
      · cases wrong
  | defined free =>
    refine ⟨?_, ?_⟩
    · intro name e bound
      rcases get?_defined_eq_some bound with rfl | old | ⟨rfl, -⟩
      · exact .inr (.inr ⟨_, rfl⟩)
      · exact closed.plain name e old
      · exact .inr (.inl rfl)
    · intro name body callee bound call
      rcases get?_defined_eq_some bound with new | old | ⟨wrong, -⟩
      · cases new
        exact exists_get?_defined_of_call call
      · obtain ⟨e, he⟩ := closed.called name body callee old call
        exact keeps.bound he
      · cases wrong

theorem Needed.define {f : Func} {ns : Namespace} (needed : ns.Needed)
    (free : ∀ e, ns.get? f.name = some e → e = .placeholder ∨ e = .unset) :
    Needed ((ns.declareCalls f.lowered).insert f.name (.function f.lowered)) := by
  intro name bound
  rcases get?_defined_eq_some bound with wrong | old | ⟨-, call⟩
  · cases wrong
  · obtain ⟨caller, body, function, call⟩ := needed name old
    have other : caller ≠ f.name := by
      rintro rfl
      simpa using free _ function
    refine ⟨caller, body, ?_, call⟩
    rw [NameMap.get?_insert, if_neg other, get?_declareCalls_of_some function]
  · exact ⟨f.name, f.lowered, by rw [NameMap.get?_insert, if_pos rfl], call⟩

theorem Step.needed {f : Func} {ns ns' : Namespace} (step : ns.Step f ns') (closed : ns.Closed)
    (readable : f.Readable) (needed : ns.Needed) : ns'.Needed := by
  cases step with
  | refused => exact needed
  | abandoned code fails => exact absurd closed.noVariable (fails readable)
  | defined free => exact needed.define free

theorem Runs.closed {funcs : List Func} {ns ns' : Namespace} (runs : Runs funcs ns ns')
    (closed : ns.Closed) :
    ns'.Closed := by
  induction runs with
  | nil => exact closed
  | cons step _ ih => exact ih (step.closed closed)

theorem Runs.extends {funcs : List Func} {ns ns' : Namespace} (runs : Runs funcs ns ns')
    (closed : ns.Closed) :
    ns.Extends ns' := by
  induction runs with
  | nil => exact .refl _
  | cons step _ ih => exact (step.extends closed).trans (ih (step.closed closed))

theorem Runs.needed {funcs : List Func} {ns ns' : Namespace} (runs : Runs funcs ns ns')
    (closed : ns.Closed) (readable : ∀ f ∈ funcs, f.Readable) (needed : ns.Needed) :
    ns'.Needed := by
  induction runs with
  | nil => exact needed
  | cons step _ ih =>
    have first := step.needed closed (readable _ (by simp)) needed
    exact ih (step.closed closed) (fun f hf => readable f (by simp [hf])) first

theorem Closed.placeholder_iff {ns : Namespace} (closed : ns.Closed) (needed : ns.Needed)
    (name : Bytes) :
    ns.get? name = some .placeholder ↔
      (∃ caller body, ns.get? caller = some (.function body) ∧ .call name ∈ body) ∧
        ns.get? name ≠ some .builtin ∧ ∀ body, ns.get? name ≠ some (.function body) := by
  constructor
  · intro bound
    exact ⟨needed name bound, by simp [bound], by simp [bound]⟩
  · rintro ⟨⟨caller, body, function, call⟩, noBuiltin, noFunction⟩
    obtain ⟨e, he⟩ := closed.called caller body name function call
    rcases closed.plain name e he with rfl | rfl | ⟨body', rfl⟩
    · exact absurd he noBuiltin
    · exact he
    · exact absurd he (noFunction body')

end Namespace

namespace Scope

theorem withBuiltins_closed (names : List Bytes) :
    ∃ ns, withBuiltins names = single ns ∧ ns.Closed ∧ ns.Needed := by
  refine ⟨_, rfl, ⟨fun name e h => .inl (Namespace.eq_builtin_of_get? h).1, ?_⟩, ?_⟩
  · intro name body callee bound
    cases (Namespace.eq_builtin_of_get? bound).1
  · intro name bound
    cases (Namespace.eq_builtin_of_get? bound).1

def builtNames (builtins : List Bytes) (files : List File) : Namespace :=
  ((withBuiltins builtins).buildAll files).top

/-- Over all builds of a builder the scope has one namespace, in which names stay bound to what they
are bound to, unless a placeholder becomes a function, and called names are bound. After builds of
files that were read, the placeholders are the names that are called and not defined. -/
theorem builds_keep_names (builtins : List Bytes) (before after : List File) :
    ((withBuiltins builtins).buildAll before).size = 1 ∧
    (builtNames builtins before).Extends (builtNames builtins (before ++ after)) ∧
    (builtNames builtins before).NoVariable ∧
    (∀ name body callee, (builtNames builtins before).get? name = some (.function body) →
      .call callee ∈ body → ∃ e, (builtNames builtins before).get? callee = some e ∧
        (e = .builtin ∨ e = .placeholder ∨ ∃ body', e = .function body')) ∧
    ((∀ f ∈ before, ∃ b : Bundle, b.parse = .ok f) → ∀ name,
      (builtNames builtins before).get? name = some .placeholder ↔
        (∃ caller body, (builtNames builtins before).get? caller = some (.function body) ∧
          .call name ∈ body) ∧ (builtNames builtins before).get? name ≠ some .builtin ∧
        ∀ body, (builtNames builtins before).get? name ≠ some (.function body)) := by
  obtain ⟨start, atStart, closed, needed⟩ := withBuiltins_closed builtins
  obtain ⟨ns, reached, runs⟩ := runs_buildAll start before
  obtain ⟨ns', reached', runs'⟩ := runs_buildAll ns after
  have append : (single start).buildAll (before ++ after) = single ns' := by
    rw [← reached', ← reached, buildAll, List.foldl_append]
    rfl
  have closed' := runs.closed closed
  rw [builtNames, builtNames, atStart, append, reached]
  refine ⟨rfl, runs'.extends closed', closed'.noVariable, ?_, ?_⟩
  · intro name body callee bound call
    obtain ⟨e, he⟩ := closed'.called name body callee bound call
    exact ⟨e, he, closed'.plain callee e he⟩
  · intro parsed
    have readable : ∀ fn ∈ before.flatMap (·.funcs), fn.Readable := by
      intro fn hfn
      obtain ⟨f, hf, hfn⟩ := List.mem_flatMap.mp hfn
      obtain ⟨b, parsed⟩ := parsed f hf
      exact Bundle.readable_of_parse parsed fn hfn
    exact closed'.placeholder_iff (runs.needed closed readable needed)

theorem undefined_call_leaves_placeholder :
    ∃ f g, File.parse [] (bytes "fn f() \x7b g(h()); \x7d") = .ok f ∧
      File.parse [] (bytes "fn h() \x7b\x7d fn f() \x7b\x7d") = .ok g ∧
      (builtNames [bytes "print"] [f, g]).get? (bytes "g") = some .placeholder ∧
      ∃ caller body, (builtNames [bytes "print"] [f, g]).get? caller = some (.function body) ∧
        .call (bytes "g") ∈ body := by
  have computed : (match File.parse [] (bytes "fn f() \x7b g(h()); \x7d"),
      File.parse [] (bytes "fn h() \x7b\x7d fn f() \x7b\x7d") with
    | .ok f, .ok g => (builtNames [bytes "print"] [f, g]).get? (bytes "g") == some .placeholder
    | _, _ => false) = true := by
    decide +kernel
  split at computed
  next f g hf hg =>
    have bound := eq_of_beq computed
    have parsed : ∀ file ∈ [f, g], ∃ b : Bundle, b.parse = .ok file := by
      simpa using ⟨⟨_, hf⟩, ⟨_, hg⟩⟩
    have iff := (builds_keep_names [bytes "print"] [f, g] []).2.2.2.2 parsed (bytes "g")
    exact ⟨f, g, hf, hg, bound, (iff.mp bound).1⟩
  next => cases computed

end Scope

end StackLang
