import StackLang.Proofs.BuilderRuns
import StackLang.Proofs.TreeNodes

namespace StackLang

namespace Namespace

theorem mem_undefinedNames {ns : Namespace} {name : Bytes} :
    name ∈ ns.undefinedNames ↔ ns.get? name = some .placeholder := by
  rw [NameMap.get?_eq_some_iff, undefinedNames, List.mem_map]
  constructor
  · rintro ⟨⟨_, e⟩, kept, rfl⟩
    obtain ⟨entry, placeholder⟩ := List.mem_filter.mp kept
    cases e <;> simp [Element.isPlaceholder] at placeholder
    exact entry
  · intro entry
    exact ⟨_, List.mem_filter.mpr ⟨entry, rfl⟩, rfl⟩

theorem undefinedNames_ascending (ns : Namespace) :
    ns.undefinedNames.Pairwise fun a b => compare a b = .lt :=
  List.pairwise_map.mpr (ns.ascending.sublist List.filter_sublist)

theorem problem?_eq_some {ns : Namespace} {e : ResolveError} (h : ns.problem? = some e) :
    ns.undefinedNames ≠ [] ∧ e = .undefined ns.undefinedNames ∨
      ns.undefinedNames = [] ∧ ¬ ns.hasMain ∧ e = .noMain := by
  unfold problem? at h
  split at h
  next none =>
    split at h
    next => cases h
    next noMain =>
      cases h
      exact .inr ⟨none, noMain, rfl⟩
  next names some =>
    cases h
    exact .inl ⟨some, rfl⟩

end Namespace

/-- What keeps a function from being defined after the functions `before`, and how that is
reported. -/
def Func.misfit? (builtins : List Bytes) (before : List Func) (f : Func) : Option ResolveFailure :=
  if f.name ∈ builtins then some (.bare (.builtinRedefined f.name))
  else if f.name ∈ before.map Func.name then some (.bare (.redefined f.name))
  else f.faults.head?

theorem Func.misfit?_eq_none_iff {builtins : List Bytes} {before : List Func} {f : Func} :
    f.misfit? builtins before = none ↔ f.name ∉ builtins ∧ f.name ∉ before.map Func.name ∧
    f.faults = [] := by
  unfold misfit?
  split
  next builtin => simp [builtin]
  next builtin =>
    split
    next defined => simp only [defined, reduceCtorEq, not_true_eq_false, false_and, and_false]
    next defined =>
      simp only [builtin, defined, List.head?_eq_none_iff, not_false_eq_true, true_and]

theorem Func.misfit?_eq_some {builtins : List Bytes} {before : List Func} {f : Func}
    {e : ResolveFailure} (h : f.misfit? builtins before = some e) :
    f.name ∈ builtins ∧ e = .bare (.builtinRedefined f.name) ∨
      f.name ∉ builtins ∧ f.name ∈ before.map Func.name ∧ e = .bare (.redefined f.name) ∨
      f.name ∉ builtins ∧ f.name ∉ before.map Func.name ∧ f.faults.head? = some e := by
  unfold misfit? at h
  split at h
  next builtin => exact .inl ⟨builtin, (Option.some.inj h).symm⟩
  next builtin =>
    split at h
    next defined => exact .inr (.inl ⟨builtin, defined, (Option.some.inj h).symm⟩)
    next fresh => exact .inr (.inr ⟨builtin, fresh, h⟩)

/-- Functions that can all be defined, one after the other. -/
structure Definable (builtins : List Bytes) (funcs : List Func) : Prop where
  distinct : (funcs.map Func.name).Nodup
  noBuiltin : ∀ f ∈ funcs, f.name ∉ builtins
  supported : ∀ f ∈ funcs, f.faults = []

namespace Definable

variable {builtins : List Bytes} {before after : List Func} {f : Func}

theorem nil (builtins : List Bytes) : Definable builtins [] :=
  ⟨by simp, by simp, by simp⟩

theorem of_append (h : Definable builtins (before ++ after)) : Definable builtins before := by
  refine ⟨?_, fun f hf => h.noBuiltin f (by simp [hf]), fun f hf => h.supported f (by simp [hf])⟩
  have distinct := h.distinct
  rw [List.map_append] at distinct
  exact (List.nodup_append.mp distinct).1

theorem concat_iff :
    Definable builtins (before ++ [f]) ↔
    Definable builtins before ∧ f.misfit? builtins before = none := by
  rw [Func.misfit?_eq_none_iff]
  constructor
  · intro h
    have distinct := h.distinct
    rw [List.map_append, List.nodup_append] at distinct
    refine ⟨h.of_append, h.noBuiltin f (by simp), ?_, h.supported f (by simp)⟩
    intro defined
    exact distinct.2.2 _ defined f.name (by simp) rfl
  · rintro ⟨h, builtin, fresh, supported⟩
    refine ⟨?_, ?_, ?_⟩
    · rw [List.map_append, List.nodup_append]
      refine ⟨h.distinct, by simp, ?_⟩
      rintro name defined _ mem rfl
      obtain rfl : name = f.name := by simpa using mem
      exact fresh defined
    · exact List.forall_mem_append.mpr ⟨h.noBuiltin, by simpa using builtin⟩
    · exact List.forall_mem_append.mpr ⟨h.supported, by simpa using supported⟩

theorem misfit?_eq_none (h : Definable builtins (before ++ f :: after)) :
    f.misfit? builtins before = none := by
  rw [List.append_cons] at h
  exact (concat_iff.mp h.of_append).2

theorem eq_nil_of_misfit {more rest : List Func} {e : ResolveFailure}
    (h : Definable builtins (before ++ more)) (misfit : f.misfit? builtins before = some e)
    (same : f :: after = more ++ rest) : more = [] := by
  cases more with
  | nil => rfl
  | cons g more =>
    obtain ⟨rfl, -⟩ := List.cons.inj same
    simp [h.misfit?_eq_none] at misfit

/-- A list has one first function that does not fit. -/
theorem first_misfit_unique {before' after' : List Func} {f' : Func} {e e' : ResolveFailure}
    (same : before ++ f :: after = before' ++ f' :: after') (h : Definable builtins before)
    (h' : Definable builtins before') (misfit : f.misfit? builtins before = some e)
    (misfit' : f'.misfit? builtins before' = some e') : e = e' := by
  rcases List.append_eq_append_iff.mp same with ⟨more, rfl, rest⟩ | ⟨more, rfl, rest⟩
  · obtain rfl := h'.eq_nil_of_misfit misfit rest
    obtain ⟨rfl, -⟩ := List.cons.inj rest
    rw [List.append_nil] at misfit'
    exact Option.some.inj (misfit.symm.trans misfit')
  · obtain rfl := h.eq_nil_of_misfit misfit' rest
    obtain ⟨rfl, -⟩ := List.cons.inj rest
    rw [List.append_nil] at misfit
    exact Option.some.inj (misfit.symm.trans misfit')

end Definable

namespace Namespace

namespace Built

variable {builtins : List Bytes} {funcs : List Func} {ns : Namespace}

theorem noVariable (built : Built builtins funcs ns) : ns.NoVariable := by
  intro name bound
  simpa using built.only name _ bound

/-- A name can be defined unless it is built in or has been defined. -/
theorem clash?_eq (built : Built builtins funcs ns) (name : Bytes) :
    (Scope.single ns).clash? name =
      if name ∈ builtins then some (.builtinRedefined name)
      else if name ∈ funcs.map Func.name then some (.redefined name)
      else none := by
  have lookup : (Scope.single ns).lookup name = (ns.get? name).map fun e => (e, 0) := by
    cases h : ns.get? name <;> simp [Scope.lookup, Scope.layers, Scope.single, Scope.find, h]
  by_cases builtin : name ∈ builtins
  · rw [if_pos builtin, Scope.clash?, lookup, built.builtin name builtin]
    rfl
  rw [if_neg builtin]
  by_cases defined : name ∈ funcs.map Func.name
  · obtain ⟨f, hf, rfl⟩ := List.mem_map.mp defined
    rw [if_pos defined, Scope.clash?, lookup, built.func f hf]
    rfl
  rw [if_neg defined, Scope.clash?, lookup]
  cases bound : ns.get? name with
  | none => rfl
  | some e =>
    rcases built.only name e bound with ⟨-, wrong⟩ | ⟨f, hf, rfl, -⟩ | rfl
    · exact absurd wrong builtin
    · exact absurd (List.mem_map_of_mem hf) defined
    · rfl

theorem defineFunc_of_misfit (built : Built builtins funcs ns) {f : Func} {e : ResolveFailure}
    (misfit : f.misfit? builtins funcs = some e) :
    ((Scope.single ns).defineFunc f).2 = .error e := by
  have clash := built.clash?_eq f.name
  rcases Func.misfit?_eq_some misfit with ⟨builtin, rfl⟩ | ⟨builtin, defined, rfl⟩ |
    ⟨builtin, fresh, first⟩
  · rw [Scope.defineFunc, clash, if_pos builtin]
  · rw [Scope.defineFunc, clash, if_neg builtin, if_pos defined]
  · rw [← Draft.func_fault (d := ⟨ns, []⟩) built.noVariable] at first
    obtain ⟨fault, failed, rfl⟩ := Option.map_eq_some_iff.mp first
    rw [Scope.defineFunc, clash, if_neg builtin, if_neg fresh]
    simp only [Scope.single]
    split
    next d fault' body =>
      rw [body] at failed
      cases failed
      rfl
    next d body =>
      rw [body] at failed
      cases failed

theorem clash?_of_fits (built : Built builtins funcs ns) {f : Func}
    (fits : f.misfit? builtins funcs = none) :
    (Scope.single ns).clash? f.name = none := by
  obtain ⟨builtin, fresh, -⟩ := Func.misfit?_eq_none_iff.mp fits
  rw [built.clash?_eq, if_neg builtin, if_neg fresh]

theorem defineFunc_of_fits (built : Built builtins funcs ns) {f : Func}
    (fits : f.misfit? builtins funcs = none) :
    (Scope.single ns).defineFunc f =
      (.single ((ns.declareCalls f.lowered).insert f.name (.function f.lowered)),
        .ok f.lowered) := by
  have fault : (Draft.body ⟨ns, []⟩ f.body).2 = none := by
    have first := Draft.func_fault (d := ⟨ns, []⟩) built.noVariable f
    rw [(Func.misfit?_eq_none_iff.mp fits).2.2] at first
    exact Option.map_eq_none_iff.mp first
  have body : Draft.body ⟨ns, []⟩ f.body =
      (⟨ns.declareCalls f.lowered, f.lowered.reverse⟩, none) := by
    have lowered := Draft.body_eq_ok (Prod.ext rfl fault)
    exact Prod.ext (by simpa [Func.lowered] using lowered) fault
  rw [Scope.defineFunc, built.clash?_of_fits fits]
  simp [Scope.single, body]

/-- Defining functions stops at the first that does not fit. -/
theorem defineAll_outcome {done : List Func} (built : Built builtins done ns) (needed : ns.Needed)
    (definable : Definable builtins done) (funcs : List Func) :
    (∃ ns', (Scope.single ns).defineAll funcs = (.single ns', none) ∧
      Built builtins (done ++ funcs) ns' ∧ ns'.Needed ∧ Definable builtins (done ++ funcs)) ∨
      ∃ before f after e, funcs = before ++ f :: after ∧ Definable builtins (done ++ before) ∧
        f.misfit? builtins (done ++ before) = some e ∧
        ((Scope.single ns).defineAll funcs).2 = some e := by
  induction funcs generalizing done ns with
  | nil => exact .inl ⟨ns, rfl, by simpa using built, needed, by simpa using definable⟩
  | cons f rest ih =>
    cases misfit : f.misfit? builtins done with
    | some e =>
      refine .inr ⟨[], f, rest, e, rfl, by simpa using definable, by simpa using misfit, ?_⟩
      have failed := built.defineFunc_of_misfit misfit
      unfold Scope.defineAll
      split
      next s code defined => simp [defined] at failed
      next s e' defined =>
        rw [defined] at failed
        exact congrArg some (Except.error.inj failed)
    | none =>
      have clash := built.clash?_of_fits misfit
      have further := ih (built.define clash) (needed.define (Scope.clash?_single clash))
        (Definable.concat_iff.mpr ⟨definable, misfit⟩)
      rw [Scope.defineAll, built.defineFunc_of_fits misfit]
      simp only [List.append_assoc, List.singleton_append] at further
      refine further.imp_right ?_
      rintro ⟨before, g, after, e, rfl, first, misfits, failed⟩
      exact ⟨f :: before, g, after, e, rfl, first, misfits, failed⟩

theorem placeholder_iff (built : Built builtins funcs ns) (needed : ns.Needed) {name : Bytes} :
    ns.get? name = some .placeholder ↔
      (∃ f ∈ funcs, name ∈ f.callees) ∧ name ∉ funcs.map Func.name ∧ name ∉ builtins := by
  constructor
  · intro bound
    refine ⟨?_, ?_, ?_⟩
    · obtain ⟨caller, body, function, call⟩ := needed name bound
      rcases built.only caller _ function with ⟨wrong, -⟩ | ⟨f, hf, -, same⟩ | wrong
      · cases wrong
      · cases same
        exact ⟨f, hf, Func.call_mem_lowered_iff.mp call⟩
      · cases wrong
    · intro defined
      obtain ⟨f, hf, rfl⟩ := List.mem_map.mp defined
      simp [built.func f hf] at bound
    · intro builtin
      simp [built.builtin name builtin] at bound
  · rintro ⟨⟨f, hf, call⟩, defined, builtin⟩
    obtain ⟨e, bound⟩ := built.called f hf name (Func.call_mem_lowered_iff.mpr call)
    rcases built.only name e bound with ⟨-, wrong⟩ | ⟨g, hg, rfl, -⟩ | rfl
    · exact absurd wrong builtin
    · exact absurd (List.mem_map_of_mem hg) defined
    · exact bound

theorem get?_eq_some_iff (built : Built builtins funcs ns)
    (complete : ∀ name, ns.get? name ≠ some .placeholder) {name : Bytes} {e : Element} :
    ns.get? name = some e ↔
      name ∈ builtins ∧ e = .builtin ∨ ∃ f ∈ funcs, f.name = name ∧ e = .function f.lowered := by
  constructor
  · intro bound
    rcases built.only name e bound with ⟨builtin, mem⟩ | func | rfl
    · exact .inl ⟨mem, builtin⟩
    · exact .inr func
    · exact absurd bound (complete name)
  · rintro (⟨mem, rfl⟩ | ⟨f, hf, rfl, rfl⟩)
    · exact built.builtin name mem
    · exact built.func f hf

end Built

end Namespace

namespace File

/-- The names that a file calls and that nothing defines. -/
structure Undefined (builtins : List Bytes) (f : File) (names : List Bytes) : Prop where
  ascending : names.Pairwise fun a b => compare a b = .lt
  mem_iff : ∀ name, name ∈ names ↔ name ∈ f.callees ∧ name ∉ f.names ∧ name ∉ builtins

/-- What building a file on top of built-in names gives. The first function that does not fit
decides, then the names that are left undefined, then whether there is a main function. -/
inductive BuildsTo (builtins : List Bytes) (f : File) : Except ResolveFailure Namespace → Prop
  | rejected {before fn after e} : f.funcs = before ++ fn :: after → Definable builtins before →
      fn.misfit? builtins before = some e → BuildsTo builtins f (.error e)
  | undefined {names} : Definable builtins f.funcs → f.Undefined builtins names → names ≠ [] →
      BuildsTo builtins f (.error (.bare (.undefined names)))
  | noMain : Definable builtins f.funcs → f.Undefined builtins [] → mainName ∉ f.names →
      BuildsTo builtins f (.error (.bare .noMain))
  | resolved {ns : Namespace} : Definable builtins f.funcs → f.Undefined builtins [] →
      mainName ∈ f.names → (∀ name e, ns.get? name = some e ↔
        name ∈ builtins ∧ e = .builtin ∨ ∃ fn ∈ f.funcs, fn.name = name ∧
          e = .function fn.lowered) →
      BuildsTo builtins f (.ok ns)

theorem Undefined.unique {builtins : List Bytes} {f : File} {a b : List Bytes}
    (ha : f.Undefined builtins a) (hb : f.Undefined builtins b) : a = b := by
  apply NameMap.eq_of_ascending id ha.ascending hb.ascending
  intro name
  rw [ha.mem_iff, hb.mem_iff]

end File

theorem Namespace.Built.buildsTo_resolved {builtins : List Bytes} {f : File} {ns : Namespace}
    (built : Built builtins f.funcs ns) (needed : ns.Needed)
    (definable : Definable builtins f.funcs) :
    f.BuildsTo builtins (Scope.single ns).resolved := by
  have undefined : f.Undefined builtins ns.undefinedNames := by
    refine ⟨ns.undefinedNames_ascending, fun name => ?_⟩
    rw [mem_undefinedNames, built.placeholder_iff needed, File.callees, List.mem_flatMap]
    rfl
  simp only [Scope.resolved, Scope.single]
  cases problem : ns.problem? with
  | none =>
    obtain ⟨complete, body, main⟩ := problem?_eq_none problem
    have defined : ns.undefinedNames = [] := by
      refine List.eq_nil_iff_forall_not_mem.mpr fun name mem => ?_
      exact complete name (mem_undefinedNames.mp mem)
    refine .resolved definable (defined ▸ undefined) ?_ fun name e =>
      built.get?_eq_some_iff complete
    rcases (built.get?_eq_some_iff complete).mp main with ⟨-, wrong⟩ | ⟨fn, hfn, name, -⟩
    · cases wrong
    · exact List.mem_map.mpr ⟨fn, hfn, name⟩
  | some e =>
    rcases problem?_eq_some problem with ⟨missing, rfl⟩ | ⟨complete, noMain, rfl⟩
    · exact .undefined definable undefined missing
    · refine .noMain definable (complete ▸ undefined) fun defined => noMain ?_
      obtain ⟨fn, hfn, name⟩ := List.mem_map.mp defined
      simp [hasMain, ← name, built.func fn hfn]

theorem Scope.withBuiltins_needed (builtins : List Bytes) : (withBuiltins builtins).top.Needed := by
  obtain ⟨ns, start, -, needed⟩ := withBuiltins_closed builtins
  rw [start]
  exact needed

namespace File

theorem buildsTo_build (builtins : List Bytes) (f : File) :
    f.BuildsTo builtins ((Scope.withBuiltins builtins).build f).2 := by
  have start := Namespace.Built.start builtins
  have outcome :=
    start.defineAll_outcome (Scope.withBuiltins_needed builtins) (.nil builtins) f.funcs
  simp only [List.nil_append] at outcome
  rcases outcome with ⟨ns, defined, built, needed, definable⟩ |
    ⟨before, fn, after, e, split, first, misfit, failed⟩
  · have result : ((Scope.withBuiltins builtins).build f).2 = (Scope.single ns).resolved := by
      simp only [Scope.build, Scope.withBuiltins, defined]
    rw [result]
    exact built.buildsTo_resolved needed definable
  · have result : ((Scope.withBuiltins builtins).build f).2 = .error e := by
      rw [Scope.build, Scope.withBuiltins]
      split
      next s defined => simp [defined] at failed
      next s e' defined => simpa [defined] using failed
    rw [result]
    exact .rejected split first misfit

namespace BuildsTo

variable {builtins : List Bytes} {f : File}

theorem error_of_not_definable {r : Except ResolveFailure Namespace} (h : f.BuildsTo builtins r)
    (fails : ¬ Definable builtins f.funcs) : ∃ e, r = .error e := by
  cases h with
  | rejected _ _ _ => exact ⟨_, rfl⟩
  | undefined definable _ _ => exact absurd definable fails
  | noMain definable _ _ => exact absurd definable fails
  | resolved definable _ _ _ => exact absurd definable fails

theorem not_definable {before after : List Func} {fn : Func} {e : ResolveFailure}
    (split : f.funcs = before ++ fn :: after) (misfit : fn.misfit? builtins before = some e) :
    ¬ Definable builtins f.funcs := by
  intro definable
  rw [split] at definable
  simp [definable.misfit?_eq_none] at misfit

theorem unique {r r' : Except ResolveFailure Namespace} (h : f.BuildsTo builtins r)
    (h' : f.BuildsTo builtins r') :
    r = r' := by
  cases h with
  | rejected split first misfit =>
    have clash := not_definable split misfit
    cases h' with
    | rejected split' first' misfit' =>
      exact congrArg _ (Definable.first_misfit_unique (split.symm.trans split') first first'
        misfit misfit')
    | undefined definable | noMain definable | resolved definable => exact absurd definable clash
  | undefined definable names nonempty =>
    cases h' with
    | rejected split _ misfit => exact absurd definable (not_definable split misfit)
    | undefined _ names' => rw [names.unique names']
    | noMain _ empty | resolved _ empty => exact absurd (names.unique empty) nonempty
  | noMain definable empty absent =>
    cases h' with
    | rejected split _ misfit => exact absurd definable (not_definable split misfit)
    | undefined _ names nonempty => exact absurd (names.unique empty) nonempty
    | noMain => rfl
    | resolved _ _ main => exact absurd main absent
  | resolved definable empty main bound =>
    cases h' with
    | rejected split _ misfit => exact absurd definable (not_definable split misfit)
    | undefined _ names nonempty => exact absurd (names.unique empty) nonempty
    | noMain _ _ absent => exact absurd main absent
    | resolved _ _ _ bound' =>
      congr 1
      ext name e
      rw [bound, bound']

end BuildsTo

/-- Building with placeholders gives exactly what the functions of the file say. -/
theorem build_resolves_exactly (builtins : List Bytes) (f : File)
    (r : Except ResolveFailure Namespace) :
    ((Scope.withBuiltins builtins).build f).2 = r ↔ f.BuildsTo builtins r := by
  constructor
  · rintro rfl
    exact f.buildsTo_build builtins
  · exact (f.buildsTo_build builtins).unique

end File

/-- What keeps a file from being built, and how that is reported. -/
inductive File.BuildFault (f : File) : ResolveError → Prop
  | redefined {name : Bytes} : 2 ≤ f.names.count name → BuildFault f (.redefined name)
  | builtinRedefined {name : Bytes} : name ∈ f.names → name ∈ Builtin.names →
      BuildFault f (.builtinRedefined name)
  | undefined {names : List Bytes} : names ≠ [] →
      (∀ name, name ∈ names ↔ name ∈ f.callees ∧ name ∉ f.names ∧ name ∉ Builtin.names) →
      BuildFault f (.undefined names)
  | noMain : mainName ∉ f.names → BuildFault f .noMain

theorem File.resolve_outcome {f : File} (readable : f.Readable) :
    (∃ ns, f.resolve = .ok ns ∧ (Builtin.names ++ f.names).Nodup) ∨
      ∃ e, f.resolve = .error e ∧ f.BuildFault e.cause := by
  have built := f.buildsTo_build Builtin.names
  rw [show ((Scope.withBuiltins Builtin.names).build f).2 = f.resolve from rfl] at built
  generalize f.resolve = r at built
  cases built with
  | @rejected before fn after e split first misfit =>
    refine .inr ⟨e, rfl, ?_⟩
    have names : f.names = before.map Func.name ++ fn.name :: after.map Func.name := by
      simp [names, split]
    have supported := Func.faults_of_readable (readable fn (by simp [split]))
    rcases Func.misfit?_eq_some misfit with ⟨builtin, rfl⟩ | ⟨-, defined, rfl⟩ | ⟨-, -, first⟩
    · exact .builtinRedefined (by simp [names]) builtin
    · refine .redefined ?_
      have earlier := List.one_le_count_iff.mpr defined
      rw [names, List.count_append, List.count_cons_self]
      omega
    · simp [supported] at first
  | undefined definable undefined some => exact .inr ⟨_, rfl, .undefined some undefined.mem_iff⟩
  | noMain definable undefined absent => exact .inr ⟨_, rfl, .noMain absent⟩
  | @resolved ns definable _ _ _ =>
    refine .inl ⟨ns, rfl, List.nodup_append.mpr ⟨by decide +kernel, definable.distinct, ?_⟩⟩
    rintro name builtin _ defined rfl
    obtain ⟨fn, hfn, rfl⟩ := List.mem_map.mp defined
    exact definable.noBuiltin fn hfn builtin

end StackLang
