import StackLang.Compile
import StackLang.Proofs.Lowering

namespace StackLang

/-- A namespace in which `funcs` have been defined on top of the built-in names. -/
structure Namespace.Built (builtins : List Bytes) (funcs : List Func) (ns : Namespace) : Prop where
  builtin : ∀ name ∈ builtins, ns.get? name = some .builtin
  func : ∀ f ∈ funcs, ns.get? f.name = some (.function f.lowered)
  only : ∀ name e, ns.get? name = some e →
    (e = .builtin ∧ name ∈ builtins) ∨ (∃ f ∈ funcs, f.name = name ∧ e = .function f.lowered) ∨
      e = .placeholder
  called : ∀ f ∈ funcs, ∀ name, .call name ∈ f.lowered → ∃ e, ns.get? name = some e

namespace Scope

theorem clash?_single {ns : Namespace} {name : Bytes} (h : (single ns).clash? name = none) :
    ∀ e, ns.get? name = some e → e = .placeholder ∨ e = .unset := by
  intro e he
  have found : (single ns).lookup name = some (e, 0) := by simp [lookup, layers, single, find, he]
  cases e <;> simp_all [clash?]

theorem defineFunc_single {ns : Namespace} {f : Func} {s : Scope} {code : List Instr}
    (h : (single ns).defineFunc f = (s, .ok code)) :
    (single ns).clash? f.name = none ∧
      s = single ((ns.declareCalls f.lowered).insert f.name (.function f.lowered)) := by
  unfold defineFunc at h
  split at h
  next => cases h
  next clash =>
    refine ⟨clash, ?_⟩
    simp only [single] at h
    split at h
    next => cases h
    next d lowered =>
      cases h
      obtain rfl := Draft.body_eq_ok lowered
      simp [single, Func.lowered]

end Scope

theorem Namespace.eq_builtin_of_get? {builtins : List Bytes} {name : Bytes} {e : Element}
    (h : NameMap.get? (.ofList (builtins.map fun name => (name, .builtin))) name = some e) :
    e = .builtin ∧ name ∈ builtins := by
  obtain ⟨_, mem, same⟩ := List.mem_map.mp (NameMap.mem_of_get?_ofList h)
  cases same
  exact ⟨rfl, mem⟩

namespace Namespace.Built

theorem start (builtins : List Bytes) :
    Built builtins [] (.ofList (builtins.map fun name => (name, .builtin))) := by
  refine ⟨?_, by simp, fun name e h => .inl (eq_builtin_of_get? h), by simp⟩
  intro name mem
  have listed : (name, Element.builtin) ∈ builtins.map fun name => (name, .builtin) :=
    List.mem_map_of_mem mem
  obtain ⟨e, he⟩ := NameMap.exists_get?_ofList listed
  obtain ⟨rfl, -⟩ := eq_builtin_of_get? he
  exact he

theorem define {builtins : List Bytes} {funcs : List Func} {ns : Namespace}
    (built : Built builtins funcs ns) {f : Func} (clash : (Scope.single ns).clash? f.name = none) :
    Built builtins (funcs ++ [f])
      ((ns.declareCalls f.lowered).insert f.name (.function f.lowered)) := by
  have free := Scope.clash?_single clash
  have lookup (name : Bytes) (other : name ≠ f.name) :
      ((ns.declareCalls f.lowered).insert f.name (.function f.lowered)).get? name =
        (ns.get? name).or (if .call name ∈ f.lowered then some .placeholder else none) := by
    rw [NameMap.get?_insert, if_neg other, get?_declareCalls]
  have bound : ((ns.declareCalls f.lowered).insert f.name (.function f.lowered)).get? f.name =
      some (.function f.lowered) := by
    rw [NameMap.get?_insert, if_pos rfl]
  refine ⟨?_, ?_, ?_, ?_⟩
  · intro name hn
    have old := built.builtin name hn
    have other : name ≠ f.name := by
      rintro rfl
      simpa using free _ old
    rw [lookup name other, old]
    rfl
  · intro g hg
    rcases List.mem_append.mp hg with hg | hg
    · have old := built.func g hg
      have other : g.name ≠ f.name := by
        intro same
        rw [same] at old
        simpa using free _ old
      rw [lookup g.name other, old]
      rfl
    · obtain rfl : g = f := by simpa using hg
      exact bound
  · intro name e he
    by_cases same : name = f.name
    · subst same
      rw [bound] at he
      exact .inr (.inl ⟨f, by simp, rfl, (Option.some.inj he).symm⟩)
    · rw [lookup name same] at he
      cases old : ns.get? name with
      | none =>
        simp only [old, Option.none_or] at he
        split at he
        next => exact .inr (.inr (Option.some.inj he).symm)
        next => cases he
      | some e' =>
        obtain rfl : e' = e := by simpa [old] using he
        refine (built.only name e' old).imp_right (Or.imp_left ?_)
        rintro ⟨g, hg, same⟩
        exact ⟨g, by simp [hg], same⟩
  · intro g hg name call
    by_cases same : name = f.name
    · exact ⟨_, by rw [same]; exact bound⟩
    · rw [lookup name same]
      rcases List.mem_append.mp hg with hg | hg
      · obtain ⟨e, he⟩ := built.called g hg name call
        exact ⟨e, by rw [he]; rfl⟩
      · obtain rfl : g = f := by simpa using hg
        cases ns.get? name <;> simp [call]

theorem defineAll {builtins : List Bytes} {done : List Func} {ns : Namespace}
    (built : Built builtins done ns) {funcs : List Func} {s : Scope}
    (h : (Scope.single ns).defineAll funcs = (s, none)) :
    ∃ ns', s = Scope.single ns' ∧ Built builtins (done ++ funcs) ns' := by
  induction funcs generalizing done ns with
  | nil =>
    cases h
    exact ⟨ns, rfl, by simpa using built⟩
  | cons f rest ih =>
    unfold Scope.defineAll at h
    split at h
    next s' code defined =>
      obtain ⟨clash, rfl⟩ := Scope.defineFunc_single defined
      obtain ⟨ns', rfl, final⟩ := ih (built.define clash) h
      exact ⟨ns', rfl, by simpa using final⟩
    next => cases h

end Namespace.Built

theorem Namespace.problem?_eq_none {ns : Namespace} (h : ns.problem? = none) :
    (∀ name, ns.get? name ≠ some .placeholder) ∧
      ∃ body, ns.get? mainName = some (.function body) := by
  unfold problem? at h
  split at h
  next undefined =>
    refine ⟨?_, ?_⟩
    · intro name hn
      have entry := NameMap.get?_eq_some_iff.mp hn
      have kept := List.map_eq_nil_iff.mp undefined
      simpa [Element.isPlaceholder] using List.filter_eq_nil_iff.mp kept _ entry
    · by_cases main : ns.hasMain
      · unfold hasMain at main
        split at main
        next body found => exact ⟨body, found⟩
        next => cases main
      · simp [main] at h
  next => cases h

/-- What resolving a file gives: every name is a built-in function or a function of the file, and
among the latter is the main function. -/
structure File.Resolved (f : File) (ns : Namespace) : Prop where
  built : ns.Built Builtin.names f.funcs
  main : ∃ fn ∈ f.funcs, fn.name = mainName
  complete : ∀ name, ns.get? name ≠ some .placeholder

theorem File.resolved_of_resolve {f : File} {ns : Namespace} (h : f.resolve = .ok ns) :
    f.Resolved ns := by
  unfold resolve Scope.build at h
  split at h
  next s defined =>
    obtain ⟨ns', rfl, built⟩ := (Namespace.Built.start Builtin.names).defineAll defined
    rw [List.nil_append] at built
    simp only [Scope.resolved, Scope.single] at h
    split at h
    next => cases h
    next noProblem =>
      cases h
      obtain ⟨complete, body, main⟩ := Namespace.problem?_eq_none noProblem
      refine ⟨built, ?_, complete⟩
      rcases built.only mainName _ main with ⟨wrong, -⟩ | ⟨fn, hfn, name, -⟩ | wrong
      · cases wrong
      · exact ⟨fn, hfn, name⟩
      · cases wrong
  next => cases h

end StackLang
