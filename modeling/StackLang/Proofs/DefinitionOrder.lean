import StackLang.Proofs.BuildOutcome
import StackLang.Proofs.FormattedProgram

namespace StackLang

mutual

theorem Expr.lowered_unplaced : (e : Expr) → e.unplaced.lowered = e.lowered
  | .literal _ _ => rfl
  | .call _ name args => by
    rw [Expr.unplaced, Expr.lowered, Expr.lowered, Expr.loweredAll_unplaced args]
  | .foreign _ => rfl

theorem Expr.loweredAll_unplaced : (exprs : List Expr) →
    Expr.loweredAll (Expr.unplacedAll exprs) = Expr.loweredAll exprs
  | [] => rfl
  | e :: rest => by
    rw [Expr.unplacedAll, Expr.loweredAll, Expr.loweredAll, Expr.lowered_unplaced e,
      Expr.loweredAll_unplaced rest]

end

theorem Stmt.lowered_unplaced (s : Stmt) : s.unplaced.lowered = s.lowered := by
  cases s with
  | expr pos value => exact value.lowered_unplaced
  | foreign value => rfl

namespace Func

/-- The name and the body of a function, without positions and without the mark for impure
functions. -/
def content (f : Func) : Bytes × List Stmt :=
  (f.name, f.unplaced.body)

theorem lowered_eq_content (f : Func) : f.lowered = f.content.2.flatMap Stmt.lowered := by
  rw [content, unplaced, List.flatMap_map]
  simp only [Stmt.lowered_unplaced]
  rfl

end Func

namespace File

/-- Both files have the same functions, in any order. -/
def Reordered (f g : File) : Prop :=
  (f.funcs.map Func.content).Perm (g.funcs.map Func.content)

namespace Reordered

variable {f g : File} {builtins : List Bytes}

theorem symm (h : f.Reordered g) : g.Reordered f :=
  List.Perm.symm h

theorem names_perm (h : f.Reordered g) : f.names.Perm g.names := by
  have same : ((f.funcs.map Func.content).map Prod.fst).Perm
      ((g.funcs.map Func.content).map Prod.fst) := h.map _
  simp only [List.map_map] at same
  exact same

theorem exists_func (h : f.Reordered g) {fn : Func} (hfn : fn ∈ f.funcs) :
    ∃ gn ∈ g.funcs, gn.name = fn.name ∧ gn.lowered = fn.lowered := by
  have mem : fn.content ∈ g.funcs.map Func.content := h.mem_iff.mp (List.mem_map_of_mem hfn)
  obtain ⟨gn, hgn, same⟩ := List.mem_map.mp mem
  refine ⟨gn, hgn, congrArg Prod.fst same, ?_⟩
  rw [Func.lowered_eq_content, Func.lowered_eq_content, same]

theorem callees_subset (h : f.Reordered g) : f.callees ⊆ g.callees := by
  intro name called
  obtain ⟨fn, hfn, call⟩ := List.mem_flatMap.mp called
  obtain ⟨gn, hgn, -, lowered⟩ := h.exists_func hfn
  refine List.mem_flatMap.mpr ⟨gn, hgn, ?_⟩
  rw [← Func.call_mem_lowered_iff] at call ⊢
  rwa [lowered]

theorem definable (h : f.Reordered g) (readable : g.Readable)
    (definable : Definable builtins f.funcs) :
    Definable builtins g.funcs := by
  refine ⟨h.names_perm.nodup_iff.mp definable.distinct, ?_,
    fun gn hgn => Func.faults_of_readable (readable gn hgn)⟩
  intro gn hgn
  obtain ⟨fn, hfn, same, -⟩ := h.symm.exists_func hgn
  rw [← same]
  exact definable.noBuiltin fn hfn

theorem undefined (h : f.Reordered g) {names : List Bytes}
    (undefined : f.Undefined builtins names) :
    g.Undefined builtins names := by
  refine ⟨undefined.ascending, fun name => ?_⟩
  have called : name ∈ f.callees ↔ name ∈ g.callees :=
    ⟨fun m => h.callees_subset m, fun m => h.symm.callees_subset m⟩
  rw [undefined.mem_iff, called, h.names_perm.mem_iff]

/-- Without a clash of names the result of building does not depend on the order. -/
theorem buildsTo (h : f.Reordered g) (readable : g.Readable) (distinct : Definable builtins f.funcs)
    {r : Except ResolveFailure Namespace} (built : f.BuildsTo builtins r) :
    g.BuildsTo builtins r := by
  have definable := h.definable readable distinct
  cases built with
  | rejected split _ misfit => exact absurd distinct (BuildsTo.not_definable split misfit)
  | undefined _ names nonempty => exact .undefined definable (h.undefined names) nonempty
  | noMain _ none absent =>
    exact .noMain definable (h.undefined none) fun main => absent (h.names_perm.mem_iff.mpr main)
  | resolved _ none main bound =>
    refine .resolved definable (h.undefined none) (h.names_perm.mem_iff.mp main) fun name e => ?_
    rw [bound]
    refine or_congr_right ⟨?_, ?_⟩
    · rintro ⟨fn, hfn, rfl, rfl⟩
      obtain ⟨gn, hgn, same, lowered⟩ := h.exists_func hfn
      exact ⟨gn, hgn, same, by rw [lowered]⟩
    · rintro ⟨gn, hgn, rfl, rfl⟩
      obtain ⟨fn, hfn, same, lowered⟩ := h.symm.exists_func hgn
      exact ⟨fn, hfn, same, by rw [lowered]⟩

theorem compile_eq (h : f.Reordered g) (readable : g.Readable)
    (distinct : Definable Builtin.names f.funcs) :
    f.compile = g.compile := by
  have same : f.resolve = g.resolve :=
    (h.buildsTo readable distinct (f.buildsTo_build Builtin.names)).unique
      (g.buildsTo_build Builtin.names)
  rw [File.compile, File.compile, same]

end Reordered

theorem compile_of_not_definable {f : File} (clash : ¬ Definable Builtin.names f.funcs) :
    ∃ e, f.compile = .error e := by
  obtain ⟨e, failed⟩ := (f.buildsTo_build Builtin.names).error_of_not_definable clash
  have resolve : f.resolve = .error e := failed
  exact ⟨.build e, by rw [File.compile, resolve]; rfl⟩

end File

/-- Two texts with the same functions in any order, marked as impure or not, compile to the same
image or both fail, and they fail alike unless names clash. -/
theorem compile_of_reordered {name name' text text' : Bytes} {f g : File}
    (parsed : File.parse name text = .ok f) (parsed' : File.parse name' text' = .ok g)
    (reordered : f.Reordered g) :
    ((∃ image, compile name text = .ok image ∧ compile name' text' = .ok image) ∨
      ∃ e e', compile name text = .error e ∧ compile name' text' = .error e') ∧
    (f.names.Nodup → (∀ fn ∈ f.names, fn ∉ Builtin.names) →
      compile name text = compile name' text') := by
  have readable : f.Readable := Bundle.readable_of_parse parsed
  have readable' : g.Readable := Bundle.readable_of_parse parsed'
  rw [compile_of_parse parsed, compile_of_parse parsed']
  refine ⟨?_, ?_⟩
  · by_cases distinct : Definable Builtin.names f.funcs
    · rw [reordered.compile_eq readable' distinct]
      cases g.compile with
      | ok image => exact .inl ⟨image, rfl, rfl⟩
      | error e => exact .inr ⟨e, e, rfl, rfl⟩
    · have clash' : ¬ Definable Builtin.names g.funcs :=
        fun h => distinct (reordered.symm.definable readable h)
      obtain ⟨e, failed⟩ := File.compile_of_not_definable distinct
      obtain ⟨e', failed'⟩ := File.compile_of_not_definable clash'
      exact .inr ⟨e, e', failed, failed'⟩
  · intro distinct noBuiltin
    apply reordered.compile_eq readable'
    exact ⟨distinct, fun fn hfn => noBuiltin _ (List.mem_map_of_mem hfn),
      fun fn hfn => Func.faults_of_readable (readable fn hfn)⟩

/-- Two functions that call each other and a third that is not defined. -/
def forwardText : Bytes :=
  bytes "fn main() \x7b f(g()); \x7d impure fn f() \x7b g('a', main()); \x7d"

def backwardText : Bytes :=
  bytes "fn f()\x7bg(\"a\",main());\x7d impure fn main()\x7b;f(g());\x7d"

def forwardTree : FileTree :=
  ⟨[⟨false, bytes "main", [.stmt (.call (bytes "f") [.call (bytes "g") []])]⟩,
    ⟨true, bytes "f", [.stmt (.call (bytes "g") [.literal (bytes "a"), .call (bytes "main") []])]⟩]⟩

def backwardTree : FileTree :=
  ⟨[⟨false, bytes "f", [.stmt (.call (bytes "g") [.literal (bytes "a"), .call (bytes "main") []])]⟩,
    ⟨true, bytes "main", [.empty, .stmt (.call (bytes "f") [.call (bytes "g") []])]⟩]⟩

theorem forwardText_fails_as_backwardText :
    ∃ f g, File.parse [] forwardText = .ok f ∧ File.parse [] backwardText = .ok g ∧ f.Reordered g ∧
      f.names.Nodup ∧ (∀ fn ∈ f.names, fn ∉ Builtin.names) ∧
        compile [] forwardText = compile [] backwardText ∧
      compile [] backwardText = .error (.build (.bare (.undefined [bytes "g"]))) := by
  have tokens : Lexeme.tokens? forwardText = some forwardTree.tokens := by decide +kernel
  have tokens' : Lexeme.tokens? backwardText = some backwardTree.tokens := by decide +kernel
  have failed : compile [] backwardText = .error (.build (.bare (.undefined [bytes "g"]))) := by
    decide +kernel
  obtain ⟨f, parsed, denoted⟩ := File.parse_of_derivation [] (by decide +kernel) tokens
  obtain ⟨g, parsed', denoted'⟩ := File.parse_of_derivation [] (by decide +kernel) tokens'
  have content (file : File) : file.funcs.map Func.content = file.unplaced.map fun fn =>
      (fn.name, fn.body) := by
    rw [File.unplaced, List.map_map]
    rfl
  have reordered : f.Reordered g := by
    rw [File.Reordered, content, content, denoted, denoted']
    exact .swap _ _ _
  have names : f.names = [bytes "main", bytes "f"] := by
    have unplaced : f.names = f.unplaced.map Func.name := by
      simp [File.names, File.unplaced, Func.unplaced]
    rw [unplaced, denoted]
    rfl
  have distinct : f.names.Nodup := by
    rw [names]
    decide +kernel
  have noBuiltin : ∀ fn ∈ f.names, fn ∉ Builtin.names := by
    rw [names]
    decide +kernel
  have same := (compile_of_reordered parsed parsed' reordered).2 distinct noBuiltin
  exact ⟨f, g, parsed, parsed', reordered, distinct, noBuiltin, same, failed⟩

end StackLang
