import Mathlib.Control.Monad.Basic
import StackLang.Compile
import StackLang.Proofs.TokenTexts

namespace StackLang

namespace Draft

mutual

theorem expr_unplaced (d : Draft) : (e : Expr) → d.expr e.unplaced = d.expr e
  | .literal _ _ => rfl
  | .call _ name values => by simp only [Expr.unplaced, expr, args_unplaced d name 0 values]
  | .foreign _ => rfl

theorem args_unplaced (d : Draft) (callee : Bytes) (index : Nat) : (values : List Expr) →
    d.args callee index (Expr.unplacedAll values) = d.args callee index values
  | [] => rfl
  | value :: rest => by
    simp only [Expr.unplacedAll, args, expr_unplaced d value]
    split
    next d' _ => exact args_unplaced d' callee (index + 1) rest
    next => rfl

end

theorem stmt_unplaced (d : Draft) (s : Stmt) : d.stmt s.unplaced = d.stmt s := by
  cases s with
  | expr pos value => exact d.expr_unplaced value
  | foreign value => rfl

theorem body_unplaced (d : Draft) (body : List Stmt) :
    d.body (body.map Stmt.unplaced) = d.body body := by
  induction body generalizing d with
  | nil => rfl
  | cons s rest ih =>
    simp only [List.map_cons, Draft.body, stmt_unplaced]
    split
    next d' _ => exact ih d'
    next => rfl

end Draft

namespace Scope

theorem defineFunc_unplaced (s : Scope) (f : Func) : s.defineFunc f.unplaced = s.defineFunc f := by
  simp only [defineFunc, Func.unplaced, Draft.body_unplaced]

theorem defineAll_unplaced (s : Scope) (funcs : List Func) :
    s.defineAll (funcs.map Func.unplaced) = s.defineAll funcs := by
  induction funcs generalizing s with
  | nil => rfl
  | cons f rest ih =>
    simp only [List.map_cons, defineAll, defineFunc_unplaced]
    split
    next s' _ _ => exact ih s'
    next => rfl

theorem build_eq_of_unplaced (s : Scope) {f g : File} (h : f.unplaced = g.unplaced) :
    s.build f = s.build g := by
  have same : s.defineAll f.funcs = s.defineAll g.funcs := calc
    s.defineAll f.funcs = s.defineAll f.unplaced := (s.defineAll_unplaced f.funcs).symm
    _ = s.defineAll g.unplaced := by rw [h]
    _ = s.defineAll g.funcs := s.defineAll_unplaced g.funcs
  rw [build, build, same]

end Scope

theorem File.compile_eq_of_unplaced {f g : File} (h : f.unplaced = g.unplaced) :
    f.compile = g.compile := by
  rw [compile, compile, resolve, resolve, standardScope.build_eq_of_unplaced h]

theorem compile_of_parse {name text : Bytes} {f : File} (h : File.parse name text = .ok f) :
    compile name text = f.compile := by
  rw [compile, h]
  rfl

namespace ExprTree

theorem mem_moreTokens {tree : ExprTree} {trees : List ExprTree} (h : tree ∈ trees) {t : Token}
    (ht : t ∈ tree.tokens) :
    t ∈ moreTokens trees := by
  induction trees with
  | nil => simp at h
  | cons first more ih =>
    rw [moreTokens]
    rcases List.mem_cons.mp h with rfl | h
    · simp [ht]
    · simp [ih h]

theorem mem_argTokens {tree : ExprTree} {trees : List ExprTree} (h : tree ∈ trees) {t : Token}
    (ht : t ∈ tree.tokens) :
    t ∈ argTokens trees := by
  cases trees with
  | nil => simp at h
  | cons first more =>
    rw [argTokens]
    rcases List.mem_cons.mp h with rfl | h
    · simp [ht]
    · simp [mem_moreTokens h ht]

mutual

theorem writable_expr :
    (tree : ExprTree) → (∀ t ∈ tree.tokens, t.Writable) → (e : Expr) → e.unplaced = tree.expr →
    e.Writable
  | .literal text, tokens, .literal _ _, rfl =>
    .literal (tokens (.literal text) (by simp [ExprTree.tokens]))
  | .call name trees, tokens, .call _ _ args, same => by
    simp only [Expr.unplaced, expr, Expr.call.injEq, true_and] at same
    obtain ⟨rfl, sameArgs⟩ := same
    refine .call (tokens (.ident _) (by simp [ExprTree.tokens])) ?_
    apply writable_exprs trees ?_ args sameArgs
    intro tree htree t ht
    exact tokens t (by simp [ExprTree.tokens, mem_argTokens htree ht])

theorem writable_exprs : (trees : List ExprTree) → (∀ tree ∈ trees, ∀ t ∈ tree.tokens, t.Writable) →
    (args : List Expr) → Expr.unplacedAll args = exprs trees → ∀ a ∈ args, a.Writable
  | [], _, [], _ => by simp
  | tree :: trees, tokens, a :: args, same => by
    obtain ⟨first, others⟩ := List.cons.inj same
    have firstWritable := writable_expr tree (tokens tree (by simp)) a first
    have othersWritable := writable_exprs trees (fun t ht => tokens t (by simp [ht])) args others
    exact List.forall_mem_cons.mpr ⟨firstWritable, othersWritable⟩

end

end ExprTree

theorem FuncTree.writable_func {tree : FuncTree} (tokens : ∀ t ∈ tree.tokens, t.Writable) {f : Func}
    (same : f.unplaced = tree.func) : f.Writable := by
  have name : f.name = tree.name := congrArg Func.name same
  have body : f.body.map Stmt.unplaced = tree.items.filterMap ItemTree.stmt? :=
    congrArg Func.body same
  refine ⟨?_, ?_⟩
  · rw [name]
    exact tokens (.ident tree.name) (by simp [FuncTree.tokens, FuncTree.headTokens])
  · intro s hs
    have mem : s.unplaced ∈ tree.items.filterMap ItemTree.stmt? := body ▸ List.mem_map_of_mem hs
    obtain ⟨item, hitem, denoted⟩ := List.mem_filterMap.mp mem
    cases item with
    | empty => cases denoted
    | stmt value =>
      have inItem : ∀ t ∈ value.tokens, t.Writable := by
        intro t ht
        apply tokens
        have inItems : t ∈ tree.items.flatMap ItemTree.tokens :=
          List.mem_flatMap.mpr ⟨_, hitem, by simp [ItemTree.tokens, ht]⟩
        simp only [FuncTree.tokens, List.mem_append, List.mem_cons, inItems, or_true, true_or]
      cases s with
      | foreign v => cases denoted
      | expr pos e =>
        exact value.writable_expr inItem e (Stmt.expr.inj (Option.some.inj denoted)).2.symm

namespace File

/-- What is read from a text can be written. -/
theorem writable_of_parse {name text : Bytes} {f : File} (h : File.parse name text = .ok f) :
    f.Writable := by
  obtain ⟨-, reading⟩ := parse_eq_ok_iff.mp h
  obtain ⟨valid, -⟩ := Reading.ofText_eq_iff.mp reading
  obtain ⟨tree, tokens, denoted⟩ := derivation_of_parse h
  have writable := Lexeme.writable_of_tokens? valid tokens
  intro fn hfn
  have mem : fn.unplaced ∈ tree.denotation := denoted ▸ List.mem_map_of_mem hfn
  obtain ⟨part, hpart, same⟩ := List.mem_map.mp mem
  apply FuncTree.writable_func _ same.symm
  intro t ht
  exact writable t (List.mem_flatMap.mpr ⟨part, hpart, ht⟩)

end File

/-- A text that can be read has a canonical text, which can be read too and compiles to the same
image or fails with the same error. -/
theorem compile_format {name text : Bytes} {f : File} (parsed : File.parse name text = .ok f) :
    ∃ formatted, f.format = .ok formatted ∧ (∃ g, File.parse name formatted = .ok g) ∧
      compile name formatted = compile name text := by
  obtain ⟨formatted, tree, written, denoted, splits⟩ :=
    Layout.file_written (File.writable_of_parse parsed)
  obtain ⟨g, again, same⟩ := File.parse_of_derivation name splits.valid splits.tokens?
  refine ⟨formatted, written, ⟨g, again⟩, ?_⟩
  rw [compile_of_parse again, compile_of_parse parsed]
  exact File.compile_eq_of_unplaced (same.trans denoted.symm)

/-- A text with a comment, an empty statement and the other quotes, that calls what is not
defined. -/
def untidyText : Bytes :=
  bytes "fn main()\x7b;print( 'a\"' ) ;// b\n c(c()); \x7d"

def tidyText : Bytes :=
  bytes "fn main() \x7b\n\tprint(\"a\\\"\");\n\tc(c());\n\x7d\n"

theorem compile_format_untidyText :
    ∃ f, File.parse [] untidyText = .ok f ∧ f.format = .ok tidyText ∧
    (∃ g, File.parse [] tidyText = .ok g) ∧
      compile [] tidyText = .error (.build (.bare (.undefined [bytes "c"]))) := by
  have written : (File.parse [] untidyText).map File.format = .ok (.ok tidyText) := by
    decide +kernel
  have fails : compile [] untidyText = .error (.build (.bare (.undefined [bytes "c"]))) := by
    decide +kernel
  cases parsed : File.parse [] untidyText with
  | error e =>
    rw [parsed] at written
    cases written
  | ok f =>
    rw [parsed] at written
    have own : f.format = .ok tidyText := Except.ok.inj written
    obtain ⟨formatted, same, again, compiled⟩ := compile_format parsed
    obtain rfl := Except.ok.inj (own.symm.trans same)
    exact ⟨f, rfl, own, again, compiled.trans fails⟩

end StackLang
