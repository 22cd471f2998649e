import StackLang.Source.Token
import StackLang.Source.Tree

namespace StackLang

/-- A derivation of `expr`. -/
inductive ExprTree where
  | literal (text : Bytes)
  | call (name : Bytes) (args : List ExprTree)

/-- A derivation of `item`. -/
inductive ItemTree where
  | stmt (value : ExprTree)
  | empty

/-- A derivation of `func`. -/
structure FuncTree where
  impure : Bool
  name : Bytes
  items : List ItemTree

/-- A derivation of `file`. -/
structure FileTree where
  funcs : List FuncTree

namespace ExprTree

mutual

def tokens : ExprTree → List Token
  | .literal text => [.literal text]
  | .call name args => .ident name :: .mark .openParen :: argTokens args ++ [.mark .closeParen]

/-- `[ expr { "," expr } ]` -/
def argTokens : List ExprTree → List Token
  | [] => []
  | first :: more => first.tokens ++ moreTokens more

/-- `{ "," expr }` -/
def moreTokens : List ExprTree → List Token
  | [] => []
  | next :: more => .mark .comma :: next.tokens ++ moreTokens more

end

mutual

def expr : ExprTree → Expr
  | .literal text => .literal 0 text
  | .call name args => .call 0 name (exprs args)

def exprs : List ExprTree → List Expr
  | [] => []
  | first :: more => first.expr :: exprs more

end

theorem exprs_eq_map (trees : List ExprTree) : exprs trees = trees.map expr := by
  induction trees with
  | nil => rfl
  | cons first more ih => rw [exprs, ih, List.map_cons]

theorem moreTokens_concat (trees : List ExprTree) (last : ExprTree) :
    moreTokens (trees ++ [last]) =
      .mark .comma :: trees.flatMap (fun t => t.tokens ++ [.mark .comma]) ++ last.tokens := by
  induction trees with
  | nil => simp [moreTokens]
  | cons first more ih => simp [moreTokens, ih]

theorem argTokens_concat (trees : List ExprTree) (last : ExprTree) :
    argTokens (trees ++ [last]) = trees.flatMap (fun t => t.tokens ++ [.mark .comma]) ++
      last.tokens := by
  cases trees with
  | nil => simp [argTokens, moreTokens]
  | cons first more => simp [argTokens, moreTokens_concat]

-- Unique readability goes by the first token of each part, so it is said of tokens that go on after
-- the part. Arguments are only told from what follows by the closing parenthesis.
mutual

theorem tokens_append_inj :
    (a b : ExprTree) → {x y : List Token} → a.tokens ++ x = b.tokens ++ y → a = b ∧ x = y
  | .literal s, .literal t, x, y, h => by
    obtain ⟨same, rest⟩ := List.cons.inj h
    cases same
    exact ⟨rfl, rest⟩
  | .literal s, .call name args, x, y, h => by simp [tokens] at h
  | .call name args, .literal t, x, y, h => by simp [tokens] at h
  | .call name args, .call name' args', x, y, h => by
    simp only [tokens, List.cons_append, List.append_assoc, List.cons.injEq, Token.ident.injEq,
      true_and] at h
    obtain ⟨rfl, inner⟩ := h
    obtain ⟨rfl, rest⟩ := argTokens_append_inj args args' inner
    exact ⟨rfl, rest⟩

theorem argTokens_append_inj : (a b : List ExprTree) → {x y : List Token} →
    argTokens a ++ .mark .closeParen :: x = argTokens b ++ .mark .closeParen :: y → a = b ∧ x = y
  | [], [], x, y, h => by simpa [argTokens] using h
  | [], first :: more, x, y, h => by cases first <;> simp [argTokens, tokens] at h
  | first :: more, [], x, y, h => by cases first <;> simp [argTokens, tokens] at h
  | first :: more, first' :: more', x, y, h => by
    simp only [argTokens, List.append_assoc] at h
    obtain ⟨rfl, others⟩ := tokens_append_inj first first' h
    obtain ⟨rfl, rest⟩ := moreTokens_append_inj more more' others
    exact ⟨rfl, rest⟩

theorem moreTokens_append_inj : (a b : List ExprTree) → {x y : List Token} →
    moreTokens a ++ .mark .closeParen :: x = moreTokens b ++ .mark .closeParen :: y → a = b ∧ x = y
  | [], [], x, y, h => by simpa [moreTokens] using h
  | [], next :: more, x, y, h => by simp [moreTokens] at h
  | next :: more, [], x, y, h => by simp [moreTokens] at h
  | next :: more, next' :: more', x, y, h => by
    simp only [moreTokens, List.cons_append, List.append_assoc, List.cons.injEq, true_and] at h
    obtain ⟨rfl, others⟩ := tokens_append_inj next next' h
    obtain ⟨rfl, rest⟩ := moreTokens_append_inj more more' others
    exact ⟨rfl, rest⟩

end

end ExprTree

namespace ItemTree

def tokens : ItemTree → List Token
  | stmt value => value.tokens ++ [.mark .semicolon]
  | empty => [.mark .semicolon]

/-- An empty statement is no part of the function. -/
def stmt? : ItemTree → Option Stmt
  | stmt value => some (.expr 0 value.expr)
  | empty => none

theorem tokens_append_inj (a b : ItemTree) {x y : List Token} (h : a.tokens ++ x = b.tokens ++ y) :
    a = b ∧ x = y := by
  cases a with
  | empty =>
    cases b with
    | empty => simpa [tokens] using h
    | stmt value => cases value <;> simp [tokens, ExprTree.tokens] at h
  | stmt value =>
    cases b with
    | empty => cases value <;> simp [tokens, ExprTree.tokens] at h
    | stmt value' =>
      simp only [tokens, List.append_assoc] at h
      obtain ⟨rfl, rest⟩ := value.tokens_append_inj value' h
      exact ⟨rfl, by simpa using rest⟩

/-- An item does not start with a closing brace. -/
theorem tokens_append_ne_closeBrace (a : ItemTree) (x y : List Token) :
    a.tokens ++ x ≠ .mark .closeBrace :: y := by
  intro h
  cases a with
  | empty => simp [tokens] at h
  | stmt value => cases value <;> simp [tokens, ExprTree.tokens] at h

theorem flatMap_tokens_append_inj (a b : List ItemTree) {x y : List Token}
    (h : a.flatMap tokens ++ .mark .closeBrace :: x = b.flatMap tokens ++ .mark .closeBrace :: y) :
    a = b ∧ x = y := by
  induction a generalizing b with
  | nil =>
    cases b with
    | nil => simpa using h
    | cons item rest =>
      rw [List.flatMap_cons, List.append_assoc] at h
      exact absurd h.symm (item.tokens_append_ne_closeBrace _ _)
  | cons item rest ih =>
    cases b with
    | nil =>
      rw [List.flatMap_cons, List.append_assoc] at h
      exact absurd h (item.tokens_append_ne_closeBrace _ _)
    | cons item' rest' =>
      simp only [List.flatMap_cons, List.append_assoc] at h
      obtain ⟨rfl, others⟩ := item.tokens_append_inj item' h
      obtain ⟨rfl, after⟩ := ih rest' others
      exact ⟨rfl, after⟩

end ItemTree

namespace FuncTree

def flagTokens (impure : Bool) : List Token :=
  if impure then [.keyword .impure] else []

/-- The tokens up to and with the parentheses. -/
def headTokens (impure : Bool) (name : Bytes) : List Token :=
  flagTokens impure ++ [.keyword .fn, .ident name, .mark .openParen, .mark .closeParen]

def tokens (f : FuncTree) : List Token :=
  headTokens f.impure f.name ++ .mark .openBrace :: f.items.flatMap ItemTree.tokens ++
    [.mark .closeBrace]

def func (f : FuncTree) : Func :=
  ⟨0, f.name, f.impure, f.items.filterMap ItemTree.stmt?⟩

theorem headTokens_append_inj {i j : Bool} {m n : Bytes} {x y : List Token}
    (h : headTokens i m ++ x = headTokens j n ++ y) : i = j ∧ m = n ∧ x = y := by
  cases i <;> cases j <;> simp_all [headTokens, flagTokens]

theorem tokens_append_inj (a b : FuncTree) {x y : List Token} (h : a.tokens ++ x = b.tokens ++ y) :
    a = b ∧ x = y := by
  obtain ⟨impure, name, items⟩ := a
  obtain ⟨impure', name', items'⟩ := b
  simp only [tokens, List.append_assoc, List.cons_append, List.nil_append] at h
  obtain ⟨rfl, rfl, block⟩ := headTokens_append_inj h
  obtain ⟨rfl, rest⟩ := ItemTree.flatMap_tokens_append_inj items items' (List.cons.inj block).2
  exact ⟨rfl, rest⟩

end FuncTree

namespace FileTree

def tokens (f : FileTree) : List Token :=
  f.funcs.flatMap FuncTree.tokens

/-- The functions that a file denotes, without positions. -/
def denotation (f : FileTree) : List Func :=
  f.funcs.map FuncTree.func

theorem tokens_injective {a b : FileTree} (h : a.tokens = b.tokens) : a = b := by
  obtain ⟨funcs⟩ := a
  obtain ⟨funcs'⟩ := b
  unfold tokens at h
  have nonempty (f : FuncTree) : f.tokens ≠ [] := by simp [FuncTree.tokens]
  induction funcs generalizing funcs' with
  | nil =>
    cases funcs' with
    | nil => rfl
    | cons f rest => simp [nonempty f] at h
  | cons f rest ih =>
    cases funcs' with
    | nil => simp [nonempty f] at h
    | cons f' rest' =>
      simp only [List.flatMap_cons] at h
      obtain ⟨rfl, others⟩ := f.tokens_append_inj f' h
      cases ih rest' others
      rfl

end FileTree

end StackLang
