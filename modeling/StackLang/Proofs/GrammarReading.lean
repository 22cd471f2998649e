import StackLang.Proofs.Grammar
import StackLang.Proofs.ReaderSteps
import StackLang.Proofs.Unplaced
import StackLang.Proofs.Utf8Characters
import StackLang.Source.Bundle

namespace StackLang

/-- The tokens of open calls: their arguments so far, each with its comma. -/
inductive OpenCall.Spell : List OpenCall → List Token → Prop
  | nil : Spell [] []
  | cons {call calls outer} (args : List ExprTree) : Spell calls outer →
      call.args.reverse.map Expr.unplaced = args.map ExprTree.expr →
      Spell (call :: calls) (outer ++ .ident call.name :: .mark .openParen ::
        args.flatMap fun t => t.tokens ++ [.mark .comma])

/-- The tokens of a statement that has been read up to the spot. -/
inductive InnerSpot.Spells : InnerSpot → List Token → Prop
  | betweenStmts : Spells .betweenStmts []
  | afterCallee {pos name calls outer} : OpenCall.Spell calls outer →
      Spells (.afterCallee pos name calls) (outer ++ [.ident name])
  | firstArg {call calls own} : OpenCall.Spell (call :: calls) own → call.args = [] →
      Spells (.firstArg call calls) own
  | nextArg {call calls own} : OpenCall.Spell (call :: calls) own → Spells (.nextArg call calls) own
  | afterExpr {value calls outer} (tree : ExprTree) : OpenCall.Spell calls outer →
      value.unplaced = tree.expr → Spells (.afterExpr value calls) (outer ++ tree.tokens)

/-- The tokens of a function that has been read up to the spot. -/
inductive Spot.Spells : Spot → List Token → Prop
  | betweenFuncs : Spells .betweenFuncs []
  | afterImpure {pos} : Spells (.afterImpure pos) [.keyword .impure]
  | afterFn {pos impure} :
      Spells (.afterFn pos impure) (FuncTree.flagTokens impure ++ [.keyword .fn])
  | afterName {head} :
      Spells (.afterName head) (FuncTree.flagTokens head.impure ++ [.keyword .fn, .ident head.name])
  | afterOpen {head} : Spells (.afterOpen head)
      (FuncTree.flagTokens head.impure ++ [.keyword .fn, .ident head.name, .mark .openParen])
  | beforeBlock {head} :
      Spells (.inside head [] .beforeBlock) (FuncTree.headTokens head.impure head.name)
  | inBlock {head body spot own} (items : List ItemTree) :
      body.reverse.map Stmt.unplaced = items.filterMap ItemTree.stmt? → InnerSpot.Spells spot own →
      Spells (.inside head body spot)
        (FuncTree.headTokens head.impure head.name ++ .mark .openBrace ::
          items.flatMap ItemTree.tokens ++ own)

/-- The reader holds a partial derivation of the tokens. -/
def Reader.Spells (r : Reader) (tokens : List Token) : Prop :=
  ∃ (tree : FileTree) (own : List Token), r.funcs.reverse.map Func.unplaced = tree.denotation ∧
    r.spot.Spells own ∧ tokens = tree.tokens ++ own

theorem InnerSpot.Spells.calls {spot : InnerSpot} {own : List Token} {calls : List OpenCall}
    (h : spot.Spells own) (awaits : spot.Awaits calls) : OpenCall.Spell calls own := by
  cases awaits with
  | stmt => cases h; exact .nil
  | firstArg => cases h; assumption
  | nextArg => cases h; assumption

theorem InnerSpot.close_unplaced {call : OpenCall} {args : List ExprTree}
    (h : call.args.reverse.map Expr.unplaced = args.map ExprTree.expr) :
    (close call).unplaced = (ExprTree.call call.name args).expr := by
  simp [close, Expr.unplaced, ExprTree.expr, Expr.unplacedAll_eq_map, ExprTree.exprs_eq_map, ← h]

theorem InnerSpot.addArg_unplaced {call : OpenCall} {value : Expr} {args : List ExprTree}
    {tree : ExprTree} (argTrees : call.args.reverse.map Expr.unplaced = args.map ExprTree.expr)
    (valueTree : value.unplaced = tree.expr) :
    (addArg call value).args.reverse.map Expr.unplaced = (args ++ [tree]).map ExprTree.expr := by
  simp only [addArg, List.reverse_cons, List.map_append, List.map_cons, List.map_nil,
    argTrees, valueTree]

/-- Inside a statement each token that does not end it extends its partial derivation. -/
theorem InnerSpot.Spells.move {pos : Nat} {token : Token} {spot spot' : InnerSpot}
    {own : List Token} (h : spot.Spells own) (moves : spot.Moves pos token (.to spot'))
    (inside : spot' ≠ .betweenStmts) :
    spot'.Spells (own ++ [token]) := by
  cases moves with
  | openBlock => exact absurd rfl inside
  | emptyStmt => exact absurd rfl inside
  | literal awaits => exact .afterExpr (.literal _) (h.calls awaits) rfl
  | callee awaits => exact .afterCallee (h.calls awaits)
  | @openArgs p name calls =>
    cases h with
    | @afterCallee _ _ _ outer outerSpells =>
      have opened :
          OpenCall.Spell (⟨p, name, []⟩ :: calls)
            (outer ++ .ident name :: .mark .openParen :: []) :=
        .cons [] outerSpells rfl
      exact .firstArg (by simpa using opened) rfl
  | noArgs =>
    cases h with
    | firstArg opened noArgs =>
      cases opened with
      | cons args outerSpells argTrees =>
        obtain rfl : args = [] := by simpa [noArgs, eq_comm] using argTrees
        have closed := Spells.afterExpr _ outerSpells (close_unplaced argTrees)
        simpa [ExprTree.tokens, ExprTree.argTokens] using closed
  | comma =>
    cases h with
    | afterExpr tree opened valueTree =>
      cases opened with
      | cons args outerSpells argTrees =>
        have opened := OpenCall.Spell.cons _ outerSpells (addArg_unplaced argTrees valueTree)
        exact .nextArg (by simpa [addArg] using opened)
  | closeArgs =>
    cases h with
    | afterExpr tree opened valueTree =>
      cases opened with
      | cons args outerSpells argTrees =>
        have closed :=
          Spells.afterExpr _ outerSpells (close_unplaced (addArg_unplaced argTrees valueTree))
        simpa [ExprTree.tokens, ExprTree.argTokens_concat, addArg] using closed

theorem InnerSpot.Spells.endStmt {pos : Nat} {token : Token} {spot : InnerSpot} {own : List Token}
    {value : Expr} (h : spot.Spells own) (moves : spot.Moves pos token (.endStmt value)) :
    ∃ tree : ExprTree, value.unplaced = tree.expr ∧
      own ++ [token] = (ItemTree.stmt tree).tokens := by
  cases moves with
  | endStmt =>
    cases h with
    | afterExpr tree opened valueTree =>
      cases opened with
      | nil => exact ⟨tree, valueTree, rfl⟩

theorem Reader.Spells.step {pos : Nat} {token : Token} {r r' : Reader} {tokens : List Token}
    (h : r.Spells tokens) (steps : Steps pos token r r') : r'.Spells (tokens ++ [token]) := by
  obtain ⟨tree, own, funcs, spot, rfl⟩ := h
  have extend {own' : List Token} (spot : r'.spot.Spells own') (same : own' = own ++ [token])
      (funcs : r'.funcs.reverse.map Func.unplaced = tree.denotation) :
        r'.Spells (tree.tokens ++ own ++ [token]) :=
    ⟨tree, own', funcs, spot, by rw [same, List.append_assoc]⟩
  cases steps with
  | impure => cases spot; exact extend .afterImpure rfl funcs
  | fn => cases spot; exact extend .afterFn rfl funcs
  | impureFn => cases spot; exact extend .afterFn rfl funcs
  | name => cases spot; exact extend .afterName (by simp) funcs
  | openParen => cases spot; exact extend .afterOpen (by simp) funcs
  | closeParen => cases spot; exact extend .beforeBlock (by simp [FuncTree.headTokens]) funcs
  | @inner _ head body _ _ spot' moves =>
    cases spot with
    | beforeBlock =>
      cases moves with
      | openBlock => exact extend (.inBlock [] rfl .betweenStmts) (by simp) funcs
      | literal awaits => cases awaits
      | callee awaits => cases awaits
    | inBlock items bodyItems inner =>
      by_cases inside : spot' = .betweenStmts
      · subst inside
        cases moves with
        | openBlock => cases inner
        | emptyStmt =>
          cases inner
          have items' : body.reverse.map Stmt.unplaced =
              (items ++ [ItemTree.empty]).filterMap ItemTree.stmt? := by
            simp [bodyItems, ItemTree.stmt?]
          exact extend (.inBlock _ items' .betweenStmts) (by simp [ItemTree.tokens]) funcs
      · exact extend (.inBlock items bodyItems (inner.move moves inside)) (by simp) funcs
  | @endStmt _ head body _ _ value moves =>
    cases spot with
    | beforeBlock => cases moves
    | inBlock items bodyItems inner =>
      obtain ⟨tree', valueTree, tokens⟩ := inner.endStmt moves
      have items' : (Stmt.expr value.pos value :: body).reverse.map Stmt.unplaced =
          (items ++ [ItemTree.stmt tree']).filterMap ItemTree.stmt? := by
        simp [bodyItems, ItemTree.stmt?, Stmt.unplaced, valueTree]
      exact extend (.inBlock _ items' .betweenStmts) (by simp [← tokens]) funcs
  | @endBlock _ head body _ _ moves =>
    cases moves
    cases spot with
    | inBlock items bodyItems inner =>
      cases inner
      refine ⟨⟨tree.funcs ++ [⟨head.impure, head.name, items⟩]⟩, [], ?_, .betweenFuncs, ?_⟩
      · simp only [FileTree.denotation] at funcs ⊢
        simp [funcs, Func.unplaced, FuncTree.func, bodyItems]
      · simp [FileTree.tokens, FuncTree.tokens]

theorem Reader.Spells.reads {r r' : Reader} {lexemes : List Lexeme} {tokens : List Token}
    (h : r.Spells tokens) (reads : Reads r lexemes r') :
    r'.Spells (tokens ++ lexemes.map (·.token)) := by
  induction reads generalizing tokens with
  | nil => simpa using h
  | cons steps _ ih => simpa using ih (h.step steps)

theorem Reader.derivation_of_reads {lexemes : List Lexeme} {funcs : List Func}
    (h : Reads start lexemes ⟨funcs, .betweenFuncs⟩) :
    ∃ tree : FileTree, lexemes.map (·.token) = tree.tokens ∧
      funcs.reverse.map Func.unplaced = tree.denotation := by
  have atStart : start.Spells [] := ⟨⟨[]⟩, [], rfl, .betweenFuncs, rfl⟩
  obtain ⟨tree, own, funcs, spot, tokens⟩ := atStart.reads h
  cases spot
  exact ⟨tree, by simpa using tokens, funcs⟩

namespace Reader

/-- Wherever the tokens stand, they lead the reader to a state in which `post` holds. -/
def Leads (r : Reader) (tokens : List Token) (post : Reader → Prop) : Prop :=
  ∀ lexemes : List Lexeme, lexemes.map (·.token) = tokens → ∃ r', Reads r lexemes r' ∧ post r'

variable {funcs : List Func} {head : Head} {body : List Stmt} {post : Reader → Prop}

theorem Leads.done {r : Reader} (h : post r) : Leads r [] post := by
  intro lexemes tokens
  obtain rfl := List.map_eq_nil_iff.mp tokens
  exact ⟨r, .nil, h⟩

theorem Leads.next {r : Reader} {token : Token} {tokens : List Token} {r' : Nat → Reader}
    (step : ∀ pos, Steps pos token r (r' pos))
    (rest : ∀ pos, Leads (r' pos) tokens post) : Leads r (token :: tokens) post := by
  intro lexemes h
  obtain ⟨l, others, rfl, rfl, same⟩ := List.map_eq_cons_iff.mp h
  obtain ⟨last, reads, reached⟩ := rest l.start others same
  exact ⟨last, .cons (step l.start) reads, reached⟩

-- Each part of a derivation leads to the spot behind it, so whatever the tokens after the part lead
-- from there, they lead to from in front of the part.
mutual

theorem Leads.expr :
    (tree : ExprTree) → {tokens : List Token} → {spot : InnerSpot} → {calls : List OpenCall} →
    spot.Awaits calls → (∀ value, value.unplaced = tree.expr →
      Leads ⟨funcs, .inside head body (.afterExpr value calls)⟩ tokens post) →
    Leads ⟨funcs, .inside head body spot⟩ (tree.tokens ++ tokens) post
  | .literal text, _, _, _, awaits, after =>
    .next (fun _ => .inner (.literal awaits)) fun _ => after _ rfl
  | .call name args, _, _, _, awaits, after => by
    simp only [ExprTree.tokens, List.cons_append, List.append_assoc, List.nil_append]
    apply Leads.next fun _ => .inner (.callee awaits)
    intro pos
    apply Leads.next fun _ => .inner .openArgs
    intro _
    exact .args args after

theorem Leads.args :
    (trees : List ExprTree) → {tokens : List Token} → {pos : Nat} → {name : Bytes} →
    {calls : List OpenCall} → (∀ value, value.unplaced = (ExprTree.call name trees).expr →
      Leads ⟨funcs, .inside head body (.afterExpr value calls)⟩ tokens post) →
    Leads ⟨funcs, .inside head body (.firstArg ⟨pos, name, []⟩ calls)⟩
      (ExprTree.argTokens trees ++ .mark .closeParen :: tokens) post
  | [], _, _, _, _, after => .next (fun _ => .inner .noArgs) fun _ => after _ rfl
  | first :: more, _, _, name, _, after => by
    rw [ExprTree.argTokens, List.append_assoc]
    apply Leads.expr first .firstArg
    intro value same
    apply Leads.more more
    intro whole sameWhole
    apply after whole
    simp [sameWhole, same, ExprTree.expr, ExprTree.exprs]

theorem Leads.more :
    (trees : List ExprTree) → {tokens : List Token} → {value : Expr} → {call : OpenCall} →
    {calls : List OpenCall} →
    (∀ whole, whole.unplaced = .call 0 call.name
        (call.args.reverse.map Expr.unplaced ++ value.unplaced :: ExprTree.exprs trees) →
      Leads ⟨funcs, .inside head body (.afterExpr whole calls)⟩ tokens post) →
    Leads ⟨funcs, .inside head body (.afterExpr value (call :: calls))⟩
      (ExprTree.moreTokens trees ++ .mark .closeParen :: tokens) post
  | [], _, value, call, _, after => by
    apply Leads.next fun _ => .inner .closeArgs
    intro _
    apply after
    simp [InnerSpot.close, InnerSpot.addArg, Expr.unplaced, Expr.unplacedAll_eq_map, ExprTree.exprs]
  | next :: more, _, value, call, _, after => by
    simp only [ExprTree.moreTokens, List.cons_append, List.append_assoc]
    apply Leads.next fun _ => .inner .comma
    intro _
    apply Leads.expr next .nextArg
    intro value' same
    apply Leads.more more
    intro whole sameWhole
    apply after whole
    simp [sameWhole, same, InnerSpot.addArg, ExprTree.exprs]

end

variable {tokens : List Token}

theorem Leads.item (item : ItemTree)
    (after : ∀ body', body'.reverse.map Stmt.unplaced = body.reverse.map Stmt.unplaced ++
      item.stmt?.toList → Leads ⟨funcs, .inside head body' .betweenStmts⟩ tokens post) :
    Leads ⟨funcs, .inside head body .betweenStmts⟩ (item.tokens ++ tokens) post := by
  cases item with
  | empty => exact .next (fun _ => .inner .emptyStmt) fun _ => after body (by simp [ItemTree.stmt?])
  | stmt tree =>
    rw [ItemTree.tokens, List.append_assoc]
    apply Leads.expr tree .stmt
    intro value same
    apply Leads.next fun _ => .endStmt .endStmt
    intro _
    apply after
    simp [ItemTree.stmt?, Stmt.unplaced, same]

theorem Leads.items (items : List ItemTree)
    (after : ∀ body', body'.reverse.map Stmt.unplaced = body.reverse.map Stmt.unplaced ++
        items.filterMap ItemTree.stmt? →
      Leads ⟨funcs, .inside head body' .betweenStmts⟩ tokens post) :
    Leads ⟨funcs, .inside head body .betweenStmts⟩
      (items.flatMap ItemTree.tokens ++ tokens) post := by
  induction items generalizing body with
  | nil => exact after body (by simp)
  | cons item rest ih =>
    rw [List.flatMap_cons, List.append_assoc]
    apply Leads.item item
    intro body' same
    apply ih
    intro body'' sameRest
    apply after
    rw [sameRest, same, List.append_assoc]
    cases h : item.stmt? <;> simp [h]

theorem Leads.header (impure : Bool) (name : Bytes)
    (after : ∀ pos, Leads ⟨funcs, .inside ⟨pos, impure, name⟩ [] .beforeBlock⟩ tokens post) :
    Leads ⟨funcs, .betweenFuncs⟩ (FuncTree.headTokens impure name ++ tokens) post := by
  have named (pos : Nat) : Leads ⟨funcs, .afterFn pos impure⟩
      ([.ident name, .mark .openParen, .mark .closeParen] ++ tokens) post :=
    .next (fun _ => .name) fun _ => .next (fun _ => .openParen) fun _ =>
      .next (fun _ => .closeParen) fun _ => after pos
  cases impure with
  | false => exact .next (fun _ => .fn) named
  | true => exact .next (fun _ => .impure) fun pos => .next (fun _ => .impureFn) fun _ => named pos

theorem Leads.func (tree : FuncTree)
    (after : ∀ f, f.unplaced = tree.func → Leads ⟨f :: funcs, .betweenFuncs⟩ tokens post) :
    Leads ⟨funcs, .betweenFuncs⟩ (tree.tokens ++ tokens) post := by
  simp only [FuncTree.tokens, List.append_assoc, List.cons_append, List.nil_append]
  apply Leads.header
  intro pos
  apply Leads.next fun _ => .inner .openBlock
  intro _
  apply Leads.items
  intro body same
  apply Leads.next fun _ => .endBlock .endBlock
  intro _
  apply after
  simp only [Func.unplaced, FuncTree.func, same, List.reverse_nil, List.map_nil, List.nil_append]

theorem leads_file (tree : FileTree) :
    Leads start tree.tokens fun r =>
      r.spot = .betweenFuncs ∧ r.funcs.reverse.map Func.unplaced = tree.denotation := by
  obtain ⟨trees⟩ := tree
  suffices general : ∀ (done : List Func) (before : List FuncTree),
      done.reverse.map Func.unplaced = before.map FuncTree.func →
      Leads ⟨done, .betweenFuncs⟩ (trees.flatMap FuncTree.tokens) fun r =>
        r.spot = .betweenFuncs ∧ r.funcs.reverse.map Func.unplaced =
          (before ++ trees).map FuncTree.func from
    general [] [] rfl
  induction trees with
  | nil =>
    intro done before same
    exact .done ⟨rfl, by simpa using same⟩
  | cons tree rest ih =>
    intro done before same
    rw [List.flatMap_cons]
    apply Leads.func tree
    intro f sameFunc
    have extended : (f :: done).reverse.map Func.unplaced =
        (before ++ [tree]).map FuncTree.func := by
      simp only [List.reverse_cons, List.map_append, List.map_cons, List.map_nil, same, sameFunc]
    simpa using ih (f :: done) (before ++ [tree]) extended

end Reader

theorem Reading.ofText_eq_iff {base : Nat} {text : Bytes} {funcs : List Func} :
    ofText base text = ⟨funcs, none⟩ ↔ Utf8.valid text ∧ ∃ lexemes pos,
      Lexeme.scan base text = (lexemes, .finished pos) ∧
        Reader.Reads Reader.start lexemes ⟨funcs.reverse, .betweenFuncs⟩ := by
  rw [← Utf8.invalidAt_eq_none_iff]
  unfold ofText
  split
  next pos invalid => simp [invalid]
  next valid =>
    obtain ⟨lexemes, ending⟩ := Lexeme.scan base text
    simp only [mk.injEq, valid, true_and]
    constructor
    · rintro ⟨rfl, noError⟩
      obtain ⟨⟨pos, rfl⟩, reads, spot⟩ := Reader.run_eq_iff_reads.mp (Prod.ext rfl noError)
      refine ⟨lexemes, pos, rfl, ?_⟩
      rw [List.reverse_reverse, ← spot]
      exact reads
    · rintro ⟨lexemes', pos, same, reads⟩
      obtain ⟨rfl, rfl⟩ := Prod.mk.inj same
      rw [Reader.run_eq_iff_reads.mpr ⟨⟨pos, rfl⟩, reads, rfl⟩]
      simp

theorem File.parse_eq_ok_iff {name text : Bytes} {file : File} :
    File.parse name text = .ok file ↔
    file.name = name ∧ Reading.ofText 0 text = ⟨file.funcs, none⟩ := by
  have files : (Bundle.single name text).files = [⟨name, 0, text.length⟩] := rfl
  have whole : (Bundle.single name text).range 0 text.length = text := List.take_length
  unfold File.parse Bundle.parse Bundle.read
  simp only [files, Bundle.readFiles, SourceFile.stop, Nat.zero_add, whole, Bundle.name]
  cases reading : Reading.ofText 0 text with
  | mk funcs error =>
    cases error with
    | some e => simp
    | none =>
      obtain ⟨fileName, fileFuncs⟩ := file
      simp [eq_comm]

/-- The tokens of a text that can be split into tokens to its end. -/
def Lexeme.tokens? (text : Bytes) : Option (List Token) :=
  match scan 0 text with
  | (lexemes, .finished _) => some (lexemes.map (·.token))
  | (_, .failed _ _ _) => none

theorem Lexeme.tokens?_eq_some_iff {text : Bytes} {tokens : List Token} :
    tokens? text = some tokens ↔
      ∃ lexemes pos, scan 0 text = (lexemes, .finished pos) ∧ lexemes.map (·.token) = tokens := by
  unfold tokens?
  split
  next lexemes pos h => simp [h]
  next h => simp [h]

theorem File.derivation_of_parse {name text : Bytes} {file : File}
    (h : File.parse name text = .ok file) :
    ∃ tree : FileTree, Lexeme.tokens? text = some tree.tokens ∧
      file.unplaced = tree.denotation := by
  obtain ⟨-, reading⟩ := File.parse_eq_ok_iff.mp h
  obtain ⟨-, lexemes, pos, scan, reads⟩ := Reading.ofText_eq_iff.mp reading
  obtain ⟨tree, tokens, funcs⟩ := Reader.derivation_of_reads reads
  rw [List.reverse_reverse] at funcs
  exact ⟨tree, Lexeme.tokens?_eq_some_iff.mpr ⟨lexemes, pos, scan, tokens⟩, funcs⟩

theorem File.parse_of_derivation (name : Bytes) {text : Bytes} (valid : Utf8.valid text)
    {tree : FileTree} (h : Lexeme.tokens? text = some tree.tokens) :
    ∃ file, File.parse name text = .ok file ∧ file.unplaced = tree.denotation := by
  obtain ⟨lexemes, pos, scan, tokens⟩ := Lexeme.tokens?_eq_some_iff.mp h
  obtain ⟨⟨funcs, spot⟩, reads, rfl, same⟩ := Reader.leads_file tree lexemes tokens
  refine ⟨⟨name, funcs.reverse⟩, File.parse_eq_ok_iff.mpr ⟨rfl, ?_⟩, same⟩
  exact Reading.ofText_eq_iff.mpr ⟨valid, lexemes, pos, scan, by rwa [List.reverse_reverse]⟩

/-- A valid text reads as a file just when it can be split into tokens that the grammar derives. The
derivation is unique and denotes the file, so the file but for its positions depends on the tokens
alone. -/
theorem parse_accepts_exactly_grammar (name : Bytes) {text : Bytes} (valid : Utf8.valid text) :
    ((∃ file, File.parse name text = .ok file) ↔
      ∃ tree : FileTree, Lexeme.tokens? text = some tree.tokens) ∧
    ∀ file, File.parse name text = .ok file →
      (∃ tree : FileTree, Lexeme.tokens? text = some tree.tokens ∧ file.unplaced = tree.denotation ∧
        ∀ other : FileTree, Lexeme.tokens? text = some other.tokens → other = tree) ∧
      ∀ name' text' file', File.parse name' text' = .ok file' →
        Lexeme.tokens? text' = Lexeme.tokens? text → file'.unplaced = file.unplaced := by
  have unique {a b : FileTree} {tokens : Option (List Token)} (ha : tokens = some a.tokens)
      (hb : tokens = some b.tokens) : a = b :=
    FileTree.tokens_injective (Option.some.inj (ha.symm.trans hb))
  refine ⟨⟨?_, ?_⟩, ?_⟩
  · rintro ⟨file, parsed⟩
    obtain ⟨tree, tokens, -⟩ := File.derivation_of_parse parsed
    exact ⟨tree, tokens⟩
  · rintro ⟨tree, tokens⟩
    obtain ⟨file, parsed, -⟩ := File.parse_of_derivation name valid tokens
    exact ⟨file, parsed⟩
  · intro file parsed
    obtain ⟨tree, tokens, denoted⟩ := File.derivation_of_parse parsed
    refine ⟨⟨tree, tokens, denoted, fun other htokens => unique htokens tokens⟩, ?_⟩
    intro name' text' file' parsed' sameTokens
    obtain ⟨tree', tokens', denoted'⟩ := File.derivation_of_parse parsed'
    rw [sameTokens] at tokens'
    rw [denoted', denoted, unique tokens' tokens]

/-- A text with a comment, empty statements and a call inside a call. -/
def nestedText : Bytes :=
  bytes "impure fn main() \x7b ; println('a', f()) ; ; \x7d // f\nfn f()\x7b\x7d"

def nestedTree : FileTree :=
  ⟨[⟨true, bytes "main",
    [.empty, .stmt (.call (bytes "println") [.literal (bytes "a"), .call (bytes "f") []]), .empty]⟩,
    ⟨false, bytes "f", []⟩]⟩

theorem nestedText_accepted :
    Utf8.valid nestedText ∧ ∃ file, File.parse [] nestedText = .ok file ∧
      file.unplaced = nestedTree.denotation := by
  have valid : Utf8.valid nestedText := by decide +kernel
  have tokens : Lexeme.tokens? nestedText = some nestedTree.tokens := by decide +kernel
  obtain ⟨accepts, denotes⟩ := parse_accepts_exactly_grammar [] valid
  obtain ⟨file, parsed⟩ := accepts.mpr ⟨nestedTree, tokens⟩
  obtain ⟨⟨tree, -, denoted, unique⟩, -⟩ := denotes file parsed
  exact ⟨valid, file, parsed, by rw [denoted, unique nestedTree tokens]⟩

end StackLang
