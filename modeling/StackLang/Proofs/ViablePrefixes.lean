import StackLang.Proofs.TokenTexts

namespace StackLang

/-- The tokens of some text that can be read. -/
def Accepted (tokens : List Token) : Prop :=
  ∃ text file, File.parse [] text = .ok file ∧ Lexeme.tokens? text = some tokens

theorem Accepted.exists_tree {tokens : List Token} (h : Accepted tokens) :
    ∃ tree : FileTree, tree.tokens = tokens := by
  obtain ⟨text, file, parsed, scanned⟩ := h
  obtain ⟨tree, derived, -⟩ := File.derivation_of_parse parsed
  exact ⟨tree, Option.some.inj (derived.symm.trans scanned)⟩

/-- A token is of the kind that a diagnostic asks for with the symbol. -/
def Symbol.Stands : Symbol → Token → Prop
  | .char c, .mark m => m.toByte = c
  | .keyword word, .keyword k => k.word = word
  | .ident _, .ident _ => True
  | .literal _, .literal _ => True
  | _, _ => False

namespace InnerSpot

/-- Tokens that close the calls around a value, its statement and the block. -/
def closing (calls : List OpenCall) : List Token :=
  calls.map (fun _ => .mark .closeParen) ++ [.mark .semicolon, .mark .closeBrace]

/-- Tokens that lead from the spot to the end of the function. -/
def completion : InnerSpot → List Token
  | beforeBlock => [.mark .openBrace, .mark .closeBrace]
  | betweenStmts => [.mark .closeBrace]
  | afterCallee _ _ calls => .mark .openParen :: .mark .closeParen :: closing calls
  | firstArg _ calls => .mark .closeParen :: closing calls
  | nextArg call calls => .literal [] :: closing (call :: calls)
  | afterExpr _ calls => closing calls

theorem writable_closing (calls : List OpenCall) : ∀ t ∈ closing calls, t.Writable := by
  intro t ht
  rcases List.mem_append.mp ht with ht | ht
  · obtain ⟨_, _, rfl⟩ := List.mem_map.mp ht
    trivial
  · simp only [List.mem_cons, List.not_mem_nil, or_false] at ht
    rcases ht with rfl | rfl <;> trivial

theorem writable_completion (spot : InnerSpot) : ∀ t ∈ spot.completion, t.Writable := by
  cases spot with
  | beforeBlock => simp [completion, Token.Writable]
  | betweenStmts => simp [completion, Token.Writable]
  | afterCallee pos name calls => simpa [completion, Token.Writable] using writable_closing calls
  | firstArg call calls => simpa [completion, Token.Writable] using writable_closing calls
  | nextArg call calls =>
    have empty : Utf8.valid [] := rfl
    simpa [completion, Token.Writable, empty] using writable_closing (call :: calls)
  | afterExpr value calls => exact writable_closing calls

theorem exists_moves_of_want (spot : InnerSpot) {got w : Symbol} (h : w ∈ spot.want got) :
    ∃ t m, w.Stands t ∧ t.Writable ∧ spot.Moves 0 t m := by
  have mark {k : Mark} {m : Move} (moves : spot.Moves 0 (.mark k) m) :
      ∃ t m, (Token.symbol (.mark k)).Stands t ∧ t.Writable ∧ spot.Moves 0 t m :=
    ⟨.mark k, m, rfl, trivial, moves⟩
  have expr {calls : List OpenCall} (awaits : spot.Awaits calls) (h : w ∈ wantExpr) :
      ∃ t m, w.Stands t ∧ t.Writable ∧ spot.Moves 0 t m := by
    simp only [wantExpr, List.mem_cons, List.not_mem_nil, or_false] at h
    rcases h with rfl | rfl
    · exact ⟨.ident (bytes "f"), _, trivial, by decide +kernel, .callee awaits⟩
    · exact ⟨.literal [], _, trivial, rfl, .literal awaits⟩
  cases spot with
  | beforeBlock =>
    obtain rfl := List.mem_singleton.mp h
    exact mark .openBlock
  | betweenStmts =>
    simp only [want] at h
    split at h
    next =>
      obtain rfl := List.mem_singleton.mp h
      exact mark .endBlock
    next => exact expr .stmt h
  | afterCallee pos name calls =>
    obtain rfl := List.mem_singleton.mp h
    exact mark .openArgs
  | firstArg call calls => exact expr .firstArg h
  | nextArg call calls => exact expr .nextArg h
  | afterExpr value calls =>
    cases calls with
    | nil =>
      obtain rfl := List.mem_singleton.mp h
      exact mark .endStmt
    | cons call calls =>
      simp only [want, List.mem_cons, List.not_mem_nil, or_false] at h
      rcases h with rfl | rfl
      · exact mark .comma
      · exact mark .closeArgs

end InnerSpot

namespace Spot

/-- Tokens that lead from the spot to the end of a file. -/
def completion : Spot → List Token
  | betweenFuncs => []
  | afterImpure _ => .keyword .fn :: .ident (bytes "f") :: .mark .openParen :: .mark .closeParen ::
      InnerSpot.beforeBlock.completion
  | afterFn _ _ =>
    .ident (bytes "f") :: .mark .openParen :: .mark .closeParen :: InnerSpot.beforeBlock.completion
  | afterName _ => .mark .openParen :: .mark .closeParen :: InnerSpot.beforeBlock.completion
  | afterOpen _ => .mark .closeParen :: InnerSpot.beforeBlock.completion
  | inside _ _ spot => spot.completion

theorem writable_completion (spot : Spot) : ∀ t ∈ spot.completion, t.Writable := by
  have name : Lexeme.IsIdentifier (bytes "f") := by decide +kernel
  have block := InnerSpot.writable_completion .beforeBlock
  cases spot with
  | betweenFuncs => simp [completion]
  | afterImpure pos => simpa [completion, Token.Writable, name] using block
  | afterFn pos impure => simpa [completion, Token.Writable, name] using block
  | afterName head => simpa [completion, Token.Writable] using block
  | afterOpen head => simpa [completion, Token.Writable] using block
  | inside head body spot => exact spot.writable_completion

end Spot

namespace Reader

theorem Reads.append {r r' r'' : Reader} {a b : List Lexeme} (ha : Reads r a r')
    (hb : Reads r' b r'') :
    Reads r (a ++ b) r'' := by
  induction ha with
  | nil => exact hb
  | cons step _ ih => exact .cons step (ih hb)

theorem Reads.split {r last : Reader} (a : List Lexeme) {b : List Lexeme}
    (h : Reads r (a ++ b) last) :
    ∃ r', Reads r a r' ∧ Reads r' b last := by
  induction a generalizing r with
  | nil => exact ⟨r, .nil, h⟩
  | cons l rest ih =>
    cases h with
    | cons step others =>
      obtain ⟨r', first, second⟩ := ih others
      exact ⟨r', .cons step first, second⟩

theorem Reads.unique {r r' r'' : Reader} {lexemes : List Lexeme} (h : Reads r lexemes r')
    (h' : Reads r lexemes r'') :
    r' = r'' := by
  induction h with
  | nil =>
    cases h'
    rfl
  | cons step _ ih =>
    cases h' with
    | cons step' others =>
      obtain rfl := Option.some.inj ((step?_of_steps step).symm.trans (step?_of_steps step'))
      exact ih others

/-- The reader is led between functions. -/
abbrev Ends (r : Reader) (tokens : List Token) : Prop :=
  Leads r tokens fun r' => r'.spot = .betweenFuncs

variable {funcs : List Func} {head : Head} {body : List Stmt}

theorem ends_closing (calls : List OpenCall) (value : Expr) :
    Ends ⟨funcs, .inside head body (.afterExpr value calls)⟩ (InnerSpot.closing calls) := by
  induction calls generalizing value with
  | nil =>
    apply Leads.next fun _ => .endStmt .endStmt
    intro _
    apply Leads.next fun _ => .endBlock .endBlock
    intro _
    exact .done rfl
  | cons call calls ih =>
    apply Leads.next fun _ => .inner .closeArgs
    intro _
    exact ih _

theorem ends_inside (spot : InnerSpot) : Ends ⟨funcs, .inside head body spot⟩ spot.completion := by
  have block (body : List Stmt) :
      Ends ⟨funcs, .inside head body .betweenStmts⟩ [.mark .closeBrace] :=
    .next (fun _ => .endBlock .endBlock) fun _ => .done rfl
  cases spot with
  | beforeBlock => exact .next (fun _ => .inner .openBlock) fun _ => block body
  | betweenStmts => exact block body
  | afterCallee pos name calls =>
    apply Leads.next fun _ => .inner .openArgs
    intro _
    apply Leads.next fun _ => .inner .noArgs
    intro _
    exact ends_closing calls _
  | firstArg call calls =>
    apply Leads.next fun _ => .inner .noArgs
    intro _
    exact ends_closing calls _
  | nextArg call calls =>
    apply Leads.next fun _ => .inner (.literal .nextArg)
    intro _
    exact ends_closing (call :: calls) _
  | afterExpr value calls => exact ends_closing calls value

/-- From every spot a reader can be led to the end of a file. -/
theorem ends_completion (r : Reader) : Ends r r.spot.completion := by
  obtain ⟨funcs, spot⟩ := r
  have opened (head : Head) : Ends ⟨funcs, .afterOpen head⟩ (Spot.afterOpen head).completion :=
    .next (fun _ => .closeParen) fun _ => ends_inside .beforeBlock
  have named (head : Head) : Ends ⟨funcs, .afterName head⟩ (Spot.afterName head).completion :=
    .next (fun _ => .openParen) fun _ => opened head
  have started (pos : Nat) (impure : Bool) :
      Ends ⟨funcs, .afterFn pos impure⟩ (Spot.afterFn pos impure).completion :=
    .next (fun _ => .name) fun _ => named _
  cases spot with
  | betweenFuncs => exact .done rfl
  | afterImpure pos => exact .next (fun _ => .impureFn) fun _ => started pos true
  | afterFn pos impure => exact started pos impure
  | afterName head => exact named head
  | afterOpen head => exact opened head
  | inside head body spot => exact ends_inside spot

variable {lexemes : List Lexeme} {r : Reader}

/-- Lexemes with the tokens, wherever they may stand. -/
def unplacedLexemes (tokens : List Token) : List Lexeme :=
  tokens.map fun t => ⟨t, 0, 0⟩

theorem tokens_unplacedLexemes (tokens : List Token) :
    (unplacedLexemes tokens).map (·.token) = tokens := by
  rw [unplacedLexemes, List.map_map]
  exact List.map_id tokens

/-- What has been read is the front of a file. -/
theorem Reads.accepted (h : Reads start lexemes r) (writable : ∀ l ∈ lexemes, l.token.Writable) :
    Accepted (lexemes.map (·.token) ++ r.spot.completion) := by
  obtain ⟨⟨funcs, spot⟩, more, rfl⟩ := ends_completion r _ (tokens_unplacedLexemes _)
  obtain ⟨tree, tokens, -⟩ := derivation_of_reads (h.append more)
  rw [List.map_append, tokens_unplacedLexemes] at tokens
  have all : ∀ t ∈ tree.tokens, t.Writable := by
    rw [← tokens]
    exact List.forall_mem_append.mpr ⟨by simpa using writable, r.spot.writable_completion⟩
  have written := Written.spaced all
  obtain ⟨file, parsed, -⟩ := File.parse_of_derivation [] written.valid written.tokens?
  exact ⟨_, file, parsed, by rw [written.tokens?, tokens]⟩

theorem exists_steps_of_moves {pos : Nat} {token : Token} {spot : InnerSpot} {m : Move}
    (h : spot.Moves pos token m) :
    ∃ r', Steps pos token ⟨funcs, .inside head body spot⟩ r' := by
  cases m with
  | «to» spot' => exact ⟨_, .inner h⟩
  | endStmt value => exact ⟨_, .endStmt h⟩
  | endBlock => exact ⟨_, .endBlock h⟩

theorem exists_steps_of_want (r : Reader) {got w : Symbol} (h : w ∈ r.spot.want got) :
    ∃ t r', w.Stands t ∧ t.Writable ∧ Steps 0 t r r' := by
  obtain ⟨funcs, spot⟩ := r
  cases spot with
  | betweenFuncs =>
    obtain rfl := List.mem_singleton.mp h
    exact ⟨.keyword .fn, _, rfl, trivial, .fn⟩
  | afterImpure pos =>
    obtain rfl := List.mem_singleton.mp h
    exact ⟨.keyword .fn, _, rfl, trivial, .impureFn⟩
  | afterFn pos impure =>
    obtain rfl := List.mem_singleton.mp h
    exact ⟨.ident (bytes "f"), _, trivial, by decide +kernel, .name⟩
  | afterName head =>
    obtain rfl := List.mem_singleton.mp h
    exact ⟨.mark .openParen, _, rfl, trivial, .openParen⟩
  | afterOpen head =>
    obtain rfl := List.mem_singleton.mp h
    exact ⟨.mark .closeParen, _, rfl, trivial, .closeParen⟩
  | inside head body spot =>
    obtain ⟨t, m, stands, writable, moves⟩ := spot.exists_moves_of_want h
    obtain ⟨r', steps⟩ := exists_steps_of_moves moves
    exact ⟨t, r', stands, writable, steps⟩

/-- Each symbol that the reader asks for continues some file. -/
theorem Reads.accepted_of_want (h : Reads start lexemes r)
    (writable : ∀ l ∈ lexemes, l.token.Writable) {got w : Symbol} (hw : w ∈ r.spot.want got) :
    ∃ t rest, w.Stands t ∧ Accepted (lexemes.map (·.token) ++ t :: rest) := by
  obtain ⟨t, r', stands, tokenWritable, steps⟩ := r.exists_steps_of_want hw
  have further : Reads start (lexemes ++ [⟨t, 0, 0⟩]) r' := h.append (.cons steps .nil)
  have accepted :=
    further.accepted (List.forall_mem_append.mpr ⟨writable, by simpa using tokenWritable⟩)
  exact ⟨t, r'.spot.completion, stands, by simpa using accepted⟩

/-- A token without a place continues no file. -/
theorem Reads.not_accepted (h : Reads start lexemes r) {l : Lexeme} (stuck : r.step? l = none)
    (rest : List Token) :
    ¬ Accepted (lexemes.map (·.token) ++ l.token :: rest) := by
  intro accepted
  obtain ⟨tree, tokens⟩ := accepted.exists_tree
  have same : (lexemes ++ l :: unplacedLexemes rest).map (·.token) = tree.tokens := by
    rw [List.map_append, List.map_cons, tokens_unplacedLexemes, tokens]
  obtain ⟨last, reads, -⟩ := leads_file tree _ same
  obtain ⟨r', first, others⟩ := reads.split lexemes
  obtain rfl := h.unique first
  cases others with
  | cons step _ => simp [step?_of_steps step] at stuck

/-- Tokens that leave the reader inside a function are no whole file. -/
theorem Reads.not_accepted_of_unfinished (h : Reads start lexemes r)
    (inside : r.spot ≠ .betweenFuncs) :
    ¬ Accepted (lexemes.map (·.token)) := by
  intro accepted
  obtain ⟨tree, tokens⟩ := accepted.exists_tree
  obtain ⟨last, reads, finished, -⟩ := leads_file tree lexemes tokens.symm
  obtain rfl := h.unique reads
  exact inside finished

end Reader

end StackLang
