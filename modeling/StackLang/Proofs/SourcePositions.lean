import StackLang.Proofs.ExactLexing
import StackLang.Proofs.FilesTogether

namespace StackLang

/-- A token and the position where it should stand. -/
abbrev Anchor := Option Token × Nat

namespace Expr

mutual

/-- An expression and the expressions inside it, a call in front of its arguments. -/
def preorder : Expr → List Expr
  | .literal pos value => [.literal pos value]
  | .call pos name args => .call pos name args :: preorderAll args
  | .foreign value => [.foreign value]

def preorderAll : List Expr → List Expr
  | [] => []
  | e :: rest => e.preorder ++ preorderAll rest

end

/-- The token that an expression starts with. -/
def token? : Expr → Option Token
  | .literal _ value => some (.literal value)
  | .call _ name _ => some (.ident name)
  | .foreign _ => none

def anchor (e : Expr) : Anchor :=
  (e.token?, e.pos)

def anchors (e : Expr) : List Anchor :=
  e.preorder.map anchor

theorem preorderAll_eq_flatMap (exprs : List Expr) :
    preorderAll exprs = exprs.flatMap preorder := by
  induction exprs with
  | nil => rfl
  | cons e rest ih => rw [preorderAll, ih, List.flatMap_cons]

theorem anchors_call (pos : Nat) (name : Bytes) (args : List Expr) :
    (call pos name args).anchors = (some (.ident name), pos) :: args.flatMap anchors := by
  rw [anchors, preorder, preorderAll_eq_flatMap, List.map_cons, List.map_flatMap]
  rfl

end Expr

def Stmt.preorder : Stmt → List Expr
  | .expr _ value => value.preorder
  | .foreign _ => []

def Stmt.anchors (s : Stmt) : List Anchor :=
  s.preorder.map Expr.anchor

theorem Stmt.anchors_expr (pos : Nat) (value : Expr) :
    (Stmt.expr pos value).anchors = value.anchors :=
  rfl

/-- A statement stands where its expression does. -/
def Stmt.Placed (s : Stmt) : Prop :=
  ∃ value, s = .expr value.pos value

namespace Func

def preorder (f : Func) : List Expr :=
  f.body.flatMap Stmt.preorder

/-- The positions of a function and of the expressions in it. -/
def positions (f : Func) : List Nat :=
  f.pos :: f.preorder.map Expr.pos

def keyword (f : Func) : Keyword :=
  if f.impure then .impure else .fn

def anchors (f : Func) : List Anchor :=
  (some (.keyword f.keyword), f.pos) :: f.preorder.map Expr.anchor

/-- The keywords of a function at `pos`. A tree does not say where the second keyword stands. -/
inductive Introduced (pos : Nat) : Bool → List Anchor → Prop
  | fn : Introduced pos false [(some (.keyword .fn), pos)]
  | impure {p} : Introduced pos true [(some (.keyword .impure), pos), (some (.keyword .fn), p)]

/-- The words and literals of a function are its keywords, its name, and those of its body. -/
structure Anchored (f : Func) (words : List Anchor) : Prop where
  stmts : ∀ s ∈ f.body, s.Placed
  words : ∃ keywords p, Introduced f.pos f.impure keywords ∧
    words = keywords ++ (some (.ident f.name), p) :: f.body.flatMap Stmt.anchors

theorem Introduced.exists_tail {pos : Nat} {impure : Bool} {keywords : List Anchor}
    (h : Introduced pos impure keywords) :
    ∃ more, keywords = (some (.keyword (if impure then .impure else .fn)), pos) :: more := by
  cases h with
  | fn => exact ⟨[], rfl⟩
  | impure => exact ⟨_, rfl⟩

theorem Anchored.sublist {f : Func} {words : List Anchor} (h : f.Anchored words) :
    f.anchors.Sublist words := by
  obtain ⟨keywords, p, introduced, rfl⟩ := h.words
  obtain ⟨more, rfl⟩ := introduced.exists_tail
  have body : f.preorder.map Expr.anchor = f.body.flatMap Stmt.anchors := List.map_flatMap
  rw [anchors, body, List.cons_append]
  exact .cons_cons _ (.trans (.cons _ (.refl _)) (List.sublist_append_right more _))

end Func

/-- A word or a literal with its place; marks are left out. -/
def Token.anchors (pos : Nat) : Token → List Anchor
  | .mark _ => []
  | t => [(some t, pos)]

/-- The words and literals among lexemes. -/
def Lexeme.anchors (lexemes : List Lexeme) : List Anchor :=
  lexemes.flatMap fun l => l.token.anchors l.start

namespace OpenCall

def anchors (c : OpenCall) : List Anchor :=
  (some (.ident c.name), c.pos) :: c.args.reverse.flatMap Expr.anchors

/-- The words and literals of open calls, the outermost first. -/
def allAnchors (calls : List OpenCall) : List Anchor :=
  calls.reverse.flatMap anchors

theorem allAnchors_cons (call : OpenCall) (calls : List OpenCall) :
    allAnchors (call :: calls) = allAnchors calls ++ call.anchors := by
  simp [allAnchors]

end OpenCall

namespace InnerSpot

/-- The words and literals of a statement that has been read up to the spot. -/
def anchors : InnerSpot → List Anchor
  | beforeBlock => []
  | betweenStmts => []
  | afterCallee pos name calls => OpenCall.allAnchors calls ++ [(some (.ident name), pos)]
  | firstArg call calls => OpenCall.allAnchors (call :: calls)
  | nextArg call calls => OpenCall.allAnchors (call :: calls)
  | afterExpr value calls => OpenCall.allAnchors calls ++ value.anchors

theorem anchors_close (call : OpenCall) : (close call).anchors = call.anchors := by
  rw [close, Expr.anchors_call, OpenCall.anchors]

theorem anchors_addArg (call : OpenCall) (value : Expr) :
    (addArg call value).anchors = call.anchors ++ value.anchors := by
  simp [addArg, OpenCall.anchors]

theorem Awaits.anchors {spot : InnerSpot} {calls : List OpenCall} (h : spot.Awaits calls) :
    spot.anchors = OpenCall.allAnchors calls := by
  cases h <;> rfl

/-- Inside a function each word and each literal is put behind those before it, with its place. -/
theorem Moves.anchors {pos : Nat} {token : Token} {spot spot' : InnerSpot}
    (h : spot.Moves pos token (.to spot')) :
    spot'.anchors = spot.anchors ++ token.anchors pos := by
  cases h with
  | openBlock => rfl
  | emptyStmt => rfl
  | literal awaits => rw [awaits.anchors]; rfl
  | callee awaits => rw [awaits.anchors]; rfl
  | openArgs => simp [InnerSpot.anchors, OpenCall.allAnchors_cons, OpenCall.anchors, Token.anchors]
  | noArgs => simp [InnerSpot.anchors, OpenCall.allAnchors_cons, anchors_close, Token.anchors]
  | comma => simp [InnerSpot.anchors, OpenCall.allAnchors_cons, anchors_addArg, Token.anchors]
  | closeArgs =>
    simp [InnerSpot.anchors, OpenCall.allAnchors_cons, anchors_close, anchors_addArg, Token.anchors]

theorem Moves.anchors_endStmt {pos : Nat} {token : Token} {spot : InnerSpot} {value : Expr}
    (h : spot.Moves pos token (.endStmt value)) :
    value.anchors = spot.anchors ++ token.anchors pos := by
  cases h
  simp [InnerSpot.anchors, OpenCall.allAnchors, Token.anchors]

end InnerSpot

/-- The words and literals of a function that has been read up to the spot. -/
inductive Spot.Anchored : Spot → List Anchor → Prop
  | betweenFuncs : Anchored .betweenFuncs []
  | afterImpure {pos} : Anchored (.afterImpure pos) [(some (.keyword .impure), pos)]
  | afterFn {pos impure keywords} : Func.Introduced pos impure keywords →
      Anchored (.afterFn pos impure) keywords
  | afterName {head keywords p} : Func.Introduced head.pos head.impure keywords →
      Anchored (.afterName head) (keywords ++ [(some (.ident head.name), p)])
  | afterOpen {head keywords p} : Func.Introduced head.pos head.impure keywords →
      Anchored (.afterOpen head) (keywords ++ [(some (.ident head.name), p)])
  | inside {head body spot keywords p} : Func.Introduced head.pos head.impure keywords →
      (∀ s ∈ body, s.Placed) → Anchored (.inside head body spot)
        (keywords ++ (some (.ident head.name), p) :: body.reverse.flatMap Stmt.anchors ++
          spot.anchors)

/-- The words and literals that a reader has read. -/
def Reader.Anchored (r : Reader) (words : List Anchor) : Prop :=
  ∃ parts own, List.Forall₂ Func.Anchored r.funcs.reverse parts ∧ r.spot.Anchored own ∧
    words = parts.flatten ++ own

namespace Reader

theorem Anchored.step {pos : Nat} {token : Token} {r r' : Reader} {words : List Anchor}
    (h : r.Anchored words) (steps : Steps pos token r r') :
    r'.Anchored (words ++ token.anchors pos) := by
  obtain ⟨parts, own, funcs, spot, rfl⟩ := h
  have extend {own' : List Anchor} (same : own' = own ++ token.anchors pos)
      (funcs : List.Forall₂ Func.Anchored r'.funcs.reverse parts) (spot : r'.spot.Anchored own') :
      r'.Anchored (parts.flatten ++ own ++ token.anchors pos) :=
    ⟨parts, own', funcs, spot, by rw [same, List.append_assoc]⟩
  cases steps with
  | impure => cases spot; exact extend rfl funcs .afterImpure
  | fn => cases spot; exact extend rfl funcs (.afterFn .fn)
  | impureFn => cases spot; exact extend rfl funcs (.afterFn .impure)
  | name =>
    cases spot with
    | afterFn introduced => exact extend rfl funcs (.afterName introduced)
  | openParen =>
    cases spot with
    | afterName introduced => exact extend (List.append_nil _).symm funcs (.afterOpen introduced)
  | closeParen =>
    cases spot with
    | @afterOpen _ _ p introduced =>
      refine extend ?_ funcs (.inside (p := p) introduced (List.forall_mem_nil _))
      simp [Token.anchors, InnerSpot.anchors]
  | inner moves =>
    cases spot with
    | @inside _ _ _ _ p introduced placed =>
      refine extend ?_ funcs (.inside (p := p) introduced placed)
      rw [moves.anchors, ← List.append_assoc]
  | @endStmt _ head body _ _ value moves =>
    cases spot with
    | @inside _ _ _ _ p introduced placed =>
      have all : ∀ s ∈ Stmt.expr value.pos value :: body, s.Placed :=
        List.forall_mem_cons.mpr ⟨⟨value, rfl⟩, placed⟩
      refine extend ?_ funcs (.inside (p := p) introduced all)
      simp [Stmt.anchors_expr, moves.anchors_endStmt, InnerSpot.anchors]
  | @endBlock _ head body _ _ moves =>
    cases moves
    cases spot with
    | @inside _ _ _ keywords p introduced placed =>
      have done : Func.Anchored ⟨head.pos, head.name, head.impure, body.reverse⟩
          (keywords ++ (some (.ident head.name), p) :: body.reverse.flatMap Stmt.anchors) :=
        ⟨by simpa using placed, keywords, p, introduced, rfl⟩
      have all : List.Forall₂ Func.Anchored (_ ++ [_]) (parts ++ [_]) :=
        List.rel_append funcs (.cons done .nil)
      rw [← List.reverse_cons] at all
      exact ⟨_, [], all, .betweenFuncs, by simp [InnerSpot.anchors, Token.anchors]⟩

theorem Anchored.reads {r r' : Reader} {lexemes : List Lexeme} {words : List Anchor}
    (h : r.Anchored words) (reads : Reads r lexemes r') :
    r'.Anchored (words ++ Lexeme.anchors lexemes) := by
  induction reads generalizing words with
  | nil => simpa [Lexeme.anchors] using h
  | cons steps _ ih => simpa [Lexeme.anchors] using ih (h.step steps)

theorem anchored_of_reads {lexemes : List Lexeme} {funcs : List Func}
    (h : Reads start lexemes ⟨funcs.reverse, .betweenFuncs⟩) :
    ∃ parts, List.Forall₂ Func.Anchored funcs parts ∧ Lexeme.anchors lexemes = parts.flatten := by
  have atStart : start.Anchored [] := ⟨[], [], .nil, .betweenFuncs, rfl⟩
  obtain ⟨parts, own, anchored, spot, same⟩ := atStart.reads h
  cases spot
  rw [List.reverse_reverse] at anchored
  exact ⟨parts, anchored, by simpa using same⟩

end Reader

theorem Token.eq_of_mem_anchors {t : Token} {pos : Nat} {a : Anchor} (h : a ∈ t.anchors pos) :
    a = (some t, pos) := by
  cases t with
  | mark m => cases h
  | keyword k => exact List.mem_singleton.mp h
  | ident name => exact List.mem_singleton.mp h
  | literal value => exact List.mem_singleton.mp h

namespace Lexeme

theorem mem_anchors {lexemes : List Lexeme} {a : Anchor} (h : a ∈ anchors lexemes) :
    ∃ l ∈ lexemes, a = (some l.token, l.start) := by
  obtain ⟨l, hl, own⟩ := List.mem_flatMap.mp h
  exact ⟨l, hl, Token.eq_of_mem_anchors own⟩

theorem Splits.anchors_increase {pos : Nat} {text : Bytes} {lexemes : List Lexeme} {ending : Ending}
    (h : Splits pos text lexemes ending) : (anchors lexemes).Pairwise fun a b => a.2 < b.2 := by
  refine List.pairwise_flatMap.mpr ⟨?_, h.ordered.imp_of_mem ?_⟩
  · intro l hl
    cases l.token <;> simp [Token.anchors]
  · intro l l' hl _ before a ha a' ha'
    have bounds := h.lexeme_bounds l hl
    rw [Token.eq_of_mem_anchors ha, Token.eq_of_mem_anchors ha']
    dsimp only
    omega

end Lexeme

namespace Func

variable {funcs : List Func} {parts : List (List Anchor)}

theorem sublist_of_anchored (h : List.Forall₂ Anchored funcs parts) :
    (funcs.flatMap anchors).Sublist parts.flatten := by
  induction h with
  | nil => exact .refl _
  | cons own _ ih => exact own.sublist.append ih

theorem placed_of_anchored (h : List.Forall₂ Anchored funcs parts) :
    ∀ f ∈ funcs, ∀ s ∈ f.body, s.Placed := by
  induction h with
  | nil => exact List.forall_mem_nil _
  | cons own _ ih => exact List.forall_mem_cons.mpr ⟨own.stmts, ih⟩

theorem positions_eq (f : Func) : f.positions = f.anchors.map fun a => a.2 := by
  simp [positions, anchors, Expr.anchor, Function.comp_def]

end Func

namespace Bundle

/-- From `pos` on the token is written in the file, and it is the token that is read from there. -/
def StandsAt (b : Bundle) (s : SourceFile) (t : Token) (pos : Nat) : Prop :=
  ∃ stop rest, s.base ≤ pos ∧ pos < stop ∧ stop ≤ s.stop ∧ t.Spelling (b.range pos stop) ∧
    Lexeme.next pos (b.range pos s.stop) = .found ⟨t, pos, stop⟩ rest

/-- The positions of a function point at the text of the file. -/
structure Locates (b : Bundle) (s : SourceFile) (f : Func) : Prop where
  keyword : b.StandsAt s (.keyword f.keyword) f.pos
  exprs : ∀ e ∈ f.preorder, ∃ t, e.token? = some t ∧ b.StandsAt s t e.pos
  stmts : ∀ s ∈ f.body, s.Placed
  inside : ∀ p ∈ f.positions, s.base ≤ p ∧ p < s.stop

/-- The functions are read from the file, and the words and literals of the file are theirs. -/
structure Places (b : Bundle) (s : SourceFile) (funcs : List Func) : Prop where
  read : Reading.ofText s.base (b.range s.base s.stop) = ⟨funcs, none⟩
  words : ∃ lexemes parts, Lexeme.scanRange b.buffer s.base s.stop = (lexemes, .finished s.stop) ∧
    List.Forall₂ Func.Anchored funcs parts ∧ Lexeme.anchors lexemes = parts.flatten
  located : ∀ f ∈ funcs, b.Locates s f
  increase : (funcs.flatMap Func.positions).Pairwise (· < ·)

theorem StandsAt.inside {b : Bundle} {s : SourceFile} {t : Token} {pos : Nat}
    (h : b.StandsAt s t pos) :
    s.base ≤ pos ∧ pos < s.stop := by
  obtain ⟨stop, -, after, nonempty, before, -⟩ := h
  exact ⟨after, Nat.lt_of_lt_of_le nonempty before⟩

variable {b : Bundle} {s : SourceFile} {funcs : List Func}

theorem places_of_read (held : s.stop ≤ b.buffer.length)
    (read : Reading.ofText s.base (b.range s.base s.stop) = ⟨funcs, none⟩) : b.Places s funcs := by
  have ordered : s.base ≤ s.stop := Nat.le_add_right _ _
  obtain ⟨-, lexemes, stop, scanned, reads⟩ := Reading.ofText_eq_iff.mp read
  have splits : Lexeme.Splits s.base (b.buffer.slice s.base s.stop) lexemes (.finished stop) :=
    Lexeme.scan_eq_iff_splits.mp scanned
  have finished : stop = s.stop := by
    rw [splits.finished, Bytes.length_slice held]
    omega
  subst finished
  obtain ⟨parts, anchored, same⟩ := Reader.anchored_of_reads reads
  have among := Func.sublist_of_anchored anchored
  rw [← same] at among
  have stands {token : Option Token} {pos : Nat} (mem : (token, pos) ∈ Lexeme.anchors lexemes) :
      ∃ t, token = some t ∧ b.StandsAt s t pos := by
    obtain ⟨l, hl, own⟩ := Lexeme.mem_anchors mem
    cases own
    obtain ⟨rest, next⟩ := splits.next_from_start l hl
    obtain ⟨after, nonempty, before⟩ := splits.lexeme_bounds l hl
    exact ⟨l.token, rfl, l.stop, rest, after, nonempty, before, splits.spelled l hl, next⟩
  refine ⟨read, ⟨lexemes, parts, scanned, anchored, same⟩, ?_, ?_⟩
  · intro f hf
    have own : f.anchors ⊆ Lexeme.anchors lexemes :=
      fun a ha => among.subset (List.mem_flatMap.mpr ⟨f, hf, ha⟩)
    have keyword : b.StandsAt s (.keyword f.keyword) f.pos := by
      obtain ⟨t, same, stands⟩ := stands (own List.mem_cons_self)
      cases same
      exact stands
    have exprs : ∀ e ∈ f.preorder, ∃ t, e.token? = some t ∧ b.StandsAt s t e.pos := by
      intro e he
      exact stands (own (List.mem_cons_of_mem _ (List.mem_map_of_mem he)))
    refine ⟨keyword, exprs, Func.placed_of_anchored anchored f hf,
      List.forall_mem_cons.mpr ⟨keyword.inside, ?_⟩⟩
    intro p hp
    obtain ⟨e, he, rfl⟩ := List.mem_map.mp hp
    obtain ⟨t, -, stands⟩ := exprs e he
    exact stands.inside
  · have increase : ((funcs.flatMap Func.anchors).map fun a => a.2).Pairwise (· < ·) :=
      List.pairwise_map.mpr (splits.anchors_increase.sublist among)
    rwa [List.map_flatMap, ← funext Func.positions_eq] at increase

theorem Places.inside (h : b.Places s funcs) :
    ∀ p ∈ funcs.flatMap Func.positions, s.base ≤ p ∧ p < s.stop := by
  intro p hp
  obtain ⟨f, hf, own⟩ := List.mem_flatMap.mp hp
  exact (h.located f hf).inside p own

variable {files : List SourceFile} {parts : List (List Func)}

theorem exists_places (held : ∀ s ∈ files, s.stop ≤ b.buffer.length)
    (noError : (b.readFiles files).error = none) :
    ∃ parts, (b.readFiles files).funcs = parts.flatten ∧ List.Forall₂ b.Places files parts := by
  induction files with
  | nil => exact ⟨[], rfl, .nil⟩
  | cons s rest ih =>
    obtain ⟨own, others⟩ := List.forall_mem_cons.mp held
    cases first : Reading.ofText s.base (b.range s.base s.stop) with
    | mk funcs error =>
      rw [readFiles] at noError ⊢
      simp only [first] at noError ⊢
      cases error with
      | some e => cases noError
      | none =>
        obtain ⟨parts, same, places⟩ := ih others noError
        exact ⟨funcs :: parts, congrArg (funcs ++ ·) same, .cons (places_of_read own first) places⟩

theorem readFiles_of_parse {file : File} (parsed : b.parse = .ok file) :
    (b.readFiles b.files).error = none ∧ file.funcs = (b.readFiles b.files).funcs := by
  simp only [parse] at parsed
  split at parsed
  next => cases parsed
  next noError =>
    cases parsed
    exact ⟨noError, rfl⟩

theorem inside_of_places (h : List.Forall₂ b.Places files parts) :
    ∀ p ∈ parts.flatten.flatMap Func.positions, ∃ s ∈ files, s.base ≤ p ∧ p < s.stop := by
  induction h with
  | nil => exact List.forall_mem_nil _
  | @cons s funcs files parts own _ ih =>
    intro p hp
    rw [List.flatten_cons, List.flatMap_append, List.mem_append] at hp
    rcases hp with hp | hp
    · exact ⟨s, List.mem_cons_self, own.inside p hp⟩
    · obtain ⟨t, ht, inside⟩ := ih p hp
      exact ⟨t, List.mem_cons_of_mem _ ht, inside⟩

theorem increase_of_places (h : List.Forall₂ b.Places files parts)
    (ordered : files.Pairwise fun s t => s.stop ≤ t.base) :
    (parts.flatten.flatMap Func.positions).Pairwise (· < ·) := by
  induction h with
  | nil => exact .nil
  | @cons s funcs files parts own others ih =>
    obtain ⟨first, rest⟩ := List.pairwise_cons.mp ordered
    rw [List.flatten_cons, List.flatMap_append]
    refine List.pairwise_append.mpr ⟨own.increase, ih rest, ?_⟩
    intro p hp q hq
    obtain ⟨t, ht, after, -⟩ := inside_of_places others q hq
    have before := (own.inside p hp).2
    have apart := first t ht
    omega

theorem placed_bounds (base : Nat) (sources : List (Bytes × Bytes)) :
    ∀ s ∈ placed base sources, base ≤ s.base ∧ s.stop ≤ base + (joined sources).length := by
  induction sources generalizing base with
  | nil => exact List.forall_mem_nil _
  | cons source rest ih =>
    have length : (joined (source :: rest)).length = source.2.length + (joined rest).length :=
      List.length_append
    rw [length]
    refine List.forall_mem_cons.mpr ⟨?_, ?_⟩
    · simp only [SourceFile.stop]
      omega
    · intro s hs
      have bounds := ih _ s hs
      omega

theorem placed_ordered (base : Nat) (sources : List (Bytes × Bytes)) :
    (placed base sources).Pairwise fun s t => s.stop ≤ t.base := by
  induction sources generalizing base with
  | nil => exact .nil
  | cons source rest ih => exact .cons (fun t ht => (placed_bounds _ rest t ht).1) (ih _)

/-- In the tree of files that are read together each function and each expression stands, in the
range of its file, where its first token is written, and a statement stands where its expression
does. The words and literals of a file are those of its functions, in order, and positions grow from
each function and each expression to the next, those inside it first. -/
theorem positions_of_parse {sources : List (Bytes × Bytes)} {file : File}
    (parsed : (ofSources sources).parse = .ok file) :
    (file.funcs.flatMap Func.positions).Pairwise (· < ·) ∧ ∃ parts, file.funcs = parts.flatten ∧
      List.Forall₂ (ofSources sources).Places (ofSources sources).files parts := by
  have held : ∀ s ∈ (ofSources sources).files, s.stop ≤ (ofSources sources).buffer.length := by
    rw [ofSources_eq]
    intro s hs
    have bounds := placed_bounds 0 sources s hs
    dsimp only
    omega
  have ordered : (ofSources sources).files.Pairwise fun s t => s.stop ≤ t.base := by
    rw [ofSources_eq]
    exact placed_ordered 0 sources
  obtain ⟨noError, same⟩ := readFiles_of_parse parsed
  obtain ⟨parts, split, places⟩ := exists_places held noError
  rw [same, split]
  exact ⟨increase_of_places places ordered, parts, rfl, places⟩

def nestedSources : List (Bytes × Bytes) :=
  [(bytes "a", bytes "fn a()\x7bb('x', c(\"\\n\"));\x7d//"),
    (bytes "b", bytes " impure\nfn d()\x7b\x7d fn e()\x7bd();\x7d")]

theorem nestedSources_positions : ∃ file, (ofSources nestedSources).parse = .ok file ∧
    file.funcs.flatMap Func.positions = [0, 7, 9, 14, 16, 27, 43, 50] ∧
    (file.funcs.flatMap Func.positions).Pairwise (· < ·) ∧ ∃ parts, file.funcs = parts.flatten ∧
      List.Forall₂ (ofSources nestedSources).Places (ofSources nestedSources).files parts := by
  have read : (ofSources nestedSources).parse.map (fun f => f.funcs.flatMap Func.positions) =
      .ok [0, 7, 9, 14, 16, 27, 43, 50] := by
    decide +kernel
  cases parsed : (ofSources nestedSources).parse with
  | error e => rw [parsed] at read; cases read
  | ok file =>
    rw [parsed] at read
    exact ⟨file, rfl, Except.ok.inj read, positions_of_parse parsed⟩

end Bundle

end StackLang
