import StackLang.Source.Reader

namespace StackLang

/-- An expression may start at the spot, as an argument of the innermost of the calls if there is
one. -/
inductive InnerSpot.Awaits : InnerSpot → List OpenCall → Prop
  | stmt : Awaits .betweenStmts []
  | firstArg {call calls} : Awaits (.firstArg call calls) (call :: calls)
  | nextArg {call calls} : Awaits (.nextArg call calls) (call :: calls)

/-- The moves of a token that stands at `pos`. -/
inductive InnerSpot.Moves (pos : Nat) : Token → InnerSpot → Move → Prop
  | openBlock : Moves pos (.mark .openBrace) .beforeBlock (.to .betweenStmts)
  | emptyStmt : Moves pos (.mark .semicolon) .betweenStmts (.to .betweenStmts)
  | endBlock : Moves pos (.mark .closeBrace) .betweenStmts .endBlock
  | literal {text spot calls} : spot.Awaits calls →
      Moves pos (.literal text) spot (.to (.afterExpr (.literal pos text) calls))
  | callee {name spot calls} : spot.Awaits calls →
      Moves pos (.ident name) spot (.to (.afterCallee pos name calls))
  | openArgs {p name calls} :
      Moves pos (.mark .openParen) (.afterCallee p name calls) (.to (.firstArg ⟨p, name, []⟩ calls))
  | noArgs {call calls} :
      Moves pos (.mark .closeParen) (.firstArg call calls)
        (.to (.afterExpr (InnerSpot.close call) calls))
  | comma {value call calls} :
      Moves pos (.mark .comma) (.afterExpr value (call :: calls))
        (.to (.nextArg (InnerSpot.addArg call value) calls))
  | closeArgs {value call calls} :
      Moves pos (.mark .closeParen) (.afterExpr value (call :: calls))
        (.to (.afterExpr (InnerSpot.close (InnerSpot.addArg call value)) calls))
  | endStmt {value} : Moves pos (.mark .semicolon) (.afterExpr value []) (.endStmt value)

namespace InnerSpot

theorem moves_of_startExpr {l : Lexeme} {spot : InnerSpot} {calls : List OpenCall} {m : Move}
    (awaits : spot.Awaits calls) (h : (startExpr? l calls).map .to = some m) :
    spot.Moves l.start l.token m := by
  obtain ⟨next, start, rfl⟩ := Option.map_eq_some_iff.mp h
  unfold startExpr? at start
  split at start
  next text token =>
    cases start
    rw [token]
    exact .literal awaits
  next name token =>
    cases start
    rw [token]
    exact .callee awaits
  next => cases start

theorem moves_of_move? {l : Lexeme} {spot : InnerSpot} {m : Move} (h : spot.move? l = some m) :
    spot.Moves l.start l.token m := by
  cases spot with
  | beforeBlock =>
    simp only [move?] at h
    split at h
    next token => cases h; rw [token]; exact .openBlock
    next => cases h
  | betweenStmts =>
    simp only [move?] at h
    split at h
    next token => cases h; rw [token]; exact .emptyStmt
    next token => cases h; rw [token]; exact .endBlock
    next => exact moves_of_startExpr .stmt h
  | afterCallee pos name calls =>
    simp only [move?] at h
    split at h
    next token => cases h; rw [token]; exact .openArgs
    next => cases h
  | firstArg call calls =>
    simp only [move?] at h
    split at h
    next token => cases h; rw [token]; exact .noArgs
    next => exact moves_of_startExpr .firstArg h
  | nextArg call calls => exact moves_of_startExpr .nextArg h
  | afterExpr value calls =>
    cases calls with
    | nil =>
      simp only [move?] at h
      split at h
      next token => cases h; rw [token]; exact .endStmt
      next => cases h
    | cons call calls =>
      simp only [move?] at h
      split at h
      next token => cases h; rw [token]; exact .comma
      next token => cases h; rw [token]; exact .closeArgs
      next => cases h

theorem move?_of_moves {l : Lexeme} {spot : InnerSpot} {m : Move}
    (h : spot.Moves l.start l.token m) :
    spot.move? l = some m := by
  obtain ⟨token, start, stop⟩ := l
  cases h with
  | literal awaits => cases awaits <;> rfl
  | callee awaits => cases awaits <;> rfl
  | _ => rfl

end InnerSpot

/-- The steps of a reader at a token that stands at `pos`. -/
inductive Reader.Steps (pos : Nat) : Token → Reader → Reader → Prop
  | impure {funcs} : Steps pos (.keyword .impure) ⟨funcs, .betweenFuncs⟩ ⟨funcs, .afterImpure pos⟩
  | fn {funcs} : Steps pos (.keyword .fn) ⟨funcs, .betweenFuncs⟩ ⟨funcs, .afterFn pos false⟩
  | impureFn {funcs p} : Steps pos (.keyword .fn) ⟨funcs, .afterImpure p⟩ ⟨funcs, .afterFn p true⟩
  | name {funcs p impure name} :
      Steps pos (.ident name) ⟨funcs, .afterFn p impure⟩ ⟨funcs, .afterName ⟨p, impure, name⟩⟩
  | openParen {funcs head} :
      Steps pos (.mark .openParen) ⟨funcs, .afterName head⟩ ⟨funcs, .afterOpen head⟩
  | closeParen {funcs head} :
      Steps pos (.mark .closeParen) ⟨funcs, .afterOpen head⟩ ⟨funcs, .inside head [] .beforeBlock⟩
  | inner {funcs head body token spot spot'} : InnerSpot.Moves pos token spot (.to spot') →
      Steps pos token ⟨funcs, .inside head body spot⟩ ⟨funcs, .inside head body spot'⟩
  | endStmt {funcs head body token spot value} : InnerSpot.Moves pos token spot (.endStmt value) →
      Steps pos token ⟨funcs, .inside head body spot⟩
        ⟨funcs, .inside head (.expr value.pos value :: body) .betweenStmts⟩
  | endBlock {funcs head body token spot} : InnerSpot.Moves pos token spot .endBlock →
      Steps pos token ⟨funcs, .inside head body spot⟩
        ⟨⟨head.pos, head.name, head.impure, body.reverse⟩ :: funcs, .betweenFuncs⟩

/-- Runs of a reader in which each lexeme has a place. -/
inductive Reader.Reads : Reader → List Lexeme → Reader → Prop
  | nil {r} : Reads r [] r
  | cons {r r' r'' l rest} : Steps l.start l.token r r' → Reads r' rest r'' →
      Reads r (l :: rest) r''

namespace Reader

theorem steps_of_step? {r r' : Reader} {l : Lexeme} (h : r.step? l = some r') :
    Steps l.start l.token r r' := by
  obtain ⟨funcs, spot⟩ := r
  cases spot with
  | betweenFuncs =>
    simp only [step?] at h
    split at h
    next token => cases h; rw [token]; exact .impure
    next token => cases h; rw [token]; exact .fn
    next => cases h
  | afterImpure pos =>
    simp only [step?] at h
    split at h
    next token => cases h; rw [token]; exact .impureFn
    next => cases h
  | afterFn pos impure =>
    simp only [step?] at h
    split at h
    next name token => cases h; rw [token]; exact .name
    next => cases h
  | afterName head =>
    simp only [step?] at h
    split at h
    next token => cases h; rw [token]; exact .openParen
    next => cases h
  | afterOpen head =>
    simp only [step?] at h
    split at h
    next token => cases h; rw [token]; exact .closeParen
    next => cases h
  | inside head body spot =>
    obtain ⟨m, move, rfl⟩ := Option.map_eq_some_iff.mp h
    have moves := InnerSpot.moves_of_move? move
    cases m with
    | «to» spot => exact .inner moves
    | endStmt value => exact .endStmt moves
    | endBlock => exact .endBlock moves

theorem step?_of_steps {r r' : Reader} {l : Lexeme} (h : Steps l.start l.token r r') :
    r.step? l = some r' := by
  obtain ⟨token, start, stop⟩ := l
  cases h with
  | inner moves => exact congrArg (Option.map _) (InnerSpot.move?_of_moves moves)
  | endStmt moves => exact congrArg (Option.map _) (InnerSpot.move?_of_moves moves)
  | endBlock moves => exact congrArg (Option.map _) (InnerSpot.move?_of_moves moves)
  | _ => rfl

/-- A reader that ends without error has found a place for all lexemes, and ends between
functions. -/
theorem run_eq_iff_reads {r r' : Reader} {ending : Ending} {lexemes : List Lexeme} :
    r.run ending lexemes = (r', none) ↔
      (∃ pos, ending = .finished pos) ∧ Reads r lexemes r' ∧ r'.spot = .betweenFuncs := by
  induction lexemes generalizing r with
  | nil =>
    constructor
    · intro h
      obtain ⟨rfl, noError⟩ := Prod.mk.inj h
      cases ending with
      | failed cause start stop => cases noError
      | finished pos =>
        refine ⟨⟨pos, rfl⟩, .nil, ?_⟩
        simp only [finish] at noError
        split at noError
        next spot => exact spot
        next => cases noError
    · rintro ⟨⟨pos, rfl⟩, reads, spot⟩
      cases reads
      simp [run, finish, spot]
  | cons l rest ih =>
    cases h : r.step? l with
    | none =>
      simp only [run, h, Prod.mk.injEq, reduceCtorEq, and_false, false_iff]
      rintro ⟨-, reads, -⟩
      cases reads with
      | cons step _ => simp [step?_of_steps step] at h
    | some next =>
      simp only [run, h, ih]
      constructor
      · rintro ⟨finished, reads, spot⟩
        exact ⟨finished, .cons (steps_of_step? h) reads, spot⟩
      · rintro ⟨finished, reads, spot⟩
        cases reads with
        | cons step reads =>
          obtain rfl := Option.some.inj (h.symm.trans (step?_of_steps step))
          exact ⟨finished, reads, spot⟩

end Reader

end StackLang
