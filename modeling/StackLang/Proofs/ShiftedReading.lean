import StackLang.Proofs.LexemePlaces
import StackLang.Proofs.ReadableTrees

namespace StackLang

mutual

def Expr.shift (d : Nat) : Expr → Expr
  | .literal pos value => .literal (d + pos) value
  | .call pos name args => .call (d + pos) name (Expr.shiftAll d args)
  | .foreign value => .foreign value

def Expr.shiftAll (d : Nat) : List Expr → List Expr
  | [] => []
  | e :: rest => e.shift d :: Expr.shiftAll d rest

end

def Stmt.shift (d : Nat) : Stmt → Stmt
  | .expr pos value => .expr (d + pos) (value.shift d)
  | .foreign value => .foreign value

/-- The function with all positions in it moved on by `d`. -/
def Func.shift (d : Nat) (f : Func) : Func :=
  ⟨d + f.pos, f.name, f.impure, f.body.map (Stmt.shift d)⟩

theorem Expr.shiftAll_eq_map (d : Nat) (exprs : List Expr) :
    Expr.shiftAll d exprs = exprs.map (Expr.shift d) := by
  induction exprs with
  | nil => rfl
  | cons e rest ih => rw [Expr.shiftAll, ih, List.map_cons]

/-- A foreign value has no place that could shift. -/
theorem Expr.pos_shift (d : Nat) {e : Expr} (h : e.Readable) : (e.shift d).pos = d + e.pos := by
  cases h <;> rfl

namespace Lexeme

def shift (d : Nat) (l : Lexeme) : Lexeme :=
  ⟨l.token, d + l.start, d + l.stop⟩

end Lexeme

def Scan.shift (d : Nat) : Scan → Scan
  | ended pos => ended (d + pos)
  | found l rest => found (l.shift d) rest
  | failed cause start stop => failed cause (d + start) (d + stop)

def Ending.shift (d : Nat) : Ending → Ending
  | finished pos => finished (d + pos)
  | failed cause start stop => failed cause (d + start) (d + stop)

namespace Lexeme

theorem skip_shift (d : Nat) (inComment : Bool) (pos : Nat) (text : Bytes) :
    skip inComment (d + pos) text =
      (d + (skip inComment pos text).1, (skip inComment pos text).2) := by
  induction text generalizing inComment pos with
  | nil => rfl
  | cons c rest ih =>
    unfold skip
    split
    · exact ih _ (pos + 1)
    · split
      · exact ih _ (pos + 1)
      · split
        · exact ih _ (pos + 1)
        · rfl

theorem literal_shift (d : Nat) (quote : UInt8) (start pos : Nat) (read text : Bytes) :
    literal quote (d + start) (d + pos) read text =
      (literal quote start pos read text).shift d := by
  fun_induction literal quote start pos read text with
  | case1 => rfl
  | case2 pos read rest =>
    rw [literal.eq_def]
    simp [Scan.shift, shift, Nat.add_assoc]
  | case3 pos read notQuote =>
    rw [literal.eq_def]
    simp [notQuote, Scan.shift]
  | case4 pos read e rest b escape notQuote ih =>
    rw [literal.eq_def]
    simpa [notQuote, escape, Nat.add_assoc] using ih
  | case5 pos read e rest noEscape notQuote =>
    rw [literal.eq_def]
    simp [notQuote, noEscape, Scan.shift]
  | case6 pos read c rest notQuote notEscape ih =>
    rw [literal.eq_def]
    simpa [notQuote, notEscape, Nat.add_assoc] using ih

theorem scanToken_shift (d pos : Nat) (text : Bytes) :
    scanToken (d + pos) text = (scanToken pos text).shift d := by
  cases text with
  | nil => rfl
  | cons c rest =>
    unfold scanToken
    simp only
    split
    · rfl
    · split
      · exact literal_shift d c pos (pos + 1) [] rest
      · split
        · simp [Scan.shift, shift, Nat.add_assoc]
        · rfl

theorem next_shift (d pos : Nat) (text : Bytes) :
    next (d + pos) text = (next pos text).shift d := by
  unfold next
  rw [skip_shift]
  exact scanToken_shift d _ _

theorem Splits.shift {pos : Nat} {text : Bytes} {lexemes : List Lexeme} {ending : Ending} (d : Nat)
    (h : Splits pos text lexemes ending) :
    Splits (d + pos) text (lexemes.map (Lexeme.shift d)) (ending.shift d) := by
  induction h with
  | ended next => exact .ended (by rw [next_shift, next]; rfl)
  | failed next => exact .failed (by rw [next_shift, next]; rfl)
  | @found pos text l rest lexemes ending next _ ih =>
    exact .found (l := l.shift d) (by rw [next_shift, next]; rfl) ih

theorem scan_shift (d pos : Nat) (text : Bytes) :
    scan (d + pos) text = ((scan pos text).1.map (Lexeme.shift d), (scan pos text).2.shift d) :=
  scan_eq_iff_splits.mpr ((scan_eq_iff_splits.mp rfl).shift d)

end Lexeme

def OpenCall.shift (d : Nat) (c : OpenCall) : OpenCall :=
  ⟨d + c.pos, c.name, c.args.map (Expr.shift d)⟩

def InnerSpot.shift (d : Nat) : InnerSpot → InnerSpot
  | beforeBlock => beforeBlock
  | betweenStmts => betweenStmts
  | afterCallee pos name calls => afterCallee (d + pos) name (calls.map (OpenCall.shift d))
  | firstArg call calls => firstArg (call.shift d) (calls.map (OpenCall.shift d))
  | nextArg call calls => nextArg (call.shift d) (calls.map (OpenCall.shift d))
  | afterExpr value calls => afterExpr (value.shift d) (calls.map (OpenCall.shift d))

def Move.shift (d : Nat) : Move → Move
  | .to spot => .to (spot.shift d)
  | endStmt value => endStmt (value.shift d)
  | endBlock => endBlock

def Head.shift (d : Nat) (h : Head) : Head :=
  ⟨d + h.pos, h.impure, h.name⟩

def Spot.shift (d : Nat) : Spot → Spot
  | betweenFuncs => betweenFuncs
  | afterImpure pos => afterImpure (d + pos)
  | afterFn pos impure => afterFn (d + pos) impure
  | afterName head => afterName (head.shift d)
  | afterOpen head => afterOpen (head.shift d)
  | inside head body spot => inside (head.shift d) (body.map (Stmt.shift d)) (spot.shift d)

def Reader.shift (d : Nat) (r : Reader) : Reader :=
  ⟨r.funcs.map (Func.shift d), r.spot.shift d⟩

def ReadError.shift (d : Nat) (e : ReadError) : ReadError :=
  ⟨d + e.offset, e.func, e.fault⟩

def Reading.shift (d : Nat) (r : Reading) : Reading :=
  ⟨r.funcs.map (Func.shift d), r.error.map (ReadError.shift d)⟩

namespace InnerSpot

theorem close_shift (d : Nat) (call : OpenCall) : close (call.shift d) = (close call).shift d := by
  simp [close, OpenCall.shift, Expr.shift, Expr.shiftAll_eq_map]

theorem startExpr?_shift (d : Nat) (l : Lexeme) (calls : List OpenCall) :
    startExpr? (l.shift d) (calls.map (OpenCall.shift d)) =
      (startExpr? l calls).map (InnerSpot.shift d) := by
  obtain ⟨token, start, stop⟩ := l
  cases token <;> rfl

theorem map_to_startExpr?_shift (d : Nat) (l : Lexeme) (calls : List OpenCall) :
    (startExpr? (l.shift d) (calls.map (OpenCall.shift d))).map Move.to =
      ((startExpr? l calls).map Move.to).map (Move.shift d) := by
  rw [startExpr?_shift, Option.map_map, Option.map_map]
  rfl

theorem move?_shift (d : Nat) (l : Lexeme) (spot : InnerSpot) :
    (spot.shift d).move? (l.shift d) = (spot.move? l).map (Move.shift d) := by
  have start (calls : List OpenCall) := map_to_startExpr?_shift d l calls
  obtain ⟨token, pos, stop⟩ := l
  cases spot with
  | beforeBlock =>
    simp only [InnerSpot.shift, move?, Lexeme.shift]
    split <;> rfl
  | betweenStmts =>
    simp only [InnerSpot.shift, move?, Lexeme.shift]
    split
    · rfl
    · rfl
    · exact start []
  | afterCallee p name calls =>
    simp only [InnerSpot.shift, move?, Lexeme.shift]
    split <;> rfl
  | firstArg call calls =>
    simp only [InnerSpot.shift, move?, Lexeme.shift]
    split
    · rw [close_shift]
      rfl
    · exact start (call :: calls)
  | nextArg call calls => exact start (call :: calls)
  | afterExpr value calls =>
    cases calls with
    | nil =>
      simp only [InnerSpot.shift, move?, Lexeme.shift, List.map_nil]
      split <;> rfl
    | cons call calls =>
      have added : addArg (call.shift d) (value.shift d) = (addArg call value).shift d := rfl
      simp only [InnerSpot.shift, move?, Lexeme.shift, List.map_cons, added, close_shift]
      split <;> rfl

theorem want_shift (d : Nat) (got : Symbol) (spot : InnerSpot) :
    (spot.shift d).want got = spot.want got := by
  cases spot with
  | afterExpr value calls => cases calls <;> rfl
  | _ => rfl

end InnerSpot

namespace Reader

theorem step?_shift (d : Nat) {r : Reader} (readable : r.Readable) {l : Lexeme}
    (valid : l.token.Valid) :
    (r.shift d).step? (l.shift d) = (r.step? l).map (Reader.shift d) := by
  obtain ⟨funcs, spot⟩ := r
  cases spot with
  | inside head body spot =>
    have move := InnerSpot.move?_shift d l spot
    simp only [Reader.shift, Spot.shift, step?, move]
    cases h : spot.move? l with
    | none => rfl
    | some m =>
      cases m with
      | «to» spot => rfl
      | endStmt value =>
        have inner : value.Readable := InnerSpot.readable_move valid readable.2.2.2 h
        simp [Move.shift, moveTo, Reader.shift, Spot.shift, InnerSpot.shift, Stmt.shift,
          value.pos_shift d inner]
      | endBlock => simp [Move.shift, Reader.shift, Spot.shift, Func.shift, Head.shift]
  | _ =>
    simp only [Reader.shift, Spot.shift, step?, Lexeme.shift]
    split <;> rfl

theorem unexpected_shift (d : Nat) (r : Reader) (offset : Nat) (got : Symbol) :
    (r.shift d).unexpected (d + offset) got = (r.unexpected offset got).shift d := by
  obtain ⟨funcs, spot⟩ := r
  cases spot with
  | inside head body spot =>
    simp only [unexpected, Reader.shift, Spot.shift, Spot.want, InnerSpot.want_shift]
    rfl
  | _ => rfl

theorem finish_shift (d : Nat) (r : Reader) (ending : Ending) :
    (r.shift d).finish (ending.shift d) = (r.finish ending).map (ReadError.shift d) := by
  cases ending with
  | failed cause start stop =>
    obtain ⟨funcs, spot⟩ := r
    cases spot <;> rfl
  | finished pos =>
    have missing := r.unexpected_shift d pos .ending
    obtain ⟨funcs, spot⟩ := r
    cases spot with
    | betweenFuncs => rfl
    | _ => exact congrArg some missing

theorem run_shift (d : Nat) {r : Reader} (readable : r.Readable) (ending : Ending)
    {lexemes : List Lexeme} (valid : ∀ l ∈ lexemes, l.token.Valid) :
    (r.shift d).run (ending.shift d) (lexemes.map (Lexeme.shift d)) =
      ((r.run ending lexemes).1.shift d, (r.run ending lexemes).2.map (ReadError.shift d)) := by
  induction lexemes generalizing r with
  | nil => simp only [List.map_nil, run, finish_shift]
  | cons l rest ih =>
    have first : l.token.Valid := valid l List.mem_cons_self
    have step := step?_shift d readable first
    simp only [List.map_cons, run, step]
    cases h : r.step? l with
    | none =>
      exact congrArg (fun e => (r.shift d, some e)) (r.unexpected_shift d l.start l.token.symbol)
    | some r' =>
      exact ih (readable_step readable first h) fun l hl => valid l (List.mem_cons_of_mem _ hl)

end Reader

/-- A text reads the same wherever it stands, but for the positions. -/
theorem Reading.ofText_shift (base : Nat) (text : Bytes) :
    ofText base text = (ofText 0 text).shift base := by
  unfold ofText
  split
  next pos _ => simp [Reading.shift, ReadError.shift]
  next h =>
    have valid : ∀ l ∈ (Lexeme.scan 0 text).1, l.token.Valid :=
      Lexeme.valid_scanAfter (by simp) (Utf8.valid_of_invalidFrom h)
    have start : Reader.start.Readable := ⟨by simp [Reader.start], trivial⟩
    have scan := Lexeme.scan_shift base 0 text
    have run := Reader.run_shift base start (Lexeme.scan 0 text).2 valid
    have unmoved : Reader.start.shift base = Reader.start := rfl
    rw [Nat.add_zero] at scan
    rw [unmoved] at run
    simp [scan, run, Reading.shift, Reader.shift]

end StackLang
