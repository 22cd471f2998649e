import StackLang.Proofs.ReadableTokens
import StackLang.Source.Bundle

namespace StackLang

inductive Expr.Readable : Expr → Prop
  | literal {pos : Nat} {value : Bytes} : Utf8.valid value → Readable (.literal pos value)
  | call {pos : Nat} {name : Bytes} {args : List Expr} :
      Utf8.valid name → (∀ a ∈ args, Readable a) → Readable (.call pos name args)

def Stmt.Readable : Stmt → Prop
  | .expr _ value => value.Readable
  | .foreign _ => False

def Func.Readable (f : Func) : Prop :=
  Utf8.valid f.name ∧ ∀ s ∈ f.body, s.Readable

def File.Readable (f : File) : Prop :=
  ∀ fn ∈ f.funcs, fn.Readable

def OpenCall.Readable (c : OpenCall) : Prop :=
  Utf8.valid c.name ∧ ∀ a ∈ c.args, a.Readable

def InnerSpot.Readable : InnerSpot → Prop
  | beforeBlock => True
  | betweenStmts => True
  | afterCallee _ name calls => Utf8.valid name ∧ ∀ c ∈ calls, c.Readable
  | firstArg call calls => call.Readable ∧ ∀ c ∈ calls, c.Readable
  | nextArg call calls => call.Readable ∧ ∀ c ∈ calls, c.Readable
  | afterExpr value calls => value.Readable ∧ ∀ c ∈ calls, c.Readable

def Spot.Readable : Spot → Prop
  | afterName head => Utf8.valid head.name
  | afterOpen head => Utf8.valid head.name
  | inside head body spot => Utf8.valid head.name ∧ (∀ s ∈ body, s.Readable) ∧ spot.Readable
  | _ => True

def Reader.Readable (r : Reader) : Prop :=
  (∀ f ∈ r.funcs, f.Readable) ∧ r.spot.Readable

/-- What a move leaves of the pieces inside a function. -/
def Move.Readable : Move → Prop
  | .to spot => spot.Readable
  | endStmt value => value.Readable
  | endBlock => True

namespace InnerSpot

theorem readable_close {call : OpenCall} (h : call.Readable) : (close call).Readable :=
  .call h.1 (by simpa using h.2)

theorem readable_addArg {call : OpenCall} {value : Expr} (h : call.Readable) (hv : value.Readable) :
    (addArg call value).Readable :=
  ⟨h.1, by simpa [addArg, hv] using h.2⟩

theorem readable_startExpr {l : Lexeme} {calls : List OpenCall} {spot : InnerSpot}
    (hl : l.token.Valid) (hc : ∀ c ∈ calls, c.Readable) (h : startExpr? l calls = some spot) :
    spot.Readable := by
  unfold startExpr? at h
  split at h
  next text token =>
    cases h
    rw [token] at hl
    exact ⟨.literal hl, hc⟩
  next name token =>
    cases h
    rw [token] at hl
    exact ⟨hl, hc⟩
  next => cases h

theorem readable_move {l : Lexeme} {spot : InnerSpot} {m : Move} (hl : l.token.Valid)
    (hs : spot.Readable) (h : spot.move? l = some m) : m.Readable := by
  have start {calls : List OpenCall} (hc : ∀ c ∈ calls, c.Readable)
      (h : (startExpr? l calls).map .to = some m) : m.Readable := by
    obtain ⟨spot, found, rfl⟩ := Option.map_eq_some_iff.mp h
    exact readable_startExpr hl hc found
  cases spot with
  | beforeBlock =>
    simp only [move?] at h
    split at h
    next => cases h; trivial
    next => cases h
  | betweenStmts =>
    simp only [move?] at h
    split at h
    next => cases h; trivial
    next => cases h; trivial
    next => exact start (by simp) h
  | afterCallee pos name calls =>
    simp only [move?] at h
    split at h
    next => cases h; exact ⟨⟨hs.1, by simp⟩, hs.2⟩
    next => cases h
  | firstArg call calls =>
    have all : ∀ c ∈ call :: calls, c.Readable := by simpa [hs.1] using hs.2
    simp only [move?] at h
    split at h
    next => cases h; exact ⟨readable_close hs.1, hs.2⟩
    next => exact start all h
  | nextArg call calls =>
    have all : ∀ c ∈ call :: calls, c.Readable := by simpa [hs.1] using hs.2
    exact start all h
  | afterExpr value calls =>
    cases calls with
    | nil =>
      simp only [move?] at h
      split at h
      next => cases h; exact hs.1
      next => cases h
    | cons call calls =>
      have first := hs.2 call (by simp)
      have others : ∀ c ∈ calls, c.Readable := fun c hc => hs.2 c (by simp [hc])
      simp only [move?] at h
      split at h
      next => cases h; exact ⟨readable_addArg first hs.1, others⟩
      next => cases h; exact ⟨readable_close (readable_addArg first hs.1), others⟩
      next => cases h

end InnerSpot

namespace Reader

theorem readable_step {r r' : Reader} {l : Lexeme} (hr : r.Readable) (hl : l.token.Valid)
    (h : r.step? l = some r') : r'.Readable := by
  obtain ⟨funcs, spot⟩ := r
  obtain ⟨hf, hs⟩ := hr
  cases spot with
  | betweenFuncs =>
    simp only [step?] at h
    split at h
    next => cases h; exact ⟨hf, trivial⟩
    next => cases h; exact ⟨hf, trivial⟩
    next => cases h
  | afterImpure pos =>
    simp only [step?] at h
    split at h
    next => cases h; exact ⟨hf, trivial⟩
    next => cases h
  | afterFn pos impure =>
    simp only [step?] at h
    split at h
    next name token =>
      cases h
      rw [token] at hl
      exact ⟨hf, hl⟩
    next => cases h
  | afterName head =>
    simp only [step?] at h
    split at h
    next => cases h; exact ⟨hf, hs⟩
    next => cases h
  | afterOpen head =>
    simp only [step?] at h
    split at h
    next => cases h; exact ⟨hf, hs, by simp, trivial⟩
    next => cases h
  | inside head body spot =>
    obtain ⟨hn, hb, hi⟩ := hs
    obtain ⟨m, move, rfl⟩ := Option.map_eq_some_iff.mp h
    have hm := InnerSpot.readable_move hl hi move
    cases m with
    | «to» spot => exact ⟨hf, hn, hb, hm⟩
    | endStmt value =>
      have all : ∀ s ∈ Stmt.expr value.pos value :: body, s.Readable := by
        intro s hs
        rcases List.mem_cons.mp hs with rfl | hs
        · exact hm
        · exact hb s hs
      exact ⟨hf, hn, all, trivial⟩
    | endBlock =>
      have done : Func.Readable ⟨head.pos, head.name, head.impure, body.reverse⟩ :=
        ⟨hn, by simpa using hb⟩
      exact ⟨by simpa [done] using hf, trivial⟩

theorem readable_run {r : Reader} (hr : r.Readable) (ending : Ending) {lexemes : List Lexeme}
    (hl : ∀ l ∈ lexemes, l.token.Valid) : (r.run ending lexemes).1.Readable := by
  induction lexemes generalizing r with
  | nil => exact hr
  | cons l rest ih =>
    unfold run
    split
    next r' h => exact ih (readable_step hr (hl l (by simp)) h) fun l hl' => hl l (by simp [hl'])
    next => exact hr

end Reader

theorem Reading.readable_ofText (base : Nat) (text : Bytes) :
    ∀ f ∈ (ofText base text).funcs, f.Readable := by
  unfold ofText
  split
  next => simp
  next h =>
    have tokens : ∀ l ∈ (Lexeme.scan base text).1, l.token.Valid :=
      Lexeme.valid_scanAfter (by simp) (Utf8.valid_of_invalidFrom h)
    have start : Reader.start.Readable := ⟨by simp [Reader.start], trivial⟩
    simpa using (Reader.readable_run start _ tokens).1

theorem Bundle.readable_readFiles (b : Bundle) (files : List SourceFile) :
    ∀ f ∈ (b.readFiles files).funcs, f.Readable := by
  induction files with
  | nil => simp [readFiles]
  | cons file rest ih =>
    have first := Reading.readable_ofText file.base (b.range file.base file.stop)
    simp only [readFiles]
    split
    next => exact first
    next =>
      intro f hf
      rcases List.mem_append.mp hf with hf | hf
      · exact first f hf
      · exact ih f hf

theorem Bundle.readable_of_parse {b : Bundle} {f : File} (h : b.parse = .ok f) : f.Readable := by
  simp only [Bundle.parse] at h
  split at h
  next => cases h
  next =>
    cases h
    exact b.readable_readFiles b.files

end StackLang
