import StackLang.Proofs.CompiledProgram
import StackLang.Proofs.Evaluation
import StackLang.Proofs.MachineRuns

namespace StackLang

open Evaluation

/-- The machine's state holds the stack and the sink of an evaluation. -/
def RunState.Shows (s : RunState) (t : State) : Prop :=
  s.stack = t.stack.map .text ∧ s.sink = t.sink

/-- A run and an evaluation end alike: with the same stack, the same writes and the same fault. -/
def Outcome.Shows (o : Outcome) (r : Result) : Prop :=
  o.1.Shows r.1 ∧ o.2.map (·.fault) = r.2

theorem Outcome.Shows.eq {s : RunState} {error : Option RunError} {r : Result}
    (h : Outcome.Shows (s, error) r) :
    ∃ t, s.Shows t ∧ r = (t, error.map (·.fault)) :=
  ⟨r.1, h.1, Prod.ext rfl h.2.symm⟩

theorem Outcome.Shows.done {o : Outcome} {t : State} (h : Outcome.Shows o (t, none)) :
    ∃ s, o = (s, none) ∧ s.Shows t :=
  ⟨o.1, Prod.ext rfl (Option.map_eq_none_iff.mp h.2), h.1⟩

theorem Outcome.Shows.failed {o : Outcome} {t : State} {fault : RunFault}
    (h : Outcome.Shows o (t, some fault)) :
    ∃ s e, o = (s, some e) ∧ s.Shows t ∧ e.fault = fault := by
  obtain ⟨e, same, rfl⟩ := Option.map_eq_some_iff.mp h.2
  exact ⟨o.1, e, Prod.ext rfl same, h.1, rfl⟩

/-- The code of expressions, in a program that has every function the code calls. -/
structure Program.Codes (p : Program) (exprs : List Expr) (code : List (Int × Instr)) : Prop where
  lowered : code.map (·.2) = Expr.loweredAll exprs
  known : ∀ name, .call name ∈ Expr.loweredAll exprs → p.routines.contains name

namespace Program.Codes

variable {p : Program} {pos : Nat} {name value : Bytes} {args rest : List Expr}
variable {code : List (Int × Instr)}

theorem of_literal (h : p.Codes (.literal pos value :: rest) code) :
    ∃ offset more, code = (offset, .push value) :: more ∧ p.Codes rest more := by
  obtain ⟨⟨offset, i⟩, more, rfl, rfl, lowered⟩ := List.map_eq_cons_iff.mp h.lowered
  exact ⟨offset, more, rfl, lowered, fun name hname => h.known name (List.mem_cons_of_mem _ hname)⟩

theorem of_call (h : p.Codes (.call pos name args :: rest) code) :
    ∃ argsCode offset more, code = argsCode ++ (offset, .call name) :: more ∧
      p.Codes args argsCode ∧ p.routines.contains name ∧ p.Codes rest more := by
  have form : Expr.loweredAll (.call pos name args :: rest) =
      Expr.loweredAll args ++ .call name :: Expr.loweredAll rest := by
    simp [Expr.loweredAll, Expr.lowered]
  obtain ⟨lowered, known⟩ := h
  rw [form] at lowered known
  obtain ⟨argsCode, others, rfl, hargs, hothers⟩ := List.map_eq_append_iff.mp lowered
  obtain ⟨⟨offset, i⟩, more, rfl, rfl, hmore⟩ := List.map_eq_cons_iff.mp hothers
  exact ⟨argsCode, offset, more, rfl, ⟨hargs, fun name hname => known name (by simp [hname])⟩,
    known name (by simp), hmore, fun name hname => known name (by simp [hname])⟩

end Program.Codes

theorem Stmt.lowered_of_values {body : List Stmt} {values : List Expr}
    (h : body.map Stmt.value? = values.map some) :
    body.flatMap Stmt.lowered = Expr.loweredAll values := by
  induction body generalizing values with
  | nil =>
    obtain rfl : values = [] := by simpa using h.symm
    rfl
  | cons s rest ih =>
    cases values with
    | nil => cases h
    | cons value values =>
      obtain ⟨same, more⟩ := List.cons.inj h
      cases s with
      | expr pos e =>
        cases same
        rw [List.flatMap_cons, ih more]
        rfl
      | foreign value => cases same

theorem Stmt.exists_values {body : List Stmt} (readable : ∀ s ∈ body, s.Readable) :
    ∃ values : List Expr, body.map Stmt.value? = values.map some ∧ ∀ e ∈ values, e.Readable := by
  induction body with
  | nil => exact ⟨[], rfl, by simp⟩
  | cons s rest ih =>
    obtain ⟨values, same, all⟩ := ih fun s hs => readable s (by simp [hs])
    cases s with
    | expr pos e =>
      have first : e.Readable := readable _ List.mem_cons_self
      exact ⟨e :: values, by simp [Stmt.value?, same], by simpa [first] using all⟩
    | foreign value => exact (readable _ List.mem_cons_self).elim

theorem Program.Implements.codes {p : Program} {f : File} (implements : p.Implements f) {fn : Func}
    (hfn : fn ∈ f.funcs) {values : List Expr} (hvalues : fn.body.map Stmt.value? = values.map some)
    {code : List (Int × Instr)} (lowered : code.map (·.2) = fn.lowered) : p.Codes values code := by
  have form : fn.lowered = Expr.loweredAll values := Stmt.lowered_of_values hvalues
  exact ⟨lowered.trans form, fun name hname => implements.called fn hfn name (form ▸ hname)⟩

namespace RunState.Shows

theorem push {s : RunState} {t : State} (h : s.Shows t) (text : Bytes) (steps : List Step) :
    RunState.Shows ⟨.text text :: s.stack, s.sink, steps⟩ (t.push text) :=
  ⟨by simp [State.push, h.1], h.2⟩

theorem write_pushed {s : RunState} {t : State} (h : s.Shows t) (text : Bytes) :
    Outcome.Shows ({ s with stack := .text text :: s.stack } : RunState).write (t.write text) := by
  have sink := h.2
  cases accepted : t.sink.write? text with
  | some sink' =>
    simp only [RunState.write, State.write, sink, accepted]
    exact ⟨⟨h.1, rfl⟩, rfl⟩
  | none =>
    simp only [RunState.write, State.write, sink, accepted]
    exact ⟨⟨h.1, rfl⟩, rfl⟩

theorem write {s : RunState} {t : State} (h : s.Shows t) : Outcome.Shows s.write t.print := by
  obtain ⟨stack, sink, steps⟩ := s
  obtain ⟨texts, sink'⟩ := t
  obtain ⟨same, rfl⟩ : stack = texts.map .text ∧ sink = sink' := h
  cases texts with
  | nil =>
    cases same
    exact ⟨⟨rfl, rfl⟩, rfl⟩
  | cons text rest =>
    cases same
    have below : RunState.Shows ⟨rest.map .text, sink, steps⟩ ⟨rest, sink⟩ := ⟨rfl, rfl⟩
    exact below.write_pushed text

end RunState.Shows

namespace Machine

theorem forbids_iff {m : Machine} {depth : Nat} : m.forbids depth ↔ ¬ Allows m.limit depth := by
  rw [forbids_eq_true, Allows]
  omega

/-- Writing prints the top of the stack, and the code after it runs if that went well. -/
theorem runCode_write (enter : Enter) (func : Bytes) (depth index : Nat) (offset : Int)
    (rest : List (Int × Instr)) {s : RunState} {t : State} (h : s.Shows t) :
    (∃ s' t', t.print = (t', none) ∧ s'.Shows t' ∧
      runCode enter func depth index ((offset, .write) :: rest) s =
        runCode enter func depth (index + 1) rest s') ∨
    ∃ o t' fault, t.print = (t', some fault) ∧ Outcome.Shows o (t', some fault) ∧
      runCode enter func depth index ((offset, .write) :: rest) s = some o := by
  have before : (s.before func depth index .write).Shows t := h
  obtain ⟨state, fault⟩ := before.write
  cases ended : (s.before func depth index .write).write with
  | mk s' error =>
    rw [ended] at state fault
    cases error with
    | none =>
      refine .inl ⟨s', t.print.1, Prod.ext rfl fault.symm, state, runCode_cons_next ?_⟩
      exact congrArg some ended
    | some e =>
      refine .inr ⟨(s', some (e.within ⟨func, offset⟩)), t.print.1, e.fault,
        Prod.ext rfl fault.symm, ⟨state, rfl⟩, runCode_cons_fault ?_⟩
      exact congrArg some ended

theorem runCode_print (enter : Enter) (func : Bytes) (depth index : Nat) {code : List (Int × Instr)}
    (hcode : code.map (·.2) = [.write]) {s : RunState} {t : State} (h : s.Shows t) :
    ∃ o, runCode enter func depth index code s = some o ∧ Outcome.Shows o t.print := by
  obtain ⟨⟨offset, i⟩, rfl, rfl⟩ := List.map_eq_singleton_iff.mp hcode
  rcases runCode_write enter func depth index offset [] h with ⟨s', t', printed, shows', run⟩ |
    ⟨o, t', fault, printed, shows', run⟩
  · exact ⟨_, run, printed ▸ ⟨shows', rfl⟩⟩
  · exact ⟨o, run, printed ▸ shows'⟩

theorem runCode_println (enter : Enter) (func : Bytes) (depth index : Nat)
    {code : List (Int × Instr)} (hcode : code.map (·.2) = [.write, .push [Ascii.newline], .write])
    {s : RunState} {t : State} (h : s.Shows t) :
    ∃ o, runCode enter func depth index code s = some o ∧ Outcome.Shows o t.println := by
  obtain ⟨⟨offset, i⟩, more, rfl, rfl, hmore⟩ := List.map_eq_cons_iff.mp hcode
  obtain ⟨⟨offset', i⟩, last, rfl, rfl, hlast⟩ := List.map_eq_cons_iff.mp hmore
  rcases runCode_write enter func depth index offset _ h with ⟨s', t', printed, shows', run⟩ |
    ⟨o, t', fault, printed, shows', run⟩
  · rw [run, runCode_cons_next rfl]
    have line : t.println = (t'.push [Ascii.newline]).print := by
      rw [State.println, printed]
      rfl
    rw [line]
    exact runCode_print enter func depth _ hlast (shows'.push [Ascii.newline] _)
  · have line : t.println = (t', some fault) := by rw [State.println, printed]
    exact ⟨o, run, line ▸ shows'⟩

end Machine

end StackLang
