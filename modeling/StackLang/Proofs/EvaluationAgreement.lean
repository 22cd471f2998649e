import StackLang.Proofs.Simulation

namespace StackLang

open Evaluation

namespace Machine

/-- Running the code of expressions is evaluating them, if the calls in it are evaluations. -/
theorem evaluates_of_runCode {p : Program} {f : File} {limit : Int} {depth : Nat} {enter : Enter}
    (callee : ∀ {name s t o}, p.routines.contains name → enter name s = some o → s.Shows t →
      ∃ r, Outcome.Shows o r ∧ Evaluates f limit (depth + 1) (.callee name) t r) {func : Bytes} :
    (exprs : List Expr) → (∀ e ∈ exprs, e.Readable) →
    ∀ {code : List (Int × Instr)} {index : Nat} {s : RunState} {t : State} {o : Outcome},
      p.Codes exprs code → runCode enter func depth index code s = some o → s.Shows t →
      ∃ r, Outcome.Shows o r ∧ Evaluates f limit depth (.values exprs) t r
  | [], _, code, index, s, t, o, codes, run, state => by
    obtain rfl := List.map_eq_nil_iff.mp codes.lowered
    cases run
    exact ⟨(t, none), ⟨state, rfl⟩, .done⟩
  | .literal pos value :: rest, readable, code, index, s, t, o, codes, run, state => by
    obtain ⟨offset, more, rfl, restCodes⟩ := codes.of_literal
    rw [runCode_cons_next rfl] at run
    obtain ⟨r, ended, evaluates⟩ :=
      evaluates_of_runCode callee rest (fun e he => readable e (by simp [he]))
      restCodes run (state.push value _)
    exact ⟨r, ended, .literal evaluates⟩
  | .call pos name args :: rest, readable, code, index, s, t, o, codes, run, state => by
    obtain ⟨argsCode, offset, more, rfl, argsCodes, known, restCodes⟩ := codes.of_call
    have argsReadable : ∀ e ∈ args, e.Readable := by
      cases readable _ List.mem_cons_self with
      | call _ all => exact all
    rw [runCode_append] at run
    split at run
    next => cases run
    next s₁ e ran =>
      cases run
      obtain ⟨r₁, ended₁, evaluates⟩ :=
        evaluates_of_runCode callee args argsReadable argsCodes ran state
      obtain ⟨t₁, state₁, rfl⟩ := ended₁.eq
      exact ⟨_, ⟨state₁, rfl⟩, .argFault evaluates⟩
    next s₁ ran =>
      obtain ⟨r₁, ended₁, evaluates⟩ :=
        evaluates_of_runCode callee args argsReadable argsCodes ran state
      obtain ⟨t₁, state₁, rfl⟩ := ended₁.eq
      rw [runCode_cons] at run
      split at run
      next => cases run
      next s₂ e entered =>
        cases run
        obtain ⟨r₂, ended₂, called⟩ := callee known entered state₁
        obtain ⟨t₂, state₂, rfl⟩ := ended₂.eq
        exact ⟨_, ⟨state₂, rfl⟩, .callFault evaluates called⟩
      next s₂ entered =>
        obtain ⟨r₂, ended₂, called⟩ := callee known entered state₁
        obtain ⟨t₂, state₂, rfl⟩ := ended₂.eq
        obtain ⟨r, ended₃, last⟩ :=
          evaluates_of_runCode callee rest (fun e he => readable e (by simp [he]))
          restCodes run state₂
        exact ⟨r, ended₃, .call evaluates called last⟩
  | .foreign value :: rest, readable, _, _, _, _, _, _, _, _ =>
    nomatch readable _ List.mem_cons_self
-- Arguments are lists of trees inside a tree, so neither list recursion nor tree recursion covers
termination_by exprs => sizeOf exprs

theorem evaluates_of_callAt {m : Machine} {f : File} (implements : m.program.Implements f)
    (readable : f.Readable) {fuel depth : Nat} {name : Bytes} {s : RunState} {t : State}
    {o : Outcome} (known : m.program.routines.contains name)
    (run : m.callAt fuel depth name s = some o) (h : s.Shows t) :
    ∃ r, Outcome.Shows o r ∧ Evaluates f m.limit depth (.callee name) t r := by
  induction fuel generalizing depth name s t o with
  | zero => cases run
  | succ fuel ih =>
    obtain ⟨routine, found⟩ := NameMap.contains_iff.mp known
    rw [callAt_of_get? found] at run
    split at run
    next forbidden =>
      cases run
      exact ⟨(t, some (.tooDeep name depth)), ⟨h, rfl⟩, .tooDeep (forbids_iff.mp forbidden)⟩
    next allowed =>
      have allowed : Allows m.limit depth := by simpa [forbids_iff] using allowed
      rcases (implements.defines name _).mpr ⟨routine, found, rfl⟩ with builtin |
        ⟨fn, hfn, rfl, lowered⟩
      · rcases List.mem_pair.mp builtin with same | same
        · obtain ⟨rfl, hcode⟩ := Prod.mk.inj same
          obtain ⟨o', ran, ended⟩ :=
            runCode_print (m.callAt fuel (depth + 1)) (bytes "print") depth 0 hcode h
          cases run.symm.trans ran
          exact ⟨t.print, ended, .print allowed⟩
        · obtain ⟨rfl, hcode⟩ := Prod.mk.inj same
          obtain ⟨o', ran, ended⟩ :=
            runCode_println (m.callAt fuel (depth + 1)) (bytes "println") depth 0 hcode h
          cases run.symm.trans ran
          exact ⟨t.println, ended, .println allowed⟩
      · obtain ⟨values, hvalues, all⟩ := Stmt.exists_values (readable fn hfn).2
        have codes := implements.codes hfn hvalues lowered.symm
        obtain ⟨r, ended, evaluates⟩ := evaluates_of_runCode ih values all codes run h
        exact ⟨r, ended, .func allowed hfn hvalues evaluates⟩

/-- With enough fuel the machine ends a task as the result says. -/
def Follows (m : Machine) (depth : Nat) : Task → State → Result → Prop
  | .values exprs, t, r => ∀ func index code s, m.program.Codes exprs code → s.Shows t →
      ∃ fuel o, runCode (m.callAt fuel (depth + 1)) func depth index code s = some o ∧
        Outcome.Shows o r
  | .callee name, t, r => ∀ s, m.program.routines.contains name → s.Shows t →
      ∃ fuel o, m.callAt fuel depth name s = some o ∧ Outcome.Shows o r

theorem Follows.of_code {m : Machine} {name : Bytes} {routine : Routine}
    (found : m.program.routines.get? name = some routine) {depth : Nat}
    (allowed : Allows m.limit depth) {t : State} {r : Result}
    (h : ∀ s, s.Shows t →
      ∃ fuel o, runCode (m.callAt fuel (depth + 1)) name depth 0 routine.code s = some o ∧
        Outcome.Shows o r) :
    m.Follows depth (.callee name) t r := by
  intro s _ state
  obtain ⟨fuel, o, run, ended⟩ := h s state
  have enters : ¬ m.forbids depth := by simpa [forbids_iff] using allowed
  exact ⟨fuel + 1, o, by rw [callAt_of_get? found, if_neg enters, run], ended⟩

theorem follows_of_evaluates {m : Machine} {f : File} (implements : m.program.Implements f)
    {depth : Nat} {task : Task} {t : State} {r : Result} (h : Evaluates f m.limit depth task t r) :
    m.Follows depth task t r := by
  induction h with
  | done =>
    intro func index code s codes state
    obtain rfl := List.map_eq_nil_iff.mp codes.lowered
    exact ⟨0, _, rfl, state, rfl⟩
  | literal _ ih =>
    intro func index code s codes state
    obtain ⟨offset, more, rfl, restCodes⟩ := codes.of_literal
    obtain ⟨fuel, o, run, ended⟩ := ih func (index + 1) more _ restCodes (state.push _ _)
    exact ⟨fuel, o, by rw [runCode_cons_next rfl]; exact run, ended⟩
  | @call depth pos name args rest t t₁ t₂ r _ _ _ ihArgs ihCallee ihRest =>
    intro func index code s codes state
    obtain ⟨argsCode, offset, more, rfl, argsCodes, known, restCodes⟩ := codes.of_call
    obtain ⟨fuel₁, o₁, run₁, ended₁⟩ := ihArgs func index argsCode s argsCodes state
    obtain ⟨s₁, rfl, state₁⟩ := ended₁.done
    obtain ⟨fuel₂, o₂, run₂, ended₂⟩ := ihCallee
      (s₁.before func depth (index + argsCode.length) (.call name)) known state₁
    obtain ⟨s₂, rfl, state₂⟩ := ended₂.done
    obtain ⟨fuel₃, o₃, run₃, ended₃⟩ :=
      ihRest func (index + argsCode.length + 1) more s₂ restCodes state₂
    refine ⟨max fuel₁ (max fuel₂ fuel₃), o₃, ?_, ended₃⟩
    rw [runCode_append, runCode_mono (m.callAt_mono (by omega)) run₁]
    refine (runCode_cons_next ?_).trans (runCode_mono (m.callAt_mono (by omega)) run₃)
    exact m.callAt_mono (by omega) _ _ _ run₂
  | @argFault depth pos name args rest t t₁ fault _ ih =>
    intro func index code s codes state
    obtain ⟨argsCode, offset, more, rfl, argsCodes, -, -⟩ := codes.of_call
    obtain ⟨fuel, o, run, ended⟩ := ih func index argsCode s argsCodes state
    obtain ⟨s₁, e, rfl, -, -⟩ := ended.failed
    exact ⟨fuel, _, by rw [runCode_append, run], ended⟩
  | @callFault depth pos name args rest t t₁ t₂ fault _ _ ihArgs ihCallee =>
    intro func index code s codes state
    obtain ⟨argsCode, offset, more, rfl, argsCodes, known, -⟩ := codes.of_call
    obtain ⟨fuel₁, o₁, run₁, ended₁⟩ := ihArgs func index argsCode s argsCodes state
    obtain ⟨s₁, rfl, state₁⟩ := ended₁.done
    obtain ⟨fuel₂, o₂, run₂, ended₂⟩ := ihCallee
      (s₁.before func depth (index + argsCode.length) (.call name)) known state₁
    obtain ⟨s₂, e, rfl, state₂, same⟩ := ended₂.failed
    refine ⟨max fuel₁ fuel₂, (s₂, some (e.within ⟨func, offset⟩)), ?_, state₂, congrArg some same⟩
    rw [runCode_append, runCode_mono (m.callAt_mono (by omega)) run₁]
    refine runCode_cons_fault ?_
    exact m.callAt_mono (by omega) _ _ _ run₂
  | @tooDeep depth name t forbidden =>
    intro s known state
    obtain ⟨routine, found⟩ := NameMap.contains_iff.mp known
    exact ⟨1, _, by rw [callAt_of_get? found, if_pos (forbids_iff.mpr forbidden)], state, rfl⟩
  | @print depth t allowed =>
    obtain ⟨routine, found, hcode⟩ :=
      (implements.defines (bytes "print") [.write]).mp (.inl (by simp [Builtin.table]))
    exact .of_code found allowed fun s state => ⟨0, runCode_print _ _ depth 0 hcode state⟩
  | @println depth t allowed =>
    obtain ⟨routine, found, hcode⟩ :=
      (implements.defines (bytes "println") [.write, .push [Ascii.newline], .write]).mp
      (.inl (by simp [Builtin.table]))
    exact .of_code found allowed fun s state => ⟨0, runCode_println _ _ depth 0 hcode state⟩
  | @func depth fn values t r allowed hfn hvalues _ ih =>
    obtain ⟨routine, found, lowered⟩ :=
      (implements.defines fn.name fn.lowered).mp (.inr ⟨fn, hfn, rfl, rfl⟩)
    have codes := implements.codes hfn hvalues lowered
    exact .of_code found allowed fun s state => ih fn.name 0 routine.code s codes state

end Machine

theorem Program.Implements.runs_of_ends {m : Machine} {f : File}
    (implements : m.program.Implements f) (readable : f.Readable) {sink : Sink} {o : Outcome}
    (h : m.Ends sink o) :
    ∃ r, Outcome.Shows o r ∧ f.Runs m.limit sink r := by
  obtain ⟨fuel, run⟩ := h
  have start : RunState.Shows ⟨[], sink, []⟩ ⟨[], sink⟩ := ⟨rfl, rfl⟩
  exact Machine.evaluates_of_callAt implements readable implements.contains_main run start

theorem Program.Implements.ends_of_runs {m : Machine} {f : File}
    (implements : m.program.Implements f) {sink : Sink} {r : Result} (h : f.Runs m.limit sink r) :
    ∃ o, Outcome.Shows o r ∧ m.Ends sink o := by
  have start : RunState.Shows ⟨[], sink, []⟩ ⟨[], sink⟩ := ⟨rfl, rfl⟩
  obtain ⟨fuel, o, run, ended⟩ :=
    Machine.follows_of_evaluates implements h _ implements.contains_main start
  exact ⟨o, ended, fuel, run⟩

/-- A compiled text loads, and its run ends just when direct evaluation does, and alike. -/
theorem compiled_run_agrees_with_evaluation {name text image : Bytes}
    (compiled : compile name text = .ok image) :
    ∃ file program, File.parse name text = .ok file ∧ Program.load image = .ok program ∧
      ∀ (limit : Int) (sink : Sink),
        ((∃ o, (Machine.mk program limit).Ends sink o) ↔ ∃ r, file.Runs limit sink r) ∧
        ∀ o r, (Machine.mk program limit).Ends sink o → file.Runs limit sink r →
          Outcome.Shows o r := by
  obtain ⟨file, program, parsed, readable, load, implements⟩ := implements_of_compile compiled
  refine ⟨file, program, parsed, load, fun limit sink => ?_⟩
  have implements : (Machine.mk program limit).program.Implements file := implements
  refine ⟨⟨?_, ?_⟩, ?_⟩
  · rintro ⟨o, ends⟩
    obtain ⟨r, -, runs⟩ := implements.runs_of_ends readable ends
    exact ⟨r, runs⟩
  · rintro ⟨r, runs⟩
    obtain ⟨o, -, ends⟩ := implements.ends_of_runs runs
    exact ⟨o, ends⟩
  · intro o r ends runs
    obtain ⟨o', alike, ends'⟩ := implements.ends_of_runs runs
    rwa [ends.unique ends']

theorem recursive_run_agrees_with_evaluation :
    ∃ image file program, compile [] (bytes "fn main() \x7b println(main(\"a\")); \x7d") =
      .ok image ∧ File.parse [] (bytes "fn main() \x7b println(main(\"a\")); \x7d") = .ok file ∧
      Program.load image = .ok program ∧ ∀ (limit : Int) (sink : Sink),
        ((∃ o, (Machine.mk program limit).Ends sink o) ↔ ∃ r, file.Runs limit sink r) ∧
        ∀ o r, (Machine.mk program limit).Ends sink o → file.Runs limit sink r →
          Outcome.Shows o r := by
  obtain ⟨image, compiled⟩ :
    ∃ image, compile [] (bytes "fn main() \x7b println(main(\"a\")); \x7d") = .ok image :=
    ⟨[78, 69, 78, 67, 0, 0, 0, 62, 0, 4, 109, 97, 105, 110, 0, 0, 0, 21, 225, 0, 1, 97, 161, 0, 4,
      109, 97, 105, 110,
      161, 0, 7, 112, 114, 105, 110, 116, 108, 110, 0, 5, 112, 114, 105, 110, 116, 0, 0, 0, 1, 18,
      0, 7, 112, 114, 105,
      110, 116, 108, 110, 0, 0, 0, 6, 18, 225, 0, 1, 10, 18], by decide +kernel⟩
  obtain ⟨file, program, parsed, load, agrees⟩ := compiled_run_agrees_with_evaluation compiled
  exact ⟨image, file, program, compiled, parsed, load, agrees⟩

end StackLang
