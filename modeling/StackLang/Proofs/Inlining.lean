import StackLang.Proofs.MachineRuns
import StackLang.Proofs.NameLookup

namespace StackLang

/-- What can be seen of a state from outside: the stack and the sink. -/
def RunState.shown (s : RunState) : List Value × Sink :=
  (s.stack, s.sink)

/-- What can be seen of an outcome: the state and the fault, but not the calls that led to it. -/
def Outcome.shown (o : Outcome) : (List Value × Sink) × Option RunFault :=
  (o.1.shown, o.2.map RunError.fault)

theorem Outcome.done_of_shown {s : RunState} {o : Outcome} (h : Outcome.shown (s, none) = o.shown) :
    ∃ s', o = (s', none) ∧ s.shown = s'.shown := by
  obtain ⟨s', failure⟩ := o
  obtain ⟨state, fault⟩ := Prod.mk.inj h
  obtain rfl : failure = none := Option.map_eq_none_iff.mp fault.symm
  exact ⟨s', rfl, state⟩

theorem Outcome.failed_of_shown {s : RunState} {e : RunError} {o : Outcome}
    (h : Outcome.shown (s, some e) = o.shown) :
    ∃ s' e', o = (s', some e') ∧ s.shown = s'.shown ∧ e.fault = e'.fault := by
  obtain ⟨s', failure⟩ := o
  obtain ⟨state, fault⟩ := Prod.mk.inj h
  obtain ⟨e', rfl, same⟩ := Option.map_eq_some_iff.mp fault.symm
  exact ⟨s', e', rfl, state, same.symm⟩

theorem RunState.shown_write {s s' : RunState} (h : s.shown = s'.shown) :
    s.write.shown = s'.write.shown := by
  obtain ⟨stack, sink, steps⟩ := s
  obtain ⟨stack', sink', steps'⟩ := s'
  obtain ⟨rfl, rfl⟩ : stack = stack' ∧ sink = sink' := Prod.mk.inj h
  cases stack with
  | nil => rfl
  | cons value rest =>
    cases value with
    | empty => rfl
    | text text => cases accepted : sink.write? text <;> simp only [write, accepted] <;> rfl

namespace Machine

/-- Whatever the first evaluator of calls answers, the second answers with the same to be seen. -/
def Enter.Mimics (enter enter' : Enter) : Prop :=
  ∀ name s s' o, s.shown = s'.shown → enter name s = some o →
    ∃ o', enter' name s' = some o' ∧ o.shown = o'.shown

/-- Whatever the first code does, in whatever function, the second does with the same to be seen. -/
def CodeMimics (enter : Enter) (code : List (Int × Instr)) (enter' : Enter)
    (code' : List (Int × Instr)) : Prop :=
  ∀ func depth index func' depth' index' s s' o, s.shown = s'.shown →
    runCode enter func depth index code s = some o →
    ∃ o', runCode enter' func' depth' index' code' s' = some o' ∧ o.shown = o'.shown

theorem Enter.Mimics.trans_agrees {enter enter' enter'' : Enter} (h : enter.Mimics enter')
    (agrees : enter'.Agrees enter'') : enter.Mimics enter'' := by
  intro name s s' o same run
  obtain ⟨o', run', same'⟩ := h name s s' o same run
  exact ⟨o', agrees name s' o' run', same'⟩

section Code

variable {enter enter' : Enter} {func : Bytes} {depth index : Nat} {s s' : RunState} {i : Instr}
variable {o : Outcome}
  {name : Bytes} {code code' a a' b b' : List (Int × Instr)}

theorem exec_mimics (h : enter.Mimics enter') (same : s.shown = s'.shown)
    (run : exec enter s i = some o) :
    ∃ o', exec enter' s' i = some o' ∧ o.shown = o'.shown := by
  cases i with
  | call name => exact h name s s' o same run
  | write =>
    cases run
    exact ⟨_, rfl, RunState.shown_write same⟩
  | push text =>
    cases run
    obtain ⟨stack, sink⟩ := Prod.mk.inj same
    exact ⟨_, rfl, by simp [Outcome.shown, RunState.shown, stack, sink]⟩
  | other kind op =>
    cases run
    exact ⟨_, rfl, Prod.ext same rfl⟩
  | absent =>
    cases run
    exact ⟨_, rfl, Prod.ext same rfl⟩

theorem codeMimics_of_instrs (h : enter.Mimics enter') (same : code.map (·.2) = code'.map (·.2)) :
    CodeMimics enter code enter' code' := by
  intro func depth index func' depth' index' s s' o shown run
  induction code generalizing code' index index' s s' with
  | nil =>
    obtain rfl := List.map_eq_nil_iff.mp same.symm
    cases run
    exact ⟨_, rfl, Prod.ext shown rfl⟩
  | cons entry rest ih =>
    obtain ⟨offset, i⟩ := entry
    obtain ⟨⟨offset', i'⟩, rest', rfl, hi, hrest⟩ := List.map_eq_cons_iff.mp same.symm
    obtain rfl : i' = i := hi
    have before : (s.before func depth index i').shown = (s'.before func' depth' index' i').shown :=
      shown
    rcases runCode_cons_cases run with ⟨t, e, ran, rfl⟩ | ⟨t, ran, more⟩
    · obtain ⟨o', ran', shown'⟩ := exec_mimics h before ran
      obtain ⟨t', e', rfl, state, fault⟩ := Outcome.failed_of_shown shown'
      exact ⟨_, runCode_cons_fault ran', Prod.ext state (congrArg some fault)⟩
    · obtain ⟨o', ran', shown'⟩ := exec_mimics h before ran
      obtain ⟨t', rfl, state⟩ := Outcome.done_of_shown shown'
      rw [runCode_cons_next ran']
      exact ih hrest.symm _ _ _ _ state more

theorem CodeMimics.append (ha : CodeMimics enter a enter' a') (hb : CodeMimics enter b enter' b') :
    CodeMimics enter (a ++ b) enter' (a' ++ b') := by
  intro func depth index func' depth' index' s s' o shown run
  rw [runCode_append] at run
  split at run
  next => cases run
  next t e ran =>
    cases run
    obtain ⟨o', ran', shown'⟩ := ha _ _ _ func' depth' index' _ s' _ shown ran
    obtain ⟨t', e', rfl, -, -⟩ := Outcome.failed_of_shown shown'
    exact ⟨_, by rw [runCode_append, ran'], shown'⟩
  next t ran =>
    obtain ⟨o', ran', shown'⟩ := ha _ _ _ func' depth' index' _ s' _ shown ran
    obtain ⟨t', rfl, state⟩ := Outcome.done_of_shown shown'
    obtain ⟨o'', run', shown''⟩ := hb _ _ _ func' depth' (index' + a'.length) _ t' _ state run
    exact ⟨o'', by rw [runCode_append, ran']; exact run', shown''⟩

/-- A single call shows what its callee shows; only the error's path tells them apart. -/
theorem shown_runCode_call (offset : Int) :
    (runCode enter func depth index [(offset, .call name)] s).map Outcome.shown =
      (enter name (s.before func depth index (.call name))).map Outcome.shown := by
  rw [runCode_cons, exec]
  split
  next failed => rw [failed]
  next t e failed => rw [failed]; rfl
  next t done => rw [done]; rfl

end Code

section Unlimited

variable {p p' : Program} {enter enter' : Enter} {fuel fuel' depth depth' : Nat} {name : Bytes}
  {routine : Routine} {body : List (Int × Instr)}

theorem callAt_unlimited (found : p.routines.get? name = some routine) (s : RunState) :
    (Machine.mk p 0).callAt (fuel + 1) depth name s =
      runCode ((Machine.mk p 0).callAt fuel (depth + 1)) name depth 0 routine.code s := by
  rw [callAt_of_get? found, if_neg (by simp [forbids])]

theorem codeMimics_of_call (offset : Int) (found : p.routines.get? name = some routine)
    (same : routine.code.map (·.2) = body.map (·.2))
    (h : ((Machine.mk p 0).callAt fuel (depth + 1)).Mimics enter') :
    CodeMimics ((Machine.mk p 0).callAt fuel depth) [(offset, .call name)] enter' body := by
  intro func d index func' d' index' s s' o shown run
  have before : (s.before func d index (.call name)).shown = s'.shown := shown
  have single := (shown_runCode_call offset).symm.trans (congrArg (Option.map Outcome.shown) run)
  obtain ⟨o₁, called, shown₁⟩ := Option.map_eq_some_iff.mp single
  cases fuel with
  | zero => cases called
  | succ fuel =>
    rw [callAt_unlimited found] at called
    have ran := runCode_mono (callAt_succ _) called
    obtain ⟨o', run', shown'⟩ := codeMimics_of_instrs h same _ _ _ func' d' index' _ s' _ before ran
    exact ⟨o', run', shown₁.symm.trans shown'⟩

theorem codeMimics_to_call (offset : Int) (found : p.routines.get? name = some routine)
    (same : body.map (·.2) = routine.code.map (·.2))
    (h : enter.Mimics ((Machine.mk p 0).callAt fuel (depth + 1))) :
    CodeMimics enter body ((Machine.mk p 0).callAt (fuel + 1) depth) [(offset, .call name)] := by
  intro func d index func' d' index' s s' o shown run
  have before : s.shown = (s'.before func' d' index' (.call name)).shown := shown
  obtain ⟨o₁, ran, shown₁⟩ := codeMimics_of_instrs h same _ _ _ name depth 0 _ _ _ before run
  rw [← callAt_unlimited found] at ran
  have single := (shown_runCode_call offset).trans (congrArg (Option.map Outcome.shown) ran)
  obtain ⟨o', run', shown'⟩ := Option.map_eq_some_iff.mp single
  exact ⟨o', run', shown₁.trans shown'.symm⟩

/-- One level of calls: the functions of one program mimic those of the other if their codes do. -/
theorem callAt_mimics_succ
    (missing : ∀ name, p.routines.get? name = none → p'.routines.get? name = none)
    (bodies : ∀ name routine, p.routines.get? name = some routine →
      ∃ routine', p'.routines.get? name = some routine' ∧
        CodeMimics ((Machine.mk p 0).callAt fuel (depth + 1)) routine.code
          ((Machine.mk p' 0).callAt fuel' (depth' + 1)) routine'.code) :
    ((Machine.mk p 0).callAt (fuel + 1) depth).Mimics
      ((Machine.mk p' 0).callAt (fuel' + 1) depth') := by
  intro name s s' o shown run
  cases found : p.routines.get? name with
  | none =>
    rw [callAt_of_get?_eq_none found] at run
    cases run
    exact ⟨_, callAt_of_get?_eq_none (missing name found) .., Prod.ext shown rfl⟩
  | some routine =>
    obtain ⟨routine', found', mimics⟩ := bodies name routine found
    rw [callAt_unlimited found] at run
    rw [callAt_unlimited found']
    exact mimics _ _ _ _ _ _ _ _ _ shown run

end Unlimited

end Machine

def Program.redefine (p : Program) (name : Bytes) (routine : Routine) : Program :=
  { p with routines := p.routines.insert name routine }

/-- The code of `f` has a call of `g`, and `inlined` has the code of `g` there. -/
structure Program.Inlines (p : Program) (f g : Bytes) (caller callee inlined : Routine) : Prop where
  caller_found : p.routines.get? f = some caller
  callee_found : p.routines.get? g = some callee
  replaced : ∃ a b : List Instr, caller.code.map (·.2) = a ++ .call g :: b ∧
    inlined.code.map (·.2) = a ++ callee.code.map (·.2) ++ b

namespace Program.Inlines

variable {p : Program} {f g : Bytes} {caller callee inlined : Routine}

theorem split (h : p.Inlines f g caller callee inlined) :
    ∃ a offset b a' body b', caller.code = a ++ [(offset, .call g)] ++ b ∧
      inlined.code = a' ++ body ++ b' ∧
      a.map (·.2) = a'.map (·.2) ∧ callee.code.map (·.2) = body.map (·.2) ∧
      b.map (·.2) = b'.map (·.2) := by
  obtain ⟨as, bs, hcaller, hinlined⟩ := h.replaced
  obtain ⟨a, rest, hcode, ha, hrest⟩ := List.map_eq_append_iff.mp hcaller
  obtain ⟨⟨offset, i⟩, b, rfl, hi, hb⟩ := List.map_eq_cons_iff.mp hrest
  obtain rfl : i = .call g := hi
  obtain ⟨front, b', hcode', hfront, hb'⟩ := List.map_eq_append_iff.mp hinlined
  obtain ⟨a', body, rfl, ha', hbody⟩ := List.map_eq_append_iff.mp hfront
  exact ⟨a, offset, b, a', body, b', by simpa using hcode, hcode', ha.trans ha'.symm, hbody.symm,
    hb.trans hb'.symm⟩

theorem get?_eq_none (h : p.Inlines f g caller callee inlined) {name : Bytes} :
    (p.redefine f inlined).routines.get? name = none ↔ p.routines.get? name = none := by
  rw [redefine, NameMap.get?_insert]
  split
  next same => simp [same, h.caller_found]
  next => rfl

theorem callAt_mimics (h : p.Inlines f g caller callee inlined) (fuel depth depth' : Nat) :
    ((Machine.mk p 0).callAt fuel depth).Mimics
      ((Machine.mk (p.redefine f inlined) 0).callAt fuel depth') := by
  induction fuel generalizing depth depth' with
  | zero => intro name s s' o _ run; cases run
  | succ fuel ih =>
    refine Machine.callAt_mimics_succ (fun name => h.get?_eq_none.mpr) fun name routine found => ?_
    rw [redefine, NameMap.get?_insert]
    split
    next same =>
      subst same
      obtain rfl : caller = routine := Option.some.inj (h.caller_found.symm.trans found)
      obtain ⟨a, offset, b, a', body, b', hcode, hcode', ha, hbody, hb⟩ := h.split
      refine ⟨inlined, rfl, ?_⟩
      rw [hcode, hcode']
      have call :=
        Machine.codeMimics_of_call offset h.callee_found hbody (ih (depth + 1 + 1) (depth' + 1))
      have before := Machine.codeMimics_of_instrs (ih (depth + 1) (depth' + 1)) ha
      have after := Machine.codeMimics_of_instrs (ih (depth + 1) (depth' + 1)) hb
      exact (before.append call).append after
    next => exact ⟨routine, found, Machine.codeMimics_of_instrs (ih (depth + 1) (depth' + 1)) rfl⟩

theorem mimics_callAt (h : p.Inlines f g caller callee inlined) (fuel depth depth' : Nat) :
    ((Machine.mk (p.redefine f inlined) 0).callAt fuel depth').Mimics
      ((Machine.mk p 0).callAt (2 * fuel) depth) := by
  induction fuel generalizing depth depth' with
  | zero => intro name s s' o _ run; cases run
  | succ fuel ih =>
    -- Where the code stood, the call that comes back nests one level more: hence twice the fuel.
    have deeper := (ih (depth + 1) (depth' + 1)).trans_agrees (Machine.callAt_succ _)
    refine Machine.callAt_mimics_succ (fun name => h.get?_eq_none.mp) fun name routine found => ?_
    rw [redefine, NameMap.get?_insert] at found
    split at found
    next same =>
      subst same
      obtain rfl : inlined = routine := Option.some.inj found
      obtain ⟨a, offset, b, a', body, b', hcode, hcode', ha, hbody, hb⟩ := h.split
      refine ⟨caller, h.caller_found, ?_⟩
      rw [hcode, hcode']
      have call :=
        Machine.codeMimics_to_call offset h.callee_found hbody.symm
          (ih (depth + 1 + 1) (depth' + 1))
      have before := Machine.codeMimics_of_instrs deeper ha.symm
      have after := Machine.codeMimics_of_instrs deeper hb.symm
      exact (before.append call).append after
    next => exact ⟨routine, found, Machine.codeMimics_of_instrs deeper rfl⟩

end Program.Inlines

namespace Machine

/-- Inlining a call keeps what a run without a limit does: it ends or does not end as before, and it
leaves the same writes, the same stack and the same fault. -/
theorem inlined_run_agrees {program : Program} {f g : Bytes} {caller callee inlined : Routine}
    (h : program.Inlines f g caller callee inlined) (sink : Sink) :
    ((∃ o, (Machine.mk program 0).Ends sink o) ↔
      ∃ o', (Machine.mk (program.redefine f inlined) 0).Ends sink o') ∧
    ∀ o o', (Machine.mk program 0).Ends sink o →
      (Machine.mk (program.redefine f inlined) 0).Ends sink o' →
      o.shown = o'.shown := by
  have inlining {o : Outcome} (ends : (Machine.mk program 0).Ends sink o) :
      ∃ o', (Machine.mk (program.redefine f inlined) 0).Ends sink o' ∧ o.shown = o'.shown := by
    obtain ⟨fuel, run⟩ := ends
    obtain ⟨o', run', shown⟩ := h.callAt_mimics fuel 1 1 _ _ _ _ rfl run
    exact ⟨o', ⟨fuel, run'⟩, shown⟩
  refine ⟨⟨?_, ?_⟩, ?_⟩
  · rintro ⟨o, ends⟩
    obtain ⟨o', ends', -⟩ := inlining ends
    exact ⟨o', ends'⟩
  · rintro ⟨o', fuel, run'⟩
    obtain ⟨o, run, -⟩ := h.mimics_callAt fuel 1 1 _ _ _ _ rfl run'
    exact ⟨o, 2 * fuel, run⟩
  · intro o o' ends ends'
    obtain ⟨o'', ends'', shown⟩ := inlining ends
    rwa [ends'.unique ends'']

/-- A function that writes what its caller has pushed, value by value, until there is none. -/
def emptyingProgram : Program :=
  ⟨0, .ofList [
    (mainName, ⟨20, [(0, .push (bytes "c")), (4, .push (bytes "b")), (8, .push (bytes "a")),
      (12, .call (bytes "drain"))]⟩),
    (bytes "drain", ⟨9, [(0, .write), (1, .call (bytes "drain"))]⟩)]⟩

theorem emptyingProgram_agrees_with_inlined :
    emptyingProgram.Inlines (bytes "drain") (bytes "drain") ⟨9,
      [(0, .write), (1, .call (bytes "drain"))]⟩
      ⟨9, [(0, .write), (1, .call (bytes "drain"))]⟩ ⟨10,
        [(0, .write), (1, .write), (2, .call (bytes "drain"))]⟩ ∧
    ∃ o o', (Machine.mk emptyingProgram 0).Ends .unbounded o ∧
      (Machine.mk (emptyingProgram.redefine (bytes "drain")
        ⟨10, [(0, .write), (1, .write), (2, .call (bytes "drain"))]⟩) 0).Ends .unbounded o' ∧
      o.shown = o'.shown ∧ o.1.sink.writes = [bytes "a", bytes "b", bytes "c"] ∧
      o.2.map RunError.fault = some .underflow := by
  have found : emptyingProgram.routines.get? (bytes "drain") =
      some ⟨9, [(0, .write), (1, .call (bytes "drain"))]⟩ := by
    decide +kernel
  have inlines : emptyingProgram.Inlines (bytes "drain") (bytes "drain") _ _
      ⟨10, [(0, .write), (1, .write), (2, .call (bytes "drain"))]⟩ :=
    ⟨found, found, [.write], [], rfl, rfl⟩
  have shown : ((Machine.mk emptyingProgram 0).run 6 .unbounded).map
      (fun o => (o.1.sink.writes, o.2.map RunError.fault)) =
        some ([bytes "a", bytes "b", bytes "c"], some .underflow) := by
    decide +kernel
  obtain ⟨o, run, same⟩ := Option.map_eq_some_iff.mp shown
  obtain ⟨writes, fault⟩ := Prod.mk.inj same
  obtain ⟨both, agree⟩ := inlined_run_agrees inlines .unbounded
  obtain ⟨o', ends'⟩ := both.mp ⟨o, 6, run⟩
  exact ⟨inlines, o, o', ⟨6, run⟩, ends', agree o o' ⟨6, run⟩ ends', writes, fault⟩

end Machine

end StackLang
