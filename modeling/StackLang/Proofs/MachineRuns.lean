import StackLang.Machine.Run

namespace StackLang

/-- The state in which an instruction of a call is executed: its step has been recorded. -/
def RunState.before (s : RunState) (func : Bytes) (depth index : Nat) (i : Instr) : RunState :=
  { s with steps := ⟨func, index, i, s.stack.length, depth⟩ :: s.steps }

/-- The ways in which popping and writing a value ends. -/
inductive RunState.Writes (s : RunState) : Outcome → Prop
  | underflow : s.stack = [] → Writes s (s.fail .underflow)
  | unwritable {stack} : s.stack = .empty :: stack →
      Writes s (RunState.fail { s with stack } .unwritable)
  | refused {text stack} : s.stack = .text text :: stack → s.sink.write? text = none →
      Writes s (RunState.fail { s with stack } .refused)
  | accepted {text stack sink} : s.stack = .text text :: stack → s.sink.write? text = some sink →
      Writes s ({ s with stack, sink }, none)

theorem RunState.writes_cases (s : RunState) : s.Writes s.write := by
  unfold write
  split
  next empty => exact .underflow empty
  next value stack top =>
    dsimp only
    split
    next => exact .unwritable top
    next text =>
      split
      next sink written => exact .accepted top written
      next full => exact .refused top full

namespace Machine

/-- The machine run ends with `o` if the fuel lasts. -/
def Ends (m : Machine) (sink : Sink) (o : Outcome) : Prop :=
  ∃ fuel, m.run fuel sink = some o

/-- Whatever the first evaluator of calls answers, the second answers too. -/
def Enter.Agrees (enter enter' : Enter) : Prop :=
  ∀ name s o, enter name s = some o → enter' name s = some o

theorem exec_mono {enter enter' : Enter} (agrees : enter.Agrees enter') {s : RunState} {i : Instr}
    {o : Outcome} (h : exec enter s i = some o) : exec enter' s i = some o := by
  cases i with
  | call name => exact agrees name s o h
  | write => exact h
  | push text => exact h
  | other kind op => exact h
  | absent => exact h

theorem runCode_mono {enter enter' : Enter} (agrees : enter.Agrees enter') {func : Bytes}
    {depth index : Nat} {code : List (Int × Instr)} {s : RunState} {o : Outcome}
    (h : runCode enter func depth index code s = some o) :
    runCode enter' func depth index code s = some o := by
  induction code generalizing index s with
  | nil => exact h
  | cons entry rest ih =>
    simp only [runCode] at h ⊢
    split at h
    next => cases h
    next s' e failed => rw [exec_mono agrees failed]; exact h
    next s' done => rw [exec_mono agrees done]; exact ih h

theorem callAt_succ (m : Machine) {fuel depth : Nat} :
    (m.callAt fuel depth).Agrees (m.callAt (fuel + 1) depth) := by
  induction fuel generalizing depth with
  | zero => intro name s o h; cases h
  | succ fuel ih =>
    intro name s o h
    unfold callAt at h ⊢
    split at h
    next => exact h
    next routine _ =>
      split at h
      next forbidden => simpa [forbidden] using h
      next allowed => simpa [allowed] using runCode_mono ih h

theorem callAt_mono (m : Machine) {fuel fuel' depth : Nat} (le : fuel ≤ fuel') :
    (m.callAt fuel depth).Agrees (m.callAt fuel' depth) := by
  induction le with
  | refl => exact fun _ _ _ h => h
  | step _ ih => exact fun name s o h => m.callAt_succ name s o (ih name s o h)

theorem Ends.unique {m : Machine} {sink : Sink} {o o' : Outcome} (h : m.Ends sink o)
    (h' : m.Ends sink o') :
    o = o' := by
  obtain ⟨fuel, run⟩ := h
  obtain ⟨fuel', run'⟩ := h'
  have first := m.callAt_mono (Nat.le_max_left fuel fuel') _ _ _ run
  have second := m.callAt_mono (Nat.le_max_right fuel fuel') _ _ _ run'
  exact Option.some.inj (first.symm.trans second)

theorem runCode_append (enter : Enter) (func : Bytes) (depth index : Nat) (a b : List (Int × Instr))
    (s : RunState) :
    runCode enter func depth index (a ++ b) s =
      match runCode enter func depth index a s with
      | none => none
      | some (s', some e) => some (s', some e)
      | some (s', none) => runCode enter func depth (index + a.length) b s' := by
  induction a generalizing index s with
  | nil => rfl
  | cons entry rest ih =>
    simp only [List.cons_append, runCode]
    split
    next => rfl
    next => rfl
    next s' done =>
      rw [ih, List.length_cons, Nat.add_right_comm, Nat.add_assoc]

section Code

variable {enter : Enter} {func : Bytes} {depth index : Nat} {s s' : RunState} {offset : Int}
variable {i : Instr}
  {rest : List (Int × Instr)}

theorem runCode_cons :
    runCode enter func depth index ((offset, i) :: rest) s =
      match exec enter (s.before func depth index i) i with
      | none => none
      | some (s', some e) => some (s', some (e.within ⟨func, offset⟩))
      | some (s', none) => runCode enter func depth (index + 1) rest s' :=
  rfl

theorem runCode_cons_fault {e : RunError}
    (h : exec enter (s.before func depth index i) i = some (s', some e)) :
    runCode enter func depth index ((offset, i) :: rest) s =
      some (s', some (e.within ⟨func, offset⟩)) := by
  rw [runCode_cons, h]

theorem runCode_cons_next (h : exec enter (s.before func depth index i) i = some (s', none)) :
    runCode enter func depth index ((offset, i) :: rest) s =
      runCode enter func depth (index + 1) rest s' := by
  rw [runCode_cons, h]

/-- Code ends with the fault of its first instruction or, after that, as the rest of it ends. -/
theorem runCode_cons_cases {o : Outcome}
    (h : runCode enter func depth index ((offset, i) :: rest) s = some o) :
    (∃ s' e, exec enter (s.before func depth index i) i = some (s', some e) ∧
      o = (s', some (e.within ⟨func, offset⟩))) ∨
    ∃ s', exec enter (s.before func depth index i) i = some (s', none) ∧
      runCode enter func depth (index + 1) rest s' = some o := by
  rw [runCode_cons] at h
  split at h
  next => cases h
  next s' e ran => exact .inl ⟨s', e, ran, (Option.some.inj h).symm⟩
  next s' ran => exact .inr ⟨s', ran, h⟩

end Code

theorem forbids_eq_true {m : Machine} {depth : Nat} :
    m.forbids depth = true ↔ m.limit ≠ 0 ∧ m.limit < depth := by
  simp [forbids]

theorem callAt_of_get? {m : Machine} {name : Bytes} {routine : Routine}
    (found : m.program.routines.get? name = some routine) (fuel depth : Nat) (s : RunState) :
    m.callAt (fuel + 1) depth name s =
      if m.forbids depth then some (s.fail (.tooDeep name depth))
      else runCode (m.callAt fuel (depth + 1)) name depth 0 routine.code s := by
  simp only [callAt, found]

theorem callAt_of_get?_eq_none {m : Machine} {name : Bytes}
    (missing : m.program.routines.get? name = none) (fuel depth : Nat) (s : RunState) :
    m.callAt (fuel + 1) depth name s = some (s.fail (.notFound name)) := by
  simp only [callAt, missing]

/-- A call finds no function, or one that it may not enter, or it runs the function's code. -/
theorem callAt_cases {m : Machine} {fuel depth : Nat} {name : Bytes} {s : RunState} {o : Outcome}
    (h : m.callAt (fuel + 1) depth name s = some o) :
    (m.program.routines.get? name = none ∧ o = s.fail (.notFound name)) ∨
    ∃ routine, m.program.routines.get? name = some routine ∧
      ((m.forbids depth ∧ o = s.fail (.tooDeep name depth)) ∨
        (¬ m.forbids depth ∧ runCode (m.callAt fuel (depth + 1)) name depth 0 routine.code s =
          some o)) := by
  cases found : m.program.routines.get? name with
  | none =>
    rw [callAt_of_get?_eq_none found] at h
    exact .inl ⟨rfl, (Option.some.inj h).symm⟩
  | some routine =>
    rw [callAt_of_get? found] at h
    refine .inr ⟨routine, rfl, ?_⟩
    split at h
    next forbidden => exact .inl ⟨forbidden, (Option.some.inj h).symm⟩
    next allowed => exact .inr ⟨allowed, h⟩

end Machine

end StackLang
