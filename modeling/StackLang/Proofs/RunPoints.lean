import StackLang.Proofs.MachineRuns

namespace StackLang

/-- A point inside a call: the code that the call has left, the number of the first instruction in
it, and the state. -/
structure RunPoint where
  func : Bytes
  depth : Nat
  index : Nat
  code : List (Int × Instr)
  state : RunState

/-- The step that is about to be taken. -/
def RunPoint.step? (p : RunPoint) : Option Step :=
  p.code.head?.map fun e => ⟨p.func, p.index, e.2, p.state.stack.length, p.depth⟩

namespace Machine

/-- The points of the machine run. An instruction that has been executed leads to the next one, and
a call also leads into its callee. -/
inductive Reaches (m : Machine) (sink : Sink) : RunPoint → Prop
  | start {routine} : m.program.routines.get? mainName = some routine → ¬ m.forbids 1 →
      Reaches m sink ⟨mainName, 1, 0, routine.code, ⟨[], sink, []⟩⟩
  | next {func depth index offset i rest s s' fuel} :
      Reaches m sink ⟨func, depth, index, (offset, i) :: rest, s⟩ →
      exec (m.callAt fuel (depth + 1)) (s.before func depth index i) i = some (s', none) →
      Reaches m sink ⟨func, depth, index + 1, rest, s'⟩
  | enter {func depth index offset name rest s routine} :
      Reaches m sink ⟨func, depth, index, (offset, .call name) :: rest, s⟩ →
      m.program.routines.get? name = some routine → ¬ m.forbids (depth + 1) →
      Reaches m sink ⟨name, depth + 1, 0, routine.code, s.before func depth index (.call name)⟩

/-- Each recorded step was taken at a point of the run. -/
def Traced (m : Machine) (sink : Sink) (s : RunState) : Prop :=
  ∀ step ∈ s.steps, ∃ p, m.Reaches sink p ∧ p.step? = some step

variable {m : Machine} {sink : Sink}

theorem Traced.before {func : Bytes} {depth index : Nat} {offset : Int} {i : Instr}
    {rest : List (Int × Instr)} {s : RunState} (traced : m.Traced sink s)
    (reached : m.Reaches sink ⟨func, depth, index, (offset, i) :: rest, s⟩) :
    m.Traced sink (s.before func depth index i) := by
  intro step hstep
  rcases List.mem_cons.mp hstep with rfl | hstep
  · exact ⟨_, reached, rfl⟩
  · exact traced step hstep

theorem steps_write (s : RunState) : s.write.1.steps = s.steps := by
  have ways := s.writes_cases
  generalize s.write = o at ways ⊢
  cases ways with
  | underflow _ => rfl
  | unwritable _ => rfl
  | refused _ _ => rfl
  | accepted _ _ => rfl

theorem traced_runCode {fuel : Nat}
    (callee : ∀ {depth name s o}, m.callAt fuel depth name s = some o → m.Traced sink s →
      (∀ routine, m.program.routines.get? name = some routine → ¬ m.forbids depth →
        m.Reaches sink ⟨name, depth, 0, routine.code, s⟩) → m.Traced sink o.1) {func : Bytes}
    {depth index : Nat} {code : List (Int × Instr)} {s : RunState} {o : Outcome}
    (h : runCode (m.callAt fuel (depth + 1)) func depth index code s = some o)
    (traced : m.Traced sink s) (reached : m.Reaches sink ⟨func, depth, index, code, s⟩) :
    m.Traced sink o.1 := by
  induction code generalizing index s with
  | nil =>
    cases h
    exact traced
  | cons entry rest ih =>
    obtain ⟨offset, i⟩ := entry
    have before := traced.before reached
    have after {o' : Outcome} (ran :
        exec (m.callAt fuel (depth + 1)) (s.before func depth index i) i = some o') :
        m.Traced sink o'.1 := by
      cases i with
      | call name => exact callee ran before fun _ found allowed => .enter reached found allowed
      | write =>
        cases ran
        intro step hstep
        rw [steps_write] at hstep
        exact before step hstep
      | push text => cases ran; exact before
      | other kind op => cases ran; exact before
      | absent => cases ran; exact before
    rcases runCode_cons_cases h with ⟨s', e, ran, rfl⟩ | ⟨s', ran, more⟩
    · exact (after ran :)
    · exact ih more (after ran) (.next reached ran)

theorem traced_callAt {fuel depth : Nat} {name : Bytes} {s : RunState} {o : Outcome}
    (h : m.callAt fuel depth name s = some o) (traced : m.Traced sink s)
    (reached : ∀ routine, m.program.routines.get? name = some routine → ¬ m.forbids depth →
      m.Reaches sink ⟨name, depth, 0, routine.code, s⟩) : m.Traced sink o.1 := by
  induction fuel generalizing depth name s o with
  | zero => cases h
  | succ fuel ih =>
    rcases callAt_cases h with ⟨-, rfl⟩ | ⟨routine, found, ⟨-, rfl⟩ | ⟨allowed, run⟩⟩
    · exact traced
    · exact traced
    · exact traced_runCode ih run traced (reached routine found allowed)

theorem traced_run {fuel : Nat} {o : Outcome} (h : m.run fuel sink = some o) : m.Traced sink o.1 :=
  traced_callAt h (by simp [Traced]) fun _ found allowed => .start found allowed

end Machine

end StackLang
