import StackLang.Proofs.MachineRuns

namespace StackLang

def Step.raise (n : Nat) (step : Step) : Step :=
  { step with height := step.height + n }

/-- The state with more values underneath its stack, from its first step on. -/
def RunState.atop (s : RunState) (below : List Value) : RunState :=
  ⟨s.stack ++ below, s.sink, s.steps.map (·.raise below.length)⟩

def Outcome.atop (o : Outcome) (below : List Value) : Outcome :=
  (o.1.atop below, o.2)

def Outcome.Underflows (o : Outcome) : Prop :=
  o.2.map RunError.fault = some .underflow

theorem Outcome.not_underflows_done (s : RunState) : ¬ Outcome.Underflows (s, none) := by
  rintro ⟨⟩

namespace RunState

variable {s : RunState} {below : List Value}

theorem before_atop (func : Bytes) (depth index : Nat) (i : Instr) :
    (s.atop below).before func depth index i = (s.before func depth index i).atop below := by
  simp [before, atop, Step.raise]

theorem write_atop (h : ¬ s.write.Underflows) : (s.atop below).write = s.write.atop below := by
  obtain ⟨stack, sink, steps⟩ := s
  cases stack with
  | nil => exact absurd rfl h
  | cons value rest =>
    cases value with
    | empty => rfl
    | text text =>
      cases accepted : sink.write? text with
      | none => simp only [write, atop, List.cons_append, accepted, fail, Outcome.atop]
      | some sink' => simp only [write, atop, List.cons_append, accepted, Outcome.atop]

end RunState

namespace Machine

/-- Calls that do not underflow do the same with `below` underneath. -/
def Enter.Frames (enter : Enter) (below : List Value) : Prop :=
  ∀ name s o, enter name s = some o → ¬ o.Underflows →
    enter name (s.atop below) = some (o.atop below)

section Code

variable {enter : Enter} {below : List Value} {func : Bytes} {depth index : Nat}
variable {code : List (Int × Instr)}
  {s : RunState} {i : Instr} {o : Outcome}

theorem exec_atop (frames : enter.Frames below) (h : exec enter s i = some o)
    (enough : ¬ o.Underflows) :
    exec enter (s.atop below) i = some (o.atop below) := by
  cases i with
  | call name => exact frames name s o h enough
  | write =>
    cases h
    exact congrArg some (RunState.write_atop enough)
  | _ =>
    cases h
    rfl

theorem runCode_atop (frames : enter.Frames below)
    (h : runCode enter func depth index code s = some o) (enough : ¬ o.Underflows) :
    runCode enter func depth index code (s.atop below) = some (o.atop below) := by
  induction code generalizing index s with
  | nil =>
    cases h
    rfl
  | cons entry rest ih =>
    obtain ⟨offset, i⟩ := entry
    have step {o' : Outcome} (ran : exec enter (s.before func depth index i) i = some o')
        (enough' : ¬ o'.Underflows) :
        exec enter ((s.atop below).before func depth index i) i = some (o'.atop below) := by
      rw [RunState.before_atop]
      exact exec_atop frames ran enough'
    rcases runCode_cons_cases h with ⟨s', e, ran, rfl⟩ | ⟨s', ran, more⟩
    · exact runCode_cons_fault (step ran enough)
    · rw [runCode_cons_next (step ran (Outcome.not_underflows_done s'))]
      exact ih more

end Code

theorem callAt_frames (m : Machine) (below : List Value) (fuel depth : Nat) :
    (m.callAt fuel depth).Frames below := by
  induction fuel generalizing depth with
  | zero => intro name s o h; cases h
  | succ fuel ih =>
    intro name s o h enough
    rcases callAt_cases h with ⟨missing, rfl⟩ | ⟨routine, found, ⟨forbidden, rfl⟩ | ⟨allowed, run⟩⟩
    · exact callAt_of_get?_eq_none missing ..
    · rw [callAt_of_get? found, if_pos forbidden]
      rfl
    · rw [callAt_of_get? found, if_neg allowed]
      exact runCode_atop (ih (depth + 1)) run enough

/-- A call that ends in any way but an underflow ends in the same way with more values underneath
its stack. They stay there, untouched. -/
theorem call_keeps_values_below (m : Machine) {fuel : Nat} {name : Bytes}
    {stack stack' : List Value} {sink sink' : Sink} {steps : List Step} {failure : Option RunError}
    (h : m.call fuel name ⟨stack, sink, []⟩ = some (⟨stack', sink', steps⟩, failure))
    (enough : ∀ e, failure = some e → e.fault ≠ .underflow) (below : List Value) :
    m.call fuel name ⟨stack ++ below, sink, []⟩ =
      some (⟨stack' ++ below, sink', steps.map (·.raise below.length)⟩, failure) := by
  have enough' : ¬ Outcome.Underflows (⟨stack', sink', steps⟩, failure) := by
    intro underflows
    obtain ⟨e, rfl, fault⟩ := Option.map_eq_some_iff.mp underflows
    exact enough e rfl fault
  exact m.callAt_frames below fuel 1 name _ _ h enough'

/-- A function that writes what its caller has pushed, value by value, by calling itself. -/
def drainingProgram : Program :=
  ⟨0, .ofList [(bytes "drain", ⟨9, [(0, .write), (1, .call (bytes "drain"))]⟩)]⟩

theorem drainingProgram_keeps_values_below :
    ∃ steps e, (Machine.mk drainingProgram 2).call 3 (bytes "drain")
        ⟨[.text (bytes "a"), .text (bytes "b"), .text (bytes "c")] ++ [.text (bytes "d"), .empty],
          .unbounded, []⟩ =
          some (⟨[.text (bytes "c")] ++ [.text (bytes "d"), .empty], ⟨none, [bytes "b", bytes "a"]⟩,
            steps⟩, some e) ∧
      e.fault = .tooDeep (bytes "drain") 3 := by
  have run : (Machine.mk drainingProgram 2).call 3 (bytes "drain")
      ⟨[.text (bytes "a"), .text (bytes "b"), .text (bytes "c")], .unbounded, []⟩ =
        some (⟨[.text (bytes "c")], ⟨none, [bytes "b", bytes "a"]⟩,
          [⟨bytes "drain", 1, .call (bytes "drain"), 1, 2⟩, ⟨bytes "drain", 0, .write, 2, 2⟩,
            ⟨bytes "drain", 1, .call (bytes "drain"), 2, 1⟩, ⟨bytes "drain", 0, .write, 3, 1⟩]⟩,
          some ⟨[⟨bytes "drain", 1⟩, ⟨bytes "drain", 1⟩], .tooDeep (bytes "drain") 3⟩) := by
    decide +kernel
  have enough : ∀ e : RunError, some ⟨[⟨bytes "drain", 1⟩, ⟨bytes "drain", 1⟩],
      .tooDeep (bytes "drain") 3⟩ = some e → e.fault ≠ .underflow := by
    rintro _ ⟨⟩
    simp
  exact ⟨_, _, call_keeps_values_below _ run enough [.text (bytes "d"), .empty], rfl⟩

end Machine

end StackLang
