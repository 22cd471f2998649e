import StackLang.Proofs.DepthLimit
import StackLang.Proofs.NameLookup
import StackLang.Proofs.RunPoints

namespace StackLang

namespace Machine

/-- The step calls a function that exists, but at a depth that the limit forbids. -/
structure Overreaches (m : Machine) (step : Step) (callee : Bytes) : Prop where
  calls : step.instr = .call callee
  known : m.program.routines.contains callee
  tooDeep : m.forbids (step.depth + 1)

def Quiet (m : Machine) (taken : List Step) : Prop :=
  ∀ step ∈ taken, ∀ callee, ¬ m.Overreaches step callee

/-- How the steps that were taken, the latest first, and the fault after them go together. -/
inductive Closes (m : Machine) : List Step → Option RunFault → Prop
  | within {taken fault} : m.Quiet taken → (∀ callee depth, fault ≠ some (.tooDeep callee depth)) →
      Closes m taken fault
  | beyond {step earlier callee} : m.Quiet earlier → m.Overreaches step callee →
      Closes m (step :: earlier) (some (.tooDeep callee (step.depth + 1)))

/-- The steps from a state to an outcome, in code at `depth`. -/
structure Takes (m : Machine) (depth : Nat) (s : RunState) (taken : List Step) (o : Outcome) :
    Prop where
  steps : o.1.steps = taken ++ s.steps
  depths : ∀ step ∈ taken, depth ≤ step.depth ∧ ¬ m.forbids step.depth
  closes : m.Closes taken (o.2.map RunError.fault)

/-- The ways in which a call at `depth` ends: without a function, without a step, or with steps. -/
inductive Concludes (m : Machine) (depth : Nat) (name : Bytes) (s : RunState) : Outcome → Prop
  | missing : ¬ m.program.routines.contains name →
      Concludes m depth name s (s.fail (.notFound name))
  | refused : m.program.routines.contains name → m.forbids depth →
      Concludes m depth name s (s.fail (.tooDeep name depth))
  | ran {taken o} : ¬ m.forbids depth → m.Takes depth s taken o → Concludes m depth name s o

variable {m : Machine}

theorem Quiet.append {later earlier : List Step} (hl : m.Quiet later) (he : m.Quiet earlier) :
    m.Quiet (later ++ earlier) := by
  intro step hstep
  rcases List.mem_append.mp hstep with h | h
  · exact hl step h
  · exact he step h

theorem Closes.quiet {taken : List Step} (h : m.Closes taken none) : m.Quiet taken := by
  cases h with
  | within quiet _ => exact quiet

theorem Closes.after {taken earlier : List Step} {fault : Option RunFault}
    (h : m.Closes taken fault) (he : m.Quiet earlier) : m.Closes (taken ++ earlier) fault := by
  cases h with
  | within quiet other => exact .within (quiet.append he) other
  | beyond quiet overreaches => exact .beyond (quiet.append he) overreaches

/-- A step that overreaches is the last one, and the fault is its. -/
theorem Closes.last {later earlier : List Step} {step : Step} {fault : Option RunFault}
    {callee : Bytes} (h : m.Closes (later ++ step :: earlier) fault)
    (overreaches : m.Overreaches step callee) :
    later = [] ∧ fault = some (.tooDeep callee (step.depth + 1)) := by
  generalize same : later ++ step :: earlier = taken at h
  cases h with
  | within quiet _ =>
    subst same
    exact absurd overreaches (quiet step (by simp) callee)
  | @beyond last before name quiet overreaches' =>
    cases later with
    | nil =>
      obtain ⟨rfl, rfl⟩ := List.cons.inj same
      obtain rfl : callee = name := Instr.call.inj (overreaches.calls.symm.trans overreaches'.calls)
      exact ⟨rfl, rfl⟩
    | cons first others =>
      obtain ⟨rfl, rfl⟩ := List.cons.inj same
      exact absurd overreaches (quiet step (by simp) callee)

theorem Closes.exists_last {taken : List Step} {callee : Bytes} {depth : Nat}
    (h : m.Closes taken (some (.tooDeep callee depth))) :
    ∃ step earlier, taken = step :: earlier ∧ m.Overreaches step callee ∧
      depth = step.depth + 1 := by
  cases h with
  | within _ other => exact absurd rfl (other callee depth)
  | beyond _ overreaches => exact ⟨_, _, rfl, overreaches, rfl⟩

namespace Takes

variable {depth : Nat} {s s' : RunState} {taken earlier : List Step} {o : Outcome}

theorem still (steps : o.1.steps = s.steps)
    (other : ∀ callee depth, o.2.map RunError.fault ≠ some (.tooDeep callee depth)) :
    m.Takes depth s [] o :=
  ⟨steps, by simp, .within (by simp [Quiet]) other⟩

theorem trans (first : m.Takes depth s earlier (s', none)) (rest : m.Takes depth s' taken o) :
    m.Takes depth s (taken ++ earlier) o := by
  refine ⟨?_, ?_, rest.closes.after first.closes.quiet⟩
  · rw [rest.steps, first.steps, List.append_assoc]
  · intro step hstep
    rcases List.mem_append.mp hstep with h | h
    · exact rest.depths step h
    · exact first.depths step h

theorem outer (h : m.Takes (depth + 1) s taken o) : m.Takes depth s taken o := by
  refine ⟨h.steps, fun step hstep => ?_, h.closes⟩
  obtain ⟨deeper, allowed⟩ := h.depths step hstep
  exact ⟨by omega, allowed⟩

end Takes

section Code

variable {enter : Enter} {func : Bytes} {depth index : Nat} {code : List (Int × Instr)}
variable {s : RunState} {i : Instr}
  {o : Outcome}

theorem takes_before (allowed : ¬ m.forbids depth)
    (quiet : ∀ callee, ¬ m.Overreaches ⟨func, index, i, s.stack.length, depth⟩ callee) :
    m.Takes depth s [⟨func, index, i, s.stack.length, depth⟩] (s.before func depth index i, none) :=
  ⟨rfl, by simpa using allowed, .within (by simpa [Quiet] using quiet) (by simp)⟩

theorem takes_own (allowed : ¬ m.forbids depth) (noCall : ∀ name, i ≠ .call name)
    (rest : m.Takes depth (s.before func depth index i) [] o) : ∃ taken, m.Takes depth s taken o :=
  ⟨_, (takes_before allowed fun callee overreaches => noCall callee overreaches.calls).trans rest⟩

theorem takes_write (s : RunState) (depth : Nat) : m.Takes depth s [] s.write := by
  have ways := s.writes_cases
  generalize s.write = o at ways ⊢
  cases ways with
  | underflow _ => exact .still rfl (by simp [RunState.fail])
  | unwritable _ => exact .still rfl (by simp [RunState.fail])
  | refused _ _ => exact .still rfl (by simp [RunState.fail])
  | accepted _ _ => exact .still rfl (by simp)

theorem takes_exec (allowed : ¬ m.forbids depth)
    (callee : ∀ {name s o}, enter name s = some o → m.Concludes (depth + 1) name s o)
    (h : exec enter (s.before func depth index i) i = some o) :
    ∃ taken, m.Takes depth s taken o := by
  cases i with
  | call name =>
    have before (quiet : ¬ (m.program.routines.contains name ∧ m.forbids (depth + 1))) :
        m.Takes depth s [⟨func, index, .call name, s.stack.length, depth⟩]
          (s.before func depth index (.call name), none) := by
      refine takes_before allowed fun callee overreaches => quiet ?_
      obtain rfl : name = callee := Instr.call.inj overreaches.calls
      exact ⟨overreaches.known, overreaches.tooDeep⟩
    cases callee h with
    | missing unknown =>
      have last : m.Takes depth (s.before func depth index (.call name)) []
          (RunState.fail _ (.notFound name)) :=
        .still rfl (by simp [RunState.fail])
      exact ⟨_, (before fun both => unknown both.1).trans last⟩
    | refused known tooDeep =>
      refine ⟨[⟨func, index, .call name, s.stack.length, depth⟩], rfl, by simpa using allowed, ?_⟩
      exact .beyond (by simp [Quiet]) ⟨rfl, known, tooDeep⟩
    | ran allowed' takes => exact ⟨_, (before fun both => allowed' both.2).trans takes.outer⟩
  | write =>
    cases h
    exact takes_own allowed (by simp) (takes_write _ depth)
  | push text =>
    cases h
    exact takes_own allowed (by simp) (.still rfl (by simp))
  | other kind op =>
    cases h
    exact takes_own allowed (by simp) (.still rfl (by simp [RunState.fail]))
  | absent =>
    cases h
    exact takes_own allowed (by simp) (.still rfl (by simp [RunState.fail]))

theorem takes_runCode (allowed : ¬ m.forbids depth)
    (callee : ∀ {name s o}, enter name s = some o → m.Concludes (depth + 1) name s o)
    (h : runCode enter func depth index code s = some o) : ∃ taken, m.Takes depth s taken o := by
  induction code generalizing index s with
  | nil =>
    cases h
    exact ⟨[], .still rfl (by simp)⟩
  | cons entry rest ih =>
    obtain ⟨offset, i⟩ := entry
    rcases runCode_cons_cases h with ⟨s', e, ran, rfl⟩ | ⟨s', ran, more⟩
    · obtain ⟨taken, takes⟩ := takes_exec allowed callee ran
      exact ⟨taken, takes.steps, takes.depths, takes.closes⟩
    · obtain ⟨earlier, first⟩ := takes_exec allowed callee ran
      obtain ⟨taken, takes⟩ := ih more
      exact ⟨_, first.trans takes⟩

end Code

theorem concludes_callAt (m : Machine) {fuel depth : Nat} {name : Bytes} {s : RunState}
    {o : Outcome} (h : m.callAt fuel depth name s = some o) : m.Concludes depth name s o := by
  induction fuel generalizing depth name s o with
  | zero => cases h
  | succ fuel ih =>
    rcases callAt_cases h with ⟨missing, rfl⟩ | ⟨routine, found, ⟨forbidden, rfl⟩ | ⟨allowed, run⟩⟩
    · exact .missing (by simp [NameMap.contains, missing])
    · exact .refused (NameMap.contains_iff.mpr ⟨routine, found⟩) forbidden
    · obtain ⟨taken, takes⟩ := takes_runCode allowed ih run
      exact .ran allowed takes

theorem forbids_natCast {program : Program} {d depth : Nat} (positive : 0 < d) :
    (Machine.mk program d).forbids depth ↔ d < depth := by
  simp only [forbids_eq_true]
  omega

/-- Under a limit every call ends, on whatever stack. Each of its steps is at a depth from one to
the limit. A step at the limit that calls a function which exists is the last step, and the run ends
with the fault that says so; it ends with such a fault in no other way. -/
theorem limited_call_halts (program : Program) {d : Nat} (positive : 0 < d) (name : Bytes)
    (stack : List Value) (sink : Sink) :
    ∃ o, (Machine.mk program d).call (Machine.mk program d).fuel name ⟨stack, sink, []⟩ = some o ∧
      (∀ step ∈ o.1.steps, 1 ≤ step.depth ∧ step.depth ≤ d) ∧
      (∀ later step earlier callee, o.1.steps = later ++ step :: earlier →
        step.instr = .call callee → program.routines.contains callee → step.depth = d →
        later = [] ∧ o.2.map RunError.fault = some (.tooDeep callee (d + 1))) ∧
      ∀ callee depth, o.2.map RunError.fault = some (.tooDeep callee depth) →
        depth = d + 1 ∧ program.routines.contains callee ∧
          ∃ step earlier, o.1.steps = step :: earlier ∧ step.instr = .call callee ∧
            step.depth = d := by
  have limited : (Machine.mk program d).limit ≠ 0 := by dsimp only; omega
  have enough : (Machine.mk program d).limit < (1 : Nat) + d := by dsimp only; omega
  have fuel : (Machine.mk program d).fuel = d + 1 := if_neg limited
  obtain ⟨o, run⟩ := callAt_total limited enough name ⟨stack, sink, []⟩
  refine ⟨o, by rw [fuel]; exact run, ?_⟩
  cases concludes_callAt _ run with
  | missing _ => exact ⟨by simp [RunState.fail], by simp [RunState.fail], by simp [RunState.fail]⟩
  | refused _ forbidden =>
    have := (forbids_natCast positive).mp forbidden
    omega
  | @ran taken o _ takes =>
    have steps : o.1.steps = taken := by simpa using takes.steps
    rw [steps]
    refine ⟨fun step hstep => ?_, ?_, ?_⟩
    · obtain ⟨lower, allowed⟩ := takes.depths step hstep
      rw [forbids_natCast positive] at allowed
      omega
    · rintro later step earlier callee rfl calls known rfl
      exact takes.closes.last ⟨calls, known, (forbids_natCast positive).mpr (by omega)⟩
    · intro callee depth fault
      obtain ⟨step, earlier, rfl, overreaches, rfl⟩ := Closes.exists_last (fault ▸ takes.closes)
      obtain ⟨-, allowed⟩ := takes.depths step List.mem_cons_self
      have beyond := overreaches.tooDeep
      rw [forbids_natCast positive] at allowed beyond
      exact ⟨by omega, overreaches.known, step, earlier, rfl, overreaches.calls, by omega⟩

theorem loopProgram_halts_at_limit :
    ∃ o, (Machine.mk loopProgram 2).call 3 mainName ⟨[.text (bytes "x")], .unbounded, []⟩ = some o ∧
      (∀ step ∈ o.1.steps, 1 ≤ step.depth ∧ step.depth ≤ 2) ∧
      o.2.map RunError.fault = some (.tooDeep (bytes "loop") 3) ∧
      ∃ step earlier, o.1.steps = step :: earlier ∧ step.instr = .call (bytes "loop") ∧
        step.depth = 2 := by
  have positive : 0 < 2 := by decide
  obtain ⟨o, run, depths, -, only⟩ :=
    limited_call_halts loopProgram positive mainName [.text (bytes "x")] .unbounded
  have deep : ((Machine.mk loopProgram 2).call 3 mainName ⟨[.text (bytes "x")], .unbounded, []⟩).map
      (fun o => o.2.map RunError.fault) = some (some (.tooDeep (bytes "loop") 3)) := by
    decide +kernel
  have run' : (Machine.mk loopProgram 2).call 3 mainName ⟨[.text (bytes "x")], .unbounded, []⟩ =
      some o := run
  rw [run'] at deep
  have fault : o.2.map RunError.fault = some (.tooDeep (bytes "loop") 3) := Option.some.inj deep
  exact ⟨o, run', depths, fault, (only _ _ fault).2.2⟩

end Machine

end StackLang
