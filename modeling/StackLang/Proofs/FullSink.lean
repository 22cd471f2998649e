import StackLang.Proofs.RunInvariants

namespace StackLang

/-- The sink with room for `n` writes in all instead of no bound. -/
def Sink.boundedBy (n : Nat) (sink : Sink) : Sink :=
  ⟨some (n - sink.written.length), sink.written⟩

def RunState.boundedBy (n : Nat) (s : RunState) : RunState :=
  { s with sink := s.sink.boundedBy n }

/-- A run that would have come to the state `s` was refused the write after the first `n`. -/
structure RunState.RefusedAfter (n : Nat) (s : RunState) (o : Outcome) : Prop where
  writes : o.1.sink.writes = s.sink.writes.take n
  fault : o.2.map RunError.fault = some .refused
  steps : o.1.steps <:+ s.steps

/-- How a run that ends with `o` without bound ends with room for `n` writes. -/
structure Outcome.BoundedBy (n : Nat) (o : Outcome) (run : Option Outcome) : Prop where
  fits : o.1.sink.writes.length ≤ n → run = some (o.1.boundedBy n, o.2)
  full : n < o.1.sink.writes.length → ∃ o', run = some o' ∧ o.1.RefusedAfter n o'

theorem Outcome.BoundedBy.of_fits {n : Nat} {o : Outcome} {run : Option Outcome}
    (fits : o.1.sink.writes.length ≤ n) (same : run = some (o.1.boundedBy n, o.2)) :
    o.BoundedBy n run :=
  ⟨fun _ => same, fun more => absurd fits (Nat.not_le_of_gt more)⟩

/-- Where a write was refused does not depend on what would have come later. -/
theorem RunState.RefusedAfter.later {n : Nat} {s s' : RunState} {o : Outcome}
    (h : s.RefusedAfter n o) (full : n < s.sink.writes.length) (later : s.Precedes s') :
    s'.RefusedAfter n o := by
  obtain ⟨added, writes⟩ := later.writes
  refine ⟨?_, h.fault, h.steps.trans later.steps⟩
  rw [← writes, List.take_append_of_le_length (Nat.le_of_lt full)]
  exact h.writes

theorem Sink.length_writes (sink : Sink) : sink.writes.length = sink.written.length :=
  List.length_reverse

/-- With room left the bounded sink takes a write as the unbounded one does, and else it refuses. -/
theorem Sink.write?_boundedBy {n : Nat} {sink : Sink} (unbounded : sink.room = none)
    (fits : sink.writes.length ≤ n) (text : Bytes) :
    ∃ longer, sink.write? text = some longer ∧
      (longer.writes.length ≤ n → (sink.boundedBy n).write? text = some (longer.boundedBy n)) ∧
      (n < longer.writes.length → (sink.boundedBy n).write? text = none) := by
  obtain ⟨room, written⟩ := sink
  obtain rfl : room = none := unbounded
  rw [length_writes] at fits
  dsimp only at fits
  refine ⟨⟨none, text :: written⟩, rfl, ?_, ?_⟩
  · intro more
    rw [length_writes, List.length_cons] at more
    have left : n - written.length = n - (written.length + 1) + 1 := by omega
    simp only [boundedBy, left, write?, List.length_cons]
  · intro more
    rw [length_writes, List.length_cons] at more
    have none_left : n - written.length = 0 := by omega
    simp only [boundedBy, none_left, write?]

namespace RunState

variable {n : Nat} {s : RunState}

theorem before_boundedBy (func : Bytes) (depth index : Nat) (i : Instr) :
    (s.boundedBy n).before func depth index i = (s.before func depth index i).boundedBy n :=
  rfl

theorem write_boundedBy (unbounded : s.sink.room = none) (fits : s.sink.writes.length ≤ n) :
    s.write.BoundedBy n (some (s.boundedBy n).write) := by
  obtain ⟨stack, sink, steps⟩ := s
  dsimp only at unbounded fits
  cases stack with
  | nil => exact .of_fits fits rfl
  | cons value stack =>
    cases value with
    | empty => exact .of_fits fits rfl
    | text text =>
      obtain ⟨longer, accepted, taken, refused⟩ := Sink.write?_boundedBy unbounded fits text
      have added := Sink.writes_of_write? accepted
      have done : write ⟨.text text :: stack, sink, steps⟩ = (⟨stack, longer, steps⟩, none) := by
        simp only [write, accepted]
      rw [done]
      refine ⟨fun fits' => ?_, fun more => ?_⟩
      · simp only [write, boundedBy, taken fits']
      · refine ⟨(⟨stack, sink.boundedBy n, steps⟩, some ⟨[], .refused⟩), ?_, ?_, rfl,
          List.suffix_rfl⟩
        · simp only [write, boundedBy, refused more, fail]
        · have after : n < longer.writes.length := more
          rw [added, List.length_append, List.length_singleton] at after
          have exact_fit : sink.writes.length = n := by omega
          dsimp only
          rw [added, ← exact_fit, List.take_left]
          rfl

end RunState

namespace Machine

/-- Calls go with room for `n` writes as they go without bound, up to the write that is refused. -/
def Enter.Bounds (enter : Enter) (n : Nat) : Prop :=
  ∀ name s o, enter name s = some o → s.sink.room = none → s.sink.writes.length ≤ n →
    o.BoundedBy n (enter name (s.boundedBy n))

section Code

variable {enter : Enter} {n : Nat} {func : Bytes} {depth index : Nat} {code : List (Int × Instr)}
variable {s : RunState}
  {i : Instr} {o : Outcome}

theorem exec_boundedBy (bounds : enter.Bounds n) (h : exec enter s i = some o)
    (unbounded : s.sink.room = none) (fits : s.sink.writes.length ≤ n) :
    o.BoundedBy n (exec enter (s.boundedBy n) i) := by
  cases i with
  | call name => exact bounds name s o h unbounded fits
  | write =>
    cases h
    exact RunState.write_boundedBy unbounded fits
  | _ =>
    cases h
    exact .of_fits fits rfl

theorem runCode_cons_refused {offset : Int} {rest : List (Int × Instr)} {s' : RunState}
    (h : ∃ o, exec enter (s.before func depth index i) i = some o ∧ s'.RefusedAfter n o) :
    ∃ o, runCode enter func depth index ((offset, i) :: rest) s = some o ∧ s'.RefusedAfter n o := by
  obtain ⟨⟨s'', failure⟩, ran, refused⟩ := h
  obtain ⟨e, rfl, fault⟩ := Option.map_eq_some_iff.mp refused.fault
  exact ⟨_, runCode_cons_fault ran, refused.writes, congrArg some fault, refused.steps⟩

theorem runCode_boundedBy (bounds : enter.Bounds n) (grows : enter.Grows)
    (h : runCode enter func depth index code s = some o) (unbounded : s.sink.room = none)
    (fits : s.sink.writes.length ≤ n) :
    o.BoundedBy n (runCode enter func depth index code (s.boundedBy n)) := by
  induction code generalizing index s with
  | nil =>
    cases h
    exact .of_fits fits rfl
  | cons entry rest ih =>
    obtain ⟨offset, i⟩ := entry
    have step {o' : Outcome} (ran : exec enter (s.before func depth index i) i = some o') :
        o'.BoundedBy n (exec enter ((s.boundedBy n).before func depth index i) i) := by
      rw [RunState.before_boundedBy]
      exact exec_boundedBy bounds ran unbounded fits
    rcases runCode_cons_cases h with ⟨s', e, ran, rfl⟩ | ⟨s', ran, more⟩
    · refine ⟨fun fits' => runCode_cons_fault ((step ran).fits fits'), fun full => ?_⟩
      exact runCode_cons_refused ((step ran).full full)
    · by_cases fits' : s'.sink.writes.length ≤ n
      · rw [runCode_cons_next ((step ran).fits fits')]
        exact ih more ((exec_grows grows ran).unbounded unbounded) fits'
      · have full : n < s'.sink.writes.length := Nat.lt_of_not_le fits'
        have later := runCode_grows grows more
        have longer := later.writes.length_le
        refine ⟨fun all => absurd all (by omega), fun _ => ?_⟩
        obtain ⟨o', ran', refused⟩ := (step ran).full full
        exact runCode_cons_refused ⟨o', ran', refused.later full later⟩

end Code

theorem callAt_bounds (m : Machine) (n fuel depth : Nat) : (m.callAt fuel depth).Bounds n := by
  induction fuel generalizing depth with
  | zero => intro name s o h; cases h
  | succ fuel ih =>
    intro name s o h unbounded fits
    rcases callAt_cases h with ⟨missing, rfl⟩ | ⟨routine, found, ⟨forbidden, rfl⟩ | ⟨allowed, run⟩⟩
    · rw [callAt_of_get?_eq_none missing]
      exact .of_fits fits rfl
    · rw [callAt_of_get? found, if_pos forbidden]
      exact .of_fits fits rfl
    · rw [callAt_of_get? found, if_neg allowed]
      exact runCode_boundedBy (ih (depth + 1)) (m.callAt_grows fuel (depth + 1)) run unbounded fits

/-- The write instructions among the steps. -/
def writeSteps (steps : List Step) : Nat :=
  steps.countP fun step => step.instr = .write

/-- Each write instruction writes once, but for the one that is refused: that is the last step. -/
theorem invariant_writeSteps :
    Invariant (fun s => writeSteps s.steps = s.sink.writes.length) fun s fault => fault = .refused →
      ∃ step earlier, s.steps = step :: earlier ∧ step.instr = .write ∧
        writeSteps earlier = s.sink.writes.length where
  call {s} func depth index name h := by simpa [writeSteps, RunState.before] using h
  push {s} func depth index text h := by simpa [writeSteps, RunState.before] using h
  write {s} func depth index h := by
    have ways := (s.before func depth index .write).writes_cases
    generalize (s.before func depth index .write).write = o at ways ⊢
    cases ways with
    | underflow empty => simp [Outcome.Meets, RunState.fail]
    | unwritable top => simp [Outcome.Meets, RunState.fail]
    | refused top full => exact fun _ => ⟨_, s.steps, rfl, rfl, h⟩
    | accepted top written =>
      have added := Sink.writes_of_write? written
      have counted : writeSteps (s.before func depth index .write).steps =
          writeSteps s.steps + 1 := by
        simp [writeSteps, RunState.before]
      dsimp only [Outcome.Meets]
      rw [counted, added, List.length_append, List.length_singleton, h]
      rfl
  unsupported {s} func depth index i kind h := by simp
  missing name h := by simp
  tooDeep name depth h := by simp

/-- A sink that is full cuts a run short and does nothing else. If the writes of the run without
bound fit, the run with room for `n` writes ends in the same way. If they do not, the first `n` have
been written, and the run takes its steps up to the write after these: it is refused, and nothing
follows. -/
theorem full_sink_cuts_run (m : Machine) {o : Outcome} (ends : m.Ends .unbounded o) (n : Nat) :
    ∃ o', m.Ends (.ofRoom (some n)) o' ∧
      (o.1.sink.writes.length ≤ n → o'.1.sink.writes = o.1.sink.writes ∧ o'.1.stack = o.1.stack ∧
        o'.1.steps = o.1.steps ∧ o'.2 = o.2) ∧
      (n < o.1.sink.writes.length → o'.1.sink.writes = o.1.sink.writes.take n ∧
        o'.2.map RunError.fault = some .refused ∧ o'.1.steps <:+ o.1.steps ∧
        ∃ step earlier, o'.1.steps = step :: earlier ∧ step.instr = .write ∧
          earlier.countP (fun step => step.instr = .write) = n) := by
  obtain ⟨fuel, run⟩ := ends
  have bounded := m.callAt_bounds n fuel 1 mainName _ o run rfl (Nat.zero_le n)
  by_cases fits : o.1.sink.writes.length ≤ n
  · refine ⟨(o.1.boundedBy n, o.2), ⟨fuel, bounded.fits fits⟩, fun _ => ⟨rfl, rfl, rfl, rfl⟩,
      fun more => ?_⟩
    omega
  · obtain ⟨⟨s', failure⟩, run', refused⟩ := bounded.full (Nat.lt_of_not_le fits)
    refine ⟨(s', failure), ⟨fuel, run'⟩, fun fits' => absurd fits' fits, fun more => ?_⟩
    obtain ⟨e, rfl, fault⟩ := Option.map_eq_some_iff.mp refused.fault
    have last := invariant_writeSteps.callAt run' rfl
    obtain ⟨step, earlier, steps, write, count⟩ := last fault
    have accepted : s'.sink.writes.length = n := by
      rw [refused.writes, List.length_take]
      omega
    exact ⟨refused.writes, congrArg some fault, refused.steps, step, earlier, steps, write,
      count.trans accepted⟩

/-- The main function has a line written, for which the callee writes twice. -/
def lineProgram : Program :=
  ⟨0, .ofList [
    (mainName,
      ⟨0, [(0, .push (bytes "a")), (4, .call (bytes "println")), (14, .call (bytes "print"))]⟩),
    (bytes "println", ⟨0, [(0, .write), (1, .push [Ascii.newline]), (5, .write)]⟩)]⟩

theorem lineProgram_cut_between_writes :
    ∃ o o', (Machine.mk lineProgram 0).Ends .unbounded o ∧
      o.1.sink.writes = [bytes "a", [Ascii.newline]] ∧
      o.2.map RunError.fault = some (.notFound (bytes "print")) ∧
      (Machine.mk lineProgram 0).Ends (.ofRoom (some 1)) o' ∧
      o'.1.sink.writes = [bytes "a"] ∧ o'.2.map RunError.fault = some .refused := by
  have whole : ((Machine.mk lineProgram 0).run 3 .unbounded).map
      (fun o => (o.1.sink.writes, o.2.map RunError.fault)) =
        some ([bytes "a", [Ascii.newline]], some (.notFound (bytes "print"))) := by
    decide +kernel
  obtain ⟨o, run, shown⟩ := Option.map_eq_some_iff.mp whole
  obtain ⟨writes, fault⟩ := Prod.mk.inj shown
  obtain ⟨o', ends', -, cut⟩ := full_sink_cuts_run (Machine.mk lineProgram 0) ⟨3, run⟩ 1
  have more : 1 < o.1.sink.writes.length := by rw [writes]; decide
  obtain ⟨first, refused, -⟩ := cut more
  rw [writes] at first
  exact ⟨o, o', ⟨3, run⟩, writes, fault, ends', first, refused⟩

end Machine

end StackLang
