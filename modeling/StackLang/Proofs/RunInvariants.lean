import StackLang.Proofs.MachineRuns

namespace StackLang

theorem Sink.writes_of_write? {s s' : Sink} {text : Bytes} (h : s.write? text = some s') :
    s'.writes = s.writes ++ [text] := by
  unfold write? at h
  split at h
  next => cases h; simp [writes]
  next => cases h
  next => cases h; simp [writes]

theorem Sink.room_of_write? {s s' : Sink} {text : Bytes} (h : s.write? text = some s')
    (unbounded : s.room = none) :
    s'.room = none := by
  unfold write? at h
  split at h
  next => cases h; rfl
  next full => cases unbounded.symm.trans full
  next left => cases unbounded.symm.trans left

/-- A run that ended well left a state with `P`; one that failed left a state and a fault with
`Q`. -/
def Outcome.Meets (P : RunState → Prop) (Q : RunState → RunFault → Prop) (o : Outcome) : Prop :=
  match o.2 with
  | none => P o.1
  | some e => Q o.1 e.fault

theorem Outcome.meets_state_iff {P : RunState → Prop} {o : Outcome} :
    o.Meets P (fun s _ => P s) ↔ P o.1 := by
  obtain ⟨s, failure⟩ := o
  cases failure with
  | none => exact Iff.rfl
  | some e => exact Iff.rfl

namespace Machine

/-- `P` holds between the instructions of a run, and `Q` where one of them has failed. -/
structure Invariant (P : RunState → Prop) (Q : RunState → RunFault → Prop) : Prop where
  call : ∀ {s} func depth index name, P s → P (s.before func depth index (.call name))
  push : ∀ {s} func depth index text, P s →
    P { s.before func depth index (.push text) with stack := .text text :: s.stack }
  write : ∀ {s} func depth index, P s → (s.before func depth index .write).write.Meets P Q
  unsupported : ∀ {s} func depth index i kind, P s →
    Q (s.before func depth index i) (.unsupported kind)
  missing : ∀ {s} name, P s → Q s (.notFound name)
  tooDeep : ∀ {s} name depth, P s → Q s (.tooDeep name depth)

namespace Invariant

variable {P : RunState → Prop} {Q : RunState → RunFault → Prop}

theorem exec {enter : Enter} (inv : Invariant P Q)
    (callee : ∀ {name s o}, enter name s = some o → P s → o.Meets P Q) {func : Bytes}
    {depth index : Nat} {i : Instr} {s : RunState} {o : Outcome}
    (h : Machine.exec enter (s.before func depth index i) i = some o) (hs : P s) :
    o.Meets P Q := by
  cases i with
  | call name => exact callee h (inv.call func depth index name hs)
  | push text =>
    cases h
    exact inv.push func depth index text hs
  | write =>
    cases h
    exact inv.write func depth index hs
  | other kind op =>
    cases h
    exact inv.unsupported func depth index _ kind hs
  | absent =>
    cases h
    exact inv.unsupported func depth index _ _ hs

theorem runCode {enter : Enter} (inv : Invariant P Q)
    (callee : ∀ {name s o}, enter name s = some o → P s → o.Meets P Q) {func : Bytes}
    {depth index : Nat} {code : List (Int × Instr)} {s : RunState} {o : Outcome}
    (h : Machine.runCode enter func depth index code s = some o) (hs : P s) : o.Meets P Q := by
  induction code generalizing index s with
  | nil =>
    cases h
    exact hs
  | cons entry rest ih =>
    obtain ⟨offset, i⟩ := entry
    rcases runCode_cons_cases h with ⟨s', e, ran, rfl⟩ | ⟨s', ran, more⟩
    · have failed : Q s' e.fault := inv.exec callee ran hs
      exact failed
    · have kept : P s' := inv.exec callee ran hs
      exact ih more kept

theorem callAt (inv : Invariant P Q) {m : Machine} {fuel depth : Nat} {name : Bytes} {s : RunState}
    {o : Outcome} (h : m.callAt fuel depth name s = some o) (hs : P s) : o.Meets P Q := by
  induction fuel generalizing depth name s o with
  | zero => cases h
  | succ fuel ih =>
    rcases callAt_cases h with ⟨-, rfl⟩ | ⟨routine, -, ⟨-, rfl⟩ | ⟨-, run⟩⟩
    · exact inv.missing name hs
    · exact inv.tooDeep name depth hs
    · exact inv.runCode ih run hs

end Invariant

end Machine

/-- The state `s'` comes after `s` in a run: what has been written and the steps taken are kept. -/
structure RunState.Precedes (s s' : RunState) : Prop where
  writes : s.sink.writes <+: s'.sink.writes
  steps : s.steps <:+ s'.steps
  unbounded : s.sink.room = none → s'.sink.room = none

theorem RunState.Precedes.refl (s : RunState) : s.Precedes s :=
  ⟨List.prefix_rfl, List.suffix_rfl, id⟩

theorem RunState.Precedes.trans {s s' s'' : RunState} (h : s.Precedes s') (h' : s'.Precedes s'') :
    s.Precedes s'' :=
  ⟨h.writes.trans h'.writes, h.steps.trans h'.steps,
    fun unbounded => h'.unbounded (h.unbounded unbounded)⟩

theorem RunState.precedes_before (s : RunState) (func : Bytes) (depth index : Nat) (i : Instr) :
    s.Precedes (s.before func depth index i) :=
  ⟨List.prefix_rfl, List.suffix_cons _ _, id⟩

theorem RunState.precedes_write (s : RunState) : s.Precedes s.write.1 := by
  have ways := s.writes_cases
  generalize s.write = o at ways ⊢
  cases ways with
  | underflow empty => exact .refl s
  | unwritable top => exact ⟨List.prefix_rfl, List.suffix_rfl, id⟩
  | refused top full => exact ⟨List.prefix_rfl, List.suffix_rfl, id⟩
  | accepted top written =>
    refine ⟨?_, List.suffix_rfl, Sink.room_of_write? written⟩
    rw [Sink.writes_of_write? written]
    exact List.prefix_append _ _

namespace Machine

theorem invariant_precedes (s₀ : RunState) : Invariant s₀.Precedes fun s _ => s₀.Precedes s where
  call {s} func depth index name h := h.trans (s.precedes_before func depth index (.call name))
  push {s} func depth index text h := by
    have recorded := h.trans (s.precedes_before func depth index (.push text))
    exact ⟨recorded.writes, recorded.steps, recorded.unbounded⟩
  write {s} func depth index h := by
    have recorded := h.trans (s.precedes_before func depth index .write)
    have written := recorded.trans (s.before func depth index .write).precedes_write
    exact Outcome.meets_state_iff.mpr written
  unsupported {s} func depth index i kind h := h.trans (s.precedes_before func depth index i)
  missing name h := h
  tooDeep name depth h := h

/-- Calls only add to what has been written and to the steps. -/
def Enter.Grows (enter : Enter) : Prop :=
  ∀ name s o, enter name s = some o → s.Precedes o.1

section Code

variable {enter : Enter} {func : Bytes} {depth index : Nat} {code : List (Int × Instr)}
variable {s : RunState} {i : Instr}
  {o : Outcome}

theorem Enter.Grows.meets (grows : enter.Grows) {s₀ : RunState} {name : Bytes}
    (h : enter name s = some o) (hs : s₀.Precedes s) :
    o.Meets s₀.Precedes fun s _ => s₀.Precedes s :=
  Outcome.meets_state_iff.mpr (hs.trans (grows name s o h))

theorem exec_grows (grows : enter.Grows) (h : exec enter (s.before func depth index i) i = some o) :
    s.Precedes o.1 :=
  Outcome.meets_state_iff.mp ((invariant_precedes s).exec grows.meets h (.refl s))

theorem runCode_grows (grows : enter.Grows) (h : runCode enter func depth index code s = some o) :
    s.Precedes o.1 :=
  Outcome.meets_state_iff.mp ((invariant_precedes s).runCode grows.meets h (.refl s))

end Code

theorem callAt_grows (m : Machine) (fuel depth : Nat) : (m.callAt fuel depth).Grows := by
  intro name s o h
  exact Outcome.meets_state_iff.mp ((invariant_precedes s).callAt h (.refl s))

end Machine

end StackLang
