import StackLang.Proofs.RunInvariants

namespace StackLang

def Outcome.TooDeep (o : Outcome) : Prop :=
  ∃ name depth, o.2.map RunError.fault = some (.tooDeep name depth)

/-- The outcome of a run under a limit, beside another run of the same code. Both end alike, unless
the limit cut the first one short. -/
structure Outcome.CutFrom (o : Outcome) (run : Option Outcome) : Prop where
  same : ¬ o.TooDeep → run = some o
  first : o.TooDeep → ∀ o', run = some o' → o.1.sink.writes <+: o'.1.sink.writes

theorem Outcome.CutFrom.refl (o : Outcome) : o.CutFrom (some o) := by
  refine ⟨fun _ => rfl, ?_⟩
  rintro - _ ⟨⟩
  exact List.prefix_rfl

namespace Machine

/-- What the first evaluator of calls answers is what the second does, or is cut from it. -/
def Enter.Cuts (enter enter' : Enter) : Prop :=
  ∀ name s o, enter name s = some o → o.CutFrom (enter' name s)

section Code

variable {enter enter' : Enter} {func : Bytes} {depth index : Nat} {code : List (Int × Instr)}
variable {s : RunState}
  {i : Instr} {o : Outcome}

theorem exec_total (total : ∀ name s, ∃ o, enter name s = some o) (s : RunState) (i : Instr) :
    ∃ o, exec enter s i = some o := by
  cases i with
  | call name => exact total name s
  | _ => exact ⟨_, rfl⟩

theorem runCode_total (total : ∀ name s, ∃ o, enter name s = some o) (func : Bytes)
    (depth index : Nat) (code : List (Int × Instr)) (s : RunState) :
    ∃ o, runCode enter func depth index code s = some o := by
  induction code generalizing index s with
  | nil => exact ⟨_, rfl⟩
  | cons entry rest ih =>
    obtain ⟨offset, i⟩ := entry
    obtain ⟨⟨s', failure⟩, ran⟩ := exec_total total (s.before func depth index i) i
    cases failure with
    | some e => exact ⟨_, runCode_cons_fault ran⟩
    | none =>
      rw [runCode_cons_next ran]
      exact ih (index + 1) s'

theorem exec_cut (cuts : enter.Cuts enter') (h : exec enter s i = some o) :
    o.CutFrom (exec enter' s i) := by
  cases i with
  | call name => exact cuts name s o h
  | _ =>
    cases h
    exact .refl _

theorem runCode_cut (cuts : enter.Cuts enter') (grows : enter'.Grows)
    (h : runCode enter func depth index code s = some o) :
    o.CutFrom (runCode enter' func depth index code s) := by
  induction code generalizing index s with
  | nil =>
    cases h
    exact .refl _
  | cons entry rest ih =>
    obtain ⟨offset, i⟩ := entry
    rcases runCode_cons_cases h with ⟨s', e, ran, rfl⟩ | ⟨s', ran, more⟩
    · have cut := exec_cut cuts ran
      refine ⟨fun allowed => runCode_cons_fault (cut.same allowed), fun tooDeep o' h' => ?_⟩
      rcases runCode_cons_cases h' with ⟨s'', e'', ran', rfl⟩ | ⟨s'', ran', more'⟩
      · exact cut.first tooDeep (s'', some e'') ran'
      · exact (cut.first tooDeep _ ran').trans (runCode_grows grows more').writes
    · have succeeded : ¬ Outcome.TooDeep (s', none) := by
        rintro ⟨_, _, ⟨⟩⟩
      rw [runCode_cons_next ((exec_cut cuts ran).same succeeded)]
      exact ih more

end Code

theorem callAt_total {m : Machine} (limited : m.limit ≠ 0) {fuel depth : Nat}
    (enough : m.limit < depth + fuel) (name : Bytes) (s : RunState) :
    ∃ o, m.callAt (fuel + 1) depth name s = some o := by
  induction fuel generalizing depth name s with
  | zero =>
    have forbidden : m.forbids depth := by simpa [forbids, limited] using enough
    unfold callAt
    split
    next => exact ⟨_, rfl⟩
    next => exact ⟨_, if_pos forbidden⟩
  | succ fuel ih =>
    unfold callAt
    split
    next => exact ⟨_, rfl⟩
    next routine _ =>
      split
      next => exact ⟨_, rfl⟩
      next =>
        have deeper : m.limit < (depth + 1 : Nat) + fuel := by push_cast at enough ⊢; omega
        exact runCode_total (fun name s => ih deeper name s) ..

/-- Under a limit every run ends. -/
theorem exists_ends {m : Machine} (limited : m.limit ≠ 0) (sink : Sink) : ∃ o, m.Ends sink o := by
  have enough : m.limit < (1 : Nat) + m.limit.toNat := by omega
  obtain ⟨o, run⟩ := callAt_total limited enough mainName ⟨[], sink, []⟩
  exact ⟨o, m.limit.toNat + 1, run⟩

theorem callAt_cut (program : Program) {limit limit' : Int}
    (allows : ∀ depth, ¬ (Machine.mk program limit).forbids depth →
      ¬ (Machine.mk program limit').forbids depth) (fuel depth : Nat) :
    Enter.Cuts ((Machine.mk program limit).callAt fuel depth)
      ((Machine.mk program limit').callAt fuel depth) := by
  induction fuel generalizing depth with
  | zero => intro name s o h; cases h
  | succ fuel ih =>
    intro name s o h
    rcases callAt_cases h with ⟨missing, rfl⟩ | ⟨routine, found, ⟨-, rfl⟩ | ⟨allowed, run⟩⟩
    · rw [callAt_of_get?_eq_none (m := ⟨program, limit'⟩) missing]
      exact .refl _
    · refine ⟨fun allowed => absurd ⟨name, depth, rfl⟩ allowed, fun _ o' h' => ?_⟩
      exact (callAt_grows _ _ _ name s o' h').writes
    · rw [callAt_of_get? (m := ⟨program, limit'⟩) found, if_neg (allows depth allowed)]
      exact runCode_cut (ih (depth + 1)) (callAt_grows _ _ _) run

/-- A limit only cuts a run short: under a larger limit, or without one, the run ends in the same
way, or if a call was too deep, its writes start with those under the limit. -/
theorem limit_cuts_run_short (program : Program) {limit limit' : Int} (positive : 0 < limit)
    (larger : limit ≤ limit' ∨ limit' = 0) (sink : Sink) :
    ∃ o, (Machine.mk program limit).Ends sink o ∧
      (limit' ≠ 0 → ∃ o', (Machine.mk program limit').Ends sink o') ∧
      (¬ o.TooDeep → (Machine.mk program limit').Ends sink o) ∧
      (o.TooDeep → ∀ o', (Machine.mk program limit').Ends sink o' →
        o.1.sink.writes <+: o'.1.sink.writes) := by
  have allows (depth : Nat) (allowed : ¬ (Machine.mk program limit).forbids depth) :
      ¬ (Machine.mk program limit').forbids depth := by
    simp only [forbids, Bool.and_eq_true, bne_iff_ne, decide_eq_true_eq, not_and] at allowed ⊢
    omega
  obtain ⟨o, fuel, run⟩ := exists_ends (m := ⟨program, limit⟩) (by simp; omega) sink
  refine ⟨o, ⟨fuel, run⟩, fun limited => exists_ends limited sink, fun allowed => ⟨fuel, ?_⟩, ?_⟩
  · exact (callAt_cut program allows fuel 1 _ _ _ run).same allowed
  · rintro tooDeep o' ⟨fuel', run'⟩
    have more := callAt_mono _ (Nat.le_max_left fuel fuel') _ _ _ run
    have more' := callAt_mono _ (Nat.le_max_right fuel fuel') _ _ _ run'
    exact (callAt_cut program allows (max fuel fuel') 1 _ _ _ more).first tooDeep o' more'

/-- The main function writes and calls another, which writes and calls itself. -/
def loopProgram : Program :=
  ⟨0, .ofList [(mainName, ⟨0, [(0, .push (bytes "a")), (4, .write), (5, .call (bytes "loop"))]⟩),
    (bytes "loop", ⟨0, [(0, .push (bytes "b")), (4, .write), (5, .call (bytes "loop"))]⟩)]⟩

theorem loopProgram_cut_short :
    ∃ o o', (Machine.mk loopProgram 2).Ends .unbounded o ∧
      (Machine.mk loopProgram 4).Ends .unbounded o' ∧ o.TooDeep ∧
      o.1.sink.writes = [bytes "a", bytes "b"] ∧ o.1.sink.writes <+: o'.1.sink.writes := by
  have short : ((Machine.mk loopProgram 2).run 3 .unbounded).map
      (fun o => (o.1.sink.writes, o.2.map RunError.fault)) =
        some ([bytes "a", bytes "b"], some (.tooDeep (bytes "loop") 3)) := by
    decide +kernel
  obtain ⟨o, run, shown⟩ := Option.map_eq_some_iff.mp short
  obtain ⟨writes, fault⟩ := Prod.mk.inj shown
  have tooDeep : o.TooDeep := ⟨_, _, fault⟩
  have positive : (0 : Int) < 2 := by decide
  have larger : (2 : Int) ≤ 4 ∨ (4 : Int) = 0 := by decide
  obtain ⟨o₁, ends, longer, -, first⟩ := limit_cuts_run_short loopProgram positive larger .unbounded
  obtain rfl := ends.unique ⟨3, run⟩
  obtain ⟨o', ends'⟩ := longer (by decide)
  exact ⟨o₁, o', ends, ends', tooDeep, writes, first tooDeep o' ends'⟩

end Machine

end StackLang
