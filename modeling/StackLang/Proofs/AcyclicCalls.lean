import Mathlib.Data.List.Perm.Subperm
import Mathlib.Logic.Relation
import StackLang.Proofs.StepDepths

namespace StackLang

namespace Program

/-- The code of `caller` has a call of `callee`, which may be missing. -/
def Calls (p : Program) (caller callee : Bytes) : Prop :=
  ∃ routine offset, p.routines.get? caller = some routine ∧ (offset, .call callee) ∈ routine.code

/-- No function that the main function reaches can reach itself again. -/
def Acyclic (p : Program) : Prop :=
  ∀ name, Relation.ReflTransGen p.Calls mainName name → ¬ Relation.TransGen p.Calls name name

/-- Functions with a rank call functions with a lower rank only. -/
def ranked (p : Program) (rank : NameMap Nat) : Bool :=
  p.routines.entries.all fun e => e.2.code.all fun
    | (_, .call callee) => (rank.get? e.1).all fun n => (rank.get? callee).any (· < n)
    | _ => true

section Ranked

variable {p : Program} {rank : NameMap Nat} {caller callee : Bytes} {n : Nat}

theorem lower_of_calls (h : p.ranked rank) (calls : p.Calls caller callee)
    (hn : rank.get? caller = some n) :
    ∃ k < n, rank.get? callee = some k := by
  obtain ⟨routine, offset, found, mem⟩ := calls
  have routine := List.all_eq_true.mp h _ (NameMap.get?_eq_some_iff.mp found)
  have lower := List.all_eq_true.mp routine _ mem
  simp only [hn, Option.all_some, Option.any_eq_true, decide_eq_true_eq] at lower
  obtain ⟨k, hk, lt⟩ := lower
  exact ⟨k, lt, hk⟩

theorem lower_of_path (h : p.ranked rank) (path : Relation.TransGen p.Calls caller callee)
    (hn : rank.get? caller = some n) : ∃ k < n, rank.get? callee = some k := by
  induction path with
  | single calls => exact lower_of_calls h calls hn
  | tail _ calls ih =>
    obtain ⟨k, lt, hk⟩ := ih
    obtain ⟨l, lt', hl⟩ := lower_of_calls h calls hk
    exact ⟨l, Nat.lt_trans lt' lt, hl⟩

end Ranked

/-- Ranks show that a program has no cycle, whatever its functions without a rank do. -/
theorem acyclic_of_ranked {p : Program} (rank : NameMap Nat) (h : p.ranked rank)
    (main : rank.contains mainName) :
    p.Acyclic := by
  intro name reached again
  obtain ⟨top, htop⟩ := NameMap.contains_iff.mp main
  obtain ⟨n, hn⟩ : ∃ n, rank.get? name = some n := by
    rcases Relation.reflTransGen_iff_eq_or_transGen.mp reached with rfl | path
    · exact ⟨top, htop⟩
    · obtain ⟨n, -, hn⟩ := lower_of_path h path htop
      exact ⟨n, hn⟩
  obtain ⟨k, lt, hk⟩ := lower_of_path h again hn
  obtain rfl : n = k := Option.some.inj (hn.symm.trans hk)
  exact Nat.lt_irrefl n lt

/-- The functions in the middle of a call of `name`, the latest first. -/
structure Active (p : Program) (callers : List Bytes) (name : Bytes) : Prop where
  reached : Relation.ReflTransGen p.Calls mainName name
  leading : ∀ caller ∈ callers, Relation.TransGen p.Calls caller name
  distinct : callers.Nodup
  known : ∀ caller ∈ callers, p.routines.contains caller

namespace Active

variable {p : Program} {callers : List Bytes} {name callee : Bytes}

theorem main (p : Program) : p.Active [] mainName :=
  ⟨.refl, by simp, .nil, by simp⟩

theorem nodup (acyclic : p.Acyclic) (active : p.Active callers name) : (name :: callers).Nodup := by
  refine List.nodup_cons.mpr ⟨fun again => ?_, active.distinct⟩
  exact acyclic name active.reached (active.leading name again)

theorem enter (acyclic : p.Acyclic) (active : p.Active callers name) (calls : p.Calls name callee) :
    p.Active (name :: callers) callee := by
  refine ⟨active.reached.tail calls, ?_, active.nodup acyclic, ?_⟩
  · intro caller hcaller
    rcases List.mem_cons.mp hcaller with rfl | hcaller
    · exact .single calls
    · exact (active.leading caller hcaller).tail calls
  · intro caller hcaller
    rcases List.mem_cons.mp hcaller with rfl | hcaller
    · obtain ⟨routine, _, found, _⟩ := calls
      exact NameMap.contains_iff.mpr ⟨routine, found⟩
    · exact active.known caller hcaller

theorem length_lt (acyclic : p.Acyclic) (active : p.Active callers name)
    (known : p.routines.contains name) :
    callers.length < p.routines.size := by
  have among : name :: callers ⊆ p.routines.keys := by
    intro caller hcaller
    have hknown : p.routines.contains caller := by
      rcases List.mem_cons.mp hcaller with rfl | hcaller
      · exact known
      · exact active.known caller hcaller
    exact NameMap.mem_keys_iff.mpr (NameMap.contains_iff.mp hknown)
  -- The functions in the middle of a call are all different, and they are among those of the
  have le := (List.subperm_of_subset (active.nodup acyclic) among).length_le
  rw [List.length_cons, NameMap.keys, List.length_map] at le
  exact le

end Active

end Program

namespace Machine

variable {m : Machine} {sink : Sink}

theorem Reaches.active (acyclic : m.program.Acyclic) {p : RunPoint} (h : m.Reaches sink p) :
    ∃ callers routine, m.program.Active callers p.func ∧ callers.length + 1 = p.depth ∧
      m.program.routines.get? p.func = some routine ∧ p.code ⊆ routine.code := by
  induction h with
  | start found _ => exact ⟨[], _, .main _, rfl, found, List.Subset.refl _⟩
  | next _ _ ih =>
    obtain ⟨callers, routine, active, depth, found, among⟩ := ih
    exact ⟨callers, routine, active, depth, found, List.subset_of_cons_subset among⟩
  | @enter func depth index offset name rest s routine' _ found' _ ih =>
    obtain ⟨callers, routine, active, depth, found, among⟩ := ih
    have calls : m.program.Calls func name := ⟨routine, offset, found, among List.mem_cons_self⟩
    exact ⟨func :: callers, routine', active.enter acyclic calls, by simpa using depth, found',
      List.Subset.refl _⟩

theorem depth_le_of_acyclic (acyclic : m.program.Acyclic) {p : RunPoint} (h : m.Reaches sink p) :
    p.depth ≤ m.program.routines.size := by
  obtain ⟨callers, routine, active, depth, found, -⟩ := h.active acyclic
  have := active.length_lt acyclic (NameMap.contains_iff.mpr ⟨routine, found⟩)
  omega

theorem depth_lt_of_acyclic (acyclic : m.program.Acyclic) {p : RunPoint} {offset : Int}
    {callee : Bytes} (h : m.Reaches sink p) (calls : (offset, .call callee) ∈ p.code)
    (known : m.program.routines.contains callee) :
    p.depth < m.program.routines.size := by
  obtain ⟨callers, routine, active, depth, found, among⟩ := h.active acyclic
  have entered := active.enter acyclic ⟨routine, offset, found, among calls⟩
  have := entered.length_lt acyclic known
  rw [List.length_cons] at this
  omega

theorem not_tooDeep_of_acyclic (acyclic : m.program.Acyclic)
    (wide : m.program.routines.size ≤ m.limit) {o : Outcome} (h : m.Ends sink o) : ¬ o.TooDeep := by
  rintro ⟨callee, depth, fault⟩
  obtain ⟨fuel, run⟩ := h
  cases m.concludes_callAt run with
  | missing _ => simp [RunState.fail] at fault
  | refused known forbidden =>
    have := (Program.Active.main m.program).length_lt acyclic known
    have := (forbids_eq_true.mp forbidden).2
    omega
  | @ran taken o _ takes =>
    obtain ⟨step, earlier, rfl, overreaches, -⟩ := Closes.exists_last (fault ▸ takes.closes)
    obtain ⟨p, reached, taken⟩ := traced_run run step (by simp [takes.steps])
    obtain ⟨entry, head, rfl⟩ := Option.map_eq_some_iff.mp taken
    have calls : (entry.1, .call callee) ∈ p.code := overreaches.calls ▸ List.mem_of_mem_head? head
    have := depth_lt_of_acyclic acyclic reached calls overreaches.known
    have beyond : m.limit < (p.depth + 1 : Nat) := (forbids_eq_true.mp overreaches.tooDeep).2
    omega

/-- Without a cycle of calls a run ends, at depths up to the number of functions, and every limit
from that number on leaves it as it is. -/
theorem acyclic_run_needs_no_limit {program : Program} (acyclic : program.Acyclic) (sink : Sink) :
    ∃ o, (Machine.mk program 0).Ends sink o ∧
      (∀ step ∈ o.1.steps, step.depth ≤ program.routines.size) ∧
      ¬ o.TooDeep ∧ ∀ limit : Int, program.routines.size ≤ limit →
        (Machine.mk program limit).Ends sink o := by
  have unlimited {limit : Int} (wide : program.routines.size ≤ limit) {o : Outcome}
      (h : (Machine.mk program limit).Ends sink o) : (Machine.mk program 0).Ends sink o := by
    obtain ⟨fuel, run⟩ := h
    have within := not_tooDeep_of_acyclic (m := ⟨program, limit⟩) acyclic wide ⟨fuel, run⟩
    exact ⟨fuel, (callAt_cut program (by simp [forbids]) fuel 1 _ _ _ run).same within⟩
  have wide : (program.routines.size : Int) ≤ program.routines.size + 1 := by omega
  obtain ⟨o, ends⟩ :=
    exists_ends (m := ⟨program, program.routines.size + 1⟩) (by dsimp only; omega) sink
  refine ⟨o, unlimited wide ends, ?_, not_tooDeep_of_acyclic acyclic wide ends,
    fun limit wider => ?_⟩
  · intro step hstep
    obtain ⟨fuel, run⟩ := ends
    obtain ⟨p, reached, taken⟩ := traced_run run step hstep
    obtain ⟨entry, -, rfl⟩ := Option.map_eq_some_iff.mp taken
    exact depth_le_of_acyclic acyclic reached
  · by_cases zero : limit = 0
    · rw [zero]
      exact unlimited wide ends
    · obtain ⟨o', ends'⟩ := exists_ends (m := ⟨program, limit⟩) zero sink
      rwa [(unlimited wide ends).unique (unlimited wider ends')]

/-- Two functions lead to a third in turn, a callee is missing, and a function that is never called
calls itself. -/
def layeredProgram : Program :=
  ⟨0, .ofList [
    (mainName, ⟨19, [(0, .call (bytes "a")), (4, .push (bytes "x")), (8, .call (bytes "b")),
      (12, .call (bytes "gone"))]⟩),
    (bytes "a", ⟨8, [(0, .push (bytes "y")), (4, .call (bytes "b"))]⟩),
    (bytes "b", ⟨1, [(0, .write)]⟩),
    (bytes "spin", ⟨7, [(0, .call (bytes "spin"))]⟩)]⟩

theorem layeredProgram_needs_no_limit :
    layeredProgram.Acyclic ∧ ∃ o, (Machine.mk layeredProgram 0).Ends .unbounded o ∧
      (Machine.mk layeredProgram 4).Ends .unbounded o ∧ (∀ step ∈ o.1.steps, step.depth ≤ 4) ∧
      o.1.sink.writes = [bytes "y", bytes "x"] ∧
      o.2.map RunError.fault = some (.notFound (bytes "gone")) := by
  have acyclic : layeredProgram.Acyclic :=
    Program.acyclic_of_ranked (.ofList [(mainName, 3), (bytes "a", 2), (bytes "b", 1),
      (bytes "gone", 0)])
      (by decide +kernel) (by decide +kernel)
  have size : layeredProgram.routines.size = 4 := by decide +kernel
  have shown : ((Machine.mk layeredProgram 0).run 4 .unbounded).map
      (fun o => (o.1.sink.writes, o.2.map RunError.fault)) =
        some ([bytes "y", bytes "x"], some (.notFound (bytes "gone"))) := by
    decide +kernel
  obtain ⟨o, run, same⟩ := Option.map_eq_some_iff.mp shown
  obtain ⟨writes, fault⟩ := Prod.mk.inj same
  obtain ⟨o', ends, depths, -, limited⟩ := acyclic_run_needs_no_limit acyclic .unbounded
  obtain rfl := ends.unique ⟨4, run⟩
  rw [size] at depths limited
  exact ⟨acyclic, o', ends, limited 4 (by decide), depths, writes, fault⟩

end Machine

end StackLang
