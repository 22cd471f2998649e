import StackLang.Proofs.ImageFormat
import StackLang.Proofs.StepDepths

namespace StackLang

/-- The frame names the step's function and the offset of the step's instruction in its code. -/
structure Program.Places (p : Program) (step : Step) (frame : Frame) : Prop where
  func : frame.func = step.func
  instr : ∃ routine, p.routines.get? step.func = some routine ∧
    routine.code[step.index]? = some (frame.offset, step.instr)

namespace Machine

/-- The step executes an instruction that can fail with the fault. -/
def Raises (m : Machine) (step : Step) : RunFault → Prop
  | .underflow => step.instr = .write
  | .refused => step.instr = .write
  | .unwritable => step.instr = .write
  | .unsupported kind => (∃ op, step.instr = .other kind op) ∨ step.instr = .absent
  | .notFound name => step.instr = .call name ∧ ¬ m.program.routines.contains name
  | .tooDeep name depth => step.instr = .call name ∧ m.program.routines.contains name ∧
      depth = step.depth + 1 ∧ m.forbids depth

/-- The steps of a call, latest first, that end with a fault, and the frames of the error. -/
inductive Unwinds (m : Machine) (fault : RunFault) :
    (depth : Nat) → (func : Bytes) → List Step → List Frame → Prop
  | here {depth func step earlier frame} : step.depth = depth → step.func = func →
      m.program.Places step frame →
      m.Raises step fault → Unwinds m fault depth func (step :: earlier) [frame]
  | inside {depth func step earlier frame callee taken path} :
      step.depth = depth → step.func = func →
      m.program.Places step frame → step.instr = .call callee → (∀ t ∈ taken, depth < t.depth) →
      Unwinds m fault (depth + 1) callee taken path →
      Unwinds m fault depth func (taken ++ step :: earlier) (frame :: path)

namespace Unwinds

variable {m : Machine} {fault : RunFault} {depth : Nat} {func : Bytes} {taken : List Step}
variable {path : List Frame}

theorem after (h : m.Unwinds fault depth func taken path) (earlier : List Step) :
    m.Unwinds fault depth func (taken ++ earlier) path := by
  cases h with
  | here atDepth ofFunc places raises => exact .here atDepth ofFunc places raises
  | inside atDepth ofFunc places calls deeper callee =>
    rw [List.append_assoc, List.cons_append]
    exact .inside atDepth ofFunc places calls deeper callee

theorem first (h : m.Unwinds fault depth func taken path) :
    path.head?.map Frame.func = some func := by
  cases h with
  | here _ ofFunc places _ => simp [places.func, ofFunc]
  | inside _ ofFunc places _ _ _ => simp [places.func, ofFunc]

/-- The latest step is the one that fails, the last frame is its, and there are as many frames as
calls going on. -/
theorem last (h : m.Unwinds fault depth func taken path) :
    ∃ step earlier frame, taken = step :: earlier ∧ m.Raises step fault ∧
      path.getLast? = some frame ∧
      m.program.Places step frame ∧ depth + path.length = step.depth + 1 := by
  induction h with
  | @here depth func step earlier frame atDepth ofFunc places raises =>
    exact ⟨step, earlier, frame, rfl, raises, rfl, places, by simp [atDepth]⟩
  | inside _ _ _ _ _ _ ih =>
    obtain ⟨step, earlier, frame, rfl, raises, ends, places, frames⟩ := ih
    refine ⟨step, _, frame, rfl, raises, ?_, places, ?_⟩
    · rw [List.getLast?_cons, ends]
      rfl
    · rw [List.length_cons]
      omega

/-- Each frame is that of the latest step at its depth, and the next frame that of its callee. -/
theorem frame (h : m.Unwinds fault depth func taken path) {k : Nat} {frame : Frame}
    (found : path[k]? = some frame) :
    ∃ step, taken.find? (fun step => step.depth = depth + k) = some step ∧
      m.program.Places step frame ∧
      ∀ next, path[k + 1]? = some next → step.instr = .call next.func := by
  induction h generalizing k with
  | @here depth func step earlier own atDepth ofFunc places raises =>
    cases k with
    | zero =>
      obtain rfl : own = frame := by simpa using found
      exact ⟨step, by simp [atDepth], places, by simp⟩
    | succ k => simp at found
  | @inside depth func step earlier own callee taken path atDepth ofFunc places calls
      deeper below ih =>
    cases k with
    | zero =>
      obtain rfl : own = frame := by simpa using found
      refine ⟨step, ?_, places, fun next hnext => ?_⟩
      · have absent : taken.find? (fun step => step.depth = depth + 0) = none := by
          apply List.find?_eq_none.mpr
          intro t ht
          have := deeper t ht
          simp only [decide_eq_true_eq]
          omega
        rw [List.find?_append, absent, Option.none_or]
        exact List.find?_cons_of_pos (by simp [atDepth])
      · have head : path.head? = some next := by simpa [List.head?_eq_getElem?] using hnext
        have name := below.first
        rw [head] at name
        rw [calls, Option.some.inj name]
    | succ k =>
      obtain ⟨inner, latest, placed, next⟩ := ih (k := k) (by simpa using found)
      have same : depth + 1 + k = depth + (k + 1) := by omega
      rw [same] at latest
      exact ⟨inner, by simp [List.find?_append, latest], placed, by simpa using next⟩

end Unwinds

/-- The ways in which a call at `depth` fails: without a function, without a step, or inside. -/
inductive FailsBy (m : Machine) (depth : Nat) (name : Bytes) (s : RunState) :
    RunState → RunError → Prop
  | missing : ¬ m.program.routines.contains name → FailsBy m depth name s s ⟨[], .notFound name⟩
  | refused : m.program.routines.contains name → m.forbids depth →
      FailsBy m depth name s s ⟨[], .tooDeep name depth⟩
  | inside {taken s' e} : s'.steps = taken ++ s.steps → (∀ t ∈ taken, depth ≤ t.depth) →
      m.Unwinds e.fault depth name taken e.path → FailsBy m depth name s s' e

section Code

variable {m : Machine} {func : Bytes} {depth index : Nat} {offset : Int} {i : Instr}
variable {s s' : RunState} {e : RunError}

theorem unwinds_here {s₀ : RunState} {fault : RunFault}
    (places : m.program.Places ⟨func, index, i, s.stack.length, depth⟩ ⟨func, offset⟩)
    (raises : m.Raises ⟨func, index, i, s.stack.length, depth⟩ fault)
    (steps : s₀.steps = (s.before func depth index i).steps) :
    ∃ taken, s₀.steps = taken ++ s.steps ∧ (∀ t ∈ taken, depth ≤ t.depth) ∧
      m.Unwinds fault depth func taken [⟨func, offset⟩] :=
  ⟨[⟨func, index, i, s.stack.length, depth⟩], steps, by simp, .here rfl rfl places raises⟩

theorem unwinds_exec {enter : Enter}
    (callee : ∀ {name s s' e}, enter name s = some (s', some e) → m.FailsBy (depth + 1) name s s' e)
    (places : m.program.Places ⟨func, index, i, s.stack.length, depth⟩ ⟨func, offset⟩)
    (h : exec enter (s.before func depth index i) i = some (s', some e)) :
    ∃ taken, s'.steps = taken ++ s.steps ∧ (∀ t ∈ taken, depth ≤ t.depth) ∧
      m.Unwinds e.fault depth func taken (⟨func, offset⟩ :: e.path) := by
  cases i with
  | call name =>
    cases callee h with
    | missing unknown => exact unwinds_here places ⟨rfl, unknown⟩ rfl
    | refused known forbidden => exact unwinds_here places ⟨rfl, known, rfl, forbidden⟩ rfl
    | @inside taken _ _ steps deeper unwinds =>
      refine ⟨taken ++ [⟨func, index, .call name, s.stack.length, depth⟩], ?_, ?_, ?_⟩
      · rw [steps, List.append_assoc]
        rfl
      · intro t ht
        rcases List.mem_append.mp ht with inner | own
        · have := deeper t inner
          omega
        · rw [List.mem_singleton.mp own]
      · exact .inside rfl rfl places rfl deeper unwinds
  | write =>
    have ways := (s.before func depth index .write).writes_cases
    rw [Option.some.inj h] at ways
    cases ways with
    | underflow _ => exact unwinds_here places rfl rfl
    | unwritable _ => exact unwinds_here places rfl rfl
    | refused _ _ => exact unwinds_here places rfl rfl
  | push text => cases h
  | other kind op =>
    cases h
    exact unwinds_here places (.inl ⟨op, rfl⟩) rfl
  | absent =>
    cases h
    exact unwinds_here places (.inr rfl) rfl

theorem unwinds_runCode {fuel : Nat} (allowed : ¬ m.forbids depth)
    (callee : ∀ {name s s' e}, m.callAt fuel (depth + 1) name s = some (s', some e) →
      m.FailsBy (depth + 1) name s s' e) {routine : Routine}
    (found : m.program.routines.get? func = some routine) {code : List (Int × Instr)}
    (left : routine.code.drop index = code)
    (h : runCode (m.callAt fuel (depth + 1)) func depth index code s = some (s', some e)) :
    ∃ taken, s'.steps = taken ++ s.steps ∧ (∀ t ∈ taken, depth ≤ t.depth) ∧
      m.Unwinds e.fault depth func taken e.path := by
  induction code generalizing index s with
  | nil => cases h
  | cons entry rest ih =>
    obtain ⟨offset, i⟩ := entry
    have here : routine.code[index]? = some (offset, i) := by
      rw [← List.head?_drop, left, List.head?_cons]
    rcases runCode_cons_cases h with ⟨s₁, e₁, ran, same⟩ | ⟨s₁, ran, more⟩
    · cases same
      exact unwinds_exec callee ⟨rfl, routine, found, here⟩ ran
    · have next : routine.code.drop (index + 1) = rest := by
        rw [← List.tail_drop, left, List.tail_cons]
      obtain ⟨earlier, takes⟩ := takes_exec allowed (concludes_callAt m) ran
      obtain ⟨taken, steps, deeper, unwinds⟩ := ih next more
      refine ⟨taken ++ earlier, ?_, ?_, unwinds.after earlier⟩
      · rw [steps, takes.steps, List.append_assoc]
      · intro t ht
        rcases List.mem_append.mp ht with later | before
        · exact deeper t later
        · exact (takes.depths t before).1

end Code

theorem failsBy_callAt (m : Machine) {fuel depth : Nat} {name : Bytes} {s s' : RunState}
    {e : RunError} (h : m.callAt fuel depth name s = some (s', some e)) :
    m.FailsBy depth name s s' e := by
  induction fuel generalizing depth name s s' e with
  | zero => cases h
  | succ fuel ih =>
    rcases callAt_cases h with ⟨missing, same⟩ |
      ⟨routine, found, ⟨forbidden, same⟩ | ⟨allowed, run⟩⟩
    · cases same
      exact .missing (by simp [NameMap.contains, missing])
    · cases same
      exact .refused (NameMap.contains_iff.mpr ⟨routine, found⟩) forbidden
    · obtain ⟨taken, steps, deeper, unwinds⟩ := unwinds_runCode allowed ih found List.drop_zero run
      exact .inside steps deeper unwinds

theorem allowed_of_run {m : Machine} {fuel : Nat} {sink : Sink} {o : Outcome}
    (h : m.run fuel sink = some o) :
    ∀ step ∈ o.1.steps, ¬ m.forbids step.depth := by
  cases concludes_callAt m h with
  | missing _ => simp [RunState.fail]
  | refused _ _ => simp [RunState.fail]
  | @ran taken o _ takes =>
    have all : o.1.steps = taken := by simpa using takes.steps
    rw [all]
    exact fun step hstep => (takes.depths step hstep).2

/-- Runs push texts only, so there is never another value to write. -/
theorem invariant_texts :
    Invariant (fun s => .empty ∉ s.stack) fun _ fault => fault ≠ .unwritable where
  call func depth index name h := h
  push {s} func depth index text h := by simpa [RunState.before] using h
  write {s} func depth index h := by
    have ways := (s.before func depth index .write).writes_cases
    generalize (s.before func depth index .write).write = o at ways ⊢
    have texts : .empty ∉ (s.before func depth index .write).stack := h
    cases ways with
    | underflow empty => simp [Outcome.Meets, RunState.fail]
    | unwritable top => simp [top] at texts
    | refused top full => simp [Outcome.Meets, RunState.fail]
    | accepted top written =>
      rw [top] at texts
      exact fun below => texts (List.mem_cons_of_mem _ below)
  unsupported func depth index i kind h := by simp
  missing name h := by simp
  tooDeep name depth h := by simp

end Machine

theorem Program.loadable_of_load {data : Bytes} {program : Program}
    (h : Program.load data = .ok program) {name : Bytes} {routine : Routine}
    (found : program.routines.get? name = some routine) :
    ∀ e ∈ routine.code, Image.LoadableInstr e.2 := by
  obtain ⟨field, entries, -, -, rfl⟩ := Image.load_eq_ok_iff.mp h
  rw [Image.get?_entriesTable] at found
  obtain ⟨entry, -, rfl⟩ := Option.map_eq_some_iff.mp found
  intro e he
  have mem : e.2 ∈ entry.routine.code.map (·.2) := List.mem_map_of_mem he
  rw [entry.routine_instrs] at mem
  exact entry.code_loadable e.2 mem

theorem Program.contains_main_of_load {data : Bytes} {program : Program}
    (h : Program.load data = .ok program) :
    program.routines.contains mainName := by
  obtain ⟨field, entries, -, main, rfl⟩ := Image.load_eq_ok_iff.mp h
  exact NameMap.contains_iff.mpr (NameMap.mem_keys_iff.mp (Image.mem_keys_entriesTable.mpr main))

/-- The error of a failed run of a loaded program has a frame for each call that was going on. The
frame is that of the latest step at its depth: a call of the next frame's function or, in the last
frame, the instruction that failed. -/
theorem run_error_backtrace {data : Bytes} {program : Program}
    (loaded : Program.load data = .ok program) {limit : Int} (nonneg : 0 ≤ limit) {sink : Sink}
    {fuel : Nat} {s : RunState} {e : RunError}
    (failed : (Machine.mk program limit).run fuel sink = some (s, some e)) :
    ∃ last earlier, s.steps = last :: earlier ∧ e.path.length = last.depth ∧
      e.path.head?.map Frame.func = some mainName ∧
      (∀ (k : Nat) (frame : Frame), e.path[k]? = some frame →
        ∃ step, s.steps.find? (fun step => step.depth = k + 1) = some step ∧
          program.Places step frame ∧
          ∀ next, e.path[k + 1]? = some next → step.instr = .call next.func) ∧
      (∃ frame, e.path.getLast? = some frame ∧ program.Places last frame) ∧
      match e.fault with
      | .underflow => last.instr = .write
      | .refused => last.instr = .write
      | .notFound name => last.instr = .call name ∧ ¬ program.routines.contains name
      | .tooDeep name depth =>
        last.instr = .call name ∧ program.routines.contains name ∧ 0 < limit ∧
          limit = last.depth ∧ depth = last.depth + 1
      | .unwritable => False
      | .unsupported _ => False := by
  have main := Program.contains_main_of_load loaded
  have enters : ¬ (Machine.mk program limit).forbids 1 := by
    rw [Machine.forbids_eq_true]
    dsimp only
    omega
  cases Machine.failsBy_callAt _ failed with
  | missing unknown => exact absurd main unknown
  | refused _ forbidden => exact absurd forbidden enters
  | @inside taken _ _ steps deeper unwinds =>
    obtain ⟨last, earlier, frame, rfl, raises, ends, places, frames⟩ := unwinds.last
    have all : s.steps = last :: earlier := by simpa using steps
    have allowed := Machine.allowed_of_run failed last (by simp [all])
    rw [all]
    refine ⟨last, earlier, rfl, by omega, unwinds.first, ?_, ⟨frame, ends, places⟩, ?_⟩
    · intro k frame found
      have := unwinds.frame found
      rwa [Nat.add_comm] at this
    · have writable : e.fault ≠ .unwritable := Machine.invariant_texts.callAt failed (by simp)
      generalize e.fault = fault at raises writable ⊢
      cases fault with
      | underflow => exact raises
      | refused => exact raises
      | notFound name => exact raises
      | tooDeep name depth =>
        obtain ⟨calls, known, rfl, forbidden⟩ := raises
        rw [Machine.forbids_eq_true] at allowed forbidden
        dsimp only at allowed forbidden
        refine ⟨calls, known, ?_, ?_, rfl⟩
        · omega
        · omega
      | unwritable => exact writable rfl
      | unsupported kind =>
        obtain ⟨routine, found, here⟩ := places.instr
        have loadable := Program.loadable_of_load loaded found _ (List.mem_of_getElem? here)
        rcases raises with ⟨op, other⟩ | absent
        · simp [other, Image.LoadableInstr] at loadable
        · simp [absent, Image.LoadableInstr] at loadable

/-- The main function calls another, which writes and then calls itself. -/
def descendingEntries : List Image.Entry :=
  [⟨mainName, [.push (bytes "x"), .call (bytes "down")], by decide, by decide, by decide⟩,
    ⟨bytes "down", [.push (bytes "y"), .write,
      .call (bytes "down")], by decide, by decide, by decide⟩]

theorem descendingEntries_backtrace :
    ∃ data program s e, Program.load data = .ok program ∧
      (Machine.mk program 3).run 4 .unbounded = some (s, some e) ∧
      e = ⟨[⟨mainName, 4⟩, ⟨bytes "down", 5⟩, ⟨bytes "down", 5⟩], .tooDeep (bytes "down") 4⟩ ∧
      ∃ last earlier, s.steps = last :: earlier ∧ last.instr = .call (bytes "down") ∧
        e.path.length = last.depth := by
  have loaded : Program.load (Image.magic ++ [0, 0, 0, 0] ++ Image.entriesForm descendingEntries) =
      .ok ⟨0, Image.entriesTable descendingEntries⟩ :=
    Image.load_eq_ok_iff.mpr ⟨[0, 0, 0, 0], descendingEntries, ⟨rfl, rfl⟩, by decide, rfl⟩
  have deep :
      ((Machine.mk ⟨0, Image.entriesTable descendingEntries⟩ 3).run 4 .unbounded).map (·.2) =
        some (some ⟨[⟨mainName, 4⟩, ⟨bytes "down", 5⟩, ⟨bytes "down", 5⟩],
          .tooDeep (bytes "down") 4⟩) := by
    decide +kernel
  obtain ⟨⟨s, failure⟩, run, rfl⟩ := Option.map_eq_some_iff.mp deep
  obtain ⟨last, earlier, steps, frames, -, -, -, calls, -⟩ :=
    run_error_backtrace loaded (by decide) run
  exact ⟨_, _, s, _, loaded, run, rfl, last, earlier, steps, calls, frames⟩

end StackLang
