import StackLang.Proofs.CompiledProgram
import StackLang.Proofs.RunPoints

namespace StackLang

/-- The machine can execute the instruction; if it is a call, the program has the callee. -/
def Program.Supports (p : Program) : Instr → Prop
  | .write => True
  | .push _ => True
  | .call name => p.routines.contains name
  | .other _ _ => False
  | .absent => False

def Program.Closed (p : Program) : Prop :=
  ∀ name routine, p.routines.get? name = some routine → ∀ e ∈ routine.code, p.Supports e.2

/-- The faults of a program that does not go wrong: popping from an empty stack, a refused write,
and under a limit a call that is too deep. -/
def RunFault.Expected (limit : Int) (fault : RunFault) : Prop :=
  fault = .underflow ∨ fault = .refused ∨ limit ≠ 0 ∧ ∃ name depth, fault = .tooDeep name depth

structure Outcome.Safe (limit : Int) (o : Outcome) : Prop where
  texts : .empty ∉ o.1.stack
  expected : ∀ e, o.2 = some e → e.fault.Expected limit

theorem Program.Implements.closed {p : Program} {f : File} (implements : p.Implements f)
    (readable : f.Readable) :
    p.Closed := by
  intro name routine found e he
  have mem : e.2 ∈ routine.code.map (·.2) := List.mem_map_of_mem he
  rcases (implements.defines name _).mpr ⟨routine, found, rfl⟩ with builtin | ⟨fn, hfn, -, lowered⟩
  · have simple : ∀ b ∈ Builtin.table, ∀ i ∈ b.2, i = .write ∨ i = .push [Ascii.newline] := by
      decide +kernel
    rcases simple _ builtin _ mem with same | same <;> simp [same, Supports]
  · rw [← lowered] at mem
    have emitted := Func.emitted_lowered (readable fn hfn) _ mem
    cases instr : e.2 with
    | call callee => exact implements.called fn hfn callee (instr ▸ mem)
    | push text => trivial
    | write => trivial
    | other kind op => simp [instr, Instr.Emitted] at emitted
    | absent => simp [instr, Instr.Emitted] at emitted

theorem RunState.safe_write {s : RunState} (limit : Int) (texts : .empty ∉ s.stack) :
    Outcome.Safe limit s.write := by
  have ways := s.writes_cases
  generalize s.write = o at ways ⊢
  cases ways with
  | underflow _ => exact ⟨texts, by rintro _ ⟨⟩; exact .inl rfl⟩
  | unwritable top => simp [top] at texts
  | refused top _ =>
    rw [top] at texts
    exact ⟨fun below => texts (List.mem_cons_of_mem _ below), by rintro _ ⟨⟩; exact .inr (.inl rfl)⟩
  | accepted top _ =>
    rw [top] at texts
    exact ⟨fun below => texts (List.mem_cons_of_mem _ below), by rintro _ ⟨⟩⟩

namespace Machine

/-- What one step keeps. -/
theorem safe_exec {p : Program} {limit : Int} {enter : Enter}
    (callee : ∀ {name s o}, enter name s = some o → p.routines.contains name → .empty ∉ s.stack →
      Outcome.Safe limit o) {s : RunState} {i : Instr} {o : Outcome} (h : exec enter s i = some o)
    (supported : p.Supports i) (texts : .empty ∉ s.stack) : Outcome.Safe limit o := by
  cases i with
  | call name => exact callee h supported texts
  | write =>
    cases h
    exact s.safe_write limit texts
  | push text =>
    cases h
    exact ⟨by simpa using texts, by rintro _ ⟨⟩⟩
  | other kind op => exact supported.elim
  | absent => exact supported.elim

theorem safe_runCode {p : Program} {limit : Int} {enter : Enter}
    (callee : ∀ {name s o}, enter name s = some o → p.routines.contains name → .empty ∉ s.stack →
      Outcome.Safe limit o)
    {func : Bytes} {depth index : Nat} {code : List (Int × Instr)} {s : RunState} {o : Outcome}
    (h : runCode enter func depth index code s = some o) (supported : ∀ e ∈ code, p.Supports e.2)
    (texts : .empty ∉ s.stack) : Outcome.Safe limit o := by
  induction code generalizing index s with
  | nil =>
    cases h
    exact ⟨texts, by rintro _ ⟨⟩⟩
  | cons entry rest ih =>
    obtain ⟨offset, i⟩ := entry
    have safe {o'} (ran : exec enter (s.before func depth index i) i = some o') :
        Outcome.Safe limit o' :=
      safe_exec callee ran (supported _ List.mem_cons_self) texts
    rcases runCode_cons_cases h with ⟨s', e, ran, rfl⟩ | ⟨s', ran, more⟩
    · exact ⟨(safe ran).texts, by rintro _ ⟨⟩; exact (safe ran).expected e rfl⟩
    · exact ih more (fun e he => supported e (List.mem_cons_of_mem _ he)) (safe ran).texts

theorem safe_callAt {m : Machine} (closed : m.program.Closed) {fuel depth : Nat} {name : Bytes}
    {s : RunState} {o : Outcome} (h : m.callAt fuel depth name s = some o)
    (known : m.program.routines.contains name) (texts : .empty ∉ s.stack) :
    Outcome.Safe m.limit o := by
  induction fuel generalizing depth name s o with
  | zero => cases h
  | succ fuel ih =>
    obtain ⟨routine, found⟩ := NameMap.contains_iff.mp known
    rw [callAt_of_get? found] at h
    split at h
    next forbidden =>
      cases h
      have limited : m.limit ≠ 0 := by
        intro unlimited
        simp [forbids, unlimited] at forbidden
      exact ⟨texts, by rintro _ ⟨⟩; exact .inr (.inr ⟨limited, name, depth, rfl⟩)⟩
    next => exact safe_runCode ih h (closed name routine found) texts

/-- At every point of a run the code that is left is supported and the stack holds texts. -/
theorem safe_reaches {m : Machine} (closed : m.program.Closed) {sink : Sink} {p : RunPoint}
    (h : m.Reaches sink p) : (∀ e ∈ p.code, m.program.Supports e.2) ∧ .empty ∉ p.state.stack := by
  induction h with
  | start found _ => exact ⟨closed _ _ found, by simp⟩
  | next _ ran ih =>
    obtain ⟨supported, texts⟩ := ih
    have safe := safe_exec (safe_callAt closed) ran (supported _ List.mem_cons_self) texts
    exact ⟨fun e he => supported e (List.mem_cons_of_mem _ he), safe.texts⟩
  | enter _ found _ ih => exact ⟨closed _ _ found, ih.2⟩

end Machine

/-- Runs of a compiled text execute only supported instructions, and they fail only as expected. -/
theorem compiled_run_never_goes_wrong {name text image : Bytes}
    (compiled : compile name text = .ok image) :
    ∃ program, Program.load image = .ok program ∧ ∀ (limit : Int) (sink : Sink),
      (∀ func depth index offset i rest s,
        (Machine.mk program limit).Reaches sink ⟨func, depth, index, (offset, i) :: rest, s⟩ →
        program.Supports i ∧ ∀ fuel s' e,
          Machine.exec ((Machine.mk program limit).callAt fuel (depth + 1))
            (s.before func depth index i) i = some (s', some e) → e.fault.Expected limit) ∧
      ∀ fuel o, (Machine.mk program limit).run fuel sink = some o →
        (∀ step ∈ o.1.steps, program.Supports step.instr) ∧ ∀ e, o.2 = some e →
          e.fault.Expected limit := by
  obtain ⟨file, program, -, readable, load, implements⟩ := implements_of_compile compiled
  have closed := implements.closed readable
  refine ⟨program, load, fun limit sink => ⟨?_, ?_⟩⟩
  · intro func depth index offset i rest s reached
    obtain ⟨supported, texts⟩ := Machine.safe_reaches closed reached
    have known := supported _ List.mem_cons_self
    refine ⟨known, fun fuel s' e ran => ?_⟩
    exact (Machine.safe_exec (Machine.safe_callAt closed) ran known texts).expected e rfl
  · intro fuel o run
    refine ⟨?_, ?_⟩
    · intro step hstep
      obtain ⟨p, reached, taken⟩ := Machine.traced_run run step hstep
      obtain ⟨e, he, rfl⟩ := Option.map_eq_some_iff.mp taken
      exact (Machine.safe_reaches closed reached).1 e (List.mem_of_mem_head? he)
    · exact (Machine.safe_callAt closed run implements.contains_main (by simp)).expected

theorem underflowing_run_never_goes_wrong :
    ∃ image program, compile [] (bytes "fn main() \x7b print(); \x7d") = .ok image ∧
      Program.load image = .ok program ∧ ∀ (limit : Int) (sink : Sink) fuel s e,
        (Machine.mk program limit).run fuel sink = some (s, some e) → e.fault.Expected limit := by
  obtain ⟨image, compiled⟩ :
    ∃ image, compile [] (bytes "fn main() \x7b print(); \x7d") = .ok image :=
    ⟨[78, 69, 78, 67, 0, 0, 0, 49, 0, 4, 109, 97, 105, 110, 0, 0, 0, 8, 161, 0, 5, 112, 114, 105,
      110, 116, 0, 5, 112,
      114, 105, 110, 116, 0, 0, 0, 1, 18, 0, 7, 112, 114, 105, 110, 116, 108, 110, 0, 0, 0, 6, 18,
      225, 0, 1, 10, 18], by decide +kernel⟩
  obtain ⟨program, load, safe⟩ := compiled_run_never_goes_wrong compiled
  exact ⟨image, program, compiled, load, fun limit sink fuel s e run =>
    ((safe limit sink).2 fuel _ run).2 e rfl⟩

end StackLang
