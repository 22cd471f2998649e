import StackLang.Compile
import StackLang.Proofs.BuiltNamespace
import StackLang.Proofs.ImageRoundTrip
import StackLang.Proofs.ReadableTrees

namespace StackLang

/-- What lowering emits for a tree that was read from a text. -/
def Instr.Emitted : Instr → Prop
  | push text => Utf8.valid text
  | call name => Utf8.valid name
  | _ => False

theorem Instr.Emitted.validOperand {i : Instr} (h : i.Emitted) : Image.ValidOperand i := by
  cases i with
  | push text => exact h
  | call name => exact h
  | write => trivial
  | other kind op => trivial
  | absent => trivial

mutual

theorem Expr.emitted_lowered : (e : Expr) → e.Readable → ∀ i ∈ e.lowered, i.Emitted
  | .literal _ value, .literal valid => by simpa [Expr.lowered, Instr.Emitted] using valid
  | .call _ name args, .call valid readable => by
    intro i hi
    rcases List.mem_append.mp hi with hi | hi
    · exact Expr.emitted_loweredAll args readable i hi
    · obtain rfl : i = .call name := by simpa using hi
      exact valid

theorem Expr.emitted_loweredAll : (exprs : List Expr) → (∀ e ∈ exprs, e.Readable) →
    ∀ i ∈ Expr.loweredAll exprs, i.Emitted
  | [], _ => by simp [Expr.loweredAll]
  | e :: rest, readable => by
    intro i hi
    rcases List.mem_append.mp hi with hi | hi
    · exact Expr.emitted_lowered e (readable e (by simp)) i hi
    · exact Expr.emitted_loweredAll rest (fun a ha => readable a (by simp [ha])) i hi

end

theorem Func.emitted_lowered {f : Func} (h : f.Readable) : ∀ i ∈ f.lowered, i.Emitted := by
  intro i hi
  obtain ⟨s, hs, hi⟩ := List.mem_flatMap.mp hi
  have readable := h.2 s hs
  cases s with
  | expr pos value => exact value.emitted_lowered readable i hi
  | foreign value => exact readable.elim

namespace Builtin

theorem loadable_table : ∀ b ∈ table, ∀ i ∈ b.2, Image.LoadableInstr i := by
  decide +kernel

theorem template_eq_codeForm {code : List Instr} (loadable : ∀ i ∈ code, Image.LoadableInstr i) :
    code.flatMap (fun i => (i.append []).1) = Image.codeForm code := by
  have form : ∀ i ∈ code, (i.append []).1 = Image.instrForm i := by
    intro i hi
    have encoded :=
      Image.encode_instr_eq_ok_iff.mpr ⟨(Image.loadableInstr_iff.mp (loadable i hi)).1, rfl⟩
    cases operand : i.operand with
    | error e => simp [Instr.encode, operand, Except.map] at encoded
    | ok text => simpa [Instr.append, Instr.encode, operand, Except.map] using encoded
  rw [Image.codeForm, List.flatMap_def, List.flatMap_def, List.map_congr_left form]

theorem code_of_template {name template : Bytes} (h : templates.get? name = some template) :
    ∃ code, (name, code) ∈ table ∧ template = Image.codeForm code := by
  obtain ⟨b, mem, same⟩ := List.mem_map.mp (NameMap.mem_of_get?_ofList h)
  cases same
  exact ⟨b.2, mem, template_eq_codeForm (loadable_table b mem)⟩

theorem code_unique {name : Bytes} {a b : List Instr} (ha : (name, a) ∈ table)
    (hb : (name, b) ∈ table) :
    a = b := by
  have distinct : (table.map (·.1)).Nodup := by decide +kernel
  cases List.inj_on_of_nodup_map distinct ha hb rfl
  rfl

end Builtin

/-- The name stands for the code: it is a built-in function or a function of the file. -/
def File.Defines (f : File) (name : Bytes) (code : List Instr) : Prop :=
  (name, code) ∈ Builtin.table ∨ ∃ fn ∈ f.funcs, fn.name = name ∧ fn.lowered = code

structure Program.Implements (p : Program) (f : File) : Prop where
  defines : ∀ name code, f.Defines name code ↔
    ∃ routine, p.routines.get? name = some routine ∧ routine.code.map (·.2) = code
  called : ∀ fn ∈ f.funcs, ∀ name, .call name ∈ fn.lowered → p.routines.contains name
  main : ∃ fn ∈ f.funcs, fn.name = mainName

theorem Program.Implements.contains_main {p : Program} {f : File} (implements : p.Implements f) :
    p.routines.contains mainName := by
  obtain ⟨fn, hfn, name⟩ := implements.main
  obtain ⟨routine, found, -⟩ :=
    (implements.defines mainName fn.lowered).mp (.inr ⟨fn, hfn, name, rfl⟩)
  exact NameMap.contains_iff.mpr ⟨routine, found⟩

theorem File.Resolved.validTexts {f : File} {ns : Namespace} (resolved : f.Resolved ns)
    (readable : f.Readable) :
    Image.ValidTexts Builtin.templates ns := by
  have built := resolved.built
  refine ⟨?_, ?_, ?_⟩
  · intro name hname
    obtain ⟨e, he⟩ := NameMap.mem_keys_iff.mp hname
    rcases built.only name e he with ⟨-, builtin⟩ | ⟨fn, hfn, rfl, -⟩ | rfl
    · have valid : ∀ name ∈ Builtin.names, Utf8.valid name := by decide +kernel
      exact valid name builtin
    · exact (readable fn hfn).1
    · exact absurd he (resolved.complete name)
  · intro name body he i hi
    rcases built.only name _ he with ⟨wrong, -⟩ | ⟨fn, hfn, -, same⟩ | wrong
    · cases wrong
    · cases same
      exact (Func.emitted_lowered (readable fn hfn) i hi).validOperand
    · cases wrong
  · intro name template _ found
    obtain ⟨code, mem, rfl⟩ := Builtin.code_of_template found
    have loadable := Builtin.loadable_table _ mem
    exact ⟨code, Image.encodeBody_eq_ok_iff.mpr
      ⟨fun i hi => (Image.loadableInstr_iff.mp (loadable i hi)).1, rfl⟩,
      fun i hi => (Image.loadableInstr_iff.mp (loadable i hi)).2⟩

/-- The program that stores a resolved namespace implements the file. -/
theorem File.Resolved.implements {f : File} {ns : Namespace} (resolved : f.Resolved ns)
    {program : Program} (keys : program.routines.keys = ns.keys)
    (stored : ∀ name element, ns.get? name = some element →
      ∃ r, Image.Stores Builtin.templates (name, element) r ∧
        program.routines.get? name = some r.routine) :
    program.Implements f := by
  have built := resolved.built
  refine ⟨fun name code => ⟨?_, ?_⟩, ?_, resolved.main⟩
  · rintro (builtin | ⟨fn, hfn, rfl, rfl⟩)
    · have listed : name ∈ Builtin.names := List.mem_map_of_mem builtin
      obtain ⟨r, ⟨-, template⟩, found⟩ := stored name _ (built.builtin name listed)
      obtain ⟨code', mem, form⟩ := Builtin.code_of_template template
      obtain rfl := Builtin.code_unique builtin mem
      have same := Image.codeForm_injective r.code_loadable (Builtin.loadable_table _ builtin) form
      exact ⟨r.routine, found, by rw [r.routine_instrs, same]⟩
    · obtain ⟨r, ⟨-, code⟩, found⟩ := stored fn.name _ (built.func fn hfn)
      exact ⟨r.routine, found, by rw [r.routine_instrs, code]⟩
  · rintro ⟨routine, found, rfl⟩
    obtain ⟨element, he⟩ : ∃ e, ns.get? name = some e := by
      rw [← NameMap.mem_keys_iff, ← keys, NameMap.mem_keys_iff]
      exact ⟨routine, found⟩
    obtain ⟨r, ⟨-, code⟩, found'⟩ := stored name element he
    rw [found'] at found
    cases found
    rw [r.routine_instrs]
    rcases built.only name element he with ⟨rfl, -⟩ | ⟨fn, hfn, rfl, rfl⟩ | rfl
    · obtain ⟨code', mem, form⟩ := Builtin.code_of_template code
      have same := Image.codeForm_injective r.code_loadable (Builtin.loadable_table _ mem) form
      exact .inl (same ▸ mem)
    · exact .inr ⟨fn, hfn, rfl, code.symm⟩
    · exact code.elim
  · intro fn hfn name call
    obtain ⟨e, he⟩ := built.called fn hfn name call
    obtain ⟨r, -, found⟩ := stored name e he
    exact NameMap.contains_iff.mpr ⟨r.routine, found⟩

/-- A text that compiles is read, its names are resolved, and the namespace is encoded. -/
theorem resolved_of_compile {name text image : Bytes} (h : compile name text = .ok image) :
    ∃ file ns, File.parse name text = .ok file ∧ file.Readable ∧ file.Resolved ns ∧
      Image.encode Builtin.templates [] ns = .ok image := by
  obtain ⟨file, parsed, compiled⟩ := bind_eq_ok_iff.mp h
  have parsed := mapError_eq_ok_iff.mp parsed
  obtain ⟨ns, resolve, encoded⟩ := bind_eq_ok_iff.mp compiled
  exact ⟨file, ns, parsed, Bundle.readable_of_parse parsed,
    File.resolved_of_resolve (mapError_eq_ok_iff.mp resolve), mapError_eq_ok_iff.mp encoded⟩

/-- Compiling a text gives the image of a program that implements the tree of the text. -/
theorem implements_of_compile {name text image : Bytes} (h : compile name text = .ok image) :
    ∃ file program, File.parse name text = .ok file ∧ file.Readable ∧
      Program.load image = .ok program ∧ program.Implements file := by
  obtain ⟨file, ns, parsed, readable, resolved, encoded⟩ := resolved_of_compile h
  obtain ⟨program, -, keys, stored, load⟩ :=
    Image.load_of_encode encoded (resolved.validTexts readable)
  have implements := resolved.implements keys stored
  have main : ns.contains mainName := by
    obtain ⟨fn, hfn, same⟩ := resolved.main
    exact NameMap.contains_iff.mpr ⟨_, same ▸ resolved.built.func fn hfn⟩
  exact ⟨file, program, parsed, readable, by rw [load, if_pos main], implements⟩

end StackLang
