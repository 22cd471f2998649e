import StackLang.Proofs.BuildOutcome
import StackLang.Proofs.CompiledProgram
import StackLang.Proofs.EncodingOutcome

namespace StackLang

/-- Failures that no text should lead to. -/
def CompileError.internal : CompileError → Bool
  | parse _ => false
  | build failure =>
    match failure.cause with
    | .isVariable _ _ => true
    | .notTopLevel => true
    | .unbalanced _ => true
    | .unsupportedStmt _ => true
    | .unsupportedExpr _ => true
    | _ => false
  | encode failure =>
    match failure.cause with
    | .noTemplate _ => true
    | .unencodable _ _ => true
    | .instr (.unsupported _) => true
    | _ => false

namespace File

/-- How many bytes the built-in functions and the functions of a file take in an image. -/
def bodySize (f : File) : Nat :=
  (Builtin.table.map fun b => Image.recordSize b.1 b.2).sum +
    (f.funcs.map fun fn => Image.recordSize fn.name fn.lowered).sum

/-- What a file must meet to be compiled. -/
structure Compilable (f : File) : Prop where
  distinct : f.names.Nodup
  noBuiltin : bytes "print" ∉ f.names ∧ bytes "println" ∉ f.names
  defined : ∀ name ∈ f.callees, name ∈ f.names ∨ name = bytes "print" ∨ name = bytes "println"
  main : bytes "main" ∈ f.names
  names : ∀ name ∈ f.names, name.length ≤ 65535
  literals : ∀ text ∈ f.literals, text.length ≤ 65535
  small : f.bodySize ≤ 2 ^ 32 - 1

/-- What keeps a file that was built from being encoded, and how that is reported. -/
inductive EncodeFault (f : File) : ImageError → Prop
  | operandTooLong {text : Bytes} : text ∈ f.names ∨ text ∈ f.literals → maxOperand < text.length →
      EncodeFault f (.instr (.operandTooLong text.length))
  | tooBig : Image.maxBody < f.bodySize → EncodeFault f (.tooBig f.bodySize)

/-- The failure names a condition that the file does not meet. -/
def Rejected (f : File) : CompileError → Prop
  | .parse _ => False
  | .build failure => f.BuildFault failure.cause
  | .encode failure => f.EncodeFault failure.cause

theorem mem_builtinNames {name : Bytes} :
    name ∈ Builtin.names ↔ name = bytes "print" ∨ name = bytes "println" := by
  simp [Builtin.names, Builtin.table]

theorem Rejected.not_compilable {f : File} {e : CompileError} (h : f.Rejected e) :
    ¬ f.Compilable := by
  intro ok
  cases e with
  | parse cause => exact h
  | build failure =>
    obtain ⟨path, cause⟩ := failure
    cases (h : f.BuildFault cause) with
    | @redefined name twice =>
      have once := List.nodup_iff_count.mp ok.distinct name
      omega
    | builtinRedefined defined builtin =>
      rcases mem_builtinNames.mp builtin with rfl | rfl
      · exact ok.noBuiltin.1 defined
      · exact ok.noBuiltin.2 defined
    | undefined some names =>
      obtain ⟨name, mem⟩ := List.exists_mem_of_ne_nil _ some
      obtain ⟨called, notDefined, notBuiltin⟩ := (names name).mp mem
      exact (ok.defined name called).elim notDefined fun builtin =>
        notBuiltin (mem_builtinNames.mpr builtin)
    | noMain absent => exact absent ok.main
  | encode failure =>
    obtain ⟨path, cause⟩ := failure
    cases (h : f.EncodeFault cause) with
    | @operandTooLong text used long =>
      have short : text.length ≤ 65535 := used.elim (ok.names text) (ok.literals text)
      exact Nat.not_le_of_gt long short
    | tooBig big => exact Nat.not_le_of_gt big ok.small

theorem Rejected.not_internal {f : File} {e : CompileError} (h : f.Rejected e) :
    e.internal = false := by
  cases e with
  | parse cause => rfl
  | build failure =>
    obtain ⟨path, cause⟩ := failure
    cases (h : f.BuildFault cause) <;> rfl
  | encode failure =>
    obtain ⟨path, cause⟩ := failure
    cases (h : f.EncodeFault cause) <;> rfl

namespace Resolved

variable {f : File} {ns : Namespace}

theorem get?_eq_some_iff (resolved : f.Resolved ns) {name : Bytes} {e : Element} :
    ns.get? name = some e ↔
      (name ∈ Builtin.names ∧ e = .builtin) ∨ ∃ fn ∈ f.funcs, fn.name = name ∧
        e = .function fn.lowered :=
  resolved.built.get?_eq_some_iff resolved.complete

theorem defined (resolved : f.Resolved ns) {name : Bytes} (called : name ∈ f.callees) :
    name ∈ f.names ∨ name ∈ Builtin.names := by
  obtain ⟨fn, hfn, call⟩ := List.mem_flatMap.mp called
  obtain ⟨e, bound⟩ := resolved.built.called fn hfn name (Func.call_mem_lowered_iff.mpr call)
  rcases resolved.get?_eq_some_iff.mp bound with ⟨builtin, -⟩ | ⟨g, hg, rfl, -⟩
  · exact .inr builtin
  · exact .inl (List.mem_map_of_mem hg)

/-- Each function is an entry of its own, since names are distinct. -/
theorem entries_perm (resolved : f.Resolved ns) (distinct : (Builtin.names ++ f.names).Nodup) :
    ns.entries.Perm (Builtin.names.map (fun name => (name, .builtin)) ++
      f.funcs.map fun fn => (fn.name, .function fn.lowered)) := by
  apply (List.perm_ext_iff_of_nodup ?_ ?_).mpr
  · rintro ⟨name, e⟩
    rw [← NameMap.get?_eq_some_iff, resolved.get?_eq_some_iff, List.mem_append,
      List.mem_map, List.mem_map]
    refine or_congr ?_ (exists_congr fun fn => and_congr_right fun _ => ?_)
    · constructor
      · rintro ⟨mem, rfl⟩
        exact ⟨name, mem, rfl⟩
      · rintro ⟨_, mem, ⟨⟩⟩
        exact ⟨mem, rfl⟩
    · simp [eq_comm]
  · exact List.Nodup.of_map Prod.fst (NameMap.nodup_of_ascending Prod.fst ns.ascending)
  · apply List.Nodup.of_map Prod.fst
    simpa [names, Function.comp_def] using distinct

theorem bodySize_eq (resolved : f.Resolved ns) (distinct : (Builtin.names ++ f.names).Nodup) :
    Image.bodySize Builtin.templates ns = f.bodySize := by
  have builtins :
      (Builtin.names.map fun name => Image.entrySize Builtin.templates (name, .builtin)).sum =
      (Builtin.table.map fun b => Image.recordSize b.1 b.2).sum := by
    decide +kernel
  rw [Image.bodySize, ((resolved.entries_perm distinct).map _).sum_nat, List.map_append,
    List.sum_append, List.map_map, List.map_map, bodySize, ← builtins]
  rfl

theorem compilable_of_encode (resolved : f.Resolved ns)
    (distinct : (Builtin.names ++ f.names).Nodup) {image : Bytes}
    (h : Image.encode Builtin.templates [] ns = .ok image) :
    f.Compilable ∧ image.length = 8 + f.bodySize := by
  obtain ⟨encodable, small, length⟩ := Image.encodable_of_encode h
  rw [resolved.bodySize_eq distinct] at small length
  obtain ⟨-, namesDistinct, disjoint⟩ := List.nodup_append.mp distinct
  have stored : ∀ fn ∈ f.funcs, fn.name.length ≤ maxOperand ∧
      ∀ i ∈ fn.lowered, Image.EncodableInstr i := fun fn hfn =>
    encodable _ (NameMap.get?_eq_some_iff.mp (resolved.built.func fn hfn))
  refine ⟨⟨namesDistinct, ⟨?_, ?_⟩, ?_, ?_, ?_, ?_, small⟩, by simpa using length⟩
  · exact fun mem => disjoint _ (mem_builtinNames.mpr (.inl rfl)) _ mem rfl
  · exact fun mem => disjoint _ (mem_builtinNames.mpr (.inr rfl)) _ mem rfl
  · exact fun name called => (resolved.defined called).imp_right mem_builtinNames.mp
  · obtain ⟨fn, hfn, name⟩ := resolved.main
    exact List.mem_map.mpr ⟨fn, hfn, name⟩
  · intro name mem
    obtain ⟨fn, hfn, rfl⟩ := List.mem_map.mp mem
    exact (stored fn hfn).1
  · intro text mem
    obtain ⟨fn, hfn, literal⟩ := List.mem_flatMap.mp mem
    exact (stored fn hfn).2 _ (Func.push_mem_lowered_iff.mpr literal)

theorem not_too_long_of_builtin {name : Bytes} (h : name ∈ Builtin.names) :
    ¬ maxOperand < name.length := by
  have short : ∀ name ∈ Builtin.names, ¬ maxOperand < name.length := by decide +kernel
  exact short name h

/-- The only instructions without an encoding are those with a long operand, and that is a literal
of the file or the name of a function. -/
theorem fault_of_encodeBody (resolved : f.Resolved ns) (readable : f.Readable) {fn : Func}
    (hfn : fn ∈ f.funcs) {e : Failure ImageError} (h : Image.encodeBody fn.lowered = .error e) :
    f.EncodeFault e.cause := by
  obtain ⟨i, hi, cause, failed, same⟩ := Image.encodeBody_eq_error h
  have emitted := Func.emitted_lowered (readable fn hfn) i hi
  rw [same]
  rcases Image.encode_instr_eq_error failed with ⟨text, kind, long, rfl⟩ |
    ⟨kind, op, rfl, -⟩ | ⟨rfl, -⟩
  · refine .operandTooLong ?_ long
    rcases kind with rfl | rfl
    · exact .inr (List.mem_flatMap.mpr ⟨fn, hfn, Func.push_mem_lowered_iff.mp hi⟩)
    · have called : text ∈ f.callees :=
        List.mem_flatMap.mpr ⟨fn, hfn, Func.call_mem_lowered_iff.mp hi⟩
      refine .inl ((resolved.defined called).resolve_right fun builtin => ?_)
      exact not_too_long_of_builtin builtin long
  · exact emitted.elim
  · exact emitted.elim

theorem fault_of_encode (resolved : f.Resolved ns) (readable : f.Readable)
    (distinct : (Builtin.names ++ f.names).Nodup) {e : Failure ImageError}
    (h : Image.encode Builtin.templates [] ns = .error e) : f.EncodeFault e.cause := by
  rcases Image.encode_eq_error h with ⟨⟨name, element⟩, entry, failed⟩ | ⟨big, rfl⟩
  · rcases resolved.get?_eq_some_iff.mp (NameMap.get?_eq_some_iff.mpr entry) with
      ⟨builtin, rfl⟩ | ⟨fn, hfn, rfl, rfl⟩
    · have template : ∀ name ∈ Builtin.names, (Builtin.templates.get? name).isSome := by
        decide +kernel
      obtain ⟨code, found⟩ := Option.isSome_iff_exists.mp (template name builtin)
      rcases Image.encodeRecord_eq_error failed with ⟨inner, wrong, -⟩ | ⟨long, -⟩
      · simp [Image.encodeElement, found] at wrong
      · exact absurd long (not_too_long_of_builtin builtin)
    · rcases Image.encodeRecord_eq_error failed with ⟨inner, body, same⟩ | ⟨long, same⟩
      · rw [same]
        exact resolved.fault_of_encodeBody readable hfn body
      · rw [same]
        exact .operandTooLong (.inl (List.mem_map_of_mem hfn)) long
  · rw [resolved.bodySize_eq distinct] at big ⊢
    exact .tooBig big

end Resolved

theorem outcome_of_readable {f : File} (readable : f.Readable) :
    (∃ image, f.compile = .ok image ∧ f.Compilable ∧ image.length = 8 + f.bodySize) ∨
      ∃ e, f.compile = .error e ∧ f.Rejected e := by
  rcases f.resolve_outcome readable with ⟨ns, resolves, distinct⟩ | ⟨e, fails, fault⟩
  · have resolved := resolved_of_resolve resolves
    have compile : f.compile = (Image.encode Builtin.templates [] ns).mapError .encode := by
      rw [File.compile, resolves]
      rfl
    cases encoded : Image.encode Builtin.templates [] ns with
    | ok image =>
      exact .inl ⟨image, by rw [compile, encoded]; rfl,
        resolved.compilable_of_encode distinct encoded⟩
    | error e =>
      exact .inr ⟨.encode e, by rw [compile, encoded]; rfl,
        resolved.fault_of_encode readable distinct encoded⟩
  · exact .inr ⟨.build e, by rw [File.compile, fails]; rfl, fault⟩

end File

/-- A text compiles just if it can be read as a file that meets the conditions; the image then is as
long as its functions need. Otherwise the failure is that of reading the text, or names a condition
that is not met. -/
theorem compile_outcome (name text : Bytes) :
    ((∃ image, compile name text = .ok image) ↔
      ∃ file, File.parse name text = .ok file ∧ file.Compilable) ∧
      (∀ image, compile name text = .ok image →
        ∃ file, File.parse name text = .ok file ∧ image.length = 8 + file.bodySize) ∧
      ∀ e, compile name text = .error e → e.internal = false ∧
        ((∃ cause, File.parse name text = .error cause ∧ e = .parse cause) ∨
          ∃ file, File.parse name text = .ok file ∧ file.Rejected e) := by
  cases parsed : File.parse name text with
  | error cause =>
    have failed : compile name text = .error (.parse cause) := by
      rw [compile, parsed]
      rfl
    rw [failed]
    refine ⟨by simp, by simp, ?_⟩
    rintro e ⟨⟩
    exact ⟨rfl, .inl ⟨cause, rfl, rfl⟩⟩
  | ok file =>
    have compiled : compile name text = file.compile := by
      rw [compile, parsed]
      rfl
    rw [compiled]
    rcases File.outcome_of_readable (Bundle.readable_of_parse parsed) with
      ⟨image, ok, compilable, length⟩ | ⟨e, failed, rejected⟩
    · rw [ok]
      simp [compilable, length]
    · rw [failed]
      simp [rejected, rejected.not_compilable, rejected.not_internal]

def unboundText : Bytes :=
  bytes "fn main() \x7b f(println(g('a'), main())); f(); \x7d"

theorem unboundText_rejected :
    compile [] unboundText = .error (.build (.bare (.undefined [bytes "f", bytes "g"]))) ∧
      ∃ file, File.parse [] unboundText = .ok file ∧ ¬ file.Compilable ∧
        file.BuildFault (.undefined [bytes "f", bytes "g"]) := by
  have failed : compile [] unboundText =
      .error (.build (.bare (.undefined [bytes "f", bytes "g"]))) := by
    decide +kernel
  obtain ⟨-, -, fails⟩ := compile_outcome [] unboundText
  obtain ⟨-, ⟨cause, -, wrong⟩ | ⟨file, parsed, rejected⟩⟩ := fails _ failed
  · cases wrong
  · exact ⟨failed, file, parsed, rejected.not_compilable, rejected⟩

end StackLang
