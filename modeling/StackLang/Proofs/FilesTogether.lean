import Mathlib.Data.List.Forall2
import StackLang.Proofs.ReadingErrors
import StackLang.Proofs.ShiftedReading

namespace StackLang

namespace Bundle

/-- The bundle of files that were added in order, each with its name and its text. -/
def ofSources (sources : List (Bytes × Bytes)) : Bundle :=
  sources.foldl (fun b s => b.add s.1 s.2) empty

/-- The texts one after the other. -/
def joined (sources : List (Bytes × Bytes)) : Bytes :=
  sources.flatMap fun s => s.2

/-- The files of texts that stand one after the other from `base` on. -/
def placed (base : Nat) : List (Bytes × Bytes) → List SourceFile
  | [] => []
  | s :: rest => ⟨s.1, base, s.2.length⟩ :: placed (base + s.2.length) rest

theorem foldl_add (b : Bundle) (sources : List (Bytes × Bytes)) :
    sources.foldl (fun b s => b.add s.1 s.2) b =
      ⟨b.buffer ++ joined sources, b.files ++ placed b.buffer.length sources⟩ := by
  induction sources generalizing b with
  | nil => simp [joined, placed]
  | cons s rest ih =>
    rw [List.foldl_cons, ih]
    simp [add, joined, placed]

theorem ofSources_eq (sources : List (Bytes × Bytes)) :
    ofSources sources = ⟨joined sources, placed 0 sources⟩ :=
  foldl_add empty sources

/-- Each file's text alone reads as a file. -/
def ReadAlone (sources : List (Bytes × Bytes)) (files : List File) : Prop :=
  List.Forall₂ (fun s f => File.parse s.1 s.2 = .ok f) sources files

theorem ReadAlone.of_mem {sources : List (Bytes × Bytes)} {files : List File}
    (h : ReadAlone sources files) :
    ∀ s ∈ sources, ∃ f, File.parse s.1 s.2 = .ok f := by
  induction h with
  | nil => simp
  | cons parsed _ ih => exact List.forall_mem_cons.mpr ⟨⟨_, parsed⟩, ih⟩

/-- Either all texts can be read, or there is a first that cannot. -/
theorem readAlone_or_first_error (sources : List (Bytes × Bytes)) :
    (∃ files, ReadAlone sources files) ∨ ∃ before s after e, sources = before ++ s :: after ∧
      (∀ t ∈ before, ∃ f, File.parse t.1 t.2 = .ok f) ∧ File.parse s.1 s.2 = .error e := by
  induction sources with
  | nil => exact .inl ⟨[], .nil⟩
  | cons s rest ih =>
    cases parsed : File.parse s.1 s.2 with
    | error e => exact .inr ⟨[], s, rest, e, rfl, by simp, parsed⟩
    | ok f =>
      rcases ih with ⟨files, alone⟩ | ⟨before, t, after, e, rfl, ok, failed⟩
      · exact .inl ⟨f :: files, .cons parsed alone⟩
      · exact .inr ⟨s :: before, t, after, e, rfl,
          List.forall_mem_cons.mpr ⟨⟨f, parsed⟩, ok⟩, failed⟩

variable {b : Bundle} {front : Bytes} {s : Bytes × Bytes} {rest : List (Bytes × Bytes)}

theorem range_own (buffer : b.buffer = front ++ joined (s :: rest)) {i : Nat} (h : i ≤ s.2.length) :
    b.range front.length (front.length + i) = s.2.take i := by
  have split : joined (s :: rest) = s.2 ++ joined rest := rfl
  rw [range, Bytes.slice, buffer, split, List.take_length_add_append, List.drop_left,
    List.take_append_of_le_length h]

theorem buffer_of_cons (buffer : b.buffer = front ++ joined (s :: rest)) :
    b.buffer = (front ++ s.2) ++ joined rest := by
  rw [buffer, List.append_assoc]
  rfl

theorem ofText_own (buffer : b.buffer = front ++ joined (s :: rest)) :
    Reading.ofText front.length (b.range front.length (front.length + s.2.length)) =
      (Reading.ofText 0 s.2).shift front.length := by
  rw [range_own buffer (Nat.le_refl _), List.take_length, Reading.ofText_shift]

theorem readFiles_of_ok (buffer : b.buffer = front ++ joined (s :: rest)) {funcs : List Func}
    (own : Reading.ofText 0 s.2 = ⟨funcs, none⟩) :
    b.readFiles (placed front.length (s :: rest)) =
      ⟨funcs.map (Func.shift front.length) ++
        (b.readFiles (placed (front ++ s.2).length rest)).funcs,
        (b.readFiles (placed (front ++ s.2).length rest)).error⟩ := by
  rw [placed, readFiles, SourceFile.stop, ofText_own buffer, own, List.length_append]
  rfl

theorem readFiles_of_error (buffer : b.buffer = front ++ joined (s :: rest)) {e : ReadError}
    (own : (Reading.ofText 0 s.2).error = some e) :
    (b.readFiles (placed front.length (s :: rest))).error = some (e.shift front.length) := by
  have shifted : ((Reading.ofText 0 s.2).shift front.length).error =
      some (e.shift front.length) := by
    rw [Reading.shift, own]
    rfl
  rw [placed, readFiles, SourceFile.stop, ofText_own buffer]
  simp only [shifted]

/-- The functions of files that have been read alone, moved on to where each file stands. -/
def shiftedFuncs (places : List SourceFile) (files : List File) : List Func :=
  (List.zipWith (fun p f => f.funcs.map (Func.shift p.base)) places files).flatten

theorem readFiles_of_readAlone {sources : List (Bytes × Bytes)} {files : List File}
    (alone : ReadAlone sources files) (buffer : b.buffer = front ++ joined sources) :
    b.readFiles (placed front.length sources) =
      ⟨shiftedFuncs (placed front.length sources) files, none⟩ := by
  induction alone generalizing front with
  | nil => rfl
  | @cons s f rest files parsed _ ih =>
    obtain ⟨-, own⟩ := File.parse_eq_ok_iff.mp parsed
    rw [readFiles_of_ok buffer own, ih (buffer_of_cons buffer), List.length_append]
    rfl

theorem readFiles_first_error {before after : List (Bytes × Bytes)} {e : ReadError}
    (ok : ∀ t ∈ before, ∃ f, File.parse t.1 t.2 = .ok f)
    (own : (Reading.ofText 0 s.2).error = some e)
    (buffer : b.buffer = front ++ joined (before ++ s :: after)) :
    (b.readFiles (placed front.length (before ++ s :: after))).error =
      some (e.shift (front ++ joined before).length) := by
  induction before generalizing front with
  | nil =>
    rw [List.nil_append] at buffer ⊢
    rw [readFiles_of_error buffer own]
    simp [joined]
  | cons t rest ih =>
    obtain ⟨⟨f, parsed⟩, others⟩ := List.forall_mem_cons.mp ok
    obtain ⟨-, first⟩ := File.parse_eq_ok_iff.mp parsed
    rw [List.cons_append] at buffer ⊢
    rw [readFiles_of_ok buffer first, ih others (buffer_of_cons buffer), List.append_assoc]
    rfl

theorem parse_of_readAlone {sources : List (Bytes × Bytes)} {files : List File}
    (alone : ReadAlone sources files) :
    (ofSources sources).parse =
      .ok ⟨(ofSources sources).name, shiftedFuncs (ofSources sources).files files⟩ := by
  have buffer : (ofSources sources).buffer = [] ++ joined sources := by rw [ofSources_eq]; rfl
  have places : (ofSources sources).files = placed ([] : Bytes).length sources := by
    rw [ofSources_eq]; rfl
  have reading := readFiles_of_readAlone alone buffer
  rw [← places] at reading
  rw [parse, read, reading]

theorem parse_first_error (name : Bytes) (after : List (Bytes × Bytes))
    {before : List (Bytes × Bytes)} {text : Bytes} {e : ReadError}
    (ok : ∀ t ∈ before, ∃ f, File.parse t.1 t.2 = .ok f)
    (own : (Reading.ofText 0 text).error = some e) :
    (ofSources (before ++ (name, text) :: after)).parse =
      .error ((ofSources (before ++ (name, text) :: after)).syntaxError
        (e.shift (joined before).length)) := by
  have buffer : (ofSources (before ++ (name, text) :: after)).buffer =
      [] ++ joined (before ++ (name, text) :: after) := by
    rw [ofSources_eq]
    rfl
  have places : (ofSources (before ++ (name, text) :: after)).files =
      placed ([] : Bytes).length (before ++ (name, text) :: after) := by
    rw [ofSources_eq]
    rfl
  have failed := readFiles_first_error ok own buffer
  rw [← places, List.nil_append] at failed
  rw [parse, read]
  simp only [failed]

/-- The file's range of the buffer holds the text that was added, and the lexemes of the range are
those of the text alone, moved on to where the file stands. -/
structure Holds (b : Bundle) (s : Bytes × Bytes) (f : SourceFile) : Prop where
  name : f.name = s.1
  text : b.range f.base f.stop = s.2
  lexemes : Lexeme.scanRange b.buffer f.base f.stop =
    ((Lexeme.scan 0 s.2).1.map (Lexeme.shift f.base), (Lexeme.scan 0 s.2).2.shift f.base)

theorem holds_placed {sources : List (Bytes × Bytes)}
    (buffer : b.buffer = front ++ joined sources) :
    List.Forall₂ b.Holds sources (placed front.length sources) := by
  induction sources generalizing front with
  | nil => exact .nil
  | cons s rest ih =>
    have others := ih (buffer_of_cons buffer)
    have own := range_own buffer (Nat.le_refl _)
    rw [List.length_append] at others
    rw [List.take_length] at own
    refine .cons ⟨rfl, own, ?_⟩ others
    have shifted := Lexeme.scan_shift front.length 0 s.2
    rw [Nat.add_zero] at shifted
    exact (congrArg (Lexeme.scan front.length) own).trans shifted

/-- Files can be read together just when each can be read alone. They then give the functions that
each gives alone, in order, with positions that count from where the file stands. Otherwise the
fault is that of the first file that cannot be read alone. The lexemes in a file's range of the
buffer are those of its own text, whatever stands around it. -/
theorem parse_together (sources : List (Bytes × Bytes)) :
    ((∃ file, (ofSources sources).parse = .ok file) ↔
      ∀ s ∈ sources, ∃ file, File.parse s.1 s.2 = .ok file) ∧
    (∀ file, (ofSources sources).parse = .ok file → ∃ files, ReadAlone sources files ∧
      file.funcs = shiftedFuncs (ofSources sources).files files) ∧
    (∀ e, (ofSources sources).parse = .error e →
      ∃ before s after own, sources = before ++ s :: after ∧
      (∀ t ∈ before, ∃ file, File.parse t.1 t.2 = .ok file) ∧ File.parse s.1 s.2 = .error own ∧
      e.func = own.func ∧ e.fault = own.fault) ∧
    List.Forall₂ (ofSources sources).Holds sources (ofSources sources).files := by
  have holds : List.Forall₂ (ofSources sources).Holds sources (ofSources sources).files := by
    have own : List.Forall₂ (ofSources sources).Holds sources
        (placed ([] : Bytes).length sources) :=
      holds_placed (by rw [ofSources_eq]; rfl)
    rwa [List.length_nil, show placed 0 sources =
      (ofSources sources).files by rw [ofSources_eq]] at own
  rcases readAlone_or_first_error sources with ⟨files, alone⟩ |
    ⟨before, s, after, e, rfl, ok, failed⟩
  · have parsed := parse_of_readAlone alone
    refine ⟨iff_of_true ⟨_, parsed⟩ ?_, ?_, ?_, holds⟩
    · exact alone.of_mem
    · intro file same
      cases parsed.symm.trans same
      exact ⟨files, alone, rfl⟩
    · intro e same
      cases parsed.symm.trans same
  · obtain ⟨r, own, rfl⟩ := File.parse_eq_error_iff.mp failed
    have stopped := parse_first_error s.1 after ok own
    refine ⟨iff_of_false ?_ ?_, ?_, ?_, holds⟩
    · rintro ⟨file, same⟩
      cases stopped.symm.trans same
    · intro all
      obtain ⟨file, same⟩ := all s (by simp)
      cases failed.symm.trans same
    · intro file same
      cases stopped.symm.trans same
    · intro e same
      cases stopped.symm.trans same
      exact ⟨before, s, after, _, rfl, ok, failed, rfl, rfl⟩

/-- The comment at the end of the first text has no line of its own to end it. -/
def commentedSources : List (Bytes × Bytes) :=
  [(bytes "a", bytes "fn a()\x7b\x7d //"), (bytes "b", bytes "fn b()\x7ba();\x7d")]

theorem comment_ends_with_its_file :
    (∀ s ∈ commentedSources, ∃ file, File.parse s.1 s.2 = .ok file) ∧
      ∃ file, (ofSources commentedSources).parse = .ok file ∧ file.funcs.map (·.pos) = [0, 11] := by
  have read (name text : Bytes) (h : (File.parse name text).isOk) :
      ∃ file, File.parse name text = .ok file := by
    cases parsed : File.parse name text with
    | ok file => exact ⟨file, rfl⟩
    | error e => simp [parsed, Except.isOk, Except.toBool] at h
  have alone : ∀ s ∈ commentedSources, ∃ file, File.parse s.1 s.2 = .ok file := by
    simp only [commentedSources, List.forall_mem_cons, List.not_mem_nil, false_imp_iff,
      implies_true, and_true]
    exact ⟨read _ _ (by decide +kernel), read _ _ (by decide +kernel)⟩
  obtain ⟨file, parsed⟩ := (parse_together commentedSources).1.mpr alone
  have places : (ofSources commentedSources).parse.map (fun f => f.funcs.map (·.pos)) =
      .ok [0, 11] := by
    decide +kernel
  rw [parsed] at places
  exact ⟨alone, file, parsed, Except.ok.inj places⟩

end Bundle

end StackLang
