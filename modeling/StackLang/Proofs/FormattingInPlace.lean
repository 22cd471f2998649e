import StackLang.Command.Action
import StackLang.Proofs.FilePaths
import StackLang.Proofs.FormattedProgram

namespace StackLang

/-- A file's name is not written in its text. -/
theorem File.exists_parse_renamed {name content : Bytes} {file : File}
    (parsed : File.parse name content = .ok file) (other : Bytes) :
    ∃ renamed, File.parse other content = .ok renamed ∧ renamed.format = file.format := by
  obtain ⟨-, read⟩ := File.parse_eq_ok_iff.mp parsed
  exact ⟨⟨other, file.funcs⟩, File.parse_eq_ok_iff.mpr ⟨rfl, read⟩, File.format_eq_of_unplaced rfl⟩

/-- The canonical text of a text that reads as a file. -/
def Canonical (content text : Bytes) : Prop :=
  ∃ file, File.parse [] content = .ok file ∧ file.format = .ok text

namespace Canonical

variable {name content text : Bytes} {file : File}

theorem of_parse (parsed : File.parse name content = .ok file)
    (formatted : file.format = .ok text) :
    Canonical content text := by
  obtain ⟨renamed, parsed, same⟩ := File.exists_parse_renamed parsed []
  exact ⟨renamed, parsed, same.trans formatted⟩

theorem exists_parse (h : Canonical content text) (name : Bytes) :
    ∃ file, File.parse name content = .ok file ∧ file.format = .ok text := by
  obtain ⟨file, parsed, formatted⟩ := h
  obtain ⟨renamed, parsed, same⟩ := File.exists_parse_renamed parsed name
  exact ⟨renamed, parsed, same.trans formatted⟩

theorem unique {other : Bytes} (h : Canonical content text) (h' : Canonical content other) :
    text = other := by
  obtain ⟨file, parsed, formatted⟩ := h
  obtain ⟨file', parsed', formatted'⟩ := h'
  cases parsed.symm.trans parsed'
  exact Except.ok.inj (formatted.symm.trans formatted')

/-- What reads as a file has a canonical text, which is its own canonical text. -/
theorem exists_fixed (parsed : File.parse name content = .ok file) :
    ∃ text, file.format = .ok text ∧ Canonical text text := by
  obtain ⟨text, tree, written, same, splits⟩ := Layout.file_written (File.writable_of_parse parsed)
  obtain ⟨again, parsedAgain, denoted⟩ := File.parse_of_derivation [] splits.valid splits.tokens?
  have unplaced : again.unplaced = file.unplaced := denoted.trans same.symm
  exact ⟨text, written, again, parsedAgain, (File.format_eq_of_unplaced unplaced).trans written⟩

theorem fixed (h : Canonical content text) : Canonical text text := by
  obtain ⟨file, parsed, formatted⟩ := h
  obtain ⟨text', formatted', canonical⟩ := exists_fixed parsed
  cases formatted.symm.trans formatted'
  exact canonical

theorem nil : Canonical [] [] := by
  have scanned : Lexeme.scan 0 [] = ([], .finished 0) := Lexeme.scan_eq_iff_splits.mpr (.ended rfl)
  have read : Reading.ofText 0 [] = ⟨[], none⟩ :=
    Reading.ofText_eq_iff.mpr ⟨rfl, [], 0, scanned, .nil⟩
  exact ⟨⟨[], []⟩, File.parse_eq_ok_iff.mpr ⟨rfl, read⟩, rfl⟩

end Canonical

namespace Command

section

variable {σ : Type}

/-- The file is there and reads as a source. -/
def parses (fs : FileSystem σ) (files : σ) (path : Bytes) : Bool :=
  match fs.read files path with
  | .ok content => (File.parse path content).isOk
  | .error _ => false

/-- The paths in front of the first one that is missing or does not read as a source. -/
def readyPaths (fs : FileSystem σ) (files : σ) (paths : List Bytes) : List Bytes :=
  paths.takeWhile (parses fs files)

/-- Each file that reads as a source takes its canonical text, one path after the other. -/
def TakeTexts (fs : FileSystem σ) : σ → List Bytes → Prop
  | _, [] => True
  | files, path :: rest =>
    ∀ content text, fs.read files path = .ok content → Canonical content text →
      ∃ after, fs.write files path text = .ok after ∧ fs.read after path = .ok text ∧
        TakeTexts fs after rest

variable {fs : FileSystem σ} {files f g : σ} {path text : Bytes}

theorem formatSource_eq_ok_iff :
    formatSource fs files path = .ok text ↔
      ∃ content, fs.read files path = .ok content ∧ Canonical content text := by
  simp only [formatSource, readSource, bind_eq_ok_iff, mapError_eq_ok_iff]
  constructor
  · rintro ⟨file, ⟨content, read, parsed⟩, formatted⟩
    exact ⟨content, read, .of_parse parsed formatted⟩
  · rintro ⟨content, read, canonical⟩
    obtain ⟨file, parsed, formatted⟩ := canonical.exists_parse path
    exact ⟨file, ⟨content, read, parsed⟩, formatted⟩

/-- What has been read can be formatted. -/
theorem parses_iff :
    parses fs files path ↔ ∃ content text, fs.read files path = .ok content ∧
      Canonical content text := by
  unfold parses
  constructor
  · intro h
    split at h
    next content read =>
      cases parsed : File.parse path content with
      | error e => simp [parsed, Except.isOk, Except.toBool] at h
      | ok file =>
        obtain ⟨text, formatted, -⟩ := Canonical.exists_fixed parsed
        exact ⟨content, text, read, .of_parse parsed formatted⟩
    next => cases h
  · rintro ⟨content, text, read, canonical⟩
    obtain ⟨file, parsed, -⟩ := canonical.exists_parse path
    simp [read, parsed, Except.isOk, Except.toBool]

theorem parses_iff_formatSource :
    parses fs files path ↔ ∃ text, formatSource fs files path = .ok text := by
  rw [parses_iff, exists_comm]
  simp only [formatSource_eq_ok_iff]

theorem readyPaths_cons (rest : List Bytes) (read : parses fs files path) :
    readyPaths fs files (path :: rest) = path :: readyPaths fs files rest :=
  List.takeWhile_cons_of_pos read

end

section

variable {σ : Type} {fs : FileSystem σ} {Same : σ → Bytes → Bytes → Prop} {files f g : σ}
variable {path text : Bytes} {done paths : List Bytes}

/-- The files that some paths lead to have been formatted, and no others. -/
structure Formatted (fs : FileSystem σ) (Same : σ → Bytes → Bytes → Prop) (files : σ)
    (done : List Bytes) (after : σ) : Prop where
  same : ∀ a b, Same after a b ↔ Same files a b
  own : ∀ a ∈ done, ∀ p, Same files a p → ∃ content text, fs.read files p = .ok content ∧
    Canonical content text ∧ fs.read after p = .ok text
  others : ∀ p, (∀ a ∈ done, ¬ Same files a p) → fs.read after p = fs.read files p

namespace Formatted

theorem refl (files : σ) : Formatted fs Same files [] files :=
  ⟨fun _ _ => .rfl, List.forall_mem_nil _, fun _ _ => rfl⟩

/-- A file has the same canonical text before and after. -/
theorem canonical_iff (h : Formatted fs Same files done f) :
    (∃ content, fs.read f path = .ok content ∧ Canonical content text) ↔
      ∃ content, fs.read files path = .ok content ∧ Canonical content text := by
  by_cases formatted : ∃ a ∈ done, Same files a path
  · obtain ⟨a, ha, same⟩ := formatted
    obtain ⟨before, own, read, canonical, readAfter⟩ := h.own a ha path same
    simp only [read, readAfter, Except.ok.injEq, exists_eq_left']
    constructor
    · intro again
      rwa [← canonical.fixed.unique again]
    · intro again
      rw [← canonical.unique again]
      exact canonical.fixed
  · rw [h.others path fun a ha same => formatted ⟨a, ha, same⟩]

theorem parses_eq (h : Formatted fs Same files done f) (path : Bytes) :
    parses fs f path = parses fs files path := by
  rw [Bool.eq_iff_iff, parses_iff_formatSource, parses_iff_formatSource]
  simp only [formatSource_eq_ok_iff, h.canonical_iff]

/-- Writing the canonical text of one more file. -/
theorem step (laws : fs.Lawful Same) (h : Formatted fs Same files done f)
    {now : Bytes} (read : fs.read f path = .ok now) (canonical : Canonical now text)
    (written : fs.write f path text = .ok g) (taken : fs.read g path = .ok text) :
    Formatted fs Same files (done ++ [path]) g := by
  have kept := laws.same_write read written
  refine ⟨fun a b => (kept a b).trans (h.same a b), ?_, ?_⟩
  · intro a ha p same
    by_cases own : Same f path p
    · have readNow : fs.read f p = .ok now := (laws.read_same own).trans read
      obtain ⟨content, before, canonical⟩ := h.canonical_iff.mp ⟨now, readNow, canonical⟩
      have readAfter : fs.read g p = .ok text :=
        (laws.read_same ((kept path p).mpr own)).trans taken
      exact ⟨content, text, before, canonical, readAfter⟩
    · rw [laws.read_other read written p own]
      rcases List.mem_append.mp ha with ha | ha
      · exact h.own a ha p same
      · rw [List.mem_singleton.mp ha] at same
        exact absurd ((h.same path p).mpr same) own
  · intro p free
    have other : ¬ Same f path p := by
      intro own
      exact free path (List.mem_append_right _ List.mem_cons_self) ((h.same path p).mp own)
    rw [laws.read_other read written p other]
    exact h.others p fun a ha => free a (List.mem_append_left _ ha)

/-- The run over all paths, up to the first that does not read as a source. -/
theorem run (laws : fs.Lawful Same) (printed : Bytes) (h : Formatted fs Same files done f)
    (taken : TakeTexts fs f paths) :
    Formatted fs Same files (done ++ readyPaths fs files paths)
        (formatAll fs true f printed paths).files ∧
      ((formatAll fs true f printed paths).error = none ↔ ∀ a ∈ paths, parses fs files a) ∧
      (formatAll fs true f printed paths).printed = printed := by
  induction paths generalizing f done with
  | nil => exact ⟨by simpa [readyPaths, formatAll] using h, by simp [formatAll], rfl⟩
  | cons path rest ih =>
    rw [formatAll]
    cases formatted : formatSource fs f path with
    | error e =>
      have unread : parses fs files path = false := by
        rw [← h.parses_eq, Bool.eq_false_iff]
        intro read
        obtain ⟨text, ok⟩ := parses_iff_formatSource.mp read
        cases formatted.symm.trans ok
      simp [readyPaths, unread, h]
    | ok text =>
      obtain ⟨now, readNow, canonical⟩ := formatSource_eq_ok_iff.mp formatted
      have read : parses fs files path := by
        rw [← h.parses_eq]
        exact parses_iff.mpr ⟨now, text, readNow, canonical⟩
      obtain ⟨g, written, readBack, takenRest⟩ := taken now text readNow canonical
      obtain ⟨run, noError, printed⟩ :=
        ih (h.step laws readNow canonical written readBack) takenRest
      simp only [if_true, written]
      rw [readyPaths_cons rest read, List.forall_mem_cons, noError]
      exact ⟨by simpa using run, by simp [read], printed⟩

end Formatted

theorem parses_of_mem_readyPaths {a : Bytes} (h : a ∈ readyPaths fs files paths) :
    parses fs files a :=
  List.all_eq_true.mp List.all_takeWhile a h

theorem not_parses_of_readyPaths {a : Bytes} {rest : List Bytes}
    (h : paths = readyPaths fs files paths ++ a :: rest) : ¬ parses fs files a := by
  have behind : paths.dropWhile (parses fs files) = a :: rest := by
    have split : readyPaths fs files paths ++ paths.dropWhile (parses fs files) =
        readyPaths fs files paths ++ a :: rest :=
      List.takeWhile_append_dropWhile.trans h
    exact List.append_cancel_left split
  have unread := List.head?_dropWhile_not (parses fs files) paths
  rw [behind, List.head?_cons] at unread
  exact Bool.eq_false_iff.mp unread

/-- Files that hold their canonical texts already stay as they are. -/
theorem read_formatAll_settled (laws : fs.Lawful Same) {printed : Bytes}
    (settled : ∀ a ∈ readyPaths fs f paths, ∀ content text, fs.read f a = .ok content →
      Canonical content text → content = text) (p : Bytes) :
    fs.read (formatAll fs true f printed paths).files p = fs.read f p := by
  induction paths generalizing f with
  | nil => rfl
  | cons path rest ih =>
    rw [formatAll]
    cases formatted : formatSource fs f path with
    | error e => rfl
    | ok text =>
      obtain ⟨content, read, canonical⟩ := formatSource_eq_ok_iff.mp formatted
      have ready : parses fs f path := parses_iff.mpr ⟨content, text, read, canonical⟩
      rw [readyPaths_cons rest ready, List.forall_mem_cons] at settled
      obtain rfl := settled.1 content text read canonical
      cases written : fs.write f path content with
      | error reason => simp [written]
      | ok g =>
        have unchanged : fs.read g = fs.read f := by
          funext q
          by_cases own : Same f path q
          · have own' := (laws.same_write read written path q).mpr own
            rw [laws.read_same own', laws.read_settled read written, laws.read_same own, read]
          · exact laws.read_other read written q own
        have parsed : parses fs g = parses fs f := by
          funext q
          rw [parses, parses, unchanged]
        have others := settled.2
        rw [readyPaths, ← parsed, ← unchanged] at others
        simpa [written, unchanged] using ih others

/-- The files that the paths in front of the first unreadable one lead to hold their canonical texts
afterwards, the others what they held before. -/
structure FormatsInPlace (fs : FileSystem σ) (Same : σ → Bytes → Bytes → Prop) (files : σ)
    (paths : List Bytes) (effect : Effect σ) : Prop where
  formatted : ∀ a ∈ readyPaths fs files paths, ∀ p, p = a ∨ Same files a p →
    ∃ content text, fs.read files p = .ok content ∧ Canonical content text ∧
      fs.read effect.files p = .ok text
  others : ∀ p, (∀ a ∈ readyPaths fs files paths, ¬ Same files a p) →
    fs.read effect.files p = fs.read files p
  first : ∀ a rest, paths = readyPaths fs files paths ++ a :: rest →
    fs.read effect.files a = fs.read files a
  fails : effect.error ≠ none ↔ ∃ a ∈ paths, parses fs files a = false
  silent : effect.printed = []

theorem Formatted.own_or_same (laws : fs.Lawful Same) (h : Formatted fs Same files done f)
    {a : Bytes} (ha : a ∈ done) (read : parses fs files a) {p : Bytes}
    (reaches : p = a ∨ Same files a p) :
    ∃ content text, fs.read files p = .ok content ∧ Canonical content text ∧
      fs.read f p = .ok text := by
  apply h.own a ha
  rcases reaches with rfl | same
  · obtain ⟨content, text, read, -⟩ := parses_iff.mp read
    exact laws.same_refl read
  · exact same

theorem formatsInPlace_of_takeTexts (laws : fs.Lawful Same) (taken : TakeTexts fs files paths) :
    FormatsInPlace fs Same files paths (formatAll fs true files [] paths) := by
  obtain ⟨run, noError, silent⟩ := Formatted.run laws [] (.refl files) taken
  rw [List.nil_append] at run
  refine ⟨?_, run.others, ?_, ?_, silent⟩
  · intro a ha p reaches
    exact run.own_or_same laws ha (parses_of_mem_readyPaths ha) reaches
  · intro a rest split
    apply run.others
    intro b hb same
    obtain ⟨content, text, read, canonical, -⟩ := run.own b hb a same
    exact not_parses_of_readyPaths split (parses_iff.mpr ⟨content, text, read, canonical⟩)
  · rw [Ne, noError]
    simp only [Classical.not_forall, exists_prop, Bool.not_eq_true]

theorem read_formatAll_again (laws : fs.Lawful Same) (taken : TakeTexts fs files paths)
    (p : Bytes) :
    fs.read (formatAll fs true (formatAll fs true files [] paths).files [] paths).files p =
      fs.read (formatAll fs true files [] paths).files p := by
  obtain ⟨run, -⟩ := Formatted.run laws [] (.refl files) taken
  rw [List.nil_append] at run
  apply read_formatAll_settled laws
  intro a ha now again read canonical
  rw [readyPaths, funext run.parses_eq] at ha
  obtain ⟨content, text, -, formatted, readAfter⟩ :=
    run.own_or_same laws ha (parses_of_mem_readyPaths ha) (.inl rfl)
  cases read.symm.trans readAfter
  exact formatted.fixed.unique canonical

/-- Formatting in place changes the files that it has formatted and no others, fails just when a
path is missing or does not read as a source, and changes nothing when it is done once more. -/
theorem fmt_formats_in_place (laws : fs.Lawful Same) (s : Settings) {o : Options}
    (inPlace : o.write = true) (taken : TakeTexts fs files paths) :
    FormatsInPlace fs Same files paths (act fs s o files paths .fmt) ∧
    ∀ p, fs.read (act fs s o (act fs s o files paths .fmt).files paths .fmt).files p =
      fs.read (act fs s o files paths .fmt).files p := by
  simp only [act, inPlace]
  exact ⟨formatsInPlace_of_takeTexts laws taken, read_formatAll_again laws taken⟩

end

/-- Any files take the canonical texts of sources, as long as no directory holds a text. -/
theorem takeTexts_of_plain {files : Files} {paths : List Bytes}
    (plain : ∀ a ∈ paths, ∀ place, files.Leads a place → files.isDirectory place = false) :
    TakeTexts Files.system files paths := by
  induction paths generalizing files with
  | nil => trivial
  | cons path rest ih =>
    obtain ⟨own, others⟩ := List.forall_mem_cons.mp plain
    intro content text read canonical
    obtain ⟨place, leads, filled⟩ := Files.read_eq_ok_iff.mp read
    obtain ⟨after, written⟩ := Files.exists_write leads (own place leads) text
    have shape := (Files.rewrites_of_write leads filled written).shape
    refine ⟨after, written, ?_, ?_⟩
    · apply Files.read_eq_ok_iff.mpr
      refine ⟨place, shape.leads_iff.mpr leads, ?_⟩
      by_cases null : place = Files.nullDevice
      · rw [Files.content?, if_pos null] at filled ⊢
        cases filled
        rw [canonical.unique .nil]
      · exact Files.content?_of_write leads null written
    · apply ih
      intro a ha place leads
      rw [shape.isDirectory]
      exact others a ha place (shape.leads_iff.mp leads)

/-- The first file is given by two paths, and the second does not read as a source. -/
def aliasedFiles : Files :=
  .ofList [(bytes "a", bytes "fn  a()\x7b\x7d"), (bytes "b", bytes "fn"),
    (bytes "c", bytes "fn  c()\x7b\x7d")]

def aliasedPaths : List Bytes :=
  ["a", "./a", "b", "c"].map bytes

theorem aliasedFiles_formatted :
    let options := { Options.default with write := true }
    let effect := act Files.system .default options aliasedFiles aliasedPaths .fmt
    readyPaths Files.system aliasedFiles aliasedPaths = ["a", "./a"].map bytes ∧
    FormatsInPlace Files.system Files.SameFile aliasedFiles aliasedPaths effect ∧
    effect.files.read (bytes "a") = .ok (bytes "fn a() \x7b\n\x7d\n") ∧
    effect.files.read (bytes "./a") = .ok (bytes "fn a() \x7b\n\x7d\n") ∧
    effect.files.read (bytes "b") = .ok (bytes "fn") ∧
    effect.files.read (bytes "c") = .ok (bytes "fn  c()\x7b\x7d") ∧
    effect.error ≠ none ∧
    ∀ p, (act Files.system .default options effect.files aliasedPaths .fmt).files.read p =
      effect.files.read p := by
  intro options effect
  have ready : readyPaths Files.system aliasedFiles aliasedPaths = ["a", "./a"].map bytes := by
    decide +kernel
  have plain : ∀ a ∈ aliasedPaths, ∀ place, aliasedFiles.Leads a place →
      aliasedFiles.isDirectory place = false := by
    have checked : aliasedPaths.all fun a =>
        (aliasedFiles.locate a (pathNames a)).toOption.all (!aliasedFiles.isDirectory ·) := by
      decide +kernel
    intro a ha place leads
    have own := List.all_eq_true.mp checked a ha
    rw [leads] at own
    simpa [Except.toOption] using own
  obtain ⟨formats, again⟩ := fmt_formats_in_place Files.lawful .default (o := options) rfl
    (takeTexts_of_plain plain)
  refine ⟨ready, formats, ?_, ?_, ?_, ?_, ?_, again⟩
  · decide +kernel
  · decide +kernel
  · decide +kernel
  · decide +kernel
  · decide +kernel

end Command

end StackLang
