import StackLang.Proofs.CompiledProgram
import StackLang.Proofs.FormattedProgram
import StackLang.Proofs.ListingLines
import StackLang.Proofs.NameQueue

namespace StackLang

open Listing (Plain PlainNames shownNames)

namespace Image

theorem entries_entriesTable {entries : List Entry}
    (ascending : entries.Pairwise fun a b => compare a.name b.name = .lt) :
    (entriesTable entries).entries = entries.map fun e => (e.name, e.routine) := by
  have distinct := NameMap.nodup_of_ascending Entry.name ascending
  apply NameMap.eq_of_ascending Prod.fst (entriesTable entries).ascending
    (List.pairwise_map.mpr ascending)
  rintro ⟨name, routine⟩
  rw [← NameMap.get?_eq_some_iff]
  constructor
  · exact NameMap.mem_of_get?_ofList
  · intro mem
    obtain ⟨e, he, same⟩ := List.mem_map.mp mem
    obtain ⟨rfl, rfl⟩ := Prod.mk.inj same
    exact get?_entriesTable_of_mem distinct he

theorem listing_entriesTable {entries : List Entry}
    (ascending : entries.Pairwise fun a b => compare a.name b.name = .lt) (size : Nat) :
    Listing.program ⟨size, entriesTable entries⟩ = Listing.text entries := by
  rw [Listing.program, entries_entriesTable ascending, List.map_map]
  rfl

end Image

theorem Lexeme.IsWord.plain {w : Bytes} (word : Lexeme.IsWord w) : Plain w := by
  intro c mem
  have inside := Lexeme.isWordByte_of_isWord word c mem
  simp only [Lexeme.isWordByte, Ascii.isLetter, Ascii.isDigit, Bool.or_eq_true, Bool.and_eq_true,
    decide_eq_true_eq, beq_iff_eq, UInt8.le_iff_toNat_le, UInt8.reduceToNat] at inside
  rcases inside with (letter | digit) | rfl
  · omega
  · omega
  · decide

namespace Program.Implements

variable {p : Program} {f : File} (implements : p.Implements f) (writable : f.Writable)
include implements writable

theorem plain_of_contains {name : Bytes} (h : p.routines.contains name) : Plain name := by
  obtain ⟨routine, found⟩ := NameMap.contains_iff.mp h
  rcases (implements.defines name _).mpr ⟨routine, found, rfl⟩ with builtin | ⟨fn, hfn, rfl, -⟩
  · have plain : ∀ b ∈ Builtin.table, ∀ c ∈ b.1, 0x20 < c.toNat := by decide +kernel
    exact plain _ builtin
  · exact (writable fn hfn).1.1.plain

theorem plainNames {e : Image.Entry} (found : p.routines.get? e.name = some e.routine) :
    PlainNames e := by
  refine ⟨implements.plain_of_contains writable (NameMap.contains_iff.mpr ⟨_, found⟩),
    fun name call => ?_⟩
  rcases (implements.defines e.name e.code).mpr ⟨_, found, e.routine_instrs⟩ with builtin |
    ⟨fn, hfn, -, code⟩
  · have closed : ∀ b ∈ Builtin.table, ∀ i ∈ b.2, i.opcode ≠ Opcode.call := by decide +kernel
    exact absurd rfl (closed _ builtin _ call)
  · exact implements.plain_of_contains writable (implements.called fn hfn name (code ▸ call))

end Program.Implements

namespace Image

/-- The image of functions, with the length of their records in its header. -/
def imageOf (entries : List Entry) : Bytes :=
  magic ++ Word.encode 4 (entriesForm entries).length ++ entriesForm entries

theorem eq_imageOf {image field : Bytes} {entries : List Entry}
    (isImage : IsImage image field entries) (length : Word.decode field + 8 = image.length) :
    image = imageOf entries := by
  obtain ⟨size, rfl⟩ := isImage
  have start : magic.length = 4 := by decide
  have body : Word.decode field = (entriesForm entries).length := by
    rw [List.length_append, List.length_append, size, start] at length
    omega
  have same : Word.encode 4 (Word.decode field) = field := size ▸ Word.encode_decode field
  rw [imageOf, ← body, same]

end Image

/-- The functions that the image of a compiled text stores, in ascending order of their names. -/
structure StoredFunctions (file : File) (image : Bytes) (stored : List Image.Entry)
    (program : Program) : Prop where
  form : image = Image.imageOf stored
  load : Program.load image = .ok program
  implements : program.Implements file
  routines : program.routines = Image.entriesTable stored
  ascending : stored.Pairwise fun a b => compare a.name b.name = .lt
  plain : ∀ e ∈ stored, PlainNames e

theorem exists_stored_of_compile {name text image : Bytes} (h : compile name text = .ok image) :
    ∃ file stored program, File.parse name text = .ok file ∧
      StoredFunctions file image stored program := by
  obtain ⟨file, ns, parsed, readable, resolved, encoded⟩ := resolved_of_compile h
  obtain ⟨field, stored, isImage, length, hstored⟩ :=
    Image.isImage_of_encode encoded (resolved.validTexts readable)
  have ascending : stored.Pairwise fun a b => compare a.name b.name = .lt := by
    have names : (stored.map Image.Entry.name).Pairwise fun a b => compare a b = .lt := by
      rw [Image.names_of_stores hstored]
      exact ns.keys_ascending
    exact List.pairwise_map.mp names
  let program : Program := ⟨Word.decode field, Image.entriesTable stored⟩
  have implements : program.Implements file :=
    resolved.implements (Image.keys_of_stores hstored) fun _ _ => Image.get?_of_stores hstored
  have main : ∃ e ∈ stored, e.name = mainName := by
    rw [← Image.mem_keys_entriesTable, NameMap.mem_keys_iff, ← NameMap.contains_iff]
    exact implements.contains_main
  refine ⟨file, stored, program, parsed, Image.eq_imageOf isImage length,
    Image.load_eq_ok_iff.mpr ⟨field, stored, isImage, main, rfl⟩, implements, rfl, ascending,
    fun e mem => ?_⟩
  apply implements.plainNames (File.writable_of_parse parsed)
  exact Image.get?_entriesTable_of_mem (NameMap.nodup_of_ascending _ ascending) mem

namespace StoredFunctions

variable {file : File} {image : Bytes} {stored : List Image.Entry} {program : Program}

theorem ne_nil (h : StoredFunctions file image stored program) : stored ≠ [] := by
  rintro rfl
  have main := h.implements.contains_main
  rw [h.routines] at main
  cases main

theorem listing (h : StoredFunctions file image stored program) :
    Listing.program program = Listing.text stored := by
  rw [← Image.listing_entriesTable h.ascending program.bodyLen, ← h.routines]

theorem keys (h : StoredFunctions file image stored program) :
    program.routines.keys = stored.map Image.Entry.name := by
  rw [NameMap.keys, h.routines, Image.entries_entriesTable h.ascending, List.map_map]
  rfl

theorem shownNames_listing (h : StoredFunctions file image stored program) :
    shownNames (Listing.program program) = program.routines.keys := by
  rw [h.listing, Listing.shownNames_text h.plain, h.keys]

theorem mem_keys_iff (h : StoredFunctions file image stored program) {name : Bytes} :
    name ∈ program.routines.keys ↔ ∃ code, file.Defines name code := by
  rw [NameMap.mem_keys_iff]
  constructor
  · rintro ⟨routine, found⟩
    exact ⟨_, (h.implements.defines name _).mpr ⟨routine, found, rfl⟩⟩
  · rintro ⟨code, defined⟩
    obtain ⟨routine, found, -⟩ := (h.implements.defines name code).mp defined
    exact ⟨routine, found⟩

end StoredFunctions

/-- The listing of a compiled program shows the functions of the text and the built-in functions,
each once and in ascending order of the names, in which a queue of these names gives them up too.
Texts whose programs have the same listing compile to the same image. -/
theorem listing_determines_image {name text image name' text' image' : Bytes}
    (compiled : compile name text = .ok image) (compiled' : compile name' text' = .ok image') :
    ∃ file program program', File.parse name text = .ok file ∧ Program.load image = .ok program ∧
      Program.load image' = .ok program' ∧ (Listing.program program = Listing.program program' ↔
        image = image') ∧
      (∀ f, f ∈ shownNames (Listing.program program) ↔ ∃ code, file.Defines f code) ∧
      (shownNames (Listing.program program)).Pairwise (fun a b => compare a b = .lt) ∧
      ∀ held names, held.Perm program.routines.keys →
        (NameMap.Drained held names ↔ names = shownNames (Listing.program program)) := by
  obtain ⟨file, stored, program, parsed, first⟩ := exists_stored_of_compile compiled
  obtain ⟨file', stored', program', -, second⟩ := exists_stored_of_compile compiled'
  refine ⟨file, program, program', parsed, first.load, second.load, ⟨fun same => ?_, ?_⟩, ?_⟩
  · rw [first.listing, second.listing] at same
    rw [first.form, second.form,
      Listing.entries_of_text first.plain second.plain first.ne_nil second.ne_nil same]
  · rintro rfl
    rw [Except.ok.inj (first.load.symm.trans second.load)]
  · rw [first.shownNames_listing]
    exact ⟨fun f => first.mem_keys_iff, program.routines.keys_ascending,
      fun held names => NameMap.drained_iff⟩

/-- A text whose literal has a quote, a line break and a backslash. -/
def quotingText : Bytes :=
  bytes "fn main() \x7b say(\"\\\"\\n\\\\\"); \x7d\nfn say() \x7b print(); \x7d"

/-- The same functions the other way round, with the other quotes. -/
def requotedText : Bytes :=
  bytes "fn say()\x7bprint();\x7d // said\nfn main()\x7bsay('\"\\n\\\\');\x7d"

def listingOf (text : Bytes) : Option Bytes :=
  match compile [] text with
  | .error _ => none
  | .ok image =>
    match Program.load image with
    | .error _ => none
    | .ok program => some (Listing.program program)

theorem listingOf_eq_some {text listing : Bytes} (h : listingOf text = some listing) :
    ∃ image program, compile [] text = .ok image ∧ Program.load image = .ok program ∧
      Listing.program program = listing := by
  unfold listingOf at h
  split at h
  next => cases h
  next image compiled =>
    split at h
    next => cases h
    next program load => exact ⟨image, program, compiled, load, Option.some.inj h⟩

theorem requotedText_listed_as_quotingText :
    ∃ image program, compile [] quotingText = .ok image ∧ compile [] requotedText = .ok image ∧
      Program.load image = .ok program ∧
      shownNames (Listing.program program) =
        [bytes "main", bytes "print", bytes "println", bytes "say"] := by
  have same : listingOf requotedText = listingOf quotingText := by decide +kernel
  have names : (listingOf quotingText).map shownNames =
      some [bytes "main", bytes "print", bytes "println", bytes "say"] := by decide +kernel
  obtain ⟨listing, listed, shown⟩ := Option.map_eq_some_iff.mp names
  obtain ⟨image, program, compiled, load, own⟩ := listingOf_eq_some listed
  obtain ⟨image', program', compiled', load', other⟩ := listingOf_eq_some (same.trans listed)
  obtain ⟨_, p, p', -, loads, loads', determined, -⟩ := listing_determines_image compiled compiled'
  obtain rfl := Except.ok.inj (load.symm.trans loads)
  obtain rfl := Except.ok.inj (load'.symm.trans loads')
  obtain rfl := determined.mp (own.trans other.symm)
  exact ⟨image, program, compiled, compiled', load, by rw [own, shown]⟩

end StackLang
