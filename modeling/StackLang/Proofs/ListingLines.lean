import StackLang.Machine.Listing
import StackLang.Proofs.QuotedText
import StackLang.Proofs.StoredRecords

namespace StackLang.Listing

open Image (Entry LoadableInstr located instrForm)

/-- Lines, each with its end. -/
def ended (lines : List Bytes) : Bytes :=
  lines.flatMap (· ++ [Ascii.newline])

def headLine (name : Bytes) (r : Routine) : Bytes :=
  bytes "func " ++ name ++ bytes " (" ++ Text.decimal r.code.length ++ bytes " instrs, " ++
    Text.decimalInt r.size ++ bytes " bytes)"

def instrLine (entry : Int × Instr) : Bytes :=
  Ascii.tab :: Text.hexColumn entry.1 ++ bytes "  " ++ Text.hexCapitals entry.2.opcode ++
    bytes "  " ++ instr entry.2

def functionLines (e : Entry) : List Bytes :=
  headLine e.name e.routine :: e.routine.code.map instrLine

/-- The lines of functions, with an empty line between neighbours. -/
def lines (entries : List Entry) : List Bytes :=
  [[]].intercalate (entries.map functionLines)

def text (entries : List Entry) : Bytes :=
  Bytes.join [Ascii.newline] (entries.map fun e => routine e.name e.routine)

theorem routine_eq_ended (e : Entry) : routine e.name e.routine = ended (functionLines e) := by
  have last : bytes " bytes)\n" = bytes " bytes)" ++ [Ascii.newline] := by decide +kernel
  have each : line = fun entry => instrLine entry ++ [Ascii.newline] := rfl
  rw [routine, last, each, ended, functionLines, List.flatMap_cons, List.flatMap_map, headLine]
  simp only [List.append_assoc]

theorem lines_single (e : Entry) : lines [e] = functionLines e :=
  List.append_nil _

theorem lines_cons_cons (e next : Entry) (others : List Entry) :
    lines (e :: next :: others) = functionLines e ++ [] :: lines (next :: others) :=
  rfl

theorem text_eq_ended (entries : List Entry) : text entries = ended (lines entries) := by
  induction entries with
  | nil => rfl
  | cons e rest ih =>
    cases rest with
    | nil =>
      have whole : text [e] = routine e.name e.routine := List.append_nil _
      rw [whole, lines_single, routine_eq_ended]
    | cons next others =>
      have split : text (e :: next :: others) = routine e.name e.routine ++ Ascii.newline ::
          text (next :: others) := rfl
      rw [split, lines_cons_cons, ih, routine_eq_ended, ended, ended, ended, List.flatMap_append,
        List.flatMap_cons]
      rfl

theorem splitOn_ended {lines : List Bytes} (unbroken : ∀ l ∈ lines, Ascii.newline ∉ l) :
    (ended lines).splitOn Ascii.newline = lines ++ [[]] := by
  induction lines with
  | nil => rfl
  | cons l rest ih =>
    obtain ⟨first, others⟩ := List.forall_mem_cons.mp unbroken
    have free : ∀ c ∈ l, (c == Ascii.newline) = false := by
      intro c mem
      rw [beq_eq_false_iff_ne]
      rintro rfl
      exact first mem
    have split : ended (l :: rest) = l ++ Ascii.newline :: ended rest := by
      rw [ended, List.flatMap_cons, List.append_assoc]
      rfl
    rw [split, List.splitOn, List.splitOnP_append_cons_of_forall_mem free _ (beq_self_eq_true _)]
    exact congrArg (l :: ·) (ih others)

/-- A name without blanks and line breaks. -/
def Plain (name : Bytes) : Prop :=
  ∀ c ∈ name, 0x20 < c.toNat

structure PlainNames (e : Entry) : Prop where
  name : Plain e.name
  callees : ∀ name, .call name ∈ e.code → Plain name

theorem Plain.visible {name : Bytes} (plain : Plain name) : Text.Visible name :=
  fun c mem => Nat.le_of_lt (plain c mem)

theorem visible_headLine {e : Entry} (plain : PlainNames e) :
    Text.Visible (headLine e.name e.routine) := by
  have texts : ∀ t ∈ ["func ", " (", " instrs, ", " bytes)"], Text.Visible (bytes t) := by
    decide +kernel
  simp only [List.forall_mem_cons] at texts
  unfold headLine
  simp only [Text.visible_append_iff]
  exact ⟨⟨⟨⟨⟨⟨texts.1, plain.name.visible⟩, texts.2.1⟩, Text.visible_decimal _⟩, texts.2.2.1⟩,
    Text.visible_decimal _⟩, texts.2.2.2.1⟩

/-- What stands behind the offset of an instruction. -/
def shownInstr (i : Instr) : Bytes :=
  bytes "  " ++ Text.hexCapitals i.opcode ++ bytes "  " ++ instr i

theorem instrLine_eq (entry : Int × Instr) :
    instrLine entry = Ascii.tab :: (Text.hexColumn entry.1 ++ shownInstr entry.2) := by
  simp only [instrLine, shownInstr, List.cons_append, List.append_assoc]

theorem shownInstr_push (text : Bytes) :
    shownInstr (.push text) = bytes "  E1  PUSH   " ++ Text.quoted text := by
  have front : bytes "  " ++ Text.hexCapitals Opcode.push ++ bytes "  " ++ column Opcode.push ++
      [Ascii.space] = bytes "  E1  PUSH   " := by decide +kernel
  rw [← front, shownInstr, instr]
  simp only [Instr.opcode, List.append_assoc, List.singleton_append]

theorem shownInstr_call (name : Bytes) :
    shownInstr (.call name) = bytes "  A1  CALL   " ++ name := by
  have front : bytes "  " ++ Text.hexCapitals Opcode.call ++ bytes "  " ++ column Opcode.call ++
      [Ascii.space] = bytes "  A1  CALL   " := by decide +kernel
  rw [← front, shownInstr, instr]
  simp only [Instr.opcode, List.append_assoc, List.singleton_append]

theorem visible_shownInstr {i : Instr} (loadable : LoadableInstr i)
    (callee : ∀ name, i = .call name → Plain name) :
    Text.Visible (shownInstr i) := by
  cases i with
  | write => decide +kernel
  | push text =>
    rw [shownInstr_push, Text.visible_append_iff]
    exact ⟨by decide +kernel, Text.visible_quoted text⟩
  | call name =>
    rw [shownInstr_call, Text.visible_append_iff]
    exact ⟨by decide +kernel, (callee name rfl).visible⟩
  | other kind op => exact loadable.elim
  | absent => exact loadable.elim

theorem length_hexCapitals (op : UInt8) : (Text.hexCapitals op).length = 2 := by
  rw [Text.hexCapitals, List.length_map, Text.length_hexPadded (by decide) op.toNat_lt]

theorem opcode_of_shownInstr {i j : Instr} (hi : LoadableInstr i) (hj : LoadableInstr j)
    (h : shownInstr i = shownInstr j) : i.opcode = j.opcode := by
  have known : ∀ k, LoadableInstr k → k.opcode ∈ [Opcode.write, Opcode.push, Opcode.call] := by
    intro k loadable
    cases k with
    | write => exact List.mem_cons_self
    | push text => exact List.mem_cons_of_mem _ List.mem_cons_self
    | call name => exact List.mem_cons_of_mem _ (List.mem_cons_of_mem _ List.mem_cons_self)
    | other kind op => exact loadable.elim
    | absent => exact loadable.elim
  have apart : ∀ a ∈ [Opcode.write, Opcode.push, Opcode.call],
      ∀ b ∈ [Opcode.write, Opcode.push, Opcode.call],
      Text.hexCapitals a = Text.hexCapitals b → a = b := by decide +kernel
  apply apart _ (known i hi) _ (known j hj)
  simp only [shownInstr, List.append_assoc] at h
  exact (List.append_inj (List.append_cancel_left h)
    (by rw [length_hexCapitals, length_hexCapitals])).1

/-- Different instructions are shown in different ways. -/
theorem shownInstr_injective {i j : Instr} (hi : LoadableInstr i) (hj : LoadableInstr j)
    (h : shownInstr i = shownInstr j) : i = j := by
  have op := opcode_of_shownInstr hi hj h
  have apart : Opcode.write ≠ Opcode.push ∧ Opcode.write ≠ Opcode.call ∧
      Opcode.push ≠ Opcode.call := by decide
  cases i with
  | write =>
    cases j with
    | write => rfl
    | push text => exact absurd op apart.1
    | call name => exact absurd op apart.2.1
    | other kind op => exact hj.elim
    | absent => exact hj.elim
  | push text =>
    cases j with
    | write => exact absurd op.symm apart.1
    | push text' =>
      rw [shownInstr_push, shownInstr_push] at h
      rw [Text.quoted_injective (List.append_cancel_left h)]
    | call name => exact absurd op apart.2.2
    | other kind op => exact hj.elim
    | absent => exact hj.elim
  | call name =>
    cases j with
    | write => exact absurd op.symm apart.2.1
    | push text => exact absurd op.symm apart.2.2
    | call name' =>
      rw [shownInstr_call, shownInstr_call] at h
      rw [List.append_cancel_left h]
    | other kind op => exact hj.elim
    | absent => exact hj.elim
  | other kind op => exact hi.elim
  | absent => exact hi.elim

/-- The lines of instructions from a known offset on show the instructions. -/
theorem code_of_instrLines {pos : Nat} {a b : List Instr} (ha : ∀ i ∈ a, LoadableInstr i)
    (hb : ∀ i ∈ b, LoadableInstr i)
    (h : (located pos a).map instrLine = (located pos b).map instrLine) : a = b := by
  induction a generalizing pos b with
  | nil =>
    cases b with
    | nil => rfl
    | cons j others => cases h
  | cons i rest ih =>
    cases b with
    | nil => cases h
    | cons j others =>
      obtain ⟨loadable, restLoadable⟩ := List.forall_mem_cons.mp ha
      obtain ⟨loadable', othersLoadable⟩ := List.forall_mem_cons.mp hb
      obtain ⟨first, later⟩ := List.cons.inj h
      rw [instrLine_eq, instrLine_eq] at first
      obtain rfl :=
        shownInstr_injective loadable loadable' (List.append_cancel_left (List.cons.inj first).2)
      rw [ih restLoadable othersLoadable later]

/-- The name that the first line of a function shows. Other lines show none. -/
def headName? (line : Bytes) : Option Bytes :=
  if (bytes "func ").isPrefixOf line then some ((line.drop 5).takeWhile (· != Ascii.space))
  else none

theorem headName?_headLine {name : Bytes} (plain : Plain name) (r : Routine) :
    headName? (headLine name r) = some name := by
  have blank : bytes " (" = Ascii.space :: bytes "(" := by decide +kernel
  have length : (bytes "func ").length = 5 := by decide +kernel
  have inside : ∀ c ∈ name, (c != Ascii.space) = true := by
    intro c mem
    rw [bne_iff_ne]
    rintro rfl
    exact absurd (plain _ mem) (by decide)
  have split : headLine name r = bytes "func " ++
      (name ++ Ascii.space :: (bytes "(" ++ Text.decimal r.code.length ++
      bytes " instrs, " ++ Text.decimalInt r.size ++ bytes " bytes)")) := by
    rw [headLine, blank]
    simp only [List.append_assoc, List.cons_append]
  rw [split, headName?, if_pos (List.isPrefixOf_iff_prefix.mpr (List.prefix_append _ _)),
    List.drop_left' length,
    List.takeWhile_append_of_pos inside, List.takeWhile_cons_of_neg (by decide), List.append_nil]

theorem headName?_instrLine (entry : Int × Instr) : headName? (instrLine entry) = none := by
  have spelled : bytes "func " = [0x66, 0x75, 0x6E, 0x63, 0x20] := by decide +kernel
  rw [instrLine_eq, headName?, spelled]
  rfl

theorem functionLines_injective {a b : Entry} (ha : PlainNames a) (hb : PlainNames b)
    (h : functionLines a = functionLines b) : a = b := by
  obtain ⟨head, code⟩ := List.cons.inj h
  have names := congrArg headName? head
  rw [headName?_headLine ha.name, headName?_headLine hb.name] at names
  exact Entry.ext (Option.some.inj names) (code_of_instrLines a.code_loadable b.code_loadable code)

theorem map_functionLines_injective {a b : List Entry} (ha : ∀ e ∈ a, PlainNames e)
    (hb : ∀ e ∈ b, PlainNames e) (h : a.map functionLines = b.map functionLines) : a = b := by
  induction a generalizing b with
  | nil => exact (List.map_eq_nil_iff.mp h.symm).symm
  | cons e rest ih =>
    cases b with
    | nil => cases h
    | cons e' others =>
      obtain ⟨plain, restPlain⟩ := List.forall_mem_cons.mp ha
      obtain ⟨plain', othersPlain⟩ := List.forall_mem_cons.mp hb
      obtain ⟨first, later⟩ := List.cons.inj h
      rw [functionLines_injective plain plain' first, ih restPlain othersPlain later]

theorem mem_located {pos : Nat} {code : List Instr} {entry : Int × Instr}
    (h : entry ∈ located pos code) : entry.2 ∈ code := by
  rw [← Image.located_instrs pos code]
  exact List.mem_map_of_mem h

theorem unbroken_functionLines {e : Entry} (plain : PlainNames e) :
    ∀ l ∈ functionLines e, Ascii.newline ∉ l := by
  rw [functionLines, List.forall_mem_cons, List.forall_mem_map]
  refine ⟨(visible_headLine plain).newline_not_mem, fun entry mem => ?_⟩
  have inside := mem_located mem
  have shown := visible_shownInstr (e.code_loadable _ inside) fun name same =>
      plain.callees name (same ▸ inside)
  have visible : Text.Visible (Text.hexColumn entry.1 ++ shownInstr entry.2) :=
    Text.visible_append_iff.mpr ⟨Text.visible_hexColumn entry.1, shown⟩
  rw [instrLine_eq, List.mem_cons, not_or]
  exact ⟨by decide, visible.newline_not_mem⟩

theorem nil_not_mem_functionLines (e : Entry) : [] ∉ functionLines e := by
  have word : bytes "func " ≠ [] := by decide +kernel
  have head : headLine e.name e.routine ≠ [] := by
    simp only [headLine, List.append_assoc]
    exact List.append_ne_nil_of_left_ne_nil word _
  rw [functionLines, List.mem_cons, not_or, List.mem_map]
  refine ⟨head.symm, ?_⟩
  rintro ⟨entry, -, empty⟩
  rw [instrLine_eq] at empty
  cases empty

theorem filterMap_functionLines {e : Entry} (plain : Plain e.name) :
    (functionLines e).filterMap headName? = [e.name] := by
  have code : (e.routine.code.map instrLine).filterMap headName? = [] := by
    rw [List.filterMap_eq_nil_iff, List.forall_mem_map]
    exact fun entry _ => headName?_instrLine entry
  rw [functionLines, List.filterMap_cons_some (headName?_headLine plain _), code]

theorem filterMap_lines {entries : List Entry} (plain : ∀ e ∈ entries, PlainNames e) :
    (lines entries).filterMap headName? = entries.map Entry.name := by
  induction entries with
  | nil => rfl
  | cons e rest ih =>
    obtain ⟨first, others⟩ := List.forall_mem_cons.mp plain
    have own := filterMap_functionLines first.name
    cases rest with
    | nil => rw [lines_single, own, List.map_singleton]
    | cons next rest =>
      rw [lines_cons_cons, List.filterMap_append, own,
        List.filterMap_cons_none (by decide +kernel), ih others]
      rfl

theorem unbroken_lines {entries : List Entry} (plain : ∀ e ∈ entries, PlainNames e) :
    ∀ l ∈ lines entries, Ascii.newline ∉ l := by
  induction entries with
  | nil => exact List.forall_mem_nil _
  | cons e rest ih =>
    obtain ⟨first, others⟩ := List.forall_mem_cons.mp plain
    have own := unbroken_functionLines first
    cases rest with
    | nil => rwa [lines_single]
    | cons next rest =>
      rw [lines_cons_cons, List.forall_mem_append, List.forall_mem_cons]
      exact ⟨own, List.not_mem_nil, ih others⟩

theorem splitOn_text {entries : List Entry} (plain : ∀ e ∈ entries, PlainNames e) :
    (text entries).splitOn Ascii.newline = lines entries ++ [[]] := by
  rw [text_eq_ended, splitOn_ended (unbroken_lines plain)]

/-- The names of the functions that a listing shows, from its first line to its last. -/
def shownNames (listing : Bytes) : List Bytes :=
  (listing.splitOn Ascii.newline).filterMap headName?

theorem shownNames_text {entries : List Entry} (plain : ∀ e ∈ entries, PlainNames e) :
    shownNames (text entries) = entries.map Entry.name := by
  have last : [[]].filterMap headName? = [] := by decide +kernel
  rw [shownNames, splitOn_text plain, List.filterMap_append, filterMap_lines plain, last,
    List.append_nil]

/-- The text determines the functions. -/
theorem entries_of_text {a b : List Entry} (ha : ∀ e ∈ a, PlainNames e) (hb : ∀ e ∈ b, PlainNames e)
    (nonempty : a ≠ []) (nonempty' : b ≠ []) (h : text a = text b) : a = b := by
  have whole : lines a = lines b := by
    have split := splitOn_text ha
    rw [h, splitOn_text hb] at split
    exact (List.append_cancel_right split).symm
  have functions : ∀ entries : List Entry, entries ≠ [] →
      (lines entries).splitOn [] = entries.map functionLines := by
    intro entries filled
    apply List.splitOn_intercalate
    · rw [List.forall_mem_map]
      exact fun e _ => nil_not_mem_functionLines e
    · exact fun empty => filled (List.map_eq_nil_iff.mp empty)
  apply map_functionLines_injective ha hb
  rw [← functions a nonempty, ← functions b nonempty', whole]

end StackLang.Listing
