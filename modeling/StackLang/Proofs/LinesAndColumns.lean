import Mathlib.Data.List.Infix
import StackLang.Source.Bundle

namespace StackLang

namespace Bytes

/-- The offsets at which the lines of a text start: the first one, and those behind the newlines. -/
def lineStarts (text : Bytes) : List Nat :=
  0 :: text.idxsOf Ascii.newline 1

/-- The text is made of whole lines. -/
def EndsLine (text : Bytes) : Prop :=
  ∀ c ∈ text.getLast?, c = Ascii.newline

theorem exists_lastLine (text : Bytes) :
    ∃ lines last, text = lines ++ last ∧ EndsLine lines ∧ Ascii.newline ∉ last := by
  have split := List.takeWhile_append_dropWhile (p := (· != Ascii.newline)) (l := text.reverse)
  have ends := List.head?_dropWhile_not (· != Ascii.newline) text.reverse
  refine ⟨(text.reverse.dropWhile (· != Ascii.newline)).reverse,
    (text.reverse.takeWhile (· != Ascii.newline)).reverse, ?_, ?_, ?_⟩
  · rw [← List.reverse_append, split, List.reverse_reverse]
  · intro c last
    rw [List.getLast?_reverse] at last
    rw [Option.mem_def.mp last] at ends
    simpa using ends
  · intro mem
    have other := List.all_eq_true.mp List.all_takeWhile _ (List.mem_reverse.mp mem)
    simp at other

theorem getElem?_lineStarts {lines : Bytes} (ends : EndsLine lines) (rest : Bytes) :
    (lineStarts (lines ++ rest))[lines.count Ascii.newline]? = some lines.length := by
  rcases List.eq_nil_or_concat lines with rfl | ⟨front, c, rfl⟩
  · rfl
  · rw [List.concat_eq_append] at ends ⊢
    obtain rfl : c = Ascii.newline := ends c (by simp)
    have starts : (front ++ [Ascii.newline] ++ rest).idxsOf Ascii.newline 1 =
        front.idxsOf Ascii.newline 1 ++ (1 + front.length) ::
          rest.idxsOf Ascii.newline (1 + front.length + 1) := by
      rw [List.append_assoc, List.idxsOf_append, List.singleton_append, List.idxsOf_cons,
        if_pos (beq_self_eq_true _)]
    rw [lineStarts, starts, List.count_append, List.count_singleton_self, List.getElem?_cons_succ,
      List.getElem?_append_right (by rw [List.length_idxsOf])]
    simp [Nat.add_comm]

end Bytes

namespace Position

/-- The first place is on an earlier line, or further to the left on the same line. -/
def Precedes (p q : Position) : Prop :=
  p.line < q.line ∨ p.line = q.line ∧ p.col < q.col

theorem after_lines {lines last : Bytes} (file : Bytes) (ends : Bytes.EndsLine lines)
    (noNewline : Ascii.newline ∉ last) :
    after file (lines ++ last) = ⟨file, 1 + lines.count Ascii.newline, 1 + last.length⟩ := by
  have whole : ∀ c ∈ last.reverse, (c != Ascii.newline) = true := by
    intro c mem
    rw [bne_iff_ne]
    rintro rfl
    exact noNewline (List.mem_reverse.mp mem)
  have stops : lines.reverse.takeWhile (· != Ascii.newline) = [] := by
    rcases List.eq_nil_or_concat lines with rfl | ⟨front, c, rfl⟩
    · rfl
    · obtain rfl : c = Ascii.newline := ends c (by simp)
      simp
  rw [after, List.count_append, List.count_eq_zero.mpr noNewline, List.reverse_append,
    List.takeWhile_append_of_pos whole, stops, List.append_nil, List.length_reverse]
  rfl

theorem after_precedes_append (file before : Bytes) {more : Bytes} (nonempty : more ≠ []) :
    (after file before).Precedes (after file (before ++ more)) := by
  by_cases newline : Ascii.newline ∈ more
  · have counted := List.count_pos_iff.mpr newline
    left
    simp only [after, List.count_append]
    omega
  · obtain ⟨lines, last, rfl, ends, noNewline⟩ := before.exists_lastLine
    have absent : Ascii.newline ∉ last ++ more := by
      rw [List.mem_append]
      exact not_or.mpr ⟨noNewline, newline⟩
    have positive := List.length_pos_iff.mpr nonempty
    right
    rw [List.append_assoc, after_lines file ends noNewline, after_lines file ends absent,
      List.length_append]
    exact ⟨rfl, by dsimp only; omega⟩

variable {text : Bytes} {i j : Nat}

theorem after_take_precedes (file : Bytes) (lt : i < j) (inside : j ≤ text.length) :
    (after file (text.take i)).Precedes (after file (text.take j)) := by
  obtain ⟨d, rfl⟩ := Nat.exists_eq_add_of_lt lt
  rw [Nat.add_assoc, List.take_add]
  apply after_precedes_append
  apply List.ne_nil_of_length_pos
  rw [List.length_take, List.length_drop]
  omega

theorem Precedes.irrefl {p : Position} : ¬ p.Precedes p := by
  unfold Precedes
  omega

/-- Two offsets of a text with the same line and column are the same. -/
theorem after_take_inj {file : Bytes} (hi : i ≤ text.length) (hj : j ≤ text.length)
    (h : after file (text.take i) = after file (text.take j)) : i = j := by
  rcases Nat.lt_trichotomy i j with lt | same | lt
  · have before := after_take_precedes file lt hj
    rw [h] at before
    exact absurd before Precedes.irrefl
  · exact same
  · have before := after_take_precedes file lt hi
    rw [h] at before
    exact absurd before Precedes.irrefl

/-- From the start of its line an offset is as far away as its column says. -/
theorem exists_lineStart (file : Bytes) (inside : i ≤ text.length) :
    ∃ start, text.lineStarts[((after file (text.take i)).line - 1).toNat]? = some start ∧
      (i : Int) = start + ((after file (text.take i)).col - 1) := by
  have length : (text.take i).length = i := List.length_take_of_le inside
  have whole : text.take i ++ text.drop i = text := List.take_append_drop i text
  obtain ⟨lines, last, split, ends, noNewline⟩ := Bytes.exists_lastLine (text.take i)
  have start := Bytes.getElem?_lineStarts ends (last ++ text.drop i)
  rw [split, List.length_append] at length
  rw [split, List.append_assoc] at whole
  rw [whole] at start
  have index : (1 + (lines.count Ascii.newline : Int) - 1).toNat = lines.count Ascii.newline := by
    omega
  rw [split, after_lines file ends noNewline]
  dsimp only
  rw [index]
  exact ⟨lines.length, start, by omega⟩

end Position

theorem Bundle.position_single (name : Bytes) {text : Bytes} {offset : Nat}
    (h : offset ≤ text.length) :
    (single name text).position offset = Position.after name (text.take offset) := by
  have found : (single name text).files.find? (·.touches offset) = some ⟨name, 0, text.length⟩ := by
    apply List.find?_cons_of_pos
    exact SourceFile.touches_natCast.mpr ⟨Nat.zero_le _, Nat.le_trans h (Nat.le_add_left _ _)⟩
  rw [position, found]
  rfl

/-- The places of a file are in the order of the offsets, from its start up to its end. Lines and
columns count from one, there is a line more than there are newlines, and the offset is as far from
the start of its line as the column says. -/
theorem Bundle.line_and_column_identify_offset (name text : Bytes) :
    let b := single name text
    (∀ i j : Nat, i < j → j ≤ text.length → (b.position i).Precedes (b.position j)) ∧
    ∀ i : Nat, i ≤ text.length →
      1 ≤ (b.position i).line ∧ (b.position i).line ≤ text.count Ascii.newline + 1 ∧
      1 ≤ (b.position i).col ∧
      ∃ start, text.lineStarts[((b.position i).line - 1).toNat]? = some start ∧
        (i : Int) = start + ((b.position i).col - 1) := by
  constructor
  · intro i j lt inside
    rw [position_single name (by omega : i ≤ text.length), position_single name inside]
    exact Position.after_take_precedes name lt inside
  · intro i inside
    have counted := (List.take_sublist i text).count_le Ascii.newline
    have line : (Position.after name (text.take i)).line = 1 + (text.take i).count Ascii.newline :=
      rfl
    have col : (Position.after name (text.take i)).col =
        1 + ((text.take i).reverse.takeWhile (· != Ascii.newline)).length := rfl
    rw [position_single name inside]
    exact ⟨by omega, by omega, by omega, Position.exists_lineStart name inside⟩

/-- The second line is empty, and so is the one behind the last newline. -/
def spacedText : Bytes :=
  bytes "a\n\nbc\n"

theorem Bundle.spacedText_offsets_identified :
    let b := single (bytes "f") spacedText
    (b.position 1).Precedes (b.position 2) ∧
    b.position 4 = ⟨bytes "f", 3, 2⟩ ∧ spacedText.lineStarts[2]? = some 3 ∧
    b.position 6 = ⟨bytes "f", 4, 1⟩ ∧ spacedText.lineStarts[3]? = some 6 := by
  intro b
  obtain ⟨ordered, identified⟩ := line_and_column_identify_offset (bytes "f") spacedText
  have inner : b.position (4 : Nat) = ⟨bytes "f", 3, 2⟩ := by decide +kernel
  have last : b.position (6 : Nat) = ⟨bytes "f", 4, 1⟩ := by decide +kernel
  obtain ⟨-, -, -, start, found, same⟩ := identified 4 (by decide)
  obtain ⟨-, -, -, start', found', same'⟩ := identified 6 (by decide)
  rw [inner] at found same
  rw [last] at found' same'
  dsimp only at same same'
  obtain rfl : start = 3 := by omega
  obtain rfl : start' = 6 := by omega
  exact ⟨ordered 1 2 (by decide) (by decide), inner, found, last, found'⟩

end StackLang
