import StackLang.Proofs.CanonicalText
import StackLang.Proofs.ExactLexing

namespace StackLang

/-- A literal that is cut before its closing quote is not closed, wherever the cut is. -/
theorem LiteralBody.literal_take {quote : UInt8} {inner value : Bytes}
    (h : LiteralBody quote inner value) (noQuote : Ascii.backslash ≠ quote) (start pos : Nat)
    (read : Bytes) (n : Nat) :
    Lexeme.literal quote start pos read (inner.take n) = .failed .unterminated start start := by
  induction h generalizing pos read n with
  | nil => rw [List.take_nil, Lexeme.literal.eq_def]
  | @plain c inner value other noBackslash _ ih =>
    cases n with
    | zero => rw [List.take_zero, Lexeme.literal.eq_def]
    | succ n => rw [List.take_succ_cons, Lexeme.literal_plain _ _ _ _ other noBackslash, ih]
  | @escaped e b inner value escape _ ih =>
    have stands := Lexeme.unescape?_eq_some_iff.mpr escape
    cases n with
    | zero => rw [List.take_zero, Lexeme.literal.eq_def]
    | succ n =>
      rw [List.take_succ_cons]
      cases n with
      | zero =>
        rw [List.take_zero, Lexeme.literal.eq_def]
        simp [noQuote]
      | succ n => rw [List.take_succ_cons, Lexeme.literal_escaped _ _ _ _ noQuote stands, ih]

theorem Layout.length_literal (value : Bytes) :
    (literal value).length = (value.flatMap escape).length + 2 := by
  rw [literal, List.cons_append, List.length_cons, List.length_append, List.length_singleton]

theorem Bytes.slice_append (before text : Bytes) (stop : Nat) :
    slice (before ++ text) before.length stop = text.take (stop - before.length) := by
  rw [slice, List.drop_take, List.drop_left]

namespace Lexeme

theorem scanRange_of_found {text : Bytes} {start stop : Nat} {l : Lexeme}
    (found : next start (text.slice start stop) = .found l (text.slice l.stop stop)) :
    scanRange text start stop =
      (l :: (scanRange text l.stop stop).1, (scanRange text l.stop stop).2) := by
  obtain ⟨lexemes, ending, splits⟩ := exists_splits l.stop (text.slice l.stop stop)
  have others : scanRange text l.stop stop = (lexemes, ending) := scan_eq_iff_splits.mpr splits
  have whole : scanRange text start stop = (l :: lexemes, ending) :=
    scan_eq_iff_splits.mpr (.found found splits)
  rw [whole, others]

theorem scanRange_of_failed {text : Bytes} {start stop first last : Nat} {cause : LexError}
    (failed : next start (text.slice start stop) = .failed cause first last) :
    scanRange text start stop = ([], .failed cause first last) :=
  scan_eq_iff_splits.mpr (.failed failed)

section

variable (before value after : Bytes) (stop : Nat)

theorem next_literal_closed (closed : before.length + (Layout.literal value).length ≤ stop) :
    next before.length (Bytes.slice (before ++ Layout.literal value ++ after) before.length stop) =
      .found ⟨.literal value, before.length, before.length + (Layout.literal value).length⟩
        (Bytes.slice (before ++ Layout.literal value ++ after)
          (before.length + (Layout.literal value).length) stop) := by
  have spelled : (Token.literal value).Spelling (Layout.literal value) :=
    .literal (.inl rfl) (Layout.literalBody_escape value)
  have behind := Bytes.slice_append (before ++ Layout.literal value) after stop
  have whole := Bytes.slice_append before (Layout.literal value ++ after) stop
  have enough : (Layout.literal value).length ≤ stop - before.length := by omega
  have left : stop - before.length - (Layout.literal value).length =
      stop - (before ++ Layout.literal value).length := by
    rw [List.length_append]
    omega
  rw [← List.append_assoc, List.take_append, List.take_of_length_le enough, left, ← behind] at whole
  rw [whole, spelled.next False.elim, List.length_append]

theorem next_literal_cut (opened : before.length < stop)
    (unclosed : stop < before.length + (Layout.literal value).length) :
    next before.length (Bytes.slice (before ++ Layout.literal value ++ after) before.length stop) =
      .failed .unterminated before.length before.length := by
  have length := Layout.length_literal value
  obtain ⟨n, rfl⟩ : ∃ n, stop = before.length + (n + 1) := ⟨stop - before.length - 1, by omega⟩
  have short : n ≤ (value.flatMap Layout.escape).length := by omega
  have part : Bytes.slice (before ++ Layout.literal value ++ after) before.length
      (before.length + (n + 1)) = Ascii.quote :: (value.flatMap Layout.escape).take n := by
    rw [List.append_assoc, Bytes.slice_append, Nat.add_sub_cancel_left, Layout.literal]
    rw [List.cons_append, List.cons_append, List.take_succ_cons, List.append_assoc,
      List.take_append_of_le_length short]
  rw [part, next_quote (.inl rfl)]
  exact (Layout.literalBody_escape value).literal_take (by decide) _ _ _ _

end

/-- A quoted text is read back from between any other bytes, up to just behind its closing quote, if
the range goes past the offset of that quote. A range that ends between the two quotes holds an
unclosed literal. -/
theorem quoted_literal_read_between (before value after : Bytes) (stop : Nat) :
    let text := before ++ Layout.literal value ++ after
    let start := before.length
    let closing := start + (Layout.literal value).length - 1
    (closing < stop →
      next start (text.slice start stop) =
        .found ⟨.literal value, start, closing + 1⟩ (text.slice (closing + 1) stop) ∧
      scanRange text start stop =
        (⟨.literal value, start, closing + 1⟩ :: (scanRange text (closing + 1) stop).1,
          (scanRange text (closing + 1) stop).2)) ∧
    (start < stop → stop ≤ closing →
      next start (text.slice start stop) = .failed .unterminated start start ∧
      scanRange text start stop = ([], .failed .unterminated start start)) := by
  intro text start closing
  have length := Layout.length_literal value
  have past : closing + 1 = before.length + (Layout.literal value).length := by omega
  constructor
  · intro closed
    have found := next_literal_closed before value after stop (by omega)
    rw [← past] at found
    exact ⟨found, scanRange_of_found found⟩
  · intro opened unclosed
    have failed := next_literal_cut before value after stop opened (by omega)
    exact ⟨failed, scanRange_of_failed failed⟩

/-- The value ends in a quote, and what stands around the literal would close it or escape a
quote. -/
def surroundedText : Bytes :=
  [Ascii.apostrophe, Ascii.backslash] ++ Layout.literal [Ascii.backslash, Ascii.quote] ++
    [Ascii.quote, byte 'n']

theorem surroundedText_read_between :
    next 2 (surroundedText.slice 2 10) =
      .found ⟨.literal [Ascii.backslash, Ascii.quote], 2, 8⟩ (surroundedText.slice 8 10) ∧
    next 2 (surroundedText.slice 2 7) = .failed .unterminated 2 2 ∧
    next 2 (surroundedText.slice 2 4) = .failed .unterminated 2 2 := by
  have read :=
    quoted_literal_read_between [Ascii.apostrophe, Ascii.backslash] [Ascii.backslash, Ascii.quote]
    [Ascii.quote, byte 'n']
  have closed := (read 10).1 (by decide)
  have cutBeforeQuote := (read 7).2 (by decide) (by decide)
  have cutInEscape := (read 4).2 (by decide) (by decide)
  exact ⟨closed.1, cutBeforeQuote.1, cutInEscape.1⟩

end Lexeme

end StackLang
