import Mathlib.Data.List.Chain
import StackLang.Proofs.TokenSpellings

namespace StackLang

namespace Bytes

theorem length_slice {text : Bytes} {start stop : Nat} (inside : stop ≤ text.length) :
    (text.slice start stop).length = stop - start := by
  rw [slice, List.length_drop, List.length_take, Nat.min_eq_left inside]

theorem getElem?_slice (text : Bytes) (start stop i : Nat) :
    (text.slice start stop)[i]? = if start + i < stop then text[start + i]? else none := by
  rw [slice, List.getElem?_drop, List.getElem?_take]

theorem slice_congr {text text' : Bytes} {start stop : Nat}
    (same : ∀ i, start ≤ i → i < stop → text'[i]? = text[i]?) :
    text'.slice start stop = text.slice start stop := by
  apply List.ext_getElem?
  intro i
  rw [getElem?_slice, getElem?_slice]
  by_cases below : start + i < stop
  · rw [if_pos below, if_pos below, same (start + i) (Nat.le_add_right start i) below]
  · rw [if_neg below, if_neg below]

/-- A part of a range is a part of the text. -/
theorem slice_of_slice {text front part rest : Bytes} {start stop : Nat}
    (split : text.slice start stop = front ++ (part ++ rest)) :
    text.slice (start + front.length) (start + front.length + part.length) = part := by
  apply List.ext_getElem?
  intro i
  rw [getElem?_slice]
  by_cases below : i < part.length
  · have own : (text.slice start stop)[front.length + i]? = part[i]? := by
      rw [split, List.getElem?_append_right (Nat.le_add_right _ _), Nat.add_sub_cancel_left,
        List.getElem?_append_left below]
    rw [getElem?_slice] at own
    split at own
    next => rw [if_pos (by omega), Nat.add_assoc, own]
    next =>
      rw [List.getElem?_eq_getElem below] at own
      cases own
  · rw [if_neg (by omega), List.getElem?_eq_none (by omega)]

end Bytes

/-- A token as it stands in a text: the gap in front of it, and how it is written. -/
structure Segment where
  gap : Bytes
  token : Token
  spelling : Bytes
  separates : Gap False gap
  spells : token.Spelling spelling

namespace Segment

def text (s : Segment) : Bytes :=
  s.gap ++ s.spelling

/-- The token of a segment that starts at `pos`, with its place. -/
def lexeme (pos : Nat) (s : Segment) : Lexeme :=
  ⟨s.token, pos + s.gap.length, pos + s.text.length⟩

def lexemes (pos : Nat) : List Segment → List Lexeme
  | [] => []
  | s :: rest => s.lexeme pos :: lexemes (pos + s.text.length) rest

def texts (segments : List Segment) : Bytes :=
  segments.flatMap text

/-- Something stands between two words. -/
def Apart (s t : Segment) : Prop :=
  s.token.IsWord → t.token.IsWord → t.gap ≠ []

/-- No word goes on in what stands behind it. -/
def Uncut (segments : List Segment) (tail : Bytes) : Prop :=
  ∀ before s after, segments = before ++ s :: after → s.token.IsWord →
    Lexeme.EndsWord (texts after ++ tail)

variable {s : Segment} {segments : List Segment} {tail : Bytes}

theorem texts_cons : texts (s :: segments) = s.text ++ texts segments :=
  List.flatMap_cons

theorem exists_of_mem_lexemes {pos : Nat} {l : Lexeme} (h : l ∈ lexemes pos segments) :
    ∃ before s after, segments = before ++ s :: after ∧
      l = s.lexeme (pos + (texts before).length) := by
  induction segments generalizing pos with
  | nil => cases h
  | cons s rest ih =>
    rcases List.mem_cons.mp h with rfl | h
    · exact ⟨[], s, rest, rfl, rfl⟩
    · obtain ⟨before, t, after, rfl, rfl⟩ := ih h
      refine ⟨s :: before, t, after, rfl, ?_⟩
      rw [texts_cons, List.length_append, ← Nat.add_assoc]

theorem uncut_nil : Uncut [] tail := by
  intro before s after split
  simp at split

theorem uncut_cons : Uncut (s :: segments) tail ↔
    (s.token.IsWord → Lexeme.EndsWord (texts segments ++ tail)) ∧ Uncut segments tail := by
  constructor
  · intro h
    refine ⟨h [] s segments rfl, ?_⟩
    rintro before t after rfl
    exact h (s :: before) t after rfl
  · rintro ⟨first, others⟩ before t after same
    cases before with
    | nil =>
      obtain ⟨rfl, rfl⟩ := List.cons.inj same
      exact first
    | cons _ before => exact others before t after (List.cons.inj same).2

theorem endsWord_text (apart : ¬ s.token.IsWord ∨ s.gap ≠ []) (rest : Bytes) :
    Lexeme.EndsWord (s.text ++ rest) := by
  rw [text, List.append_assoc]
  by_cases empty : s.gap = []
  · have noWord : ¬ s.token.IsWord := apart.resolve_right (not_not_intro empty)
    rw [empty, List.nil_append]
    exact s.spells.endsWord noWord rest
  · exact s.separates.endsWord empty _

theorem uncut_of_apart (apart : segments.IsChain Apart) (trailing : Gap True tail) :
    Uncut segments tail := by
  induction segments with
  | nil => exact uncut_nil
  | cons s rest ih =>
    refine uncut_cons.mpr ⟨fun word => ?_, ih apart.tail⟩
    cases rest with
    | nil =>
      by_cases empty : tail = []
      · rw [empty]
        exact Lexeme.endsWord_nil
      · have ends := trailing.endsWord empty []
        rwa [List.append_nil] at ends
    | cons t more =>
      have first : Apart s t := (List.isChain_cons_cons.mp apart).1
      rw [texts_cons, List.append_assoc]
      apply endsWord_text
      by_cases wordToo : t.token.IsWord
      · exact .inr (first word wordToo)
      · exact .inl wordToo

theorem apart_of_uncut (uncut : Uncut segments tail) : segments.IsChain Apart := by
  induction segments with
  | nil => exact .nil
  | cons s rest ih =>
    obtain ⟨first, others⟩ := uncut_cons.mp uncut
    cases rest with
    | nil => exact .singleton s
    | cons t more =>
      refine .cons_cons ?_ (ih others)
      intro word wordToo empty
      have ends := first word
      rw [texts_cons, text, empty, List.nil_append, List.append_assoc] at ends
      exact Lexeme.not_endsWord_of_isWord (t.spells.isWord wordToo).1 _ ends

/-- A word does not go on a word that stands in front of it. -/
theorem startsWord_of_uncut {before after : List Segment}
    (uncut : Uncut (before ++ s :: after) tail) (word : s.token.IsWord) :
    Lexeme.StartsWord (texts before ++ s.gap) := by
  by_cases empty : s.gap = []
  · rw [empty, List.append_nil]
    rcases List.eq_nil_or_concat before with rfl | ⟨others, p, rfl⟩
    · exact Lexeme.startsWord_nil
    · have noWord : ¬ p.token.IsWord := by
        intro wordToo
        have ends := uncut others p (s :: after) (by simp) wordToo
        rw [texts_cons, text, empty, List.nil_append, List.append_assoc] at ends
        exact Lexeme.not_endsWord_of_isWord (s.spells.isWord word).1 _ ends
      obtain ⟨front, c, same, noWordByte⟩ := p.spells.exists_last noWord
      have whole : texts (others.concat p) = texts others ++ p.gap ++ front ++ [c] := by
        simp [texts, text, same]
      rw [whole]
      exact Lexeme.startsWord_concat.mpr noWordByte
  · obtain ⟨front, c, same, noWordByte⟩ := s.separates.exists_last empty
    rw [same, ← List.append_assoc]
    exact Lexeme.startsWord_concat.mpr noWordByte

theorem next_text (s : Segment) {rest : Bytes} (ends : s.token.IsWord → Lexeme.EndsWord rest)
    (pos : Nat) :
    Lexeme.next pos (s.text ++ rest) = .found (s.lexeme pos) rest := by
  have place : pos + s.gap.length + s.spelling.length = pos + s.text.length := by
    rw [text, List.length_append]
    omega
  rw [text, List.append_assoc, s.separates.next False.elim, s.spells.next ends, place]
  rfl

theorem splits (apart : segments.IsChain Apart) (trailing : Gap True tail) (pos : Nat) :
    Lexeme.Splits pos (texts segments ++ tail) (lexemes pos segments)
      (.finished (pos + (texts segments ++ tail).length)) := by
  have uncut := uncut_of_apart apart trailing
  clear apart
  induction segments generalizing pos with
  | nil =>
    have ended : Lexeme.next pos (tail ++ []) = .ended (pos + tail.length) :=
      trailing.next (fun _ => rfl) pos
    rw [List.append_nil] at ended
    exact .ended ended
  | cons s rest ih =>
    obtain ⟨first, others⟩ := uncut_cons.mp uncut
    have place : pos + s.text.length + (texts rest ++ tail).length =
        pos + (texts (s :: rest) ++ tail).length := by
      simp only [texts_cons, List.length_append]
      omega
    rw [← place, texts_cons, List.append_assoc]
    exact .found (s.next_text first pos) (ih _ others)

end Segment

/-- What stands behind the last lexeme, from `pos` on: a gap, or a gap and a text at whose front no
token is written. -/
def Ending.Follows (pos : Nat) (tail : Bytes) : Ending → Prop
  | finished stop => Gap True tail ∧ stop = pos + tail.length
  | failed _ start _ => ∃ gap rest, tail = gap ++ rest ∧ Gap False gap ∧ start = pos + gap.length ∧
      ∀ (t : Token) (spelling after : Bytes), rest = spelling ++ after → ¬ t.Spelling spelling

namespace Lexeme

theorem exists_segment {pos : Nat} {text rest : Bytes} {l : Lexeme}
    (h : next pos text = .found l rest) :
    ∃ s : Segment, text = s.text ++ rest ∧ l = s.lexeme pos ∧ (s.token.IsWord → EndsWord rest) := by
  obtain ⟨gap, middle, isGap, rfl, skipped⟩ := exists_gap pos text
  have found : scanToken (pos + gap.length) middle = .found l rest := by
    rw [← h, next, skipped]
  obtain ⟨spelling, spelled, rfl, ends⟩ := exists_spelling found
  obtain ⟨starts, reaches, -⟩ := reaches_scanToken found
  have noEnd : spelling ++ rest ≠ [] := by simp [spelled.ne_nil]
  refine ⟨⟨gap, l.token, spelling, isGap.mono noEnd,
    spelled⟩, by rw [Segment.text, List.append_assoc], ?_, ends⟩
  have stops := reaches.length
  obtain ⟨token, start, stop⟩ := l
  simp only [Segment.lexeme, Segment.text, mk.injEq, true_and, List.length_append] at *
  omega

theorem follows_of_ended {pos stop : Nat} {text : Bytes} (h : next pos text = .ended stop) :
    (Ending.finished stop).Follows pos text := by
  obtain ⟨gap, rest, isGap, rfl, skipped⟩ := exists_gap pos text
  have ended : scanToken (pos + gap.length) rest = .ended stop := by
    rw [← h, next, skipped]
  obtain ⟨rfl, rfl⟩ := eq_nil_of_scanToken_ended ended
  rw [List.append_nil]
  exact ⟨isGap.mono fun _ => trivial, rfl⟩

theorem follows_of_failed {pos start stop : Nat} {text : Bytes} {cause : LexError}
    (h : next pos text = .failed cause start stop) :
    (Ending.failed cause start stop).Follows pos text := by
  obtain ⟨gap, rest, isGap, rfl, skipped⟩ := exists_gap pos text
  have failed : scanToken (pos + gap.length) rest = .failed cause start stop := by
    rw [← h, next, skipped]
  have more : rest ≠ [] := by
    rintro rfl
    cases failed
  refine ⟨gap, rest, rfl, isGap.mono more, start_of_scanToken_failed failed, ?_⟩
  rintro t spelling after rfl spelled
  obtain ⟨l, behind, found⟩ := spelled.exists_found (pos + gap.length) after
  rw [← isGap.next id, h] at found
  cases found

namespace Splits

variable {pos : Nat} {text : Bytes} {lexemes : List Lexeme} {ending : Ending}

theorem exists_segments (h : Splits pos text lexemes ending) :
    ∃ segments tail, text = Segment.texts segments ++ tail ∧
      lexemes = Segment.lexemes pos segments ∧
      Segment.Uncut segments tail ∧
      ending.Follows (pos + (Segment.texts segments).length) tail := by
  induction h with
  | @ended pos text stop next =>
    exact ⟨[], text, rfl, rfl, Segment.uncut_nil, follows_of_ended next⟩
  | @failed pos text cause start stop next =>
    exact ⟨[], text, rfl, rfl, Segment.uncut_nil, follows_of_failed next⟩
  | @found pos text l rest lexemes ending next _ ih =>
    obtain ⟨s, rfl, rfl, ends⟩ := exists_segment next
    obtain ⟨segments, tail, rfl, rfl, uncut, follows⟩ := ih
    refine ⟨s :: segments, tail, ?_, rfl, Segment.uncut_cons.mpr ⟨ends, uncut⟩, ?_⟩
    · rw [Segment.texts_cons, List.append_assoc]
    · rw [Segment.texts_cons, List.length_append, ← Nat.add_assoc]
      exact follows

theorem exists_spelling_of_mem (h : Splits pos text lexemes ending) :
    ∀ l ∈ lexemes, ∃ front spelling rest, text = front ++ (spelling ++ rest) ∧
      l.start = pos + front.length ∧
      l.stop = l.start + spelling.length ∧ l.token.Spelling spelling ∧
      (l.token.IsWord → EndsWord rest) := by
  obtain ⟨segments, tail, rfl, rfl, uncut, -⟩ := h.exists_segments
  intro l hl
  obtain ⟨before, s, after, rfl, rfl⟩ := Segment.exists_of_mem_lexemes hl
  refine ⟨Segment.texts before ++ s.gap, s.spelling, Segment.texts after ++ tail, ?_, ?_,
    ?_, s.spells, ?_⟩
  · simp [Segment.texts, Segment.text]
  · rw [List.length_append, ← Nat.add_assoc]
    rfl
  · simp only [Segment.lexeme, Segment.text, List.length_append]
    omega
  · exact uncut before s after rfl

/-- Each lexeme of a range stands where its token is written. -/
theorem spelled {start stop : Nat} (h : Splits start (text.slice start stop) lexemes ending) :
    ∀ l ∈ lexemes, l.token.Spelling (text.slice l.start l.stop) := by
  intro l hl
  obtain ⟨front, spelling, rest, split, starts, stops, spells, -⟩ := h.exists_spelling_of_mem l hl
  rw [stops, starts, Bytes.slice_of_slice split]
  exact spells

/-- Read from where a lexeme starts, the range gives the lexeme first. -/
theorem next_from_start {start stop : Nat}
    (h : Splits start (text.slice start stop) lexemes ending) :
    ∀ l ∈ lexemes, ∃ rest, next l.start (text.slice l.start stop) = .found l rest := by
  intro l hl
  obtain ⟨front, spelling, rest, split, starts, stops, spells, ends⟩ :=
    h.exists_spelling_of_mem l hl
  have behind : text.slice l.start stop = spelling ++ rest := by
    have dropped : (text.slice start stop).drop front.length = spelling ++ rest := by
      rw [split, List.drop_left]
    rwa [Bytes.slice, List.drop_drop, ← starts] at dropped
  refine ⟨rest, ?_⟩
  rw [behind, spells.next ends, ← stops]

end Splits

end Lexeme

/-- A segment that is a word, between what stands in front of its spelling and what stands behind
it. -/
structure Segment.IsMaximalWord (before : Bytes) (s : Segment) (after : Bytes) : Prop where
  word : Lexeme.IsWord s.spelling
  keyword : (∃ k, s.token = .keyword k) ↔ s.spelling = bytes "fn" ∨ s.spelling = bytes "impure"
  starts : Lexeme.StartsWord before
  ends : Lexeme.EndsWord after

theorem Segment.isMaximalWord {before after : List Segment} {s : Segment} {tail : Bytes}
    (uncut : Uncut (before ++ s :: after) tail) (word : s.token.IsWord) :
    s.IsMaximalWord (texts before ++ s.gap) (texts after ++ tail) := by
  obtain ⟨isWord, same⟩ := s.spells.isWord word
  refine ⟨isWord, ⟨?_, ?_⟩, startsWord_of_uncut uncut word, uncut before s after rfl word⟩
  · rintro ⟨k, isKeyword⟩
    have spells := s.spells
    rw [isKeyword] at spells
    cases k with
    | fn => exact .inl spells.eq_word
    | impure => exact .inr spells.eq_word
  · rintro (isFn | isImpure)
    · exact ⟨.fn, by rw [← same, isFn]; exact Lexeme.ofWord_word .fn⟩
    · exact ⟨.impure, by rw [← same, isImpure]; exact Lexeme.ofWord_word .impure⟩

namespace Lexeme

/-- The lexemes of the range of a text from `start` up to `stop`. -/
structure SplitsRange (text : Bytes) (start stop : Nat) (lexemes : List Lexeme) (ending : Ending) :
    Prop where
  splits : Splits start (text.slice start stop) lexemes ending
  inside : ∀ l ∈ lexemes, start ≤ l.start ∧ l.start < l.stop ∧ l.stop ≤ stop
  ordered : lexemes.Pairwise fun a b => a.stop ≤ b.start
  spelled : ∀ l ∈ lexemes, l.token.Spelling (text.slice l.start l.stop)
  segments : ∃ segments tail, lexemes = Segment.lexemes start segments ∧
    segments.IsChain Segment.Apart ∧ text.slice start stop = Segment.texts segments ++ tail ∧
    ending.Follows (start + (Segment.texts segments).length) tail ∧
    ∀ before s after, segments = before ++ s :: after → s.token.IsWord →
      s.IsMaximalWord (Segment.texts before ++ s.gap) (Segment.texts after ++ tail)

theorem Splits.range {text : Bytes} {start stop : Nat} {lexemes : List Lexeme} {ending : Ending}
    (ordered : start ≤ stop) (inside : stop ≤ text.length)
    (h : Splits start (text.slice start stop) lexemes ending) :
    SplitsRange text start stop lexemes ending := by
  obtain ⟨segments, tail, split, same, uncut, follows⟩ := h.exists_segments
  refine ⟨h, ?_, h.ordered, h.spelled, segments, tail, same, Segment.apart_of_uncut uncut,
    split, follows, ?_⟩
  · intro l hl
    have bounds := h.lexeme_bounds l hl
    have place := h.place_bounds
    rw [Bytes.length_slice inside] at place
    omega
  · rintro before s after rfl word
    exact Segment.isMaximalWord uncut word

/-- Reading the tokens of a range ends, and depends on the bytes of the range alone. The range is
then a row of tokens as they are written, with gaps between them, up to its end or to a place where
no token is written; and a row of tokens that makes up the range, whatever the gaps and the
spellings, is read back with each token where it stands. -/
theorem scanRange_exact (text : Bytes) {start stop : Nat} (ordered : start ≤ stop)
    (inside : stop ≤ text.length) :
    ∃ lexemes ending, scanRange text start stop = (lexemes, ending) ∧
      SplitsRange text start stop lexemes ending ∧
      (∀ text' : Bytes, (∀ i, start ≤ i → i < stop → text'[i]? = text[i]?) →
        scanRange text' start stop = (lexemes, ending)) ∧
      ∀ segments tail, segments.IsChain Segment.Apart → Gap True tail →
        text.slice start stop = Segment.texts segments ++ tail →
        lexemes = Segment.lexemes start segments ∧ ending = .finished stop := by
  have ranged (text : Bytes) : scanRange text start stop = scan start (text.slice start stop) := rfl
  obtain ⟨lexemes, ending, splits⟩ := exists_splits start (text.slice start stop)
  have scanned : scan start (text.slice start stop) = (lexemes, ending) :=
    scan_eq_iff_splits.mpr splits
  refine ⟨lexemes, ending, (ranged text).trans scanned, splits.range ordered inside, ?_, ?_⟩
  · intro text' same
    rw [ranged, Bytes.slice_congr same, scanned]
  · intro segments tail apart trailing split
    have length : (text.slice start stop).length = stop - start := Bytes.length_slice inside
    have read := Segment.splits apart trailing start
    rw [← split, length, Nat.add_sub_cancel' ordered, ← scan_eq_iff_splits, scanned] at read
    exact Prod.mk.inj read

/-- The bytes around the range from 1 up to 22 would make another word and open a literal. -/
def clippedText : Bytes :=
  bytes "xfn f1 // '\n(\"a\\\"'//\",'"

theorem gap_clipped : Gap False (bytes " // '\n") :=
  .blank List.mem_cons_self (@Gap.comment False (bytes " '") [] (by decide) .nil)

theorem isIdentifier_clipped : IsIdentifier (bytes "f1") := by
  decide +kernel

theorem literalBody_clipped : LiteralBody Ascii.quote (bytes "a\\\"'//") (bytes "a\"'//") := by
  apply LiteralBody.plain (by decide) (by decide)
  apply LiteralBody.escaped .quote
  apply LiteralBody.plain (by decide) (by decide)
  apply LiteralBody.plain (by decide) (by decide)
  exact .plain (by decide) (by decide) .nil

/-- The tokens of the range as they are written there, each behind its gap. -/
def clippedSegments : List Segment :=
  [⟨[], .keyword .fn, bytes "fn", .nil, .keyword .fn⟩,
    ⟨[Ascii.space], .ident (bytes "f1"), bytes "f1", .blank List.mem_cons_self .nil,
      .ident isIdentifier_clipped⟩,
    ⟨bytes " // '\n", .mark .openParen, bytes "(", gap_clipped, .mark .openParen⟩,
    ⟨[], .literal (bytes "a\"'//"), bytes "\"a\\\"'//\"", .nil,
      .literal (.inl rfl) literalBody_clipped⟩,
    ⟨[], .mark .comma, bytes ",", .nil, .mark .comma⟩]

theorem clippedText_scanned_exactly : 1 ≤ 22 ∧ 22 ≤ clippedText.length ∧
    ∃ lexemes, scanRange clippedText 1 22 = (lexemes, .finished 22) ∧
      lexemes = [⟨.keyword .fn, 1, 3⟩, ⟨.ident (bytes "f1"), 4, 6⟩, ⟨.mark .openParen, 12, 13⟩,
        ⟨.literal (bytes "a\"'//"), 13, 21⟩, ⟨.mark .comma, 21, 22⟩] ∧
      SplitsRange clippedText 1 22 lexemes (.finished 22) ∧
      ∀ text' : Bytes, (∀ i, 1 ≤ i → i < 22 → text'[i]? = clippedText[i]?) →
        scanRange text' 1 22 = (lexemes, .finished 22) := by
  have ordered : 1 ≤ 22 := by decide
  have inside : 22 ≤ clippedText.length := by decide +kernel
  have rendered : clippedText.slice 1 22 = Segment.texts clippedSegments ++ [] := by decide +kernel
  have apart : clippedSegments.IsChain Segment.Apart := by
    simp [clippedSegments, Segment.Apart, Token.IsWord]
  obtain ⟨lexemes, ending, scanned, splits, alone, back⟩ :=
    scanRange_exact clippedText ordered inside
  obtain ⟨rfl, rfl⟩ := back clippedSegments [] apart .nil rendered
  exact ⟨ordered, inside, _, scanned, by decide +kernel, splits, alone⟩

end Lexeme

end StackLang
