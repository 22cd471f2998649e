import StackLang.Proofs.CanonicalText

namespace StackLang

/-- A token that some text has. -/
def Token.Writable : Token → Prop
  | .mark _ => True
  | .keyword _ => True
  | .ident name => Lexeme.IsIdentifier name
  | .literal text => Utf8.valid text

instance : (t : Token) → Decidable t.Writable
  | .mark _ => inferInstanceAs (Decidable True)
  | .keyword _ => inferInstanceAs (Decidable True)
  | .ident name => inferInstanceAs (Decidable (Lexeme.IsIdentifier name))
  | .literal text => inferInstanceAs (Decidable (Utf8.valid text))

namespace Lexeme

theorem writable_ofWord {w : Bytes} (word : IsWord w) : (ofWord w).Writable := by
  unfold ofWord
  split
  next => trivial
  next none =>
    have spelled := spelling_ofWord word
    rw [ofWord, none] at spelled
    cases spelled with
    | ident identifier => exact identifier

theorem token_of_literal {quote : UInt8} {start pos : Nat} {read text rest : Bytes} {l : Lexeme}
    (h : literal quote start pos read text = .found l rest) :
    ∃ value, l.token = .literal value := by
  fun_induction literal quote start pos read text with
  | case1 => cases h
  | case2 pos read rest =>
    cases h
    exact ⟨read.reverse, rfl⟩
  | case3 => cases h
  | case4 pos read e rest b escape notQuote ih => exact ih h
  | case5 => cases h
  | case6 pos read c rest notQuote notEscape ih => exact ih h

theorem writable_scanToken {pos : Nat} {text rest : Bytes} {l : Lexeme} (valid : Utf8.valid text)
    (h : scanToken pos text = .found l rest) : l.token.Writable := by
  have validToken := (valid_scanToken valid h).1
  cases scans_of_scanToken h with
  | mark => trivial
  | literal _ inner =>
    obtain ⟨value, same⟩ := token_of_literal inner
    rw [same] at validToken ⊢
    exact validToken
  | @word c tail letter => exact writable_ofWord (isWord_takeWhile letter tail)

/-- All tokens of a valid text are writable. -/
theorem Splits.writable {pos : Nat} {text : Bytes} {lexemes : List Lexeme} {ending : Ending}
    (h : Splits pos text lexemes ending) (valid : Utf8.valid text) :
    ∀ l ∈ lexemes, l.token.Writable := by
  induction h with
  | ended next => simp
  | failed next => simp
  | @found pos text l rest lexemes ending next _ ih =>
    have first : l.token.Writable :=
      writable_scanToken (valid_skip (by simp) (fun _ => rfl) valid) next
    exact List.forall_mem_cons.mpr ⟨first, ih (valid_next valid next).2⟩

theorem writable_of_tokens? {text : Bytes} {tokens : List Token} (valid : Utf8.valid text)
    (h : tokens? text = some tokens) : ∀ t ∈ tokens, t.Writable := by
  obtain ⟨lexemes, pos, scan, rfl⟩ := tokens?_eq_some_iff.mp h
  exact List.forall_mem_map.mpr ((scan_eq_iff_splits.mp scan).writable valid)

end Lexeme

/-- A token as a text has it. -/
def Token.text : Token → Bytes
  | .mark m => [m.toByte]
  | .keyword k => k.word
  | .ident name => name
  | .literal text => Layout.literal text

/-- Tokens one after the other, each with a space behind it. -/
def Token.spaced (tokens : List Token) : Bytes :=
  tokens.flatMap fun t => t.text ++ [Ascii.space]

namespace Written

theorem token {t : Token} (h : t.Writable) : Written (t.text ++ [Ascii.space]) [t] := by
  cases t with
  | mark m => exact (mark m).append .space
  | keyword k =>
    have written : Written (k.word ++ [Ascii.space]) [Lexeme.ofWord k.word] :=
      word (Lexeme.isWord_word k) (by decide) .space
    rwa [Lexeme.ofWord_word] at written
  | ident name => exact ident h (by decide) .space
  | literal text => exact (literal h).append .space

theorem spaced {tokens : List Token} (h : ∀ t ∈ tokens, t.Writable) :
    Written (Token.spaced tokens) tokens := by
  induction tokens with
  | nil => exact nil
  | cons t rest ih =>
    obtain ⟨first, others⟩ := List.forall_mem_cons.mp h
    exact (token first).append (ih others)

end Written

end StackLang
