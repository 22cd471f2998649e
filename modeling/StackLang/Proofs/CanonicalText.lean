import StackLang.Proofs.GrammarReading
import StackLang.Proofs.TokenSpellings
import StackLang.Source.Layout

namespace StackLang

namespace Layout

/-- A byte stands for itself in a literal, or for an escape that stands for it. -/
theorem escape_cases (c : UInt8) :
    (escape c = [c] ∧ c ≠ Ascii.quote ∧ c ≠ Ascii.backslash) ∨
    (c < 0x80 ∧ ∃ e, e < 0x80 ∧ escape c = [Ascii.backslash, e] ∧ Lexeme.unescape? e = some c) := by
  unfold escape
  split
  next newline => subst newline; exact .inr ⟨by decide, byte 'n', by decide, rfl, by decide⟩
  next =>
    split
    next tab => subst tab; exact .inr ⟨by decide, byte 't', by decide, rfl, by decide⟩
    next =>
      split
      next special =>
        rcases special with rfl | rfl <;> exact .inr ⟨by decide, _, by decide, rfl, by decide⟩
      next plain =>
        obtain ⟨noBackslash, noQuote⟩ := not_or.mp plain
        exact .inl ⟨rfl, noQuote, noBackslash⟩

theorem literalBody_escape (value : Bytes) :
    LiteralBody Ascii.quote (value.flatMap escape) value := by
  induction value with
  | nil => exact .nil
  | cons c more ih =>
    rw [List.flatMap_cons]
    rcases escape_cases c with ⟨plain, noQuote, noBackslash⟩ | ⟨-, e, -, escaped, stands⟩
    · rw [plain]
      exact .plain noQuote noBackslash ih
    · rw [escaped]
      exact .escaped (Lexeme.unescape?_eq_some_iff.mp stands) ih

theorem valid_escape {value : Bytes} (before : Bytes) (h : Utf8.valid (before ++ value)) :
    Utf8.valid (before ++ value.flatMap escape) := by
  induction value generalizing before with
  | nil => exact h
  | cons c more ih =>
    rw [List.flatMap_cons]
    rcases escape_cases c with ⟨plain, -, -⟩ | ⟨ascii, e, eAscii, escaped, -⟩
    · rw [plain, ← List.append_assoc]
      apply ih
      simpa using h
    · rw [Utf8.valid_append_ascii ascii, Bool.and_eq_true] at h
      rw [escaped, List.cons_append, List.cons_append, List.nil_append,
        Utf8.valid_append_ascii (by decide), Utf8.valid_cons_ascii eAscii, Bool.and_eq_true]
      exact ⟨h.1, ih [] h.2⟩

end Layout

/-- A valid text that, whatever follows it, is split into the tokens. -/
structure Written (text : Bytes) (tokens : List Token) : Prop where
  valid : Utf8.valid text
  splits : ∀ (read : List Lexeme) (pos : Nat) (rest : Bytes),
    ∃ (lexemes : List Lexeme) (pos' : Nat), lexemes.map (·.token) = tokens ∧
      Lexeme.scanAfter read pos (text ++ rest) =
        Lexeme.scanAfter (lexemes.reverse ++ read) pos' rest

namespace Written

theorem nil : Written [] [] :=
  ⟨rfl, fun _ pos _ => ⟨[], pos, rfl, rfl⟩⟩

theorem append {a b : Bytes} {s t : List Token} (ha : Written a s) (hb : Written b t) :
    Written (a ++ b) (s ++ t) := by
  refine ⟨Utf8.valid_append ha.valid hb.valid, ?_⟩
  intro read pos rest
  obtain ⟨first, middle, tokens, scan⟩ := ha.splits read pos (b ++ rest)
  obtain ⟨second, pos', tokens', scan'⟩ := hb.splits (first.reverse ++ read) middle rest
  refine ⟨first ++ second, pos', by rw [List.map_append, tokens, tokens'], ?_⟩
  rw [List.append_assoc, scan, scan', List.reverse_append, List.append_assoc]

theorem blank {c : UInt8} (h : Lexeme.isBlank c) : Written [c] [] := by
  refine ⟨Utf8.valid_of_ascii (by simpa using Lexeme.ascii_of_isBlank h), ?_⟩
  intro read pos rest
  exact ⟨[], pos + 1, rfl, Lexeme.scanAfter_congr (Lexeme.next_of_blank h pos rest) read⟩

theorem space : Written [Ascii.space] [] :=
  blank rfl

theorem newline : Written [Ascii.newline] [] :=
  blank rfl

theorem found {text : Bytes} {token : Token} (valid : Utf8.valid text)
    (h : ∀ pos rest, ∃ stop, Lexeme.next pos (text ++ rest) = .found ⟨token, pos, stop⟩ rest) :
    Written text [token] := by
  refine ⟨valid, ?_⟩
  intro read pos rest
  obtain ⟨stop, next⟩ := h pos rest
  exact ⟨[⟨token, pos, stop⟩], stop, rfl, Lexeme.scanAfter_found next read⟩

theorem mark (m : Mark) : Written [m.toByte] [.mark m] := by
  apply found
  · exact Utf8.valid_of_ascii (by cases m <;> decide +kernel)
  · intro pos rest
    exact ⟨pos + 1, Lexeme.next_mark m pos rest⟩

theorem literal {value : Bytes} (valid : Utf8.valid value) :
    Written (Layout.literal value) [.literal value] := by
  apply found
  · have inner := Layout.valid_escape [] valid
    rw [List.nil_append] at inner
    rw [Layout.literal, List.cons_append, Utf8.valid_cons_ascii (by decide),
      Utf8.valid_append_ascii (by decide), inner]
    rfl
  · intro pos rest
    have spelled := Token.Spelling.literal (.inl rfl) (Layout.literalBody_escape value)
    exact ⟨_, spelled.next False.elim pos⟩

/-- A word stands before a text that starts with a byte that is no part of a word. -/
theorem word {w : Bytes} (isWord : Lexeme.IsWord w) {c : UInt8} {text : Bytes} {tokens : List Token}
    (ends : Lexeme.isWordByte c = false) (h : Written (c :: text) tokens) :
    Written (w ++ c :: text) (Lexeme.ofWord w :: tokens) := by
  refine ⟨Utf8.valid_append (Utf8.valid_of_ascii (Lexeme.ascii_of_isWord isWord)) h.valid, ?_⟩
  intro read pos rest
  have behind : Lexeme.EndsWord (c :: (text ++ rest)) := Lexeme.endsWord_cons.mpr ends
  have first := Lexeme.next_word isWord behind pos
  obtain ⟨lexemes, pos', same, scan⟩ :=
    h.splits (⟨Lexeme.ofWord w, pos, pos + w.length⟩ :: read) (pos + w.length) rest
  refine ⟨⟨Lexeme.ofWord w, pos, pos + w.length⟩ :: lexemes, pos', by rw [List.map_cons, same], ?_⟩
  rw [List.append_assoc, List.cons_append, Lexeme.scanAfter_found first]
  simpa using scan

theorem ident {w : Bytes} (identifier : Lexeme.IsIdentifier w) {c : UInt8} {text : Bytes}
    {tokens : List Token} (ends : Lexeme.isWordByte c = false) (h : Written (c :: text) tokens) :
    Written (w ++ c :: text) (.ident w :: tokens) := by
  rw [← Lexeme.ofWord_of_isIdentifier identifier]
  exact word identifier.1 ends h

theorem tokens? {text : Bytes} {tokens : List Token} (h : Written text tokens) :
    Lexeme.tokens? text = some tokens := by
  obtain ⟨lexemes, pos, same, scan⟩ := h.splits [] 0 []
  have atEnd : Lexeme.next pos [] = .ended pos := rfl
  refine Lexeme.tokens?_eq_some_iff.mpr ⟨lexemes, pos, ?_, same⟩
  rw [List.append_nil, Lexeme.scanAfter_ended atEnd] at scan
  simpa [Lexeme.scan] using scan

end Written

/-- An expression that a text can denote: its names are identifiers, and its literals are valid
UTF-8. -/
inductive Expr.Writable : Expr → Prop
  | literal {pos value} : Utf8.valid value → Writable (.literal pos value)
  | call {pos name args} : Lexeme.IsIdentifier name → (∀ a ∈ args, Writable a) →
      Writable (.call pos name args)

def Stmt.Writable : Stmt → Prop
  | .expr _ value => value.Writable
  | .foreign _ => False

def Func.Writable (f : Func) : Prop :=
  Lexeme.IsIdentifier f.name ∧ ∀ s ∈ f.body, s.Writable

def File.Writable (f : File) : Prop :=
  ∀ fn ∈ f.funcs, fn.Writable

namespace Layout

mutual

theorem expr_written : (e : Expr) → e.Writable →
    ∃ text tree, expr e = .ok text ∧ e.unplaced = ExprTree.expr tree ∧ Written text tree.tokens
  | .literal _ value, .literal valid => ⟨literal value, .literal value, rfl, rfl, .literal valid⟩
  | .call _ name values, .call identifier writable => by
    obtain ⟨inner, trees, written, same, splits⟩ := args_written values writable name 0
    refine ⟨name ++ byte '(' :: inner ++ [byte ')'], .call name trees, ?_, ?_, ?_⟩
    · rw [expr, written]
      rfl
    · rw [Expr.unplaced, ExprTree.expr, same]
    · have parens := (Written.mark .openParen).append (splits.append (.mark .closeParen))
      rw [ExprTree.tokens, List.append_assoc]
      exact .ident identifier (by decide) parens

theorem args_written :
    (values : List Expr) → (∀ a ∈ values, a.Writable) → (callee : Bytes) → (index : Nat) →
    ∃ text trees, args callee index values = .ok text ∧
      Expr.unplacedAll values = ExprTree.exprs trees ∧
      Written text (if index = 0 then ExprTree.argTokens trees else ExprTree.moreTokens trees)
  | [], _, _, _ =>
    ⟨[], [], rfl, rfl, by simpa [ExprTree.argTokens, ExprTree.moreTokens] using Written.nil⟩
  | value :: rest, writable, callee, index => by
    obtain ⟨first, tree, written, same, splits⟩ := expr_written value (writable value (by simp))
    obtain ⟨others, trees, written', same', splits'⟩ :=
      args_written rest (fun a ha => writable a (by simp [ha])) callee (index + 1)
    rw [if_neg (by omega)] at splits'
    have comma : Written (bytes ", ") [.mark .comma] := (Written.mark .comma).append .space
    refine ⟨(if index = 0 then [] else bytes ", ") ++ first ++ others, tree :: trees, ?_, ?_, ?_⟩
    · rw [args, written, mapError_ok, written']
      rfl
    · rw [Expr.unplacedAll, ExprTree.exprs, same, same']
    · by_cases h : index = 0
      · simpa [h, ExprTree.argTokens] using splits.append splits'
      · simpa [h, ExprTree.moreTokens] using comma.append (splits.append splits')

end

theorem stmt_written {s : Stmt} (h : s.Writable) :
    ∃ text tree, stmt s = .ok text ∧ s.unplaced = .expr 0 (ExprTree.expr tree) ∧
      Written text (ItemTree.stmt tree).tokens := by
  cases s with
  | foreign value => exact h.elim
  | expr pos value =>
    obtain ⟨text, tree, written, same, splits⟩ := expr_written value h
    have tab : Written [Ascii.tab] [] := .blank rfl
    have ending : Written (bytes ";\n") [.mark .semicolon] :=
      (Written.mark .semicolon).append .newline
    refine ⟨Ascii.tab :: text ++ bytes ";\n", tree, ?_, ?_, ?_⟩
    · rw [stmt, written]
      rfl
    · rw [Stmt.unplaced, same]
    · exact tab.append (splits.append ending)

theorem body_written {body : List Stmt} (h : ∀ s ∈ body, s.Writable) :
    ∃ lines, ∃ items : List ItemTree, body.mapM stmt = .ok lines ∧
      body.map Stmt.unplaced = items.filterMap ItemTree.stmt? ∧
      Written lines.flatten (items.flatMap ItemTree.tokens) := by
  induction body with
  | nil => exact ⟨[], [], rfl, rfl, .nil⟩
  | cons s rest ih =>
    obtain ⟨text, tree, written, same, splits⟩ := stmt_written (h s (by simp))
    obtain ⟨lines, items, written', same', splits'⟩ := ih fun s hs => h s (by simp [hs])
    refine ⟨text :: lines, .stmt tree :: items, ?_, ?_, ?_⟩
    · rw [List.mapM_cons, written, written']
      rfl
    · simp [ItemTree.stmt?, same, same']
    · exact splits.append splits'

theorem func_written {f : Func} (h : f.Writable) :
    ∃ text tree, func f = .ok text ∧ f.unplaced = FuncTree.func tree ∧
      Written text tree.tokens := by
  obtain ⟨lines, items, written, same, splits⟩ := body_written h.2
  have flag : Written (if f.impure then bytes "impure " else [])
      (FuncTree.flagTokens f.impure) := by
    cases f.impure with
    | false => exact .nil
    | true => exact .word (w := bytes "impure") (by decide +kernel) (by decide +kernel) .space
  have fn : Written (bytes "fn ") [.keyword .fn] :=
    .word (w := bytes "fn") (by decide +kernel) (by decide +kernel) .space
  have opening : Written (bytes "() \x7b\n") [.mark .openParen, .mark .closeParen,
      .mark .openBrace] :=
    (Written.mark .openParen).append ((Written.mark .closeParen).append
      (Written.space.append ((Written.mark .openBrace).append .newline)))
  have closing : Written (bytes "\x7d\n") [.mark .closeBrace] :=
    (Written.mark .closeBrace).append .newline
  have named : Written (f.name ++ bytes "() \x7b\n")
      [.ident f.name, .mark .openParen, .mark .closeParen, .mark .openBrace] :=
    .ident h.1 (by decide) opening
  refine ⟨(if f.impure then bytes "impure " else []) ++ bytes "fn " ++ f.name ++
    bytes "() \x7b\n" ++ lines.flatten ++ bytes "\x7d\n", ⟨f.impure, f.name, items⟩, ?_, ?_, ?_⟩
  · rw [func, written]
    rfl
  · rw [Func.unplaced, FuncTree.func, same]
  · have whole := flag.append (fn.append (named.append (splits.append closing)))
    simpa [FuncTree.tokens, FuncTree.headTokens] using whole

theorem funcs_written {funcs : List Func} (h : ∀ f ∈ funcs, f.Writable) :
    ∃ texts, ∃ trees : List FuncTree,
      funcs.mapM (fun f => (func f).mapError (Failure.within (funcContext f.name))) = .ok texts ∧
      funcs.map Func.unplaced = trees.map FuncTree.func ∧
      Written (Bytes.join [Ascii.newline] texts) (trees.flatMap FuncTree.tokens) := by
  induction funcs with
  | nil => exact ⟨[], [], rfl, rfl, .nil⟩
  | cons f rest ih =>
    obtain ⟨text, tree, written, same, splits⟩ := func_written (h f (by simp))
    obtain ⟨texts, trees, written', same', splits'⟩ := ih fun f hf => h f (by simp [hf])
    refine ⟨text :: texts, tree :: trees, ?_, by simp [same, same'], ?_⟩
    · rw [List.mapM_cons, written, written']
      rfl
    · cases texts with
      | nil => simpa [Bytes.join] using splits.append splits'
      | cons next others =>
        have joined := splits.append (Written.newline.append splits')
        simpa [Bytes.join] using joined

theorem file_written {f : File} (h : f.Writable) :
    ∃ text tree, file f = .ok text ∧ f.unplaced = FileTree.denotation tree ∧
      Written text tree.tokens := by
  obtain ⟨texts, trees, written, same, splits⟩ := funcs_written h
  refine ⟨Bytes.join [Ascii.newline] texts, ⟨trees⟩, ?_, same, splits⟩
  rw [file, written]
  rfl

end Layout

/-- The canonical text of a file reads as the file, and the file that was read has the same text. -/
theorem parse_format {f : File} (h : f.Writable) :
    ∃ text, f.format = .ok text ∧
      ∀ name, ∃ g, File.parse name text = .ok g ∧ g.unplaced = f.unplaced ∧
        g.format = .ok text := by
  obtain ⟨text, tree, written, same, splits⟩ := Layout.file_written h
  refine ⟨text, written, fun name => ?_⟩
  obtain ⟨g, parsed, denoted⟩ := File.parse_of_derivation name splits.valid splits.tokens?
  have unplaced : g.unplaced = f.unplaced := denoted.trans same.symm
  exact ⟨g, parsed, unplaced, (File.format_eq_of_unplaced unplaced).trans written⟩

/-- A file with a literal of quotes, escapes, control bytes and slashes. -/
def awkwardFile : File :=
  ⟨bytes "a", [⟨7, bytes "main", true, [.expr 5 (.call 5 (bytes "print")
      [.literal 2 [0x22, 0x27, 0x5C, 0x0A, 0x09, 0x0D, 0x00, 0x2F, 0x2F],
        .call 3 (bytes "f_1") []])]⟩,
    ⟨0, bytes "f_1", false, []⟩]⟩

theorem parse_format_awkwardFile :
    awkwardFile.Writable ∧ ∃ text g, awkwardFile.format = .ok text ∧ File.parse [] text = .ok g ∧
      g.unplaced = awkwardFile.unplaced ∧ g.format = .ok text := by
  have writable : awkwardFile.Writable := by
    have inner : Expr.Writable (.call 3 (bytes "f_1") []) := .call (by decide +kernel) (by simp)
    have literal :
        Expr.Writable (.literal 2 [0x22, 0x27, 0x5C, 0x0A, 0x09, 0x0D, 0x00, 0x2F, 0x2F]) :=
      .literal (by decide +kernel)
    have call : Expr.Writable (.call 5 (bytes "print")
        [.literal 2 [0x22, 0x27, 0x5C, 0x0A, 0x09, 0x0D, 0x00, 0x2F, 0x2F],
          .call 3 (bytes "f_1") []]) :=
      .call (by decide +kernel) (by simpa using ⟨literal, inner⟩)
    intro f hf
    obtain rfl | hf := List.mem_cons.mp hf
    · exact ⟨by decide +kernel, by simpa [Stmt.Writable] using call⟩
    · obtain rfl := List.mem_singleton.mp hf
      exact ⟨by decide +kernel, by simp⟩
  obtain ⟨text, written, parses⟩ := parse_format writable
  obtain ⟨g, parsed, same, again⟩ := parses []
  exact ⟨writable, text, g, written, parsed, same, again⟩

end StackLang
