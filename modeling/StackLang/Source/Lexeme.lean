import StackLang.Source.Token

namespace StackLang

/-- A token and its span, from `start` up to but not including `stop`. -/
structure Lexeme where
  token : Token
  start : Nat
  stop : Nat
  deriving DecidableEq, Repr

inductive LexError where
  | stray (c : UInt8)
  | badEscape (c : UInt8)
  | unterminated
  deriving DecidableEq, Repr

def LexError.message : LexError → Bytes
  | stray c => bytes "unexpected character: " ++ Text.quotedByte c
  | badEscape c => Ascii.backslash :: Utf8.encode c.toNat ++ bytes ": unknown escape sequence"
  | unterminated => bytes "unterminated string literal"

/-- What stands at the front of a text: its end, a token and the text after it, or no token. A
failure names the start of what was read and the place where reading stopped. -/
inductive Scan where
  | ended (pos : Nat)
  | found (lexeme : Lexeme) (rest : Bytes)
  | failed (cause : LexError) (start stop : Nat)
  deriving DecidableEq, Repr

namespace Lexeme

def isBlank (c : UInt8) : Bool :=
  c == Ascii.space || c == Ascii.tab || c == Ascii.newline || c == Ascii.carriageReturn

def isWordByte (c : UInt8) : Bool :=
  Ascii.isLetter c || Ascii.isDigit c || c == Ascii.underscore

/-- Skips blanks and comments. -/
def skip (inComment : Bool) (pos : Nat) : Bytes → Nat × Bytes
  | [] => (pos, [])
  | c :: rest =>
    if inComment then skip (c != Ascii.newline) (pos + 1) rest
    else if isBlank c then skip false (pos + 1) rest
    else if c == Ascii.slash && rest.head? == some Ascii.slash then skip true (pos + 1) rest
    else (pos, c :: rest)

/-- The byte that an escape stands for. -/
def unescape? (c : UInt8) : Option UInt8 :=
  if c = byte 'n' then some Ascii.newline
  else if c = byte 't' then some Ascii.tab
  else if c = Ascii.backslash ∨ c = Ascii.quote ∨ c = Ascii.apostrophe then some c
  else none

/-- Reads a literal up to its closing quote. `read` holds the bytes decoded so far, latest first. -/
def literal (quote : UInt8) (start pos : Nat) (read : Bytes) : Bytes → Scan
  | [] => .failed .unterminated start start
  | c :: rest =>
    if c = quote then .found ⟨.literal read.reverse, start, pos + 1⟩ rest
    else if c = Ascii.backslash then
      match rest with
      | [] => .failed .unterminated start start
      | e :: rest =>
        match unescape? e with
        | some b => literal quote start (pos + 2) (b :: read) rest
        | none => .failed (.badEscape e) start pos
    else literal quote start (pos + 1) (c :: read) rest

/-- A word is a keyword or a name. -/
def ofWord (word : Bytes) : Token :=
  match Keyword.ofWord? word with
  | some k => .keyword k
  | none => .ident word

/-- The token at the front of a text that starts with neither a blank nor a comment. -/
def scanToken (pos : Nat) : Bytes → Scan
  | [] => .ended pos
  | c :: rest =>
    match Mark.ofByte? c with
    | some m => .found ⟨.mark m, pos, pos + 1⟩ rest
    | none =>
      if c = Ascii.quote ∨ c = Ascii.apostrophe then literal c pos (pos + 1) [] rest
      else if Ascii.isLetter c then
        let word := c :: rest.takeWhile isWordByte
        .found ⟨ofWord word, pos, pos + word.length⟩ (rest.dropWhile isWordByte)
      else .failed (.stray c) pos pos

/-- The first token of a text whose first byte is at `pos`. -/
def next (pos : Nat) (text : Bytes) : Scan :=
  let (pos, text) := skip false pos text
  scanToken pos text

theorem skip_length (inComment : Bool) (pos : Nat) (text : Bytes) :
    (skip inComment pos text).2.length ≤ text.length := by
  induction text generalizing inComment pos with
  | nil => simp [skip]
  | cons c rest ih =>
    unfold skip
    split
    · exact Nat.le_succ_of_le (ih _ _)
    · split
      · exact Nat.le_succ_of_le (ih _ _)
      · split
        · exact Nat.le_succ_of_le (ih _ _)
        · exact Nat.le_refl _

theorem literal_length {quote : UInt8} {start pos : Nat} {read text rest : Bytes} {l : Lexeme}
    (h : literal quote start pos read text = .found l rest) : rest.length < text.length := by
  fun_induction literal quote start pos read text <;> simp_all
  all_goals omega

theorem scanToken_length {pos : Nat} {text rest : Bytes} {l : Lexeme}
    (h : scanToken pos text = .found l rest) : rest.length < text.length := by
  unfold scanToken at h
  split at h
  next => simp at h
  next c tail =>
    split at h
    next => simp at h; simp [h.2]
    next =>
      split at h
      next => exact Nat.lt_succ_of_lt (literal_length h)
      next =>
        split at h
        next =>
          simp only [Scan.found.injEq] at h
          have := (List.dropWhile_suffix isWordByte (l := tail)).length_le
          rw [← h.2, List.length_cons]
          omega
        next => simp at h

theorem next_length {pos : Nat} {text rest : Bytes} {l : Lexeme}
    (h : next pos text = .found l rest) : rest.length < text.length :=
  Nat.lt_of_lt_of_le (scanToken_length h) (skip_length false pos text)

end Lexeme

/-- How a text's tokens end: at the end of the text, or at something that is no token. -/
inductive Ending where
  | finished (pos : Nat)
  | failed (cause : LexError) (start stop : Nat)
  deriving DecidableEq, Repr

namespace Lexeme

/-- All tokens of a text whose first byte is at `pos`, behind those already read, which stand latest
first. -/
def scanAfter (read : List Lexeme) (pos : Nat) (text : Bytes) : List Lexeme × Ending :=
  match _h : next pos text with
  | .ended pos => (read.reverse, .finished pos)
  | .failed cause start stop => (read.reverse, .failed cause start stop)
  | .found l rest => scanAfter (l :: read) l.stop rest
termination_by text.length
decreasing_by exact next_length _h

def scan (pos : Nat) (text : Bytes) : List Lexeme × Ending :=
  scanAfter [] pos text

/-- The tokens of the range of a text from `start` up to `stop`, which is not before it. -/
def scanRange (text : Bytes) (start stop : Nat) : List Lexeme × Ending :=
  scan start (text.slice start stop)

/-- The tokens from a place behind the end of a range on. Nothing is skipped there and no literal is
complete. A word has no bytes there, so reading does not get past a letter; nor is there an answer
behind the end of the text. -/
def scanBehind (pos : Nat) : Bytes → Option (List Lexeme × Ending)
  | [] => none
  | c :: rest =>
    match Mark.ofByte? c with
    | some m =>
      (scanBehind (pos + 1) rest).map fun (lexemes, ending) =>
        (⟨.mark m, pos, pos + 1⟩ :: lexemes, ending)
    | none =>
      if c = Ascii.quote ∨ c = Ascii.apostrophe then some ([], .failed .unterminated pos pos)
      else if Ascii.isLetter c then none
      else some ([], .failed (.stray c) pos pos)

/-- The tokens between two offsets in any order, if reading them ends. -/
def scanBetween? (text : Bytes) (start stop : Nat) : Option (List Lexeme × Ending) :=
  if start ≤ stop then some (scanRange text start stop) else scanBehind start (text.drop start)

end Lexeme

end StackLang
