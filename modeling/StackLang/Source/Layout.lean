import StackLang.Failure
import StackLang.Source.Tree

namespace StackLang

inductive LayoutError where
  | document (value : Foreign)
  | stmt (value : Foreign)
  | expr (value : Foreign)
  deriving DecidableEq, Repr

def LayoutError.message : LayoutError → Bytes
  | document value => bytes "unsupported type: " ++ value.kind
  | stmt value => bytes "unsupported stmt: " ++ value.kind
  | expr value => bytes "unsupported expr: " ++ value.kind

namespace Layout

abbrev Result := Except (Failure LayoutError) Bytes

/-- A byte inside a double-quoted literal. -/
def escape (c : UInt8) : Bytes :=
  if c = Ascii.newline then [Ascii.backslash, byte 'n']
  else if c = Ascii.tab then [Ascii.backslash, byte 't']
  else if c = Ascii.backslash ∨ c = Ascii.quote then [Ascii.backslash, c]
  else [c]

/-- A literal as source text. -/
def literal (value : Bytes) : Bytes :=
  Ascii.quote :: value.flatMap escape ++ [Ascii.quote]

mutual

def expr : Expr → Result
  | .literal _ value => .ok (literal value)
  | .call _ name values => do
    let inner ← args name 0 values
    .ok (name ++ byte '(' :: inner ++ [byte ')'])
  | .foreign value => .error (.bare (.expr value))

/-- The arguments of `callee` from the one with number `index` on. -/
def args (callee : Bytes) (index : Nat) : List Expr → Result
  | [] => .ok []
  | value :: rest => do
    let first ← (expr value).mapError (.within (argContext callee index))
    let others ← args callee (index + 1) rest
    .ok ((if index = 0 then [] else bytes ", ") ++ first ++ others)

end

def stmt : Stmt → Result
  | .expr _ value => do
    let text ← (expr value).mapError (.within (bytes "expr"))
    .ok (Ascii.tab :: text ++ bytes ";\n")
  | .foreign value => .error (.bare (.stmt value))

def func (f : Func) : Result := do
  let lines ← (f.body.mapM stmt).mapError (.within (bytes "body"))
  .ok ((if f.impure then bytes "impure " else []) ++ bytes "fn " ++ f.name ++ bytes "() \x7b\n" ++
    lines.flatten ++ bytes "\x7d\n")

def file (f : File) : Result := do
  let texts ← f.funcs.mapM fun fn => (func fn).mapError (.within (funcContext fn.name))
  .ok (Bytes.join [Ascii.newline] texts)

/-- What can be asked for a text. -/
inductive Document where
  | file (f : File)
  | func (f : Func)
  | foreign (value : Foreign)

def document : Document → Result
  | .file f => file f
  | .func f => func f
  | .foreign value => .error (.bare (.document value))

/-- Appends the text of a document. -/
def append (buffer : Bytes) (d : Document) : Result := do
  let text ← document d
  .ok (buffer ++ text)

end Layout

/-- The canonical text of a file. -/
def File.format (f : File) : Except (Failure LayoutError) Bytes :=
  Layout.file f

end StackLang
