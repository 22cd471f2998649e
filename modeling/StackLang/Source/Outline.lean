import StackLang.Source.Tree

namespace StackLang.Outline

/-- Named fields in braces. -/
def fields (entries : List (String × Bytes)) : Bytes :=
  bytes "\x7b" ++ Bytes.join [Ascii.space] (entries.map fun e => bytes e.1 ++ byte ':' :: e.2) ++
    bytes "\x7d"

mutual

def expr : Expr → Bytes
  | .literal pos value => fields [("Pos", Text.decimal pos), ("Value", value)]
  | .call pos name values =>
    fields [("Pos", Text.decimal pos), ("Name", name),
      ("Args", bytes "[" ++ Bytes.join [Ascii.space] (args values) ++ bytes "]")]
  | .foreign value => value.shown

def args : List Expr → List Bytes
  | [] => []
  | value :: rest => expr value :: args rest

end

def stmt : Stmt → Bytes
  | .expr pos value => fields [("Pos", Text.decimal pos), ("X", expr value)]
  | .foreign value => value.shown

def func (f : Func) : Bytes :=
  bytes "func " ++ f.name ++ bytes " impure=" ++
    (if f.impure then bytes "true" else bytes "false") ++
    Ascii.newline :: f.body.flatMap fun s => Ascii.tab :: stmt s ++ [Ascii.newline]

def file (f : File) : Bytes :=
  f.funcs.flatMap func

end StackLang.Outline
