import StackLang.Code.Instr
import StackLang.NameMap

namespace StackLang

inductive Element where
  | function (body : List Instr)
  | placeholder
  | builtin
  | variable
  | unset
  deriving DecidableEq, Repr

namespace Element

def bodyText (body : List Instr) : Bytes :=
  bytes "Function[" ++ Bytes.join (bytes ", ") (body.map Instr.text) ++ bytes "]"

def text : Element → Bytes
  | function body => bodyText body
  | placeholder => bytes "Placeholder"
  | builtin => bytes "BuiltIn"
  | .variable => bytes "Variable"
  | unset => bytes "<nil>"

def isPlaceholder : Element → Bool
  | placeholder => true
  | _ => false

end Element

abbrev Namespace := NameMap Element

def mainName : Bytes := bytes "main"

/-- What a variable was used for. -/
inductive Use where
  | call
  | define
  deriving DecidableEq, Repr

def Use.text : Use → Bytes
  | call => bytes "call"
  | define => bytes "define function"

inductive ResolveError where
  | redefined (name : Bytes)
  | builtinRedefined (name : Bytes)
  | isVariable (name : Bytes) (use : Use)
  | undefined (names : List Bytes)
  | noMain
  | notTopLevel
  | unbalanced (size : Nat)
  | unsupportedStmt (kind : Bytes)
  | unsupportedExpr (kind : Bytes)
  deriving DecidableEq, Repr

namespace ResolveError

/-- The diagnostic for one undefined name. -/
def undefinedLine (name : Bytes) : Bytes :=
  bytes "function " ++ name ++ bytes " was called, but not defined"

def undefinedMessage (names : List Bytes) : Bytes :=
  match names with
  | [name] => undefinedLine name
  | _ => Text.decimal names.length ++ bytes " functions called, but not defined: " ++
      Bytes.join (bytes ", ") names

def message : ResolveError → Bytes
  | redefined name => bytes "function " ++ name ++ bytes " already defined"
  | builtinRedefined name =>
    bytes "function " ++ name ++ bytes " is a built-in and can't be redefined"
  | isVariable name use => use.text ++ bytes ": " ++ name ++ bytes " is a variable"
  | undefined names => undefinedMessage names
  | noMain => bytes "no main function defined"
  | notTopLevel => bytes "functions can only be defined at the top level"
  | unbalanced size => bytes "unbalanced scope: " ++ Text.decimal size ++ bytes " namespaces"
  | unsupportedStmt kind => bytes "unsupported stmt: " ++ kind
  | unsupportedExpr kind => bytes "unsupported expr: " ++ kind

end ResolveError

namespace Namespace

/-- The names that are called but not defined, ascending. -/
def undefinedNames (ns : Namespace) : List Bytes :=
  (ns.entries.filter fun e => e.2.isPlaceholder).map (·.1)

def hasMain (ns : Namespace) : Bool :=
  match ns.get? mainName with
  | some (.function _) => true
  | _ => false

/-- What keeps a namespace from being a program. -/
def problem? (ns : Namespace) : Option ResolveError :=
  match ns.undefinedNames with
  | [] => if ns.hasMain then none else some .noMain
  | names => some (.undefined names)

end Namespace

end StackLang
