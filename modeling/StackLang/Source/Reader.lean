import StackLang.Source.Lexeme
import StackLang.Source.Tree

namespace StackLang

/-- What has been read of a function before its block. -/
structure Head where
  pos : Nat
  impure : Bool
  name : Bytes
  deriving Repr

/-- A call whose argument list is open. Its arguments stand latest first. -/
structure OpenCall where
  pos : Nat
  name : Bytes
  args : List Expr
  deriving Repr

/-- A spot inside a function, after its parentheses. Open calls stand innermost first. -/
inductive InnerSpot where
  | beforeBlock
  | betweenStmts
  | afterCallee (pos : Nat) (name : Bytes) (calls : List OpenCall)
  | firstArg (call : OpenCall) (calls : List OpenCall)
  | nextArg (call : OpenCall) (calls : List OpenCall)
  | afterExpr (value : Expr) (calls : List OpenCall)
  deriving Repr

/-- A spot in the grammar. Statements of an unfinished body stand latest first. -/
inductive Spot where
  | betweenFuncs
  | afterImpure (pos : Nat)
  | afterFn (pos : Nat) (impure : Bool)
  | afterName (head : Head)
  | afterOpen (head : Head)
  | inside (head : Head) (body : List Stmt) (spot : InnerSpot)
  deriving Repr

/-- A reader in the middle of a file. Finished functions stand latest first. -/
structure Reader where
  funcs : List Func
  spot : Spot
  deriving Repr

namespace InnerSpot

/-- What an expression can start with. -/
def wantExpr : List Symbol := [.ident [], .literal []]

/-- The symbols a diagnostic asks for at a spot when it meets `got`. -/
def want (got : Symbol) : InnerSpot → List Symbol
  | beforeBlock => [Token.symbol (.mark .openBrace)]
  | betweenStmts => if got = .ending then [Token.symbol (.mark .closeBrace)] else wantExpr
  | afterCallee _ _ _ => [Token.symbol (.mark .openParen)]
  | firstArg _ _ => wantExpr
  | nextArg _ _ => wantExpr
  | afterExpr _ [] => [Token.symbol (.mark .semicolon)]
  | afterExpr _ (_ :: _) => [Token.symbol (.mark .comma), Token.symbol (.mark .closeParen)]

/-- The spot after the first lexeme of an expression. -/
def startExpr? (l : Lexeme) (calls : List OpenCall) : Option InnerSpot :=
  match l.token with
  | .literal text => some (.afterExpr (.literal l.start text) calls)
  | .ident name => some (.afterCallee l.start name calls)
  | _ => none

/-- The call closed after its last argument. -/
def close (call : OpenCall) : Expr :=
  .call call.pos call.name call.args.reverse

/-- The open call with one more argument. -/
def addArg (call : OpenCall) (value : Expr) : OpenCall :=
  { call with args := value :: call.args }

end InnerSpot

/-- What a lexeme does inside a function: it moves the reader, ends a statement or ends the
block. -/
inductive Move where
  | to (spot : InnerSpot)
  | endStmt (value : Expr)
  | endBlock

def InnerSpot.move? (l : Lexeme) : InnerSpot → Option Move
  | beforeBlock =>
    match l.token with
    | .mark .openBrace => some (.to .betweenStmts)
    | _ => none
  | betweenStmts =>
    match l.token with
    | .mark .semicolon => some (.to .betweenStmts)
    | .mark .closeBrace => some .endBlock
    | _ => (startExpr? l []).map .to
  | afterCallee pos name calls =>
    match l.token with
    | .mark .openParen => some (.to (.firstArg ⟨pos, name, []⟩ calls))
    | _ => none
  | firstArg call calls =>
    match l.token with
    | .mark .closeParen => some (.to (.afterExpr (close call) calls))
    | _ => (startExpr? l (call :: calls)).map .to
  | nextArg call calls => (startExpr? l (call :: calls)).map .to
  | afterExpr value [] =>
    match l.token with
    | .mark .semicolon => some (.endStmt value)
    | _ => none
  | afterExpr value (call :: calls) =>
    match l.token with
    | .mark .comma => some (.to (.nextArg (addArg call value) calls))
    | .mark .closeParen => some (.to (.afterExpr (close (addArg call value)) calls))
    | _ => none

namespace Spot

def want (got : Symbol) : Spot → List Symbol
  | betweenFuncs => [.keyword Keyword.fn.word]
  | afterImpure _ => [.keyword Keyword.fn.word]
  | afterFn _ _ => [.ident []]
  | afterName _ => [Token.symbol (.mark .openParen)]
  | afterOpen _ => [Token.symbol (.mark .closeParen)]
  | inside _ _ spot => spot.want got

/-- The function whose parentheses have been read, if the spot is in one. -/
def funcName? : Spot → Option Bytes
  | inside head _ _ => some head.name
  | _ => none

end Spot

namespace Reader

def start : Reader := ⟨[], .betweenFuncs⟩

def moveTo (r : Reader) (spot : Spot) : Reader := { r with spot }

/-- The reader after one more lexeme, if the lexeme has a place. -/
def step? (r : Reader) (l : Lexeme) : Option Reader :=
  match r.spot with
  | .betweenFuncs =>
    match l.token with
    | .keyword .impure => some (r.moveTo (.afterImpure l.start))
    | .keyword .fn => some (r.moveTo (.afterFn l.start false))
    | _ => none
  | .afterImpure pos =>
    match l.token with
    | .keyword .fn => some (r.moveTo (.afterFn pos true))
    | _ => none
  | .afterFn pos impure =>
    match l.token with
    | .ident name => some (r.moveTo (.afterName ⟨pos, impure, name⟩))
    | _ => none
  | .afterName head =>
    match l.token with
    | .mark .openParen => some (r.moveTo (.afterOpen head))
    | _ => none
  | .afterOpen head =>
    match l.token with
    | .mark .closeParen => some (r.moveTo (.inside head [] .beforeBlock))
    | _ => none
  | .inside head body spot =>
    (spot.move? l).map fun
      | .to spot => r.moveTo (.inside head body spot)
      | .endStmt value => r.moveTo (.inside head (.expr value.pos value :: body) .betweenStmts)
      | .endBlock => ⟨⟨head.pos, head.name, head.impure, body.reverse⟩ :: r.funcs, .betweenFuncs⟩

end Reader

/-- Why a text is not a file. -/
inductive SyntaxFault where
  | invalidUtf8
  | lexical (cause : LexError)
  | unexpected (cause : Unexpected)
  deriving DecidableEq, Repr

def SyntaxFault.message : SyntaxFault → Bytes
  | invalidUtf8 => bytes "invalid utf-8"
  | lexical cause => cause.message
  | unexpected cause => cause.message

/-- A fault, the offset of what is at fault, and the function it was met in. -/
structure ReadError where
  offset : Nat
  func : Option Bytes
  fault : SyntaxFault
  deriving DecidableEq, Repr

namespace Reader

def unexpected (r : Reader) (offset : Nat) (got : Symbol) : ReadError :=
  ⟨offset, r.spot.funcName?, .unexpected ⟨got, r.spot.want got⟩⟩

/-- The error of a text that ends before the reader can end. -/
def finish (r : Reader) : Ending → Option ReadError
  | .failed cause start _ => some ⟨start, r.spot.funcName?, .lexical cause⟩
  | .finished pos =>
    match r.spot with
    | .betweenFuncs => none
    | _ => some (r.unexpected pos .ending)

/-- Reads lexemes up to the first that has no place. -/
def run (r : Reader) (ending : Ending) : List Lexeme → Reader × Option ReadError
  | [] => (r, r.finish ending)
  | l :: rest =>
    match r.step? l with
    | some r => run r ending rest
    | none => (r, some (r.unexpected l.start l.token.symbol))

end Reader

/-- What was read of a text: the functions up to its end or its first error. -/
structure Reading where
  funcs : List Func
  error : Option ReadError
  deriving Repr

/-- Reads the functions of a text whose first byte is at `base`. -/
def Reading.ofText (base : Nat) (text : Bytes) : Reading :=
  match Utf8.invalidAt text with
  | some pos => ⟨[], some ⟨base + pos, none, .invalidUtf8⟩⟩
  | none =>
    let (lexemes, ending) := Lexeme.scan base text
    let (reader, error) := Reader.start.run ending lexemes
    ⟨reader.funcs.reverse, error⟩

end StackLang
