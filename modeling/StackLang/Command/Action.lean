import StackLang.Command.Arguments
import StackLang.Compile
import StackLang.Execute
import StackLang.Machine.Listing
import StackLang.Source.Layout
import StackLang.Source.Outline

namespace StackLang.Command

inductive ActionError where
  | sourceUnreadable (path : Bytes) (reason : FileError)
  | syntaxError (path : Bytes) (cause : SyntaxError)
  | noText (path : Bytes) (cause : Failure LayoutError)
  | sourceUnwritable (path : Bytes) (reason : FileError)
  | inputCount (count : Nat)
  | programCount (count : Nat)
  | unreadable (path : Bytes) (reason : FileError)
  | compile (cause : CompileError)
  | outputUnwritable (path : Bytes) (reason : FileError)
  | load (path : Bytes) (cause : LoadFailure)
  | run (cause : RunError)
  | unending
  deriving DecidableEq, Repr

namespace ActionError

def inSource (path text : Bytes) : Bytes :=
  bytes "parse " ++ path ++ bytes ": " ++ text

def message : ActionError → Bytes
  | sourceUnreadable path reason =>
    inSource path (bytes "read file: " ++ Files.readMessage path reason)
  | syntaxError path cause => inSource path cause.message
  | noText path cause => bytes "format " ++ path ++ bytes ": " ++ cause.message LayoutError.message
  | sourceUnwritable path reason =>
    bytes "write " ++ path ++ bytes ": " ++ Files.writeMessage path reason
  | inputCount count => bytes "expected one input file, got " ++ Text.decimal count
  | programCount count => bytes "expected one bytecode file, got " ++ Text.decimal count
  | unreadable path reason => bytes "read file: " ++ Files.readMessage path reason
  | compile cause => cause.message
  | outputUnwritable path reason => bytes "write output: " ++ Files.writeMessage path reason
  | load path cause => bytes "load " ++ path ++ bytes ": " ++ cause.message LoadError.message
  | run cause => cause.message
  | unending => bytes "the program does not end"

/-- The lines of a report: one for each undefined name, otherwise one. -/
def lines : ActionError → List Bytes
  | compile (.build ⟨_, .undefined names⟩) => names.map ResolveError.undefinedLine
  | e => [e.message]

end ActionError

variable {σ : Type}

/-- The files and the printed text after an action, and the error that ended it, if any. -/
structure Effect (σ : Type) where
  files : σ
  printed : Bytes
  error : Option ActionError

/-- The program in a source file. -/
def readSource (fs : FileSystem σ) (files : σ) (path : Bytes) : Except ActionError File := do
  let text ← (fs.read files path).mapError (.sourceUnreadable path)
  (File.parse path text).mapError (.syntaxError path)

/-- Prints the outline of each file. -/
def outlineAll (fs : FileSystem σ) (files : σ) (printed : Bytes) : List Bytes → Effect σ
  | [] => ⟨files, printed, none⟩
  | path :: rest =>
    match readSource fs files path with
    | .error e => ⟨files, printed, some e⟩
    | .ok file => outlineAll fs files (printed ++ Outline.file file) rest

/-- The canonical text of a source file. -/
def formatSource (fs : FileSystem σ) (files : σ) (path : Bytes) : Except ActionError Bytes := do
  let file ← readSource fs files path
  file.format.mapError (.noText path)

/-- Formats each file, in place or to the output. -/
def formatAll (fs : FileSystem σ) (inPlace : Bool) (files : σ) (printed : Bytes) :
    List Bytes → Effect σ
  | [] => ⟨files, printed, none⟩
  | path :: rest =>
    match formatSource fs files path with
    | .error e => ⟨files, printed, some e⟩
    | .ok text =>
      if inPlace then
        match fs.write files path text with
        | .ok files => formatAll fs inPlace files printed rest
        | .error reason => ⟨files, printed, some (.sourceUnwritable path reason)⟩
      else formatAll fs inPlace files (printed ++ text) rest

/-- Compiles one source file. -/
def compileTo (fs : FileSystem σ) (output : Bytes) (files : σ) (paths : List Bytes) :
    Except ActionError σ :=
  match paths with
  | [path] => do
    let text ← (fs.read files path).mapError (.unreadable path)
    let image ← (StackLang.compile path text).mapError .compile
    (fs.write files output image).mapError (.outputUnwritable output)
  | _ => .error (.inputCount paths.length)

/-- The compiled program in the one file given. -/
def loadProgram (fs : FileSystem σ) (files : σ) (paths : List Bytes) :
    Except ActionError Program :=
  match paths with
  | [path] => do
    let data ← (fs.read files path).mapError (.unreadable path)
    (Program.load data).mapError (.load path)
  | _ => .error (.programCount paths.length)

def runProgram (limit : Int) (p : Program) : Bytes × Option ActionError :=
  match p.execute limit .unbounded with
  | some (s, e) => (s.sink.output, e.map .run)
  | none => ([], some .unending)

def act (fs : FileSystem σ) (s : Settings) (o : Options) (files : σ) (paths : List Bytes) :
    Verb → Effect σ
  | .parse => outlineAll fs files [] paths
  | .fmt => formatAll fs o.write files [] paths
  | .compile =>
    match compileTo fs (if o.output.isEmpty then s.output else o.output) files paths with
    | .ok files => ⟨files, [], none⟩
    | .error e => ⟨files, [], some e⟩
  | .run =>
    match loadProgram fs files paths with
    | .error e => ⟨files, [], some e⟩
    | .ok p =>
      match runProgram s.maxDepth p with
      | (printed, error) => ⟨files, printed, error⟩
  | .dis =>
    match loadProgram fs files paths with
    | .error e => ⟨files, [], some e⟩
    | .ok p => ⟨files, Listing.program p, none⟩

end StackLang.Command
