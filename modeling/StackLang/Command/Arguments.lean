import StackLang.Settings

namespace StackLang.Command

inductive Verb where
  | parse
  | fmt
  | compile
  | run
  | dis
  deriving DecidableEq, Repr

namespace Verb

def all : List Verb := [parse, fmt, compile, run, dis]

def name : Verb → Bytes
  | parse => bytes "parse"
  | fmt => bytes "fmt"
  | compile => bytes "compile"
  | run => bytes "run"
  | dis => bytes "dis"

def ofName? (name : Bytes) : Option Verb :=
  all.find? fun v => v.name == name

end Verb

inductive Flag where
  | config
  | verbosity
  | color
  | help
  | write
  | output
  deriving DecidableEq, Repr

namespace Flag

/-- The spellings of a flag. -/
def names : Flag → List Bytes
  | config => [bytes "config"]
  | verbosity => [bytes "verbosity", bytes "v"]
  | color => [bytes "color"]
  | help => [bytes "help", bytes "h"]
  | write => [bytes "write", bytes "w"]
  | output => [bytes "output", bytes "o"]

/-- The flags that every command knows. -/
def shared : List Flag := [config, verbosity, color, help]

/-- The flags that only one command knows. -/
def own : Verb → List Flag
  | .fmt => [write]
  | .compile => [output]
  | _ => []

def known (verb : Option Verb) : List Flag :=
  match verb with
  | some v => own v ++ shared
  | none => shared

end Flag

/-- The values of all flags. Of a flag given twice the later value counts. -/
structure Options where
  config : Bytes
  verbosity : Bytes
  color : Bytes
  output : Bytes
  write : Bool
  deriving DecidableEq, Repr

namespace Options

def default : Options := ⟨Settings.fileName, [], [], [], false⟩

def setText (o : Options) (value : Bytes) : Flag → Options
  | .config => { o with config := value }
  | .verbosity => { o with verbosity := value }
  | .color => { o with color := value }
  | .output => { o with output := value }
  | .help => o
  | .write => o

/-- The value of a flag as a text. -/
def shown (o : Options) : Flag → Bytes
  | .config => o.config
  | .verbosity => o.verbosity
  | .color => o.color
  | .output => o.output
  | .write => if o.write then bytes "true" else bytes "false"
  | .help => []

end Options

inductive UsageFault where
  | noSuchFlag
  | valueRequired
  | notBool
  deriving DecidableEq, Repr

def UsageFault.message : UsageFault → Bytes
  | noSuchFlag => bytes "no such flag"
  | valueRequired => bytes "flag value is required"
  | notBool => bytes "not a bool value"

inductive UsageError where
  | flag (verb : Option Verb) (arg : Bytes) (fault : UsageFault)
  | unexpected (arg : Bytes)
  deriving DecidableEq, Repr

/-- The command's name in front of what happened in it. -/
def inVerb (verb : Option Verb) (text : Bytes) : Bytes :=
  match verb with
  | some v => v.name ++ bytes ": " ++ text
  | none => text

def UsageError.message : UsageError → Bytes
  | flag verb arg fault => inVerb verb (bytes "parse flag: " ++ arg ++ bytes ": " ++ fault.message)
  | unexpected arg => bytes "no args expected, got " ++ arg

/-- What the arguments ask for. Help shows the values of the flags in front of it. -/
inductive Request where
  | help (verb : Option Verb) (options : Options)
  | refused (cause : UsageError)
  | act (verb : Verb) (options : Options) (files : List Bytes)
  | nothing (options : Options)
  deriving DecidableEq, Repr

/-- One dash alone is a file, and two end the flags of a command. -/
def isFlag (arg : Bytes) : Bool :=
  arg.head? == some (byte '-') && arg != bytes "-" && arg != bytes "--"

/-- The name of a flag and the value that follows an equals sign or a blank. -/
def splitFlag (arg : Bytes) : Bytes × Option Bytes :=
  let body := match arg with
    | 0x2D :: 0x2D :: rest => rest
    | 0x2D :: rest => rest
    | rest => rest
  let isName := fun c => !(c == byte '=' || c == Ascii.space)
  match body.dropWhile isName with
  | [] => (body, none)
  | _ :: value => (body.takeWhile isName, some value)

def lowerCase (text : Bytes) : Bytes :=
  text.map fun c => if 0x41 ≤ c && c ≤ 0x5A then c + 0x20 else c

/-- A switch without a value is on. -/
def switch? (value : Bytes) : Option Bool :=
  let word := lowerCase value
  if [[], bytes "true", bytes "t", bytes "yes", bytes "y", bytes "1"].contains word then some true
  else if [bytes "false", bytes "f", bytes "no", bytes "n", bytes "0"].contains word then some false
  else none

/-- Reads arguments left to right. `plain` says that the flags have ended; files stand latest
first. -/
def readArgs (verb : Option Verb) (plain : Bool) (o : Options) (files : List Bytes) :
    List Bytes → Request
  | [] =>
    match verb with
    | some v => .act v o files.reverse
    | none => .nothing o
  | arg :: rest =>
    if verb.isSome && !plain && arg == bytes "--" then readArgs verb true o files rest
    else if !plain && isFlag arg then
      let (name, value) := splitFlag arg
      match (Flag.known verb).find? fun f => f.names.contains name with
      | none => .refused (.flag verb arg .noSuchFlag)
      | some .help => .help verb o
      | some .write =>
        match switch? (value.getD []) with
        | some write => readArgs verb plain { o with write } files rest
        | none => .refused (.flag verb arg .notBool)
      | some flag =>
        match value, rest with
        | some value, rest => readArgs verb plain (o.setText value flag) files rest
        | none, value :: rest => readArgs verb plain (o.setText value flag) files rest
        | none, [] => .refused (.flag verb arg .valueRequired)
    else
      match verb with
      | some _ => readArgs verb plain o (arg :: files) rest
      | none =>
        match Verb.ofName? arg with
        | some v => readArgs (some v) plain o files rest
        | none => .refused (.unexpected arg)

def Request.ofArgs (args : List Bytes) : Request :=
  readArgs none false .default [] args

end StackLang.Command
