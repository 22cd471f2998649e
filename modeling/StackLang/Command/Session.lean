import StackLang.Command.Action
import StackLang.Command.Help

namespace StackLang.Command

/-- Whether diagnostics go to a terminal, and of which kind. -/
structure Terminal where
  present : Bool
  kind : Bytes

structure Result where
  files : Files
  stdout : Bytes
  stderr : Bytes
  code : Nat

def colored (mode : Bytes) (t : Terminal) : Bool :=
  if mode = bytes "always" then true
  else if mode = bytes "never" then false
  else t.present && t.kind != bytes "dumb"

/-- The report of an error, a line for each diagnostic. -/
def report (color : Bool) (e : ActionError) : Bytes :=
  let word := bytes "ERROR"
  let mark := if color then bytes "\x1b[91m" ++ word ++ bytes "\x1b[0m" else word
  e.lines.flatMap fun line => mark ++ Ascii.space :: line ++ [Ascii.newline]

inductive SetupError where
  | file (cause : SettingsError)
  | flags (cause : SettingsFault)
  deriving DecidableEq, Repr

def SetupError.message : SetupError → Bytes
  | file cause => cause.message
  | flags cause => bytes "flags: " ++ cause.message

/-- The settings under the given flags. The standard settings file may be missing. -/
def setup (files : Files) (o : Options) : Except SetupError Settings := do
  let s ← (Settings.load files o.config (o.config == Settings.fileName)).mapError .file
  let s := if o.color.isEmpty then s else { s with color := o.color }
  let s := if o.verbosity.isEmpty then s else { s with verbosity := o.verbosity }
  match s.fault? with
  | some cause => .error (.flags cause)
  | none => .ok s

/-- A refusal before any command has run. -/
def refuse (files : Files) (text : Bytes) : Result :=
  ⟨files, [], bytes "error: " ++ text ++ [Ascii.newline], 1⟩

/-- Settings belong to the program: under a command its name tells them from the command's own. -/
def setupRefusal (verb : Option Verb) (e : SetupError) : Bytes :=
  match verb with
  | some v => v.name ++ bytes ": before: " ++ Help.program ++ bytes ": " ++ e.message
  | none => bytes "before: " ++ e.message

def execute (t : Terminal) (files : Files) (args : List Bytes) : Result :=
  match Request.ofArgs args with
  | .help verb o => ⟨files, Help.text verb o, [], 0⟩
  | .refused cause => refuse files cause.message
  | .nothing o =>
    match setup files o with
    | .error e => refuse files (setupRefusal none e)
    | .ok _ => ⟨files, Help.text none o, [], 0⟩
  | .act verb o paths =>
    match setup files o with
    | .error e => refuse files (setupRefusal (some verb) e)
    | .ok s =>
      let effect := act Files.system s o files paths verb
      match effect.error with
      | none => ⟨effect.files, effect.printed, [], 0⟩
      | some e => ⟨effect.files, effect.printed, report (colored s.color t) e, 1⟩

end StackLang.Command
