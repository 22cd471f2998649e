import StackLang.Failure
import StackLang.Files
import StackLang.Text.Quoted
import StackLang.Yaml.Record

namespace StackLang

structure Settings where
  output : Bytes
  color : Bytes
  verbosity : Bytes
  maxDepth : Int
  deriving DecidableEq, Repr

inductive SettingsFault where
  | color (value : Bytes)
  | negativeDepth
  deriving DecidableEq, Repr

def SettingsFault.message : SettingsFault → Bytes
  | color value =>
    bytes "color: unexpected value " ++ Text.quoted value ++ bytes ", want auto, always or never"
  | negativeDepth => bytes "vm.max_depth: must not be negative"

namespace Settings

/-- The file that settings are read from if no other is named. -/
def fileName : Bytes := bytes "nenc.yaml"

def default : Settings where
  output := bytes "out.nenc"
  color := bytes "auto"
  verbosity := []
  maxDepth := 0

def fault? (s : Settings) : Option SettingsFault :=
  if !([bytes "auto", bytes "always", bytes "never"].contains s.color) then some (.color s.color)
  else if s.maxDepth < 0 then some .negativeDepth
  else none

/-- The settings of the machine, of which there is one. -/
def machineKind (d : Yaml.Document) : Yaml.RecordKind Int where
  name := bytes "config.VM"
  field? name :=
    if name = bytes "max_depth" then some fun old node => do return (← Yaml.Decode.int? d node).getD old
    else none

/-- A text setting. -/
def textField (d : Yaml.Document) (get : Settings → Bytes) (set : Settings → Bytes → Settings)
    (s : Settings) (node : Yaml.Node) : Yaml.Decode Settings := do
  return set s ((← Yaml.Decode.text? d node).getD (get s))

def kind (d : Yaml.Document) : Yaml.RecordKind Settings where
  name := bytes "config.Config"
  field? name :=
    if name = bytes "output" then some (textField d (·.output) fun s output => { s with output })
    else if name = bytes "color" then some (textField d (·.color) fun s color => { s with color })
    else if name = bytes "verbosity" then some (textField d (·.verbosity) fun s verbosity => { s with verbosity })
    else if name = bytes "vm" then
      some fun s node => do return { s with maxDepth := ← (machineKind d).read d s.maxDepth node }
    else none

/-- The defaults as a settings text changes them. -/
def ofText (text : Bytes) : Except Yaml.Error Settings :=
  Yaml.RecordKind.ofText kind default text

end Settings

inductive SettingsError where
  | unreadable (path : Bytes) (reason : FileError)
  | malformed (path : Bytes) (cause : Yaml.Error)
  | invalid (path : Bytes) (settings : Settings) (cause : SettingsFault)
  deriving DecidableEq, Repr

def SettingsError.message : SettingsError → Bytes
  | unreadable path reason => bytes "read config: " ++ Files.readMessage path reason
  | malformed path cause => bytes "parse " ++ path ++ bytes ": " ++ cause.message
  | invalid path _ cause => path ++ bytes ": " ++ cause.message

/-- Reads a settings file. If `missingOk`, a file that does not exist changes nothing. -/
def Settings.load (files : Files) (path : Bytes) (missingOk : Bool) :
    Except SettingsError Settings :=
  match files.read path with
  | .error .notFound => if missingOk then .ok .default else .error (.unreadable path .notFound)
  | .error reason => .error (.unreadable path reason)
  | .ok text =>
    match ofText text with
    | .error cause => .error (.malformed path cause)
    | .ok s =>
      match s.fault? with
      | some cause => .error (.invalid path s cause)
      | none => .ok s

end StackLang
