import StackLang.Command.Session

namespace StackLang.Main

def ofArray (b : ByteArray) : Bytes := b.toList

def toArray (b : Bytes) : ByteArray := ⟨b.toArray⟩

/-- The path of a file on disk, if its bytes are a text. -/
def path? (name : Bytes) : Option String :=
  String.fromUTF8? (toArray name)

/-- The files that a use of the program may read. -/
def sources (args : List Bytes) : List Bytes :=
  match Command.Request.ofArgs args with
  | .act _ o files => o.config :: files
  | .nothing o => [o.config]
  | _ => []

def readFile? (path : Bytes) : IO (Option Bytes) := do
  match path? path with
  | none => return none
  | some path =>
    try
      return some (ofArray (← IO.FS.readBinFile path))
    catch _ => return none

def isDirectory (path : Bytes) : IO Bool := do
  match path? path with
  | none => return false
  | some path =>
    try
      let place ← IO.FS.realPath path
      place.isDir
    catch _ => return false

/-- The files at some paths, and the directories around them. -/
def gather (paths : List Bytes) : IO Files := do
  let mut contents : NameMap Bytes := ∅
  let mut directories : List Bytes := []
  for path in paths do
    for place in (pathPlaces path).map Place.path do
      if ← isDirectory place then
        directories := place :: directories
      else if let some content ← readFile? place then
        contents := contents.insert place content
  return ⟨contents, directories⟩

/-- The settings of a use of the program, as far as they say where its output goes. -/
def outputs (files : Files) (args : List Bytes) : List Bytes :=
  match Command.Request.ofArgs args with
  | .act .compile o _ =>
    match Command.setup files o with
    | .ok s => [if o.output.isEmpty then s.output else o.output]
    | .error _ => []
  | _ => []

/-- Writes the files that are new or have changed. -/
def writeBack (before after : Files) : IO Unit := do
  for (name, content) in after.contents.entries do
    if before.contents.get? name != some content then
      if let some path := path? name then
        IO.FS.writeBinFile path (toArray content)

def terminal : IO Command.Terminal := do
  let kind := (← IO.getEnv "TERM").getD ""
  return ⟨← (← IO.getStderr).isTty, bytes kind⟩

def run (args : List Bytes) : IO UInt32 := do
  let inputs := sources args
  let first ← gather inputs
  let before ← gather (inputs ++ outputs first args)
  let result := Command.execute (← terminal) before args
  writeBack before result.files
  (← IO.getStdout).write (toArray result.stdout)
  (← IO.getStderr).write (toArray result.stderr)
  return result.code.toUInt32

end StackLang.Main

def main (args : List String) : IO UInt32 :=
  StackLang.Main.run (args.map StackLang.bytes)
