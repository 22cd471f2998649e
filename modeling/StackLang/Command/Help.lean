import StackLang.Command.Arguments

namespace StackLang.Command.Help

/-- The name of the program. -/
def program : Bytes := bytes "nenc"

def about : Bytes := bytes "nenc compiles nenc source to bytecode and runs it"

/-- A name in its column. -/
def column (name : Bytes) : Bytes :=
  bytes "    " ++ name.rightpad 20 Ascii.space

def flagName (f : Flag) : Bytes :=
  Bytes.join (bytes ",") f.names ++ (if f = .help then bytes "=[hidden]" else [])

def flagNote : Flag → Bytes
  | .config => bytes "config file"
  | .verbosity => bytes "logger verbosity topics"
  | .color => bytes "color diagnostics: auto, always or never"
  | .help => bytes "print command help end exit"
  | .write => bytes "write result to the source file instead of stdout"
  | .output => bytes "output file (default from config, then out.nenc)"

def flagValue (value : Bytes) : Bytes :=
  if value.isEmpty then [] else bytes " (default " ++ value ++ bytes ")"

def flagLine (o : Options) (f : Flag) : Bytes :=
  column (flagName f) ++ bytes " - " ++ flagNote f ++ flagValue (o.shown f) ++ [Ascii.newline]

/-- A list of flags under its title, or nothing if there are none. -/
def flagSection (o : Options) (title : Bytes) (flags : List Flag) : Bytes :=
  if flags.isEmpty then []
  else Ascii.newline :: title ++ Ascii.newline :: flags.flatMap (flagLine o)

def programText (o : Options) : Bytes :=
  program ++ bytes " [flags] - " ++ about ++ bytes "\n\nSubcommands\n" ++
    (Verb.all.flatMap fun v => column v.name ++ [Ascii.newline]) ++
    flagSection o (bytes "Flags") Flag.shared

def verbText (o : Options) (v : Verb) : Bytes :=
  v.name ++ bytes " [flags_and_args]\n" ++ flagSection o (bytes "Flags") (Flag.own v) ++
    flagSection o (bytes "Flags of parent command " ++ program) Flag.shared

def text (verb : Option Verb) (o : Options) : Bytes :=
  match verb with
  | some v => verbText o v
  | none => programText o

end StackLang.Command.Help
