import StackLang.Code.Builtin
import StackLang.Failure
import StackLang.Image.Layout
import StackLang.Names.Namespace

namespace StackLang

inductive ImageError where
  | noTemplate (name : Bytes)
  | unencodable (name : Bytes) (element : Element)
  | instr (cause : EncodeError)
  | tooBig (size : Nat)
  deriving DecidableEq, Repr

def ImageError.message : ImageError → Bytes
  | noTemplate name => bytes "internal error: built-in " ++ name ++ bytes " has no template"
  | unencodable name element =>
    bytes "internal error: unexpected " ++ element.text ++ bytes " for " ++ name
  | instr cause => cause.message
  | tooBig size => bytes "program too big: " ++ Text.decimal size ++ bytes " bytes"

namespace Image

abbrev Result := Except (Failure ImageError)

def instrContext (index : Nat) : Bytes :=
  bytes "instr " ++ Text.decimal index

/-- The code of a function. -/
def encodeBody (body : List Instr) : Result Bytes := do
  let parts ← body.zipIdx.mapM fun (i, index) =>
    i.encode.mapError fun e => ⟨[instrContext index], .instr e⟩
  .ok parts.flatten

/-- The code that an element stands for. -/
def encodeElement (templates : NameMap Bytes) (name : Bytes) : Element → Result Bytes
  | .function body => encodeBody body
  | .builtin =>
    match templates.get? name with
    | some code => .ok code
    | none => .error (.bare (.noTemplate name))
  | element => .error (.bare (.unencodable name element))

/-- The name and the code of a record as they are stored. -/
def encodeFields (templates : NameMap Bytes) (name : Bytes) (element : Element) :
    Result (Bytes × Bytes) := do
  let code ← encodeElement templates name element
  let field ← (encodeOperand name).mapError fun e => ⟨[bytes "name"], .instr e⟩
  .ok (field, code)

def encodeRecord (templates : NameMap Bytes) (name : Bytes) (element : Element) : Result Bytes := do
  let (field, code) ← (encodeFields templates name element).mapError (.within (funcContext name))
  .ok (field ++ Word.encode 4 code.length ++ code)

/-- Appends a compiled program to `buffer`. -/
def encode (templates : NameMap Bytes) (buffer : Bytes) (ns : Namespace) : Result Bytes := do
  let records ← ns.entries.mapM fun e => encodeRecord templates e.1 e.2
  let body := records.flatten
  let size := body.length
  if size > maxBody then .error (.bare (.tooBig size))
  else .ok (buffer ++ header size ++ body)

end Image

end StackLang
