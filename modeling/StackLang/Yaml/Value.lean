import StackLang.Text.Base64
import StackLang.Yaml.Date
import StackLang.Yaml.Problem

namespace StackLang.Yaml

namespace Tag

def string : Bytes := bytes "!!str"
def null : Bytes := bytes "!!null"
def truth : Bytes := bytes "!!bool"
def integer : Bytes := bytes "!!int"
def fraction : Bytes := bytes "!!float"
def date : Bytes := bytes "!!timestamp"
def binary : Bytes := bytes "!!binary"
def merge : Bytes := bytes "!!merge"
def sequence : Bytes := bytes "!!seq"
def mapping : Bytes := bytes "!!map"

/-- What the tags of the language itself start with. -/
def ownLead : Bytes := bytes "tag:yaml.org,2002:"

/-- The tags of the language are written with two marks. -/
def short (tag : Bytes) : Bytes :=
  if tag.take ownLead.length = ownLead then bytes "!!" ++ tag.drop ownLead.length else tag

end Tag

/-- A scalar as a value. Integers are of 64 bits, with or without a sign. -/
inductive Value where
  | null
  | truth
  | integer (n : Int)
  | fraction (d : Decimal)
  | infinite (negative : Bool)
  | notANumber
  | date
  | text (content : Bytes)
  deriving DecidableEq, Repr

namespace Value

def tag : Value → Bytes
  | null => Tag.null
  | truth => Tag.truth
  | integer _ => Tag.integer
  | fraction _ => Tag.fraction
  | infinite _ => Tag.fraction
  | notANumber => Tag.fraction
  | date => Tag.date
  | text _ => Tag.string

/-- The words that stand for a value. -/
def words : List (Value × List Bytes) :=
  [(null, [[], bytes "~", bytes "null", bytes "Null", bytes "NULL"]),
    (truth, [bytes "true", bytes "True", bytes "TRUE", bytes "false", bytes "False", bytes "FALSE"]),
    (notANumber, [bytes ".nan", bytes ".NaN", bytes ".NAN"]),
    (infinite false,
      [bytes ".inf", bytes ".Inf", bytes ".INF", bytes "+.inf", bytes "+.Inf", bytes "+.INF"]),
    (infinite true, [bytes "-.inf", bytes "-.Inf", bytes "-.INF"])]

def word? (content : Bytes) : Option Value :=
  (words.find? fun entry => entry.2.contains content).map (·.1)

/-- A number with a fraction, unless it is too great. -/
def fraction? (content : Bytes) : Option Value :=
  match decimal? content with
  | some d => if d.size?.isSome then some (fraction d) else none
  | none => none

/-- A text that starts with a digit or a sign. Underscores do not count. -/
def number? (content : Bytes) : Option Value :=
  let digits := withoutUnderscores content
  match integer? digits with
  | some n => some (integer n)
  | none =>
    match fraction? digits with
    | some value => some value
    | none => (innerSigned? digits).map integer

/-- What a text looks like. -/
def ofText (dates : Bool) (content : Bytes) : Value :=
  match word? content, content with
  | some value, _ => value
  | none, c :: _ =>
    let value? :=
      if c = byte '.' then
        if underscoresFit false content then fraction? (withoutUnderscores content) else none
      else if Ascii.isDigit c ∨ c = byte '+' ∨ c = byte '-' then
        if dates && Date.isDate content then some date else number? content
      else none
    value?.getD (text content)
  | none, [] => text content

/-- The tags whose scalars are read by what their text looks like. -/
def isReadable (tag : Bytes) : Bool :=
  [Tag.truth, Tag.integer, Tag.fraction, Tag.null, Tag.date].contains tag

/-- The value of a scalar with a tag. -/
def ofScalar (tag content : Bytes) : Except Problem Value :=
  if tag = Tag.binary then
    match Text.Base64.decode? content with
    | some decoded => .ok (text decoded)
    | none => .error .badBase64
  else if isReadable tag then
    let value := ofText (tag == Tag.date) content
    if value.tag = tag then .ok value
    else
      match value with
      | integer n =>
        if tag = Tag.fraction ∧ n ≤ maxInt then .ok (fraction (.ofInt n))
        else .error (.wrongTag value.tag content tag)
      | _ => .error (.wrongTag value.tag content tag)
  else .ok (text content)

/-- The tag of a plain scalar without one. -/
def plainTag (content : Bytes) : Bytes :=
  if content = bytes "<<" then Tag.merge else (ofText true content).tag

/-- A value as a text. No value gives none; of any other the text is taken as it was written. -/
def toText? (content : Bytes) : Value → Option Bytes
  | null => none
  | text decoded => some decoded
  | _ => some content

/-- A value as a signed integer of 64 bits. -/
def toInt? : Value → Option Int
  | integer n => if n ≤ maxInt then some n else none
  | fraction d => d.toInt?
  | infinite true => some minInt
  | _ => none

end Value

end StackLang.Yaml
