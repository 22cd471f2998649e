import StackLang.Text.Numeral

namespace StackLang.Yaml

inductive Problem where
  | strayLead
  | cutSequence
  | strayTrail
  | longSequence
  | noCharacter
  | cutUnit
  | strayLowHalf
  | cutPair
  | noLowHalf
  | controlCharacter
  | noToken
  | noColon
  | misplacedEntry
  | misplacedKey
  | misplacedValue
  | tooDeep
  | noName
  | tabInPlain
  | tabInBlock
  | zeroIndent
  | noLineEnd
  | markerInQuotes
  | endInQuotes
  | unknownEscape
  | noHexDigit
  | escapedNonCharacter
  | noDirectiveName
  | badDirectiveName
  | unknownDirective
  | noVersionNumber
  | longVersionNumber
  | noVersionDot
  | noTagMark
  | noTagSpace
  | noTagEnd
  | noTagClose
  | noTagText
  | noTagByte
  | strayTagLead
  | strayTagTrail
  | noDocumentStart
  | repeatedVersion
  | wrongVersion
  | repeatedHandle
  | unknownHandle
  | noContent
  | noKey
  | noEntry
  | noSequenceEnd
  | noMappingEnd
  | unknownAnchor (name : Bytes)
  | containsItself (name : Bytes)
  | tooManyAliases
  | mergedNonMapping
  | badBase64
  | wrongTag (is text wanted : Bytes)
  deriving DecidableEq, Repr

/-- How deep flows or blocks may be nested. -/
def maxNesting : Nat := 10000

def Problem.text : Problem → Bytes
  | strayLead => bytes "invalid leading UTF-8 octet"
  | cutSequence => bytes "incomplete UTF-8 octet sequence"
  | strayTrail => bytes "invalid trailing UTF-8 octet"
  | longSequence => bytes "invalid length of a UTF-8 sequence"
  | noCharacter => bytes "invalid Unicode character"
  | cutUnit => bytes "incomplete UTF-16 character"
  | strayLowHalf => bytes "unexpected low surrogate area"
  | cutPair => bytes "incomplete UTF-16 surrogate pair"
  | noLowHalf => bytes "expected low surrogate area"
  | controlCharacter => bytes "control characters are not allowed"
  | noToken => bytes "found character that cannot start any token"
  | noColon => bytes "could not find expected ':'"
  | misplacedEntry => bytes "block sequence entries are not allowed in this context"
  | misplacedKey => bytes "mapping keys are not allowed in this context"
  | misplacedValue => bytes "mapping values are not allowed in this context"
  | tooDeep => bytes "exceeded max depth of " ++ Text.decimal maxNesting
  | noName => bytes "did not find expected alphabetic or numeric character"
  | tabInPlain => bytes "found a tab character that violates indentation"
  | tabInBlock => bytes "found a tab character where an indentation space is expected"
  | zeroIndent => bytes "found an indentation indicator equal to 0"
  | noLineEnd => bytes "did not find expected comment or line break"
  | markerInQuotes => bytes "found unexpected document indicator"
  | endInQuotes => bytes "found unexpected end of stream"
  | unknownEscape => bytes "found unknown escape character"
  | noHexDigit => bytes "did not find expected hexdecimal number"
  | escapedNonCharacter => bytes "found invalid Unicode character escape code"
  | noDirectiveName => bytes "could not find expected directive name"
  | badDirectiveName => bytes "found unexpected non-alphabetical character"
  | unknownDirective => bytes "found unknown directive name"
  | noVersionNumber => bytes "did not find expected version number"
  | longVersionNumber => bytes "found extremely long version number"
  | noVersionDot => bytes "did not find expected digit or '.' character"
  | noTagMark => bytes "did not find expected '!'"
  | noTagSpace => bytes "did not find expected whitespace"
  | noTagEnd => bytes "did not find expected whitespace or line break"
  | noTagClose => bytes "did not find the expected '>'"
  | noTagText => bytes "did not find expected tag URI"
  | noTagByte => bytes "did not find URI escaped octet"
  | strayTagLead => bytes "found an incorrect leading UTF-8 octet"
  | strayTagTrail => bytes "found an incorrect trailing UTF-8 octet"
  | noDocumentStart => bytes "did not find expected <document start>"
  | repeatedVersion => bytes "found duplicate %YAML directive"
  | wrongVersion => bytes "found incompatible YAML document"
  | repeatedHandle => bytes "found duplicate %TAG directive"
  | unknownHandle => bytes "found undefined tag handle"
  | noContent => bytes "did not find expected node content"
  | noKey => bytes "did not find expected key"
  | noEntry => bytes "did not find expected '-' indicator"
  | noSequenceEnd => bytes "did not find expected ',' or ']'"
  | noMappingEnd => bytes "did not find expected ',' or '\x7d'"
  | unknownAnchor name => bytes "unknown anchor '" ++ name ++ bytes "' referenced"
  | containsItself name => bytes "anchor '" ++ name ++ bytes "' value contains itself"
  | tooManyAliases => bytes "document contains excessive aliasing"
  | mergedNonMapping => bytes "map merge requires map or sequence of maps as the value"
  | badBase64 => bytes "!!binary value contains invalid base64 data"
  | wrongTag is text wanted =>
    bytes "cannot decode " ++ is ++ bytes " `" ++ text ++ bytes "` as a " ++ wanted

structure Fault where
  line : Nat
  problem : Problem
  deriving DecidableEq, Repr

namespace Fault

/-- A fault of the text as a whole. -/
def whole (problem : Problem) : Fault := ⟨0, problem⟩

/-- A fault found at line `here` in a token that starts at line `origin`. It is reported for the
token's line, which counts from one, but the first line of a text is passed over. -/
def inToken (origin here : Nat) (problem : Problem) : Fault :=
  ⟨if origin = 0 then if here = 0 then 0 else here + 1 else origin + 1, problem⟩

/-- A fault found at a token of line `here` in a collection that starts at line `origin`. Such lines
are reported as they count from zero. -/
def inNode (origin here : Nat) (problem : Problem) : Fault :=
  ⟨if origin = 0 then here else origin, problem⟩

def message (f : Fault) : Bytes :=
  let place := if f.line = 0 then [] else bytes "line " ++ Text.decimal f.line ++ bytes ": "
  bytes "yaml: " ++ place ++ f.problem.text

end Fault

end StackLang.Yaml
