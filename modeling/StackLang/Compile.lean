import StackLang.Image.Encode
import StackLang.Names.Builder
import StackLang.Source.Bundle

namespace StackLang

inductive CompileError where
  | parse (cause : SyntaxError)
  | build (cause : ResolveFailure)
  | encode (cause : Failure ImageError)
  deriving DecidableEq, Repr

def CompileError.message : CompileError → Bytes
  | parse cause => bytes "parse: " ++ cause.message
  | build cause => bytes "build ir: " ++ cause.message ResolveError.message
  | encode cause => bytes "encode: " ++ cause.message ImageError.message

/-- The scope that a program starts from. -/
def standardScope : Scope :=
  .withBuiltins Builtin.names

/-- The namespace of a file. -/
def File.resolve (f : File) : Except ResolveFailure Namespace :=
  (standardScope.build f).2

/-- The compiled form of a file. -/
def File.compile (f : File) : Except CompileError Bytes := do
  let ns ← f.resolve.mapError .build
  (Image.encode Builtin.templates [] ns).mapError .encode

def compile (name text : Bytes) : Except CompileError Bytes := do
  let file ← (File.parse name text).mapError .parse
  file.compile

end StackLang
