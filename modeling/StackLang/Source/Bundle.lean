import StackLang.Source.Position
import StackLang.Source.Reader

namespace StackLang

/-- A file is the range of `size` bytes from `base` on. -/
structure SourceFile where
  name : Bytes
  base : Nat
  size : Nat
  deriving DecidableEq, Repr

/-- The offset after the last byte. -/
def SourceFile.stop (f : SourceFile) : Nat :=
  f.base + f.size

/-- Whether an offset lies in the file or right behind it. -/
def SourceFile.touches (f : SourceFile) (offset : Int) : Bool :=
  f.base ≤ offset && offset ≤ f.stop

theorem SourceFile.touches_natCast {f : SourceFile} {offset : Nat} :
    f.touches offset ↔ f.base ≤ offset ∧ offset ≤ f.base + f.size := by
  simp only [touches, stop, Bool.and_eq_true, decide_eq_true_eq, Int.ofNat_le]

/-- An error in a source file, with its place. -/
structure SyntaxError where
  place : Position
  func : Option Bytes
  fault : SyntaxFault
  deriving DecidableEq, Repr

def SyntaxError.message (e : SyntaxError) : Bytes :=
  let cause := match e.func with
    | some name => bytes "func " ++ name ++ bytes ": " ++ e.fault.message
    | none => e.fault.message
  e.place.text ++ bytes ": " ++ cause

/-- The texts of all files, and the files in the order they were added. -/
structure Bundle where
  buffer : Bytes
  files : List SourceFile
  deriving DecidableEq, Repr

namespace Bundle

def empty : Bundle := ⟨[], []⟩

def add (b : Bundle) (name text : Bytes) : Bundle :=
  ⟨b.buffer ++ text, b.files ++ [⟨name, b.buffer.length, text.length⟩]⟩

def single (name text : Bytes) : Bundle :=
  empty.add name text

/-- The bytes from one offset up to another. -/
def range (b : Bundle) (start stop : Nat) : Bytes :=
  b.buffer.slice start stop

/-- The place of an offset: in the first file that holds it or ends at it. -/
def position (b : Bundle) (offset : Int) : Position :=
  match b.files.find? (·.touches offset) with
  | some f => Position.after f.name (b.range f.base offset.toNat)
  | none => Position.nowhere offset

def syntaxError (b : Bundle) (e : ReadError) : SyntaxError :=
  ⟨b.position e.offset, e.func, e.fault⟩

/-- The functions of the files up to the first error. -/
def readFiles (b : Bundle) : List SourceFile → Reading
  | [] => ⟨[], none⟩
  | f :: rest =>
    let first := Reading.ofText f.base (b.range f.base f.stop)
    match first.error with
    | some _ => first
    | none =>
      let others := b.readFiles rest
      ⟨first.funcs ++ others.funcs, others.error⟩

def read (b : Bundle) : Reading :=
  b.readFiles b.files

/-- The name of the whole: that of the first file. -/
def name (b : Bundle) : Bytes :=
  match b.files with
  | [] => []
  | f :: _ => f.name

/-- Reads all files into one. -/
def parse (b : Bundle) : Except SyntaxError File :=
  let reading := b.read
  match reading.error with
  | some e => .error (b.syntaxError e)
  | none => .ok ⟨b.name, reading.funcs⟩

end Bundle

/-- Reads a single text. -/
def File.parse (name text : Bytes) : Except SyntaxError File :=
  (Bundle.single name text).parse

end StackLang
