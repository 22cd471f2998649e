import StackLang.Bytes

namespace StackLang

inductive FileError where
  | notFound
  | notDirectory
  | isDirectory
  | nameTooLong
  | invalidPath
  deriving DecidableEq, Repr

def FileError.message : FileError → Bytes
  | notFound => bytes "no such file or directory"
  | notDirectory => bytes "not a directory"
  | isDirectory => bytes "is a directory"
  | nameTooLong => bytes "file name too long"
  | invalidPath => bytes "invalid argument"

/-- What can be asked of files: the content of one, and the files after one has been written. -/
structure FileSystem (σ : Type) where
  read : σ → Bytes → Except FileError Bytes
  write : σ → Bytes → Bytes → Except FileError σ

/-- The laws of writing over a file that is there. `Same s` tells which paths lead to one file. The
other files stay as they are, and so does where each path leads to. A file need not keep what is
written to it, but keeps what it holds already. -/
structure FileSystem.Lawful {σ : Type} (fs : FileSystem σ) (Same : σ → Bytes → Bytes → Prop) :
    Prop where
  same_refl : ∀ {s p content}, fs.read s p = .ok content → Same s p p
  read_same : ∀ {s p q}, Same s p q → fs.read s q = fs.read s p
  same_write : ∀ {s s' p content text}, fs.read s p = .ok content → fs.write s p text = .ok s' →
    ∀ a b, Same s' a b ↔ Same s a b
  read_other : ∀ {s s' p content text}, fs.read s p = .ok content → fs.write s p text = .ok s' →
    ∀ q, ¬ Same s p q → fs.read s' q = fs.read s q
  read_settled : ∀ {s s' p content}, fs.read s p = .ok content → fs.write s p content = .ok s' →
    fs.read s' p = .ok content

end StackLang
