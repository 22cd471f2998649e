import StackLang.Bytes

namespace StackLang

/-- Accepted writes stand latest first. Without `room` there is no bound. -/
structure Sink where
  room : Option Nat
  written : List Bytes
  deriving DecidableEq, Repr

namespace Sink

def ofRoom (room : Option Nat) : Sink := ⟨room, []⟩

def unbounded : Sink := ofRoom none

def write? (s : Sink) (text : Bytes) : Option Sink :=
  match s.room with
  | none => some ⟨none, text :: s.written⟩
  | some 0 => none
  | some (n + 1) => some ⟨some n, text :: s.written⟩

/-- The accepted writes in order. -/
def writes (s : Sink) : List Bytes :=
  s.written.reverse

def output (s : Sink) : Bytes :=
  s.writes.flatten

/-- The reason of a full sink. -/
def full : Bytes := bytes "write: disk full"

end Sink

end StackLang
