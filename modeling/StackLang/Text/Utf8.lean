import StackLang.Bytes

namespace StackLang.Utf8

/-- The ranges of the bytes that must follow a lead byte. -/
def owed (lead : UInt8) : Option (List (UInt8 × UInt8)) :=
  if lead < 0x80 then some []
  else if lead < 0xC2 then none
  else if lead < 0xE0 then some [(0x80, 0xBF)]
  else if lead = 0xE0 then some [(0xA0, 0xBF), (0x80, 0xBF)]
  else if lead = 0xED then some [(0x80, 0x9F), (0x80, 0xBF)]
  else if lead < 0xF0 then some [(0x80, 0xBF), (0x80, 0xBF)]
  else if lead = 0xF0 then some [(0x90, 0xBF), (0x80, 0xBF), (0x80, 0xBF)]
  else if lead < 0xF4 then some [(0x80, 0xBF), (0x80, 0xBF), (0x80, 0xBF)]
  else if lead = 0xF4 then some [(0x80, 0x8F), (0x80, 0xBF), (0x80, 0xBF)]
  else none

/-- Whether `text` pays what is owed and is well encoded after that. -/
def pays : List (UInt8 × UInt8) → Bytes → Bool
  | [], [] => true
  | _ :: _, [] => false
  | [], c :: rest =>
    match owed c with
    | some ranges => pays ranges rest
    | none => false
  | (low, high) :: ranges, c :: rest => low ≤ c && c ≤ high && pays ranges rest

def valid (text : Bytes) : Bool :=
  pays [] text

/-- The six bits of a continuation byte. -/
def tail? (c : UInt8) : Option Nat :=
  if 0x80 ≤ c && c < 0xC0 then some (c.toNat - 0x80) else none

/-- A number that is a character and needs at least the encoding it came in. -/
def checked? (least n : Nat) : Option Nat :=
  if least ≤ n ∧ ¬ (0xD800 ≤ n ∧ n < 0xE000) ∧ n ≤ 0x10FFFF then some n else none

/-- The character at the front of a text, and the text after it. -/
def scalar? : Bytes → Option (Nat × Bytes)
  | [] => none
  | a :: rest =>
    if a < 0x80 then some (a.toNat, rest)
    else if a < 0xC0 then none
    else if a < 0xE0 then
      match rest with
      | b :: rest => do
        let n ← checked? 0x80 ((a.toNat - 0xC0) * 64 + (← tail? b))
        some (n, rest)
      | _ => none
    else if a < 0xF0 then
      match rest with
      | b :: c :: rest => do
        let n ← checked? 0x800 (((a.toNat - 0xE0) * 64 + (← tail? b)) * 64 + (← tail? c))
        some (n, rest)
      | _ => none
    else if a < 0xF8 then
      match rest with
      | b :: c :: d :: rest => do
        let n ← checked? 0x10000
          ((((a.toNat - 0xF0) * 64 + (← tail? b)) * 64 + (← tail? c)) * 64 + (← tail? d))
        some (n, rest)
      | _ => none
    else none

theorem scalar?_length {text rest : Bytes} {n : Nat} (h : scalar? text = some (n, rest)) :
    rest.length < text.length := by
  unfold scalar? at h
  split at h
  next => simp at h
  next a tail =>
    split at h
    next => simp at h; simp [h.2]
    next =>
      split at h
      next => simp at h
      next =>
        split at h
        next =>
          split at h
          next b more =>
            simp only [Option.bind_eq_bind, Option.bind_eq_some_iff, Option.some.injEq, Prod.mk.injEq] at h
            obtain ⟨_, _, _, _, _, rfl⟩ := h
            simp only [List.length_cons]
            omega
          next => simp at h
        next =>
          split at h
          next =>
            split at h
            next b c more =>
              simp only [Option.bind_eq_bind, Option.bind_eq_some_iff, Option.some.injEq, Prod.mk.injEq] at h
              obtain ⟨_, _, _, _, _, _, _, rfl⟩ := h
              simp only [List.length_cons]
              omega
            next => simp at h
          next =>
            split at h
            next =>
              split at h
              next b c d more =>
                simp only [Option.bind_eq_bind, Option.bind_eq_some_iff, Option.some.injEq, Prod.mk.injEq] at h
                obtain ⟨_, _, _, _, _, _, _, _, _, rfl⟩ := h
                simp only [List.length_cons]
                omega
              next => simp at h
            next => simp at h

/-- How many bytes the character with number `n` takes. -/
def width (n : Nat) : Nat :=
  if n < 0x80 then 1 else if n < 0x800 then 2 else if n < 0x10000 then 3 else 4

/-- Where the first byte stands at which no character starts. -/
def invalidFrom (pos : Nat) (text : Bytes) : Option Nat :=
  match _h : scalar? text with
  | some (n, rest) => invalidFrom (pos + width n) rest
  | none => if text.isEmpty then none else some pos
termination_by text.length
decreasing_by exact scalar?_length _h

def invalidAt (text : Bytes) : Option Nat :=
  invalidFrom 0 text

/-- The bytes of the character with number `n`. -/
def encode (n : Nat) : Bytes :=
  if n < 0x80 then [n.toUInt8]
  else if n < 0x800 then [(0xC0 + n / 64).toUInt8, (0x80 + n % 64).toUInt8]
  else if n < 0x10000 then
    [(0xE0 + n / 4096).toUInt8, (0x80 + n / 64 % 64).toUInt8, (0x80 + n % 64).toUInt8]
  else
    [(0xF0 + n / 262144).toUInt8, (0x80 + n / 4096 % 64).toUInt8, (0x80 + n / 64 % 64).toUInt8,
      (0x80 + n % 64).toUInt8]

/-- A character of a text, or a byte that starts none. -/
inductive Piece where
  | scalar (n : Nat)
  | stray (b : UInt8)
  deriving DecidableEq, Repr

/-- The pieces of a text behind those already read, which stand latest first. -/
def piecesAfter (read : List Piece) (text : Bytes) : List Piece :=
  match _h : scalar? text with
  | some (n, rest) => piecesAfter (.scalar n :: read) rest
  | none =>
    match text with
    | [] => read.reverse
    | b :: rest => piecesAfter (.stray b :: read) rest
termination_by text.length
decreasing_by
  · exact scalar?_length _h
  · simp

def pieces (text : Bytes) : List Piece :=
  piecesAfter [] text

end StackLang.Utf8
