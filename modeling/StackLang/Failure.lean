import StackLang.Text.Numeral

namespace StackLang

structure Failure (ε : Type) where
  path : List Bytes
  cause : ε
  deriving DecidableEq, Repr

namespace Failure

variable {ε : Type}

/-- A failure without context. -/
def bare (cause : ε) : Failure ε := ⟨[], cause⟩

/-- The failure seen from a wider context. -/
def within (context : Bytes) (f : Failure ε) : Failure ε :=
  ⟨context :: f.path, f.cause⟩

def message (text : ε → Bytes) (f : Failure ε) : Bytes :=
  Bytes.join (bytes ": ") (f.path.filter (!·.isEmpty) ++ [text f.cause])

end Failure

theorem mapError_ok {ε δ α : Type} (f : ε → δ) (a : α) : (Except.ok a).mapError f = .ok a := rfl

theorem mapError_error {ε δ α : Type} (f : ε → δ) (e : ε) :
    (Except.error e : Except ε α).mapError f = .error (f e) := rfl

theorem mapError_eq_ok_iff {ε δ α : Type} {f : ε → δ} {x : Except ε α} {a : α} :
    x.mapError f = .ok a ↔ x = .ok a := by
  cases x <;> simp [mapError_ok, mapError_error]

theorem bind_eq_ok_iff {ε α β : Type} {x : Except ε α} {f : α → Except ε β} {b : β} :
    (x >>= f) = .ok b ↔ ∃ a, x = .ok a ∧ f a = .ok b := by
  cases x <;> simp [bind, Except.bind]

theorem mapError_eq_error_iff {ε δ α : Type} {f : ε → δ} {x : Except ε α} {d : δ} :
    x.mapError f = .error d ↔ ∃ e, x = .error e ∧ f e = d := by
  cases x <;> simp [mapError_ok, mapError_error]

theorem bind_eq_error_iff {ε α β : Type} {x : Except ε α} {f : α → Except ε β} {e : ε} :
    (x >>= f) = .error e ↔ x = .error e ∨ ∃ a, x = .ok a ∧ f a = .error e := by
  cases x <;> simp [bind, Except.bind]

/-- The context of a function. -/
def funcContext (name : Bytes) : Bytes :=
  bytes "func " ++ name

/-- The context of an argument. -/
def argContext (callee : Bytes) (index : Nat) : Bytes :=
  callee ++ bytes " arg " ++ Text.decimal index

end StackLang
