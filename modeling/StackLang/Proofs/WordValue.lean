import Mathlib.Algebra.Ring.Nat
import Mathlib.Data.List.Induction
import StackLang.Code.Word

namespace StackLang.Word

@[simp] theorem length_encode (width n : Nat) : (encode width n).length = width := by
  induction width generalizing n with
  | zero => rfl
  | succ width ih => simp [encode, ih]

theorem decode_concat (b : Bytes) (c : UInt8) : decode (b ++ [c]) = decode b * 256 + c.toNat := by
  simp [decode]

theorem decode_encode {width n : Nat} (fits : n < 256 ^ width) : decode (encode width n) = n := by
  induction width generalizing n with
  | zero =>
    have zero : n = 0 := by simpa using fits
    simp [encode, decode, zero]
  | succ width ih =>
    have high : n / 256 < 256 ^ width := Nat.div_lt_of_lt_mul (by rwa [Nat.pow_succ'] at fits)
    have low : n.toUInt8.toNat = n % 256 := by simp
    rw [encode, decode_concat, ih high, low]
    omega

theorem decode_lt (b : Bytes) : decode b < 256 ^ b.length := by
  induction b using List.reverseRecOn with
  | nil => simp [decode]
  | append_singleton b c ih =>
    have bound := c.toNat_lt
    rw [decode_concat, List.length_append, List.length_singleton, Nat.pow_succ]
    omega

theorem encode_decode (b : Bytes) : encode b.length (decode b) = b := by
  induction b using List.reverseRecOn with
  | nil => rfl
  | append_singleton b c ih =>
    have bound := c.toNat_lt
    have high : (decode b * 256 + c.toNat) / 256 = decode b := by omega
    have low : (decode b * 256 + c.toNat).toUInt8 = c := by
      apply UInt8.toNat_inj.mp
      simp only [Nat.toUInt8_eq, UInt8.toNat_ofNat']
      omega
    rw [decode_concat, List.length_append, List.length_singleton, encode, high, low, ih]

/-- The bytes of a width are those of the numbers below its power. -/
theorem eq_encode_iff {width n : Nat} {b : Bytes} :
    b = encode width n ∧ n < 256 ^ width ↔ b.length = width ∧ decode b = n := by
  constructor
  · rintro ⟨rfl, fits⟩
    exact ⟨length_encode width n, decode_encode fits⟩
  · rintro ⟨rfl, rfl⟩
    exact ⟨(encode_decode b).symm, decode_lt b⟩

theorem encode32_natCast {n : Nat} (fits : n < 256 ^ 4) : encode32 n = encode 4 n := by
  have low : ((n : Int) % 0x100000000).toNat = n := by omega
  rw [encode32, low]

end StackLang.Word
