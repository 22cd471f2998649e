import StackLang.Text.Utf8

namespace StackLang.Utf8

/-- A number that is a character. -/
def IsScalar (n : Nat) : Prop :=
  n ≤ 0x10FFFF ∧ ¬ (0xD800 ≤ n ∧ n < 0xE000)

theorem toNat_toUInt8 {n : Nat} (small : n < 256) : n.toUInt8.toNat = n := by
  rw [Nat.toUInt8_eq, UInt8.toNat_ofNat', Nat.mod_eq_of_lt small]

theorem eq_toUInt8 {c : UInt8} {n : Nat} (h : c.toNat = n) : c = n.toUInt8 := by
  rw [← h, Nat.toUInt8_eq, UInt8.ofNat_toNat]

theorem tail?_eq_some {c : UInt8} {t : Nat} (h : tail? c = some t) :
    0x80 ≤ c.toNat ∧ c.toNat ≤ 0xBF ∧ t = c.toNat - 0x80 := by
  unfold tail? at h
  split at h
  next range =>
    simp only [Bool.and_eq_true, decide_eq_true_eq, UInt8.le_iff_toNat_le, UInt8.lt_iff_toNat_lt,
      UInt8.reduceToNat] at range
    have value := Option.some.inj h
    omega
  next => cases h

theorem tail?_of_range {c : UInt8} (low : 0x80 ≤ c.toNat) (high : c.toNat ≤ 0xBF) :
    tail? c = some (c.toNat - 0x80) := by
  have below : c.toNat < 0xC0 := by omega
  simp [tail?, UInt8.le_iff_toNat_le, UInt8.lt_iff_toNat_lt, low, below]

theorem tail_range {n : Nat} (small : n < 64) :
    0x80 ≤ (0x80 + n).toUInt8.toNat ∧ (0x80 + n).toUInt8.toNat ≤ 0xBF := by
  rw [toNat_toUInt8 (by omega)]
  omega

theorem tail?_toUInt8 {n : Nat} (small : n < 64) : tail? (0x80 + n).toUInt8 = some n := by
  obtain ⟨low, high⟩ := tail_range small
  rw [tail?_of_range low high, toNat_toUInt8 (by omega), Nat.add_sub_cancel_left]

theorem checked?_eq_some_iff {least n m : Nat} :
    checked? least n = some m ↔ m = n ∧ least ≤ n ∧ IsScalar n := by
  unfold checked? IsScalar
  split
  next range => simp [range, eq_comm]
  next outside =>
    refine ⟨nofun, fun h => absurd ?_ outside⟩
    exact ⟨h.2.1, h.2.2.2, h.2.2.1⟩

theorem checked?_of_isScalar {least n : Nat} (low : least ≤ n) (scalar : IsScalar n) :
    checked? least n = some n :=
  checked?_eq_some_iff.mpr ⟨rfl, low, scalar⟩

theorem length_encode (n : Nat) : (encode n).length = width n := by
  unfold encode width
  split
  next => rfl
  next =>
  split
  next => rfl
  next => split <;> rfl

/-- A character is read off its encoding. -/
theorem scalar?_encode {n : Nat} (scalar : IsScalar n) (rest : Bytes) :
    scalar? (encode n ++ rest) = some (n, rest) := by
  have bound := scalar.1
  unfold encode
  split
  next one =>
    have lead := toNat_toUInt8 (n := n) (by omega)
    simp only [List.singleton_append, scalar?, UInt8.lt_iff_toNat_lt, lead,
      UInt8.reduceToNat, one, if_true]
  next =>
  split
  next two =>
    have lead := toNat_toUInt8 (n := 0xC0 + n / 64) (by omega)
    have last := tail?_toUInt8 (n := n % 64) (by omega)
    have number : (0xC0 + n / 64 - 0xC0) * 64 + n % 64 = n := by omega
    have checked : checked? 0x80 n = some n := checked?_of_isScalar (by omega) scalar
    simp only [List.cons_append, List.nil_append, scalar?, UInt8.lt_iff_toNat_lt, lead,
      UInt8.reduceToNat]
    rw [if_neg (by omega), if_neg (by omega), if_pos (by omega)]
    simp only [last, number, checked, Option.bind_eq_bind, Option.bind_some]
  next =>
  split
  next three =>
    have lead := toNat_toUInt8 (n := 0xE0 + n / 4096) (by omega)
    have second := tail?_toUInt8 (n := n / 64 % 64) (by omega)
    have last := tail?_toUInt8 (n := n % 64) (by omega)
    have number : ((0xE0 + n / 4096 - 0xE0) * 64 + n / 64 % 64) * 64 + n % 64 = n := by omega
    have checked : checked? 0x800 n = some n := checked?_of_isScalar (by omega) scalar
    simp only [List.cons_append, List.nil_append, scalar?, UInt8.lt_iff_toNat_lt, lead,
      UInt8.reduceToNat]
    rw [if_neg (by omega), if_neg (by omega), if_neg (by omega), if_pos (by omega)]
    simp only [second, last, number, checked, Option.bind_eq_bind, Option.bind_some]
  next =>
    have lead := toNat_toUInt8 (n := 0xF0 + n / 262144) (by omega)
    have second := tail?_toUInt8 (n := n / 4096 % 64) (by omega)
    have third := tail?_toUInt8 (n := n / 64 % 64) (by omega)
    have last := tail?_toUInt8 (n := n % 64) (by omega)
    have number : (((0xF0 + n / 262144 - 0xF0) * 64 + n / 4096 % 64) * 64 + n / 64 % 64) * 64 + n %
        64 = n := by omega
    have checked : checked? 0x10000 n = some n := checked?_of_isScalar (by omega) scalar
    simp only [List.cons_append, List.nil_append, scalar?, UInt8.lt_iff_toNat_lt, lead,
      UInt8.reduceToNat]
    rw [if_neg (by omega), if_neg (by omega), if_neg (by omega), if_neg (by omega),
      if_pos (by omega)]
    simp only [second, third, last, number, checked, Option.bind_eq_bind, Option.bind_some]

/-- What is read as a character is its encoding: there is no second one. -/
theorem encode_of_scalar? {text rest : Bytes} {n : Nat} (h : scalar? text = some (n, rest)) :
    IsScalar n ∧ text = encode n ++ rest := by
  unfold scalar? at h
  split at h
  next => cases h
  next a tail =>
  simp only [UInt8.lt_iff_toNat_lt, UInt8.reduceToNat] at h
  split at h
  next one =>
    obtain ⟨rfl, rfl⟩ := Prod.mk.inj (Option.some.inj h)
    refine ⟨⟨by omega, by omega⟩, ?_⟩
    rw [encode, if_pos one, ← eq_toUInt8 rfl, List.singleton_append]
  next =>
  split at h
  next => cases h
  next =>
  split at h
  next two =>
    split at h
    next b more =>
      simp only [Option.bind_eq_bind, Option.bind_eq_some_iff, Option.some.injEq,
        Prod.mk.injEq] at h
      obtain ⟨t, ht, m, hm, rfl, rfl⟩ := h
      have hb := tail?_eq_some ht
      obtain ⟨number, low, scalar⟩ := checked?_eq_some_iff.mp hm
      rw [← number] at low scalar
      refine ⟨scalar, ?_⟩
      rw [encode, if_neg (by omega), if_pos (by omega), ← eq_toUInt8 (c := a) (by omega),
        ← eq_toUInt8 (c := b) (by omega), List.cons_append, List.singleton_append]
    next => cases h
  next =>
  split at h
  next three =>
    split at h
    next b c more =>
      simp only [Option.bind_eq_bind, Option.bind_eq_some_iff, Option.some.injEq,
        Prod.mk.injEq] at h
      obtain ⟨t, ht, u, hu, m, hm, rfl, rfl⟩ := h
      have hb := tail?_eq_some ht
      have hc := tail?_eq_some hu
      obtain ⟨number, low, scalar⟩ := checked?_eq_some_iff.mp hm
      rw [← number] at low scalar
      refine ⟨scalar, ?_⟩
      rw [encode, if_neg (by omega), if_neg (by omega), if_pos (by omega),
        ← eq_toUInt8 (c := a) (by omega),
        ← eq_toUInt8 (c := b) (by omega), ← eq_toUInt8 (c := c) (by omega)]
      rfl
    next => cases h
  next =>
  split at h
  next four =>
    split at h
    next b c d more =>
      simp only [Option.bind_eq_bind, Option.bind_eq_some_iff, Option.some.injEq,
        Prod.mk.injEq] at h
      obtain ⟨t, ht, u, hu, v, hv, m, hm, rfl, rfl⟩ := h
      have hb := tail?_eq_some ht
      have hc := tail?_eq_some hu
      have hd := tail?_eq_some hv
      obtain ⟨number, low, scalar⟩ := checked?_eq_some_iff.mp hm
      rw [← number] at low scalar
      refine ⟨scalar, ?_⟩
      rw [encode, if_neg (by omega), if_neg (by omega), if_neg (by omega),
        ← eq_toUInt8 (c := a) (by omega),
        ← eq_toUInt8 (c := b) (by omega), ← eq_toUInt8 (c := c) (by omega),
        ← eq_toUInt8 (c := d) (by omega)]
      rfl
    next => cases h
  next => cases h

/-- A character takes as many bytes as its number needs. -/
theorem length_of_scalar? {text rest : Bytes} {n : Nat} (h : scalar? text = some (n, rest)) :
    text.length = width n + rest.length := by
  obtain ⟨-, rfl⟩ := encode_of_scalar? h
  rw [List.length_append, length_encode]

namespace Piece

/-- The bytes that a piece stands for. -/
def text : Piece → Bytes
  | .scalar n => encode n
  | .stray b => [b]

/-- A piece as it is found in a text: an ASCII byte is always a character. -/
def Proper : Piece → Prop
  | .scalar n => IsScalar n
  | .stray b => 0x80 ≤ b.toNat

end Piece

theorem flatMap_piecesAfter (read : List Piece) (text : Bytes) :
    (piecesAfter read text).flatMap Piece.text = read.reverse.flatMap Piece.text ++ text := by
  fun_induction piecesAfter read text with
  | case1 read text n rest found ih =>
    obtain ⟨-, rfl⟩ := encode_of_scalar? found
    simp [ih, Piece.text]
  | case2 read none => simp
  | case3 read b rest none ih => simp [ih, Piece.text]

theorem proper_of_mem_piecesAfter {read : List Piece} {text : Bytes}
    (proper : ∀ p ∈ read, p.Proper) :
    ∀ p ∈ piecesAfter read text, p.Proper := by
  fun_induction piecesAfter read text with
  | case1 read text n rest found ih =>
    apply ih
    rw [List.forall_mem_cons]
    exact ⟨(encode_of_scalar? found).1, proper⟩
  | case2 read none => simpa using proper
  | case3 read b rest none ih =>
    apply ih
    rw [List.forall_mem_cons]
    refine ⟨Nat.le_of_not_lt fun ascii => ?_, proper⟩
    have small : b < 0x80 := UInt8.lt_iff_toNat_lt.mpr ascii
    simp [scalar?, small] at none

theorem flatMap_pieces (text : Bytes) : (pieces text).flatMap Piece.text = text :=
  flatMap_piecesAfter [] text

theorem proper_of_mem_pieces {text : Bytes} : ∀ p ∈ pieces text, p.Proper :=
  proper_of_mem_piecesAfter (List.forall_mem_nil _)

end StackLang.Utf8
