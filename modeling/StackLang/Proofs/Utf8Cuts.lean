import StackLang.Proofs.Utf8Scalars

namespace StackLang.Utf8

theorem owed_of_ascii {c : UInt8} (ascii : c < 0x80) : owed c = some [] := by
  simp [owed, ascii]

theorem owed_two {a : UInt8} (low : 0xC2 ≤ a.toNat) (high : a.toNat < 0xE0) :
    owed a = some [(0x80, 0xBF)] := by
  simp only [owed, UInt8.lt_iff_toNat_lt, UInt8.reduceToNat]
  rw [if_neg (by omega), if_neg (by omega), if_pos (by omega)]

theorem owed_three {a b : UInt8} (low : 0xE0 ≤ a.toNat) (high : a.toNat < 0xF0)
    (tail : 0x80 ≤ b.toNat ∧ b.toNat ≤ 0xBF) (long : a.toNat = 0xE0 → 0xA0 ≤ b.toNat)
    (scalar : a.toNat = 0xED → b.toNat ≤ 0x9F) :
    ∃ first, owed a = some [first, (0x80, 0xBF)] ∧ first.1.toNat ≤ b.toNat ∧
      b.toNat ≤ first.2.toNat := by
  simp only [owed, UInt8.lt_iff_toNat_lt, ← UInt8.toNat_inj, UInt8.reduceToNat]
  rw [if_neg (by omega), if_neg (by omega), if_neg (by omega)]
  by_cases isE0 : a.toNat = 0xE0
  · exact ⟨(0xA0, 0xBF), by rw [if_pos isE0], long isE0, tail.2⟩
  · rw [if_neg isE0]
    by_cases isED : a.toNat = 0xED
    · exact ⟨(0x80, 0x9F), by rw [if_pos isED], tail.1, scalar isED⟩
    · exact ⟨(0x80, 0xBF), by rw [if_neg isED, if_pos (by omega)], tail⟩

theorem owed_four {a b : UInt8} (low : 0xF0 ≤ a.toNat) (high : a.toNat ≤ 0xF4)
    (tail : 0x80 ≤ b.toNat ∧ b.toNat ≤ 0xBF) (long : a.toNat = 0xF0 → 0x90 ≤ b.toNat)
    (scalar : a.toNat = 0xF4 → b.toNat ≤ 0x8F) :
    ∃ first, owed a = some [first, (0x80, 0xBF), (0x80, 0xBF)] ∧
      first.1.toNat ≤ b.toNat ∧ b.toNat ≤ first.2.toNat := by
  simp only [owed, UInt8.lt_iff_toNat_lt, ← UInt8.toNat_inj, UInt8.reduceToNat]
  rw [if_neg (by omega), if_neg (by omega), if_neg (by omega), if_neg (by omega), if_neg (by omega),
    if_neg (by omega)]
  by_cases isF0 : a.toNat = 0xF0
  · exact ⟨(0x90, 0xBF), by rw [if_pos isF0], long isF0, tail.2⟩
  · rw [if_neg isF0]
    by_cases isF4 : a.toNat = 0xF4
    · exact ⟨(0x80, 0x8F), by rw [if_neg (by omega), if_pos isF4], tail.1, scalar isF4⟩
    · exact ⟨(0x80, 0xBF), by rw [if_pos (by omega)], tail⟩

theorem pays_lead {lead : UInt8} {ranges : List (UInt8 × UInt8)} (h : owed lead = some ranges)
    (rest : Bytes) :
    pays [] (lead :: rest) = pays ranges rest := by
  simp only [pays, h]

theorem pays_follower {low high c : UInt8} (above : low.toNat ≤ c.toNat)
    (below : c.toNat ≤ high.toNat) (ranges : List (UInt8 × UInt8)) (rest : Bytes) :
    pays ((low, high) :: ranges) (c :: rest) = pays ranges rest := by
  simp only [pays, UInt8.le_iff_toNat_le, above, below, decide_true, Bool.true_and]

theorem pays_tail_bits {n : Nat} (small : n < 64) (ranges : List (UInt8 × UInt8)) (rest : Bytes) :
    pays ((0x80, 0xBF) :: ranges) ((0x80 + n).toUInt8 :: rest) = pays ranges rest := by
  obtain ⟨above, below⟩ := tail_range small
  apply pays_follower
  · exact above
  · exact below

/-- Reading a character off a text does not change whether the text is valid. -/
theorem pays_eq_of_scalar? {text rest : Bytes} {n : Nat} (h : scalar? text = some (n, rest)) :
    pays [] text = pays [] rest := by
  obtain ⟨⟨bound, surrogate⟩, rfl⟩ := encode_of_scalar? h
  unfold encode
  split
  next one =>
    have lead := toNat_toUInt8 (n := n) (by omega)
    have ascii : n.toUInt8 < 0x80 := UInt8.lt_iff_toNat_lt.mpr (by rwa [lead])
    exact pays_lead (owed_of_ascii ascii) rest
  next =>
  split
  next two =>
    have lead := toNat_toUInt8 (n := 0xC0 + n / 64) (by omega)
    have ranges := owed_two (a := (0xC0 + n / 64).toUInt8) (by omega) (by omega)
    exact (pays_lead ranges _).trans (pays_tail_bits (by omega) _ _)
  next =>
  split
  next three =>
    have lead := toNat_toUInt8 (n := 0xE0 + n / 4096) (by omega)
    have second := toNat_toUInt8 (n := 0x80 + n / 64 % 64) (by omega)
    obtain ⟨first, ranges, above, below⟩ := owed_three (a := (0xE0 + n / 4096).toUInt8)
      (b := (0x80 + n / 64 % 64).toUInt8) (by omega) (by omega) (by omega) (by omega) (by omega)
    exact (pays_lead ranges _).trans
      ((pays_follower above below _ _).trans (pays_tail_bits (by omega) _ _))
  next =>
    have lead := toNat_toUInt8 (n := 0xF0 + n / 262144) (by omega)
    have second := toNat_toUInt8 (n := 0x80 + n / 4096 % 64) (by omega)
    obtain ⟨first, ranges, above, below⟩ := owed_four (a := (0xF0 + n / 262144).toUInt8)
      (b := (0x80 + n / 4096 % 64).toUInt8) (by omega) (by omega) (by omega) (by omega) (by omega)
    exact (pays_lead ranges _).trans ((pays_follower above below _ _).trans
      ((pays_tail_bits (by omega) _ _).trans (pays_tail_bits (by omega) _ _)))

theorem invalidFrom_lt {pos p : Nat} {text : Bytes} (h : invalidFrom pos text = some p) :
    p < pos + text.length := by
  fun_induction invalidFrom pos text with
  | case1 pos text n rest found ih =>
    have length := length_of_scalar? found
    have inside := ih h
    omega
  | case2 => cases h
  | case3 pos text none nonempty =>
    cases h
    have : text ≠ [] := by simpa using nonempty
    exact Nat.lt_add_of_pos_right (List.length_pos_iff.mpr this)

theorem valid_of_invalidFrom {pos : Nat} {text : Bytes} (h : invalidFrom pos text = none) :
    valid text := by
  fun_induction invalidFrom pos text with
  | case1 pos text n rest found ih =>
    rw [valid, pays_eq_of_scalar? found]
    exact ih h
  | case2 pos text none empty =>
    obtain rfl : text = [] := by simpa using empty
    rfl
  | case3 => cases h

theorem low_of_owed {lead : UInt8} {ranges : List (UInt8 × UInt8)} (h : owed lead = some ranges) :
    ∀ r ∈ ranges, 0x80 ≤ r.1 := by
  unfold owed at h
  repeat' split at h
  all_goals cases h
  all_goals simp

theorem pays_tail {ranges : List (UInt8 × UInt8)} (low : ∀ r ∈ ranges, 0x80 ≤ r.1) {c : UInt8}
    {rest : Bytes} (h : pays ranges (c :: rest)) :
    ∃ left, (∀ r ∈ left, 0x80 ≤ r.1) ∧ pays left rest := by
  cases ranges with
  | nil =>
    cases lead : owed c with
    | none => simp [pays, lead] at h
    | some left => exact ⟨left, low_of_owed lead, by simpa [pays, lead] using h⟩
  | cons r left =>
    have paid : pays left rest := by
      simp only [pays, Bool.and_eq_true] at h
      exact h.2
    exact ⟨left, fun r hr => low r (by simp [hr]), paid⟩

theorem pays_append_ascii {ranges : List (UInt8 × UInt8)} (low : ∀ r ∈ ranges, 0x80 ≤ r.1)
    {c : UInt8} (ascii : c < 0x80) (before after : Bytes) :
    pays ranges (before ++ c :: after) = (pays ranges before && pays [] after) := by
  induction before generalizing ranges with
  | nil =>
    cases ranges with
    | nil => simp [pays, owed_of_ascii ascii]
    | cons r rest =>
      have above : ¬ r.1 ≤ c := by
        have := low r (by simp)
        simp only [UInt8.le_iff_toNat_le, UInt8.lt_iff_toNat_lt] at *
        omega
      simp [pays, above]
  | cons b before ih =>
    cases ranges with
    | nil =>
      cases h : owed b with
      | none => simp [pays, h]
      | some ranges => simp [pays, h, ih (low_of_owed h)]
    | cons r rest =>
      have others : pays rest (before ++ c :: after) = (pays rest before && pays [] after) :=
        ih fun r hr => low r (by simp [hr])
      simp [pays, others, Bool.and_assoc]

/-- A text may be cut at an ASCII byte. -/
theorem valid_append_ascii {c : UInt8} (ascii : c < 0x80) (before after : Bytes) :
    valid (before ++ c :: after) = (valid before && valid after) :=
  pays_append_ascii (by simp) ascii before after

theorem valid_cons_ascii {c : UInt8} (ascii : c < 0x80) (rest : Bytes) :
    valid (c :: rest) = valid rest :=
  valid_append_ascii ascii [] rest

theorem valid_ascii_append {text : Bytes} (ascii : ∀ c ∈ text, c < 0x80) (rest : Bytes) :
    valid (text ++ rest) = valid rest := by
  induction text with
  | nil => rfl
  | cons c text ih =>
    rw [List.cons_append, valid_cons_ascii (ascii c (by simp))]
    exact ih fun c hc => ascii c (by simp [hc])

theorem valid_of_ascii {text : Bytes} (ascii : ∀ c ∈ text, c < 0x80) : valid text := by
  have whole := valid_ascii_append ascii []
  rw [List.append_nil] at whole
  exact whole

end StackLang.Utf8
