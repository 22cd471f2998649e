import StackLang.Proofs.Utf8Cuts

namespace StackLang.Utf8

theorem pays_cons {range : UInt8 × UInt8} {ranges : List (UInt8 × UInt8)} {text : Bytes}
    (h : pays (range :: ranges) text) :
    ∃ b rest, text = b :: rest ∧ range.1.toNat ≤ b.toNat ∧ b.toNat ≤ range.2.toNat ∧
      pays ranges rest := by
  cases text with
  | nil => cases h
  | cons b rest =>
    simp only [pays, Bool.and_eq_true, decide_eq_true_eq, UInt8.le_iff_toNat_le] at h
    exact ⟨b, rest, rfl, h.1.1, h.1.2, h.2⟩

/-- What a lead byte owes, by the length of its encoding. -/
theorem owed_cases {a : UInt8} {ranges : List (UInt8 × UInt8)} (h : owed a = some ranges) :
    (a.toNat < 0x80 ∧ ranges = []) ∨
    (0xC2 ≤ a.toNat ∧ a.toNat < 0xE0 ∧ ranges = [(0x80, 0xBF)]) ∨
    (0xE0 ≤ a.toNat ∧ a.toNat < 0xF0 ∧ ∃ low high : UInt8, ranges = [(low, high), (0x80, 0xBF)] ∧
      0x80 ≤ low.toNat ∧ high.toNat ≤ 0xBF ∧ (a.toNat = 0xE0 → 0xA0 ≤ low.toNat) ∧
      (a.toNat = 0xED → high.toNat ≤ 0x9F)) ∨
    (0xF0 ≤ a.toNat ∧ a.toNat ≤ 0xF4 ∧ ∃ low high : UInt8, ranges =
      [(low, high), (0x80, 0xBF), (0x80, 0xBF)] ∧
      0x80 ≤ low.toNat ∧ high.toNat ≤ 0xBF ∧ (a.toNat = 0xF0 → 0x90 ≤ low.toNat) ∧
      (a.toNat = 0xF4 → high.toNat ≤ 0x8F)) := by
  simp only [owed, UInt8.lt_iff_toNat_lt, ← UInt8.toNat_inj, UInt8.reduceToNat] at h
  split at h
  next one => exact .inl ⟨one, (Option.some.inj h).symm⟩
  next =>
  split at h
  next => cases h
  next =>
  split at h
  next two => exact .inr (.inl ⟨by omega, two, (Option.some.inj h).symm⟩)
  next =>
  split at h
  next isE0 =>
    exact .inr (.inr (.inl ⟨by omega, by omega, 0xA0, 0xBF, (Option.some.inj h).symm,
      by decide, by decide, fun _ => by decide, by omega⟩))
  next =>
  split at h
  next isED =>
    exact .inr (.inr (.inl ⟨by omega, by omega, 0x80, 0x9F, (Option.some.inj h).symm,
      by decide, by decide, by omega, fun _ => by decide⟩))
  next =>
  split at h
  next three =>
    exact .inr (.inr (.inl ⟨by omega, three, 0x80, 0xBF, (Option.some.inj h).symm,
      by decide, by decide, by omega, by omega⟩))
  next =>
  split at h
  next isF0 =>
    exact .inr (.inr (.inr ⟨by omega, by omega, 0x90, 0xBF, (Option.some.inj h).symm,
      by decide, by decide, fun _ => by decide, by omega⟩))
  next =>
  split at h
  next four =>
    exact .inr (.inr (.inr ⟨by omega, by omega, 0x80, 0xBF, (Option.some.inj h).symm,
      by decide, by decide, by omega, by omega⟩))
  next =>
  split at h
  next isF4 =>
    exact .inr (.inr (.inr ⟨by omega, by omega, 0x80, 0x8F, (Option.some.inj h).symm,
      by decide, by decide, by omega, fun _ => by decide⟩))
  next => cases h

/-- A valid text that is not empty starts with a character. -/
theorem scalar?_of_valid {c : UInt8} {text : Bytes} (h : valid (c :: text)) :
    ∃ n rest, scalar? (c :: text) = some (n, rest) := by
  unfold valid at h
  cases lead : owed c with
  | none => simp [pays, lead] at h
  | some ranges =>
    have paid : pays ranges text := by simpa [pays, lead] using h
    simp only [scalar?, UInt8.lt_iff_toNat_lt, UInt8.reduceToNat]
    rcases owed_cases lead with ⟨one, rfl⟩ | ⟨low, high, rfl⟩ |
      ⟨low, high, l, u, rfl, lLow, uHigh, long, scalar⟩ |
      ⟨low, high, l, u, rfl, lLow, uHigh, long, scalar⟩
    · exact ⟨_, _, if_pos one⟩
    · obtain ⟨b, rest, rfl, bLow, bHigh, -⟩ := pays_cons paid
      simp only [UInt8.reduceToNat] at bLow bHigh
      have hb := tail?_of_range bLow bHigh
      have hn : checked? 0x80 ((c.toNat - 0xC0) * 64 + (b.toNat - 0x80)) = some _ :=
        checked?_of_isScalar (by omega) ⟨by omega, by omega⟩
      rw [if_neg (by omega), if_neg (by omega), if_pos high]
      simp [hb, hn]
    · obtain ⟨b, rest, rfl, bLow, bHigh, paid⟩ := pays_cons paid
      obtain ⟨d, rest, rfl, dLow, dHigh, -⟩ := pays_cons paid
      simp only [UInt8.reduceToNat] at bLow bHigh dLow dHigh
      have hb := tail?_of_range (c := b) (by omega) (by omega)
      have hd := tail?_of_range dLow dHigh
      have hn :
          checked? 0x800 (((c.toNat - 0xE0) * 64 + (b.toNat - 0x80)) * 64 + (d.toNat - 0x80)) =
            some _ :=
        checked?_of_isScalar (by omega) ⟨by omega, by omega⟩
      rw [if_neg (by omega), if_neg (by omega), if_neg (by omega), if_pos high]
      simp [hb, hd, hn]
    · obtain ⟨b, rest, rfl, bLow, bHigh, paid⟩ := pays_cons paid
      obtain ⟨d, rest, rfl, dLow, dHigh, paid⟩ := pays_cons paid
      obtain ⟨e, rest, rfl, eLow, eHigh, -⟩ := pays_cons paid
      simp only [UInt8.reduceToNat] at bLow bHigh dLow dHigh eLow eHigh
      have hb := tail?_of_range (c := b) (by omega) (by omega)
      have hd := tail?_of_range dLow dHigh
      have he := tail?_of_range eLow eHigh
      have hn :
          checked? 0x10000
            ((((c.toNat - 0xF0) * 64 + (b.toNat - 0x80)) * 64 + (d.toNat - 0x80)) * 64 +
              (e.toNat - 0x80)) = some _ :=
        checked?_of_isScalar (by omega) ⟨by omega, by omega⟩
      rw [if_neg (by omega), if_neg (by omega), if_neg (by omega), if_neg (by omega),
        if_pos (by omega)]
      simp [hb, hd, he, hn]

theorem invalidFrom_of_valid {pos : Nat} {text : Bytes} (h : valid text) :
    invalidFrom pos text = none := by
  fun_induction invalidFrom pos text with
  | case1 pos text n rest found ih =>
    apply ih
    rw [valid, ← pays_eq_of_scalar? found]
    exact h
  | case2 => rfl
  | case3 pos text none notEmpty =>
    cases text with
    | nil => simp at notEmpty
    | cons c rest =>
      obtain ⟨n, after, found⟩ := scalar?_of_valid h
      simp [found] at none

theorem invalidAt_eq_none_iff {text : Bytes} : invalidAt text = none ↔ valid text :=
  ⟨valid_of_invalidFrom, invalidFrom_of_valid⟩

/-- Behind a text that pays all that is owed, another text starts afresh. -/
theorem pays_append {ranges : List (UInt8 × UInt8)} {a : Bytes} (ha : pays ranges a) (b : Bytes) :
    pays ranges (a ++ b) = valid b := by
  induction a generalizing ranges with
  | nil =>
    cases ranges with
    | nil => rfl
    | cons range rest => cases ha
  | cons c rest ih =>
    cases ranges with
    | nil =>
      cases lead : owed c with
      | none => simp [pays, lead] at ha
      | some owedRanges =>
        simp only [List.cons_append, pays, lead] at ha ⊢
        exact ih ha
    | cons range others =>
      simp only [List.cons_append, pays, Bool.and_eq_true] at ha ⊢
      rw [ih ha.2]
      simp only [ha.1, Bool.true_and]

theorem valid_append_iff {a : Bytes} (ha : valid a) (b : Bytes) : valid (a ++ b) ↔ valid b := by
  rw [valid, pays_append ha]

theorem valid_append {a b : Bytes} (ha : valid a) (hb : valid b) : valid (a ++ b) :=
  (valid_append_iff ha b).mpr hb

end StackLang.Utf8
