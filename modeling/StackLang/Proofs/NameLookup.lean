import StackLang.NameMap

namespace StackLang.NameMap

variable {α β : Type}

theorem find_insertEntry {key other : Bytes} {value : α} {l : List (Bytes × α)}
    (ascending : l.Pairwise fun a b => compare a.1 b.1 = .lt) :
    find other (insertEntry key value l) = if other = key then some value else find other l := by
  induction l with
  | nil =>
    by_cases same : other = key
    · simp [insertEntry, find, same]
    · cases h : compare other key <;> simp_all [insertEntry, find]
  | cons e rest ih =>
    obtain ⟨first, others⟩ := List.pairwise_cons.mp ascending
    unfold insertEntry
    split
    next lt =>
      by_cases same : other = key
      · simp [find, same]
      · cases h : compare other key with
        | lt => simp [find, h, same, Std.TransCmp.lt_trans h lt]
        | eq => exact absurd (Std.LawfulEqCmp.eq_of_compare h) same
        | gt => simp only [find, h, same, if_false]
    next eq =>
      obtain rfl : key = e.1 := Std.LawfulEqCmp.eq_of_compare eq
      by_cases same : other = e.1
      · simp [find, same]
      · cases h : compare other e.1 <;> simp_all [find]
    next gt =>
      have differs : compare other e.1 ≠ .gt → other ≠ key := by
        rintro notAbove rfl
        exact notAbove gt
      simp only [find, ih others]
      cases h : compare other e.1 with
      | lt => simp [differs (by simp [h])]
      | eq => simp [differs (by simp [h])]
      | gt => rfl

theorem get?_insert (m : NameMap α) (key other : Bytes) (value : α) :
    (m.insert key value).get? other = if other = key then some value else m.get? other :=
  find_insertEntry m.ascending

theorem find_eq_some_iff_mem {key : Bytes} {value : α} {l : List (Bytes × α)}
    (ascending : l.Pairwise fun a b => compare a.1 b.1 = .lt) :
    find key l = some value ↔ (key, value) ∈ l := by
  induction l with
  | nil => simp [find]
  | cons e rest ih =>
    obtain ⟨first, others⟩ := List.pairwise_cons.mp ascending
    have absent : compare key e.1 ≠ .gt → (key, value) ∉ rest := by
      intro notAbove mem
      exact notAbove (Std.OrientedCmp.gt_of_lt (first _ mem))
    cases h : compare key e.1 with
    | lt =>
      have differs : (key, value) ≠ e := by rintro rfl; simp at h
      simp [find, h, differs, absent (by simp [h])]
    | eq =>
      obtain rfl : key = e.1 := Std.LawfulEqCmp.eq_of_compare h
      simp only [find, h, List.mem_cons, absent (by simp), or_false, Option.some.injEq]
      constructor
      · rintro rfl
        rfl
      · intro eq
        rw [← eq]
    | gt =>
      have differs : (key, value) ≠ e := by rintro rfl; simp at h
      simp [find, h, differs, ih others]

theorem get?_eq_some_iff {m : NameMap α} {key : Bytes} {value : α} :
    m.get? key = some value ↔ (key, value) ∈ m.entries :=
  find_eq_some_iff_mem m.ascending

theorem mem_keys_iff {m : NameMap α} {key : Bytes} :
    key ∈ m.keys ↔ ∃ value, m.get? key = some value := by
  simp [keys, get?_eq_some_iff]

theorem contains_iff {m : NameMap α} {key : Bytes} :
    m.contains key ↔ ∃ value, m.get? key = some value := by
  simp [contains, Option.isSome_iff_exists]

theorem get?_foldl_insert (pairs : List (Bytes × α)) (m : NameMap α) (key : Bytes) :
    (pairs.foldl (fun m e => m.insert e.1 e.2) m).get? key =
      (((pairs.filter fun e => e.1 = key).getLast?).map (·.2)).or (m.get? key) := by
  induction pairs generalizing m with
  | nil => simp
  | cons e rest ih =>
    rw [List.foldl_cons, ih, get?_insert]
    by_cases same : e.1 = key
    · cases h : rest.filter fun e => e.1 = key with
      | nil => simp [same, h]
      | cons a l => simp [same, h, List.getLast?_cons]
    · simp [same, Ne.symm same]

/-- The last pair of a name decides. -/
theorem get?_ofList (pairs : List (Bytes × α)) (key : Bytes) :
    (ofList pairs).get? key = ((pairs.filter fun e => e.1 = key).getLast?).map (·.2) := by
  rw [ofList, get?_foldl_insert]
  exact Option.or_none

theorem mem_of_get?_ofList {pairs : List (Bytes × α)} {key : Bytes} {value : α}
    (h : (ofList pairs).get? key = some value) : (key, value) ∈ pairs := by
  rw [get?_ofList] at h
  obtain ⟨e, last, rfl⟩ := Option.map_eq_some_iff.mp h
  obtain ⟨mem, same⟩ := List.mem_filter.mp (List.mem_of_getLast? last)
  obtain rfl : e.1 = key := by simpa using same
  exact mem

theorem exists_get?_ofList {pairs : List (Bytes × α)} {e : Bytes × α} (mem : e ∈ pairs) :
    ∃ value, (ofList pairs).get? e.1 = some value := by
  have kept : e ∈ pairs.filter fun p => p.1 = e.1 := List.mem_filter.mpr ⟨mem, by simp⟩
  rw [get?_ofList]
  cases last : (pairs.filter fun p => p.1 = e.1).getLast? with
  | none => simp [List.getLast?_eq_none_iff.mp last] at kept
  | some p => exact ⟨p.2, rfl⟩

theorem nodup_of_ascending (name : β → Bytes) {l : List β}
    (h : l.Pairwise fun x y => compare (name x) (name y) = .lt) : (l.map name).Nodup := by
  refine List.pairwise_map.mpr (h.imp fun {x y} lt same => ?_)
  rw [same] at lt
  simp at lt

/-- Lists in strictly ascending order of their names are equal if they have the same members. -/
theorem eq_of_ascending (name : β → Bytes) {a b : List β}
    (ha : a.Pairwise fun x y => compare (name x) (name y) = .lt)
    (hb : b.Pairwise fun x y => compare (name x) (name y) = .lt)
    (same : ∀ x, x ∈ a ↔ x ∈ b) : a = b := by
  have distinct {l : List β} (h : l.Pairwise fun x y => compare (name x) (name y) = .lt) :
      l.Nodup :=
    List.Pairwise.of_map name (fun _ _ different same => different (congrArg name same))
      (nodup_of_ascending name h)
  have perm : a.Perm b := (List.perm_ext_iff_of_nodup (distinct ha) (distinct hb)).mpr same
  refine perm.eq_of_pairwise ?_ ha hb
  intro x y _ _ xy yx
  exact absurd (Std.OrientedCmp.gt_of_lt xy) (by simp [yx])

@[ext]
theorem ext_get? {a b : NameMap α} (h : ∀ key, a.get? key = b.get? key) : a = b := by
  have same : a.entries = b.entries := by
    apply eq_of_ascending Prod.fst a.ascending b.ascending
    rintro ⟨key, value⟩
    rw [← get?_eq_some_iff, ← get?_eq_some_iff, h key]
  cases a
  cases b
  simpa using same

theorem keys_ascending (m : NameMap α) : m.keys.Pairwise fun a b => compare a b = .lt :=
  List.pairwise_map.mpr m.ascending

theorem keys_eq_of_mem_iff {a : NameMap α} {b : NameMap β}
    (h : ∀ key, key ∈ a.keys ↔ key ∈ b.keys) : a.keys = b.keys :=
  eq_of_ascending id a.keys_ascending b.keys_ascending h

end StackLang.NameMap
