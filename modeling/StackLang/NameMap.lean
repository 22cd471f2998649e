import StackLang.Bytes

namespace StackLang

structure NameMap (α : Type) where
  entries : List (Bytes × α)
  ascending : entries.Pairwise fun a b => compare a.1 b.1 = .lt

namespace NameMap

variable {α : Type}

def empty : NameMap α := ⟨[], .nil⟩

instance : EmptyCollection (NameMap α) := ⟨empty⟩

instance : Inhabited (NameMap α) := ⟨empty⟩

/-- The entries with `key` bound to `value`, at its place in the order. -/
def insertEntry (key : Bytes) (value : α) : List (Bytes × α) → List (Bytes × α)
  | [] => [(key, value)]
  | e :: rest =>
    match compare key e.1 with
    | .lt => (key, value) :: e :: rest
    | .eq => (key, value) :: rest
    | .gt => e :: insertEntry key value rest

theorem mem_insertEntry {key : Bytes} {value : α} {l : List (Bytes × α)} {e : Bytes × α}
    (h : e ∈ insertEntry key value l) : e = (key, value) ∨ e ∈ l := by
  induction l with
  | nil => simpa [insertEntry] using h
  | cons a rest ih =>
    unfold insertEntry at h
    split at h
    next => simpa using h
    next =>
      rcases List.mem_cons.mp h with h | h
      · exact .inl h
      · exact .inr (List.mem_cons_of_mem _ h)
    next =>
      rcases List.mem_cons.mp h with h | h
      · exact .inr (h ▸ List.mem_cons_self)
      · exact (ih h).imp id (List.mem_cons_of_mem _)

theorem insertEntry_ascending {key : Bytes} {value : α} {l : List (Bytes × α)}
    (h : l.Pairwise fun a b => compare a.1 b.1 = .lt) :
    (insertEntry key value l).Pairwise fun a b => compare a.1 b.1 = .lt := by
  induction l with
  | nil => simp [insertEntry]
  | cons a rest ih =>
    obtain ⟨first, others⟩ := List.pairwise_cons.mp h
    unfold insertEntry
    split
    next lt =>
      refine List.pairwise_cons.mpr ⟨fun b hb => ?_, h⟩
      rcases List.mem_cons.mp hb with rfl | hb
      · exact lt
      · exact Std.TransCmp.lt_trans lt (first b hb)
    next eq =>
      refine List.pairwise_cons.mpr ⟨fun b hb => ?_, others⟩
      have same : key = a.1 := Std.LawfulEqCmp.eq_of_compare eq
      exact same ▸ first b hb
    next gt =>
      refine List.pairwise_cons.mpr ⟨fun b hb => ?_, ih others⟩
      rcases mem_insertEntry hb with rfl | hb
      · exact Std.OrientedCmp.lt_of_gt gt
      · exact first b hb

def insert (m : NameMap α) (key : Bytes) (value : α) : NameMap α :=
  ⟨insertEntry key value m.entries, insertEntry_ascending m.ascending⟩

/-- The value of `key` among ascending entries. -/
def find (key : Bytes) : List (Bytes × α) → Option α
  | [] => none
  | e :: rest =>
    match compare key e.1 with
    | .lt => none
    | .eq => some e.2
    | .gt => find key rest

def get? (m : NameMap α) (key : Bytes) : Option α :=
  find key m.entries

def contains (m : NameMap α) (key : Bytes) : Bool :=
  (m.get? key).isSome

def keys (m : NameMap α) : List Bytes :=
  m.entries.map (·.1)

def size (m : NameMap α) : Nat :=
  m.entries.length

/-- A later pair replaces an earlier one of the same name. -/
def ofList (pairs : List (Bytes × α)) : NameMap α :=
  pairs.foldl (fun m e => m.insert e.1 e.2) empty

end NameMap

end StackLang
