import StackLang.Proofs.NameLookup

namespace StackLang.NameMap

/-- A queue that holds the names `held` gives them up in the order `out`. All that is known of the
queue is that it gives up a least name and keeps the others. -/
inductive Drained : (held out : List Bytes) → Prop
  | empty : Drained [] []
  | pop {held rest out : List Bytes} {name : Bytes} : held.Perm (name :: rest) →
      (∀ other ∈ held, compare name other ≠ .gt) → Drained rest out → Drained held (name :: out)

namespace Drained

variable {held out : List Bytes}

theorem perm (h : Drained held out) : out.Perm held := by
  induction h with
  | empty => exact .nil
  | pop taken _ _ ih => exact (ih.cons _).trans taken.symm

theorem sorted (h : Drained held out) : out.Pairwise fun a b => compare a b ≠ .gt := by
  induction h with
  | empty => exact .nil
  | pop taken least others ih =>
    refine List.pairwise_cons.mpr ⟨fun b hb => ?_, ih⟩
    have kept := others.perm.mem_iff.mp hb
    exact least b (taken.mem_iff.mpr (List.mem_cons_of_mem _ kept))

theorem of_ascending (ascending : out.Pairwise fun a b => compare a b = .lt) (h : held.Perm out) :
    Drained held out := by
  induction out generalizing held with
  | nil =>
    obtain rfl := h.eq_nil
    exact .empty
  | cons name rest ih =>
    obtain ⟨first, others⟩ := List.pairwise_cons.mp ascending
    refine .pop h (fun other mem => ?_) (ih others (.refl _))
    rcases List.mem_cons.mp (h.mem_iff.mp mem) with rfl | mem
    · simp
    · simp [first other mem]

end Drained

/-- A queue that was filled with the names of a map, in any order, gives them up in the order of the
map and in no other. -/
theorem drained_iff {α : Type} {m : NameMap α} {held out : List Bytes} (filled : held.Perm m.keys) :
    Drained held out ↔ out = m.keys := by
  constructor
  · intro h
    have ascending : m.keys.Pairwise fun a b => compare a b ≠ .gt :=
      m.keys_ascending.imp fun lt => by simp [lt]
    refine (h.perm.trans filled).eq_of_pairwise ?_ h.sorted ascending
    intro a b _ _ notAbove notBelow
    cases order : compare a b with
    | lt => exact absurd (Std.OrientedCmp.gt_of_lt order) notBelow
    | eq => exact Std.LawfulEqCmp.eq_of_compare order
    | gt => exact absurd order notAbove
  · rintro rfl
    exact .of_ascending m.keys_ascending filled

end StackLang.NameMap
