import Mathlib.Data.Finset.Basic
import Mathlib.Data.Finset.Lattice.Lemmas
import Mathlib.Data.Finset.Dedup

/-! # Changes to a set, one element after the other

Who keeps a copy of a set is told what to add and what to remove. An addition of what is there, or a
removal of what is not, means that the copy has drifted, and fails here.
-/

namespace FinBit.Lib

variable {α : Type*} [DecidableEq α]

def addAll (s : Finset α) : List α → Option (Finset α)
  | [] => some s
  | a :: l => if a ∈ s then none else addAll (insert a s) l

def removeAll (s : Finset α) : List α → Option (Finset α)
  | [] => some s
  | a :: l => if a ∈ s then removeAll (s.erase a) l else none

variable {s : Finset α} {l : List α}

theorem addAll_eq (once : l.Nodup) (new : ∀ a ∈ l, a ∉ s) : addAll s l = some (s ∪ l.toFinset) := by
  induction l generalizing s with
  | nil => rw [addAll, List.toFinset_nil, Finset.union_empty]
  | cons a l ih =>
    obtain ⟨apart, once⟩ := List.nodup_cons.mp once
    obtain ⟨first, others⟩ := List.forall_mem_cons.mp new
    have later : ∀ b ∈ l, b ∉ insert a s := by
      intro b member inside
      obtain rfl | old := Finset.mem_insert.mp inside
      · exact apart member
      · exact others b member old
    rw [addAll, if_neg first, ih once later, List.toFinset_cons, Finset.insert_union,
      Finset.union_insert]

theorem removeAll_eq (once : l.Nodup) (present : ∀ a ∈ l, a ∈ s) :
    removeAll s l = some (s \ l.toFinset) := by
  induction l generalizing s with
  | nil => rw [removeAll, List.toFinset_nil, Finset.sdiff_empty]
  | cons a l ih =>
    obtain ⟨apart, once⟩ := List.nodup_cons.mp once
    obtain ⟨first, others⟩ := List.forall_mem_cons.mp present
    have later : ∀ b ∈ l, b ∈ s.erase a := fun b member =>
      Finset.mem_erase.mpr ⟨fun same => apart (same ▸ member), others b member⟩
    rw [removeAll, if_pos first, ih once later, List.toFinset_cons, Finset.sdiff_insert,
      Finset.erase_sdiff_comm]

end FinBit.Lib
