import Mathlib.Data.Multiset.DershowitzManna
import Mathlib.Data.Multiset.Filter
import Mathlib.Order.WellFounded

/-! # Descent

A quantity that stays or goes down at every step of an endless run stays for ever after some
step, if it cannot go down for ever. Multisets of things that are each replaced by smaller
ones are such a quantity.
-/

namespace FinBit.Lib

/-- From some step on, nothing goes down. -/
theorem eventually_still {α : Type*} {lower : α → α → Prop} (wf : WellFounded lower)
    (value : Nat → α) (start : Nat)
    (descends : ∀ k, start ≤ k → value (k + 1) = value k ∨ lower (value (k + 1)) (value k)) :
    ∃ last, start ≤ last ∧ ∀ k, last ≤ k → ¬lower (value (k + 1)) (value k) := by
  obtain ⟨lowest, ⟨last, late, rfl⟩, least⟩ :=
    wf.has_min (value '' { k | start ≤ k }) ⟨value start, start, Nat.le_refl start, rfl⟩
  have stays (k : Nat) (after : last ≤ k) : value k = value last := by
    induction k, after using Nat.le_induction with
    | base => rfl
    | succ k after ih =>
      have begun : start ≤ k := Nat.le_trans late after
      rcases descends k begun with same | down
      · exact same.trans ih
      · rw [ih] at down
        exact absurd down (least _ ⟨k + 1, Nat.le_succ_of_le begun, rfl⟩)
  refine ⟨last, late, fun k after down => ?_⟩
  rw [stays k after] at down
  exact least _ ⟨k + 1, Nat.le_succ_of_le (Nat.le_trans late after), rfl⟩ down

section Multisets

variable {β : Type*} [Preorder β]

/-- One is replaced by smaller ones. -/
theorem descent_replace {rest new : Multiset β} {old : β} (smaller : ∀ x ∈ new, x < old) :
    (rest + new).IsDershowitzMannaLT (old ::ₘ rest) := by
  refine ⟨rest, new, {old}, Multiset.singleton_ne_zero old, rfl, ?_, ?_⟩
  · rw [add_comm, Multiset.singleton_add]
  · intro x member
    exact ⟨old, Multiset.mem_singleton_self old, smaller x member⟩

/-- Some are left out. -/
theorem descent_of_le {less more : Multiset β} (le : less ≤ more) :
    less = more ∨ less.IsDershowitzMannaLT more := by
  obtain ⟨lost, rfl⟩ := Multiset.le_iff_exists_add.mp le
  by_cases none : lost = 0
  · exact .inl (by rw [none, add_zero])
  · exact .inr ⟨less, 0, lost, none, (add_zero less).symm, rfl, by simp⟩

end Multisets

end FinBit.Lib
