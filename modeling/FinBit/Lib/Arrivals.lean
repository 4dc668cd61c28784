import Mathlib.Data.Finset.Card
import Mathlib.Order.Interval.Finset.Nat

/-! # Arrivals

Numbered messages that arrive in any order, with gaps and repetitions. `reach` is the
number after the highest that has arrived; `missing` are the numbers below it that have
not. An arrival below the reach fills a gap or repeats something, one beyond it opens a
gap in front of itself.
-/

namespace FinBit.Lib

/-- The first number beyond all arrivals. -/
def reach (arrived : List Nat) : Nat := arrived.foldl (fun n i => max n (i + 1)) 0

/-- The gaps below the reach. -/
def missing (arrived : List Nat) : Finset Nat :=
  (Finset.range (reach arrived)).filter (· ∉ arrived)

@[simp] theorem reach_append_singleton (arrived : List Nat) (i : Nat) :
    reach (arrived ++ [i]) = max (reach arrived) (i + 1) := by
  simp [reach]

theorem reach_le_append (before after : List Nat) : reach before ≤ reach (before ++ after) := by
  induction after using List.reverseRecOn with
  | nil => simp
  | append_singleton rest i ih =>
    rw [← List.append_assoc, reach_append_singleton]
    exact ih.trans (le_max_left _ _)

theorem lt_reach_of_mem {arrived : List Nat} {i : Nat} (member : i ∈ arrived) :
    i < reach arrived := by
  induction arrived using List.reverseRecOn with
  | nil => simp at member
  | append_singleton before j ih =>
    rw [reach_append_singleton]
    rcases List.mem_append.mp member with earlier | last
    · exact lt_of_lt_of_le (ih earlier) (le_max_left _ _)
    · rw [List.mem_singleton.mp last]
      exact lt_of_lt_of_le (Nat.lt_succ_self j) (le_max_right _ _)

theorem mem_missing {arrived : List Nat} {i : Nat} :
    i ∈ missing arrived ↔ i < reach arrived ∧ i ∉ arrived := by
  simp [missing]

theorem card_missing_le (arrived : List Nat) : (missing arrived).card ≤ reach arrived :=
  (Finset.card_filter_le _ _).trans_eq (Finset.card_range _)

/-- An arrival below the reach fills its gap, if it has one. -/
theorem missing_append_of_lt {arrived : List Nat} {i : Nat} (below : i < reach arrived) :
    missing (arrived ++ [i]) = (missing arrived).erase i := by
  ext j
  simp only [mem_missing, reach_append_singleton, List.mem_append, List.mem_singleton,
    Finset.mem_erase]
  have same : max (reach arrived) (i + 1) = reach arrived := max_eq_left below
  rw [same]
  tauto

/-- An arrival beyond the reach opens the gap in front of itself. -/
theorem missing_append_of_le {arrived : List Nat} {i : Nat} (beyond : reach arrived ≤ i) :
    missing (arrived ++ [i]) = missing arrived ∪ Finset.Ico (reach arrived) i := by
  ext j
  have highest : max (reach arrived) (i + 1) = i + 1 := max_eq_right (by omega)
  simp only [mem_missing, reach_append_singleton, highest, List.mem_append, List.mem_singleton,
    Finset.mem_union, Finset.mem_Ico, not_or]
  constructor
  · rintro ⟨low, absent, other⟩
    by_cases old : j < reach arrived
    · exact .inl ⟨old, absent⟩
    · exact .inr ⟨by omega, by omega⟩
  · rintro (⟨old, absent⟩ | ⟨new, before⟩)
    · exact ⟨by omega, absent, by omega⟩
    · exact ⟨by omega, fun member => by have := lt_reach_of_mem member; omega, by omega⟩

theorem card_missing_append_of_le {arrived : List Nat} {i : Nat} (beyond : reach arrived ≤ i) :
    (missing (arrived ++ [i])).card = (missing arrived).card + (i - reach arrived) := by
  have apart : Disjoint (missing arrived) (Finset.Ico (reach arrived) i) := by
    rw [Finset.disjoint_left]
    intro j old new
    have := (mem_missing.mp old).1
    have := (Finset.mem_Ico.mp new).1
    omega
  rw [missing_append_of_le beyond, Finset.card_union_of_disjoint apart, Nat.card_Ico]

end FinBit.Lib
