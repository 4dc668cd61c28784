import Mathlib.Data.List.Basic
import Mathlib.Data.List.Nodup
import Mathlib.Order.Lattice

/-! # The front of a sorted list

What a query with `ORDER BY … LIMIT 1` returns: a row that no other row precedes, and of
several such rows the one that was there first. Where the elements have different keys, the front of
the sorted list holds those with the least keys, in strictly rising order. A comparison function need
only be a strict weak order.
-/

namespace FinBit.Lib

variable {α : Type} {le : α → α → Bool} {l : List α}

theorem exists_head_mergeSort (le : α → α → Bool) {a : α} (member : a ∈ l) :
    ∃ h, (l.mergeSort le).head? = some h := by
  cases sorted : l.mergeSort le with
  | nil =>
    have listed := (List.mergeSort_perm l le).mem_iff.mpr member
    rw [sorted] at listed
    cases listed
  | cons h rest => exact ⟨h, rfl⟩

section

variable {κ : Type} [LinearOrder κ]

/-- At most `limit` elements of the list with the least keys, in rising order. -/
structure Nearest (key : α → κ) (l : List α) (limit : Nat) (chosen : List α) : Prop where
  listed : ∀ a ∈ chosen, a ∈ l
  length : chosen.length = min limit l.length
  rising : chosen.Pairwise fun a b => key a < key b
  omitted : ∀ a ∈ chosen, ∀ b ∈ l, b ∉ chosen → key a < key b

/-- Sorting by keys that are different. -/
theorem rising_mergeSort {key : α → κ} (distinct : l.Pairwise fun a b => key a ≠ key b) :
    (l.mergeSort fun a b => decide (key a ≤ key b)).Pairwise fun a b => key a < key b := by
  have perm := List.mergeSort_perm l fun a b => decide (key a ≤ key b)
  have apart := (perm.pairwise_iff fun differ => Ne.symm differ).mpr distinct
  have ordered : (l.mergeSort fun a b => decide (key a ≤ key b)).Pairwise fun a b =>
      decide (key a ≤ key b) = true := by
    apply List.pairwise_mergeSort
    · intro a b c first second
      exact decide_eq_true (le_trans (of_decide_eq_true first) (of_decide_eq_true second))
    · intro a b
      simpa using le_total (key a) (key b)
  exact (ordered.and apart).imp fun both => lt_of_le_of_ne (of_decide_eq_true both.1) both.2

theorem nearest_take_mergeSort {key : α → κ} (distinct : l.Pairwise fun a b => key a ≠ key b)
    (limit : Nat) :
    Nearest key l limit ((l.mergeSort fun a b => decide (key a ≤ key b)).take limit) := by
  have rising := rising_mergeSort distinct
  generalize sorted : (l.mergeSort fun a b => decide (key a ≤ key b)) = s at rising
  have perm : s.Perm l := sorted ▸ List.mergeSort_perm ..
  have split := rising
  rw [← List.take_append_drop limit s, List.pairwise_append] at split
  obtain ⟨front, -, before⟩ := split
  constructor
  · exact fun a member => perm.mem_iff.mp (List.mem_of_mem_take member)
  · rw [List.length_take, perm.length_eq]
  · exact front
  · intro a chosen b member left
    have either := perm.mem_iff.mpr member
    rw [← List.take_append_drop limit s, List.mem_append] at either
    exact before a chosen b (either.resolve_left left)

end

/-- Sorting by a strict weak order: nothing is less than what comes before it. -/
theorem pairwise_mergeSort_not {less : α → α → Bool}
    (weak : ∀ a b c, less b a = false → less c b = false → less c a = false)
    (asymm : ∀ a b, less b a = false ∨ less a b = false) (l : List α) :
    (l.mergeSort fun a b => !less b a).Pairwise fun a b => less b a = false := by
  have sorted : (l.mergeSort fun a b => !less b a).Pairwise fun a b => (!less b a) = true := by
    apply List.pairwise_mergeSort
    · intro a b c first second
      rw [Bool.not_eq_true'] at first second ⊢
      exact weak a b c first second
    · intro a b
      rw [Bool.or_eq_true, Bool.not_eq_true', Bool.not_eq_true']
      exact asymm a b
  exact sorted.imp (Bool.not_eq_true' _).mp

/-- Where all elements of one kind come first. -/
theorem filter_append_filter_not (p : α → Bool)
    (first : l.Pairwise fun a b => p b = true → p a = true) :
    (l.filter p ++ l.filter fun a => !p a) = l := by
  induction l with
  | nil => rfl
  | cons a l ih =>
    obtain ⟨before, rest⟩ := List.pairwise_cons.mp first
    by_cases kind : p a = true
    · rw [List.filter_cons_of_pos kind, List.filter_cons_of_neg (by simp [kind]), List.cons_append,
        ih rest]
    · have none_later : ∀ b ∈ l, ¬p b = true := fun b later holds => kind (before b later holds)
      rw [List.filter_cons_of_neg kind, List.filter_cons_of_pos (by simp [kind]),
        List.filter_eq_nil_iff.mpr none_later, List.nil_append, List.filter_eq_self.mpr]
      intro b later
      simpa using none_later b later

variable (trans : ∀ a b c, le a b → le b c → le a c) (total : ∀ a b, le a b || le b a)

include trans total

/-- The head precedes every element. -/
theorem head_mergeSort_le {h : α} (first : (l.mergeSort le).head? = some h) :
    h ∈ l ∧ ∀ a ∈ l, le h a = true := by
  have ordered := List.pairwise_mergeSort trans total l
  cases sorted : l.mergeSort le with
  | nil =>
    rw [sorted] at first
    cases first
  | cons h' rest =>
    rw [sorted] at first ordered
    obtain rfl : h' = h := by simpa using first
    have same (a : α) : a ∈ l ↔ a ∈ h' :: rest := by rw [← sorted, List.mem_mergeSort]
    refine ⟨(same h').mpr List.mem_cons_self, ?_⟩
    intro a member
    rcases List.mem_cons.mp ((same a).mp member) with rfl | later
    · simpa using total a a
    · exact (List.pairwise_cons.mp ordered).1 a later

/-- Of two elements that precede each other, the later one is not the head. -/
theorem head_mergeSort_ne (distinct : l.Nodup) {a b : α} (before : [a, b].Sublist l)
    (tied : le a b = true) : (l.mergeSort le).head? ≠ some b := by
  intro first
  have kept := List.pair_sublist_mergeSort trans total tied before
  have once : (l.mergeSort le).Nodup := (List.mergeSort_perm l le).nodup_iff.mpr distinct
  cases sorted : l.mergeSort le with
  | nil =>
    rw [sorted] at first
    cases first
  | cons h rest =>
    rw [sorted] at first kept once
    obtain rfl : h = b := by simpa using first
    have apart : h ∉ rest := (List.nodup_cons.mp once).1
    cases kept with
    | cons _ inner => exact apart (inner.subset (by simp))
    | cons_cons _ inner => exact apart (inner.subset (by simp))

end FinBit.Lib
