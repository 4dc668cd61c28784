import FinBit.Crypto.Ratchet

/-! # The cache of skipped keys

As long as the cache stays below its bound, skipping a stretch of a chain adds the
keys of that stretch and removes nothing. The bound is asked of the cache at the
end only: with fresh indices it never shrinks on the way.
-/

namespace FinBit.Crypto.Ratchet

open FinBit.Lib Std

variable {K : Type} (P : RatchetCrypto K)

/-- Skipping over a fresh index does not shrink the cache, and below the bound it
only inserts. -/
theorem skipOne_fresh {s : Ratchet K} (fresh : s.skipped[(s.dhrPub, s.nr)]? = none) :
    s.skipped.size ≤ (skipOne P s).skipped.size ∧
      ((skipOne P s).skipped.size < kMaxSkip →
        (skipOne P s).skipped =
          s.skipped.insertIfNew (s.dhrPub, s.nr) (P.kdfCk.messageKey s.ckr)) := by
  have absent : (s.dhrPub, s.nr) ∉ s.skipped := by
    rw [ExtTreeMap.mem_iff_isSome_getElem?, fresh]
    simp
  by_cases full : s.skipped.size ≥ kMaxSkip
  · -- the least entry makes room, and the size stays the same
    have not_empty : s.skipped ≠ ∅ := by
      intro empty
      simp [empty] at full
    obtain ⟨least, least_eq⟩ := Option.isSome_iff_exists.mp
      (ExtTreeMap.isSome_minKey?_iff_ne_empty.mpr not_empty)
    have member : s.skipped.contains least = true := ExtTreeMap.contains_minKey? least_eq
    have still_absent : (s.dhrPub, s.nr) ∉ s.skipped.erase least := by
      intro inside
      exact absent (ExtTreeMap.mem_of_mem_erase inside)
    have size : (skipOne P s).skipped.size = s.skipped.size := by
      simp only [skipOne, full, if_true, least_eq, ExtTreeMap.size_insertIfNew, still_absent,
        if_false, ExtTreeMap.size_erase, member]
      have : kMaxSkip = 1000 := rfl
      omega
    exact ⟨by omega, by omega⟩
  · have inserted : (skipOne P s).skipped =
        s.skipped.insertIfNew (s.dhrPub, s.nr) (P.kdfCk.messageKey s.ckr) := by
      simp only [skipOne, full, if_false]
    refine ⟨?_, fun _ => inserted⟩
    rw [inserted, ExtTreeMap.size_insertIfNew, if_neg absent]
    omega

/-- The index at a position of the chain, where the counter does not wrap. -/
theorem index_eq_iff {s : Ratchet K} {h : Bytes} {n : UInt32} {i : Nat}
    (small : s.nr.toNat + i < 2 ^ 32) :
    (s.dhrPub, s.nr + UInt32.ofNat i) = (h, n) ↔ h = s.dhrPub ∧ n.toNat = s.nr.toNat + i := by
  have count : (s.nr + UInt32.ofNat i).toNat = s.nr.toNat + i := by
    rw [UInt32.toNat_add, UInt32.toNat_ofNat']
    have := s.nr.toNat_lt
    omega
  rw [Prod.mk.injEq, ← UInt32.toNat_inj, count]
  constructor
  all_goals
    rintro ⟨rfl, number⟩
    exact ⟨rfl, number.symm⟩

section Stretch

variable {s : Ratchet K} {k : Nat} (small : s.nr.toNat + k ≤ 2 ^ 32)
  (fresh : ∀ n : UInt32, s.nr.toNat ≤ n.toNat → s.skipped[(s.dhrPub, n)]? = none)

include small fresh

private theorem skipOne_iterate_next_fresh {i : Nat} (less : i < k) :
    ((skipOne P)^[i] s).skipped[(((skipOne P)^[i] s).dhrPub, ((skipOne P)^[i] s).nr)]? = none := by
  rw [skipOne_iterate_dhrPub, skipOne_iterate_nr]
  apply skipOne_iterate_skipped
  · apply fresh
    rw [((index_eq_iff (by omega)).mp rfl).2]
    omega
  · intro j before
    rw [Ne, index_eq_iff (by omega), ((index_eq_iff (s := s) (i := i) (by omega)).mp rfl).2]
    omega

theorem size_le_skipOne_iterate : s.skipped.size ≤ ((skipOne P)^[k] s).skipped.size := by
  induction k with
  | zero => exact Nat.le_refl _
  | succ k ih =>
    have before := ih (by omega)
    have step := (skipOne_fresh P (skipOne_iterate_next_fresh P small fresh (Nat.lt_succ_self k))).1
    rw [Function.iterate_succ_apply']
    omega

/-- What is in the cache after a stretch: what was there, and the stretch. -/
theorem skipOne_iterate_lookup (room : ((skipOne P)^[k] s).skipped.size < kMaxSkip) (h : Bytes)
    (n : UInt32) (key : K) :
    ((skipOne P)^[k] s).skipped[(h, n)]? = some key ↔
      s.skipped[(h, n)]? = some key ∨
        h = s.dhrPub ∧ s.nr.toNat ≤ n.toNat ∧ n.toNat < s.nr.toNat + k ∧
          key = P.kdfCk.messageKey (P.kdfCk.nextKey^[n.toNat - s.nr.toNat] s.ckr) := by
  induction k with
  | zero =>
    constructor
    · exact .inl
    · rintro (cached | ⟨-, low, high, -⟩)
      · exact cached
      · omega
  | succ k ih =>
    obtain ⟨grows, inserts⟩ :=
      skipOne_fresh P (skipOne_iterate_next_fresh P small fresh (Nat.lt_succ_self k))
    rw [Function.iterate_succ_apply'] at room ⊢
    have next_free := skipOne_iterate_next_fresh P small fresh (Nat.lt_succ_self k)
    have before := ih (by omega) (by omega)
    rw [inserts room, ExtTreeMap.getElem?_insertIfNew]
    rw [skipOne_iterate_dhrPub, skipOne_iterate_nr] at next_free
    have absent : (s.dhrPub, s.nr + UInt32.ofNat k) ∉ ((skipOne P)^[k] s).skipped := by
      rw [ExtTreeMap.mem_iff_isSome_getElem?, next_free]
      simp
    simp only [LawfulEqCmp.compare_eq_iff_eq, skipOne_iterate_dhrPub, skipOne_iterate_nr,
      skipOne_iterate_ckr, absent, not_false_iff, and_true]
    by_cases here : (s.dhrPub, s.nr + UInt32.ofNat k) = (h, n)
    · -- the index that this pass skips
      rw [if_pos here]
      rw [here] at next_free
      obtain ⟨rfl, number⟩ := (index_eq_iff (by omega)).mp here
      have old : ¬s.skipped[(s.dhrPub, n)]? = some key := by
        rw [fresh n (by omega)]
        simp
      have position : n.toNat - s.nr.toNat = k := by omega
      simp only [Option.some.injEq, old, false_or, true_and, position]
      constructor
      · rintro rfl
        exact ⟨by omega, by omega, rfl⟩
      · rintro ⟨-, -, rfl⟩
        rfl
    · rw [if_neg here, before]
      rw [index_eq_iff (by omega)] at here
      constructor
      · rintro (cached | ⟨rfl, low, high, rfl⟩)
        · exact .inl cached
        · exact .inr ⟨rfl, low, by omega, rfl⟩
      · rintro (cached | ⟨rfl, low, high, rfl⟩)
        · exact .inl cached
        · refine .inr ⟨rfl, low, ?_, rfl⟩
          have : n.toNat ≠ s.nr.toNat + k := fun number => here ⟨rfl, number⟩
          omega

end Stretch

end FinBit.Crypto.Ratchet
