import FinBit.Lib.Reader

/-! # Octets as numbers

Octet strings of one length are compared, one octet after the other, as the numbers that they spell,
and the place of the first set bit is the logarithm of the number.
-/

namespace FinBit.Lib

theorem foldl_octets (octets : Bytes) (high : Nat) :
    octets.foldl (fun n octet => 256 * n + octet.toNat) high =
      high * 256 ^ octets.length + beNat octets := by
  rw [beNat]
  induction octets generalizing high with
  | nil => simp
  | cons octet octets ih =>
    rw [List.foldl_cons, List.foldl_cons, ih, ih (256 * 0 + octet.toNat), List.length_cons]
    ring

theorem beNat_cons (octet : UInt8) (octets : Bytes) :
    beNat (octet :: octets) = octet.toNat * 256 ^ octets.length + beNat octets := by
  have folded := foldl_octets octets (256 * 0 + octet.toNat)
  rw [Nat.mul_zero, Nat.zero_add] at folded
  rw [beNat, List.foldl_cons, Nat.mul_zero, Nat.zero_add, folded]

theorem beNat_lt (octets : Bytes) : beNat octets < 256 ^ octets.length := by
  induction octets with
  | nil => exact Nat.one_pos
  | cons octet octets ih =>
    have small : octet.toNat + 1 ≤ 256 := octet.toNat_lt
    have bound := Nat.mul_le_mul_right (256 ^ octets.length) small
    rw [beNat_cons, List.length_cons, Nat.pow_succ]
    rw [Nat.add_mul, Nat.one_mul] at bound
    omega

/-- The first octet decides, and where it is the same the others do. -/
theorem octets_lt_iff {a b n x y : Nat} (left : x < n) (right : y < n) :
    a * n + x < b * n + y ↔ a < b ∨ a = b ∧ x < y := by
  obtain less | rfl | greater := Nat.lt_trichotomy a b
  · have bound := Nat.mul_le_mul_right n less
    rw [Nat.succ_mul] at bound
    exact iff_of_true (by omega) (.inl less)
  · omega
  · have bound := Nat.mul_le_mul_right n greater
    rw [Nat.succ_mul] at bound
    exact iff_of_false (by omega) (by omega)

theorem lt_iff_beNat_lt {a b : Bytes} (same : a.length = b.length) : a < b ↔ beNat a < beNat b := by
  induction a generalizing b with
  | nil =>
    rw [List.eq_nil_of_length_eq_zero same.symm]
    exact iff_of_false (List.not_lt_nil []) (Nat.lt_irrefl _)
  | cons x a ih =>
    cases b with
    | nil => cases same
    | cons y b =>
      have same : a.length = b.length := Nat.succ.inj same
      have within := beNat_lt b
      rw [← same] at within
      rw [List.cons_lt_cons_iff, beNat_cons, beNat_cons, ← same, octets_lt_iff (beNat_lt a) within,
        ih same, UInt8.lt_iff_toNat_lt, UInt8.toNat_inj]

theorem le_iff_beNat_le {a b : Bytes} (same : a.length = b.length) : a ≤ b ↔ beNat a ≤ beNat b := by
  rw [← List.not_lt, lt_iff_beNat_lt same.symm, Nat.not_lt]

theorem beNat_inj {a b : Bytes} (same : a.length = b.length) : beNat a = beNat b ↔ a = b := by
  refine ⟨fun equal => ?_, congrArg beNat⟩
  exact List.le_antisymm ((le_iff_beNat_le same).mpr (Nat.le_of_eq equal))
    ((le_iff_beNat_le same.symm).mpr (Nat.le_of_eq equal.symm))

/-- The first set bit, searched from the top. -/
theorem find?_testBit {n k : Nat} (positive : n ≠ 0) (small : n < 2 ^ k) :
    (List.range k).reverse.find? n.testBit = some n.log2 := by
  induction k with
  | zero => omega
  | succ k ih =>
    rw [List.range_succ, List.reverse_append, List.reverse_singleton, List.singleton_append,
      List.find?_cons]
    by_cases top : n.testBit k = true
    · have exact := (Nat.log2_eq_iff positive).mpr ⟨Nat.ge_two_pow_of_testBit top, small⟩
      rw [top, exact]
    · rw [Bool.eq_false_iff.mpr top]
      refine ih (Nat.lt_of_not_le fun large => top ?_)
      exact Nat.testBit_of_two_pow_le_and_two_pow_add_one_gt large small

/-- The bits of a number behind an octet are counted on. -/
theorem log2_octet {octet n x : Nat} (positive : octet ≠ 0) (small : x < 256 ^ n) :
    (octet * 256 ^ n + x).log2 = 8 * n + octet.log2 := by
  have size : 256 ^ n = 2 ^ (8 * n) := by rw [Nat.pow_mul]
  obtain ⟨low, high⟩ := (Nat.log2_eq_iff positive).mp rfl
  have scaled := Nat.mul_le_mul_right (256 ^ n) low
  have scaled' := Nat.mul_le_mul_right (256 ^ n) high
  have nonzero : octet * 256 ^ n + x ≠ 0 := by
    have := Nat.mul_pos (Nat.pos_of_ne_zero positive) (Nat.pow_pos (n := n) (by omega : 0 < 256))
    omega
  rw [Nat.log2_eq_iff nonzero, Nat.add_assoc, Nat.pow_add, Nat.pow_add 2 (8 * n), ← size]
  rw [Nat.succ_mul] at scaled'
  rw [Nat.mul_comm (256 ^ n), Nat.mul_comm (256 ^ n)]
  omega

end FinBit.Lib
