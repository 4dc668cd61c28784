import Mathlib.Data.UInt
import Mathlib.Tactic.Common

/-! # Unsigned numbers in signed columns

A 64-bit number without a sign, bound as a signed one: from 2^63 on it is negative, and it is ordered
before those below.
-/

namespace FinBit.Lib

theorem toInt_toInt64 (x : UInt64) :
    x.toInt64.toInt = if x.toNat < 2 ^ 63 then (x.toNat : Int) else x.toNat - 2 ^ 64 := by
  have small := x.toNat_lt
  rw [← Int64.toInt_toBitVec, UInt64.toBitVec_toInt64, BitVec.toInt_eq_toNat_cond,
    UInt64.toNat_toBitVec]
  split <;> split <;> omega

/-- What a signed column shows as negative. -/
def Negative (x : UInt64) : Prop := 2 ^ 63 ≤ x.toNat

instance : DecidablePred Negative := fun x => inferInstanceAs (Decidable (2 ^ 63 ≤ x.toNat))

theorem toInt64_lt_iff_negative (x y : UInt64) :
    x.toInt64 < y.toInt64 ↔ if Negative x ↔ Negative y then x < y else Negative x := by
  have small := x.toNat_lt
  have small' := y.toNat_lt
  rw [Int64.lt_iff_toInt_lt, toInt_toInt64, toInt_toInt64]
  simp only [Negative, UInt64.lt_iff_toNat_lt]
  split <;> split <;> split <;> omega

theorem toInt64_le_iff_negative (x y : UInt64) :
    x.toInt64 ≤ y.toInt64 ↔ if Negative x ↔ Negative y then x ≤ y else Negative x := by
  have small := x.toNat_lt
  have small' := y.toNat_lt
  rw [Int64.le_iff_toInt_le, toInt_toInt64, toInt_toInt64]
  simp only [Negative, UInt64.le_iff_toNat_le]
  split <;> split <;> split <;> omega

/-- Such a number is positive, and not behind another one. -/
theorem toInt64_pos_le_iff (x y : UInt64) :
    (0 < x.toInt64 ∧ x.toInt64 ≤ y.toInt64) ↔
      0 < x.toNat ∧ x.toNat ≤ y.toNat ∧ y.toNat < 2 ^ 63 := by
  have small := x.toNat_lt
  have small' := y.toNat_lt
  have zero : (0 : Int64).toInt = 0 := rfl
  rw [Int64.lt_iff_toInt_lt, Int64.le_iff_toInt_le, toInt_toInt64, toInt_toInt64, zero]
  split <;> split <;> omega

end FinBit.Lib
