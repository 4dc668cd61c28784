import Mathlib.Algebra.Field.MinimalAxioms
import Mathlib.Algebra.Group.Hom.Defs
import Mathlib.Logic.Function.Iterate

/-! # Fields given by tables of logarithms

A finite field can be computed with by two tables, the powers of an element that generates what is
not zero, and their exponents. All that such tables have to satisfy is that the step from one power
to the next is additive and comes back to where it began: multiplication by a power is then that
step again and again, and so distributes over addition.
-/

namespace FinBit.Lib

/-- Powers and exponents over an additive group. -/
structure LogTables (K : Type) [AddCommGroup K] where
  step : K →+ K
  order : ℕ
  exp : ℕ → K
  log : K → ℕ
  order_pos : 0 < order
  exp_zero_ne : exp 0 ≠ 0
  exp_succ : ∀ i, i + 1 < order → exp (i + 1) = step (exp i)
  step_last : step (exp (order - 1)) = exp 0
  log_lt : ∀ x, x ≠ 0 → log x < order
  exp_log : ∀ x, x ≠ 0 → exp (log x) = x
  log_exp : ∀ i, i < order → log (exp i) = i

namespace LogTables

variable {K : Type} [AddCommGroup K] [DecidableEq K] (T : LogTables K)

/-- The product of what is not zero has the sum of the exponents. -/
def mul (a b : K) : K :=
  if a = 0 ∨ b = 0 then 0 else T.exp ((T.log a + T.log b) % T.order)

/-- The inverse has the opposite exponent. -/
def inv (a : K) : K :=
  if a = 0 then 0 else T.exp ((T.order - T.log a) % T.order)

variable {T}

omit [DecidableEq K] in
/-- Powers are what the steps from the first of them lead to. -/
theorem exp_mod (i : ℕ) : T.exp (i % T.order) = T.step^[i] (T.exp 0) := by
  induction i with
  | zero => rw [Nat.zero_mod, Function.iterate_zero_apply]
  | succ i ih =>
    rw [Function.iterate_succ_apply', ← ih, ← Nat.mod_add_mod]
    have small : i % T.order < T.order := Nat.mod_lt i T.order_pos
    -- the next exponent is one more, or back at the beginning
    by_cases last : i % T.order + 1 = T.order
    · have here : i % T.order = T.order - 1 := by omega
      rw [last, Nat.mod_self, here, T.step_last]
    · rw [Nat.mod_eq_of_lt (by omega), T.exp_succ _ (by omega)]

omit [DecidableEq K] in
theorem exp_add_mod (i j : ℕ) : T.exp ((i + j) % T.order) = T.step^[i] (T.exp (j % T.order)) := by
  rw [exp_mod, exp_mod, Function.iterate_add_apply]

omit [DecidableEq K] in
theorem exp_ne_zero {i : ℕ} (small : i < T.order) : T.exp i ≠ 0 := by
  intro zero
  -- from zero there is no way back to the first power
  have back : T.exp 0 = T.step^[T.order - i] (T.exp (i % T.order)) := by
    rw [← exp_add_mod, Nat.sub_add_cancel (Nat.le_of_lt small), Nat.mod_self]
  rw [Nat.mod_eq_of_lt small, zero, iterate_map_zero] at back
  exact T.exp_zero_ne back

theorem mul_of_ne {a b : K} (left : a ≠ 0) (right : b ≠ 0) :
    T.mul a b = T.exp ((T.log a + T.log b) % T.order) :=
  if_neg (not_or.mpr ⟨left, right⟩)

theorem zero_mul (b : K) : T.mul 0 b = 0 :=
  if_pos (.inl rfl)

theorem mul_zero (a : K) : T.mul a 0 = 0 :=
  if_pos (.inr rfl)

/-- To multiply is to step as often as the exponent says. -/
theorem mul_eq_step {a : K} (nonzero : a ≠ 0) (b : K) : T.mul a b = T.step^[T.log a] b := by
  by_cases zero : b = 0
  · rw [zero, mul_zero, iterate_map_zero]
  · rw [mul_of_ne nonzero zero, exp_add_mod, Nat.mod_eq_of_lt (T.log_lt b zero), T.exp_log b zero]

theorem mul_ne_zero {a b : K} (left : a ≠ 0) (right : b ≠ 0) : T.mul a b ≠ 0 := by
  rw [mul_of_ne left right]
  exact exp_ne_zero (Nat.mod_lt _ T.order_pos)

theorem log_mul {a b : K} (left : a ≠ 0) (right : b ≠ 0) :
    T.log (T.mul a b) = (T.log a + T.log b) % T.order := by
  rw [mul_of_ne left right, T.log_exp _ (Nat.mod_lt _ T.order_pos)]

theorem mul_comm (a b : K) : T.mul a b = T.mul b a := by
  by_cases left : a = 0
  · rw [left, zero_mul, mul_zero]
  by_cases right : b = 0
  · rw [right, zero_mul, mul_zero]
  · rw [mul_of_ne left right, mul_of_ne right left, Nat.add_comm]

theorem mul_add (a b c : K) : T.mul a (b + c) = T.mul a b + T.mul a c := by
  by_cases nonzero : a = 0
  · rw [nonzero, zero_mul, zero_mul, zero_mul, add_zero]
  · rw [mul_eq_step nonzero, mul_eq_step nonzero, mul_eq_step nonzero, iterate_map_add]

theorem mul_assoc (a b c : K) : T.mul (T.mul a b) c = T.mul a (T.mul b c) := by
  by_cases left : a = 0
  · rw [left, zero_mul, zero_mul, zero_mul]
  by_cases middle : b = 0
  · rw [middle, mul_zero, zero_mul, mul_zero]
  by_cases right : c = 0
  · rw [right, mul_zero, mul_zero, mul_zero]
  rw [mul_of_ne (mul_ne_zero left middle) right, mul_of_ne left (mul_ne_zero middle right),
    log_mul left middle, log_mul middle right, Nat.mod_add_mod, Nat.add_mod_mod, Nat.add_assoc]

theorem one_mul (a : K) : T.mul (T.exp 0) a = a := by
  rw [mul_eq_step T.exp_zero_ne, T.log_exp 0 T.order_pos, Function.iterate_zero_apply]

theorem mul_inv_cancel {a : K} (nonzero : a ≠ 0) : T.mul a (T.inv a) = T.exp 0 := by
  have small := T.log_lt a nonzero
  rw [mul_eq_step nonzero, inv, if_neg nonzero, ← Nat.mod_mod, ← exp_add_mod, Nat.add_mod_mod,
    Nat.add_sub_of_le (Nat.le_of_lt small), Nat.mod_self]

variable (T)

/-- The field that the tables are of. -/
abbrev field : Field K :=
  letI : Mul K := ⟨T.mul⟩
  letI : One K := ⟨T.exp 0⟩
  letI : Inv K := ⟨T.inv⟩
  .ofMinimalAxioms K add_assoc zero_add neg_add_cancel mul_assoc mul_comm one_mul
    (fun _ nonzero => mul_inv_cancel nonzero) (if_pos rfl) mul_add ⟨T.exp 0, 0, T.exp_zero_ne⟩

end LogTables

end FinBit.Lib
