import Mathlib.LinearAlgebra.Lagrange

/-! # Secret sharing over a field

A secret is the value at zero of a polynomial, whose other coefficients are drawn, and a share is its
value elsewhere. As many shares as there are coefficients give the secret back; fewer fit every
secret equally well, because a polynomial that vanishes at their points and not at zero leads from
the draws for one secret to those for another.
-/

namespace FinBit.Lib

open Polynomial

variable {K : Type} [Field K] {m : ℕ}

/-- The share of a secret at a point. -/
def shareAt (secret : K) (coeffs : Fin m → K) (x : K) : K :=
  secret + ∑ k, coeffs k * x ^ (k.val + 1)

/-- Horner's method, with the lowest coefficient first. -/
def horner (coeffs : List K) (x : K) : K :=
  coeffs.foldr (fun c acc => acc * x + c) 0

theorem horner_cons (secret : K) (coeffs : Fin m → K) (x : K) :
    horner (secret :: List.ofFn coeffs) x = shareAt secret coeffs x := by
  induction m generalizing secret with
  | zero => simp [horner, shareAt]
  | succ m ih =>
    have tail := ih (coeffs 0) (fun k => coeffs k.succ)
    rw [List.ofFn_succ]
    change horner (coeffs 0 :: List.ofFn fun k => coeffs k.succ) x * x + secret = _
    rw [tail, shareAt, shareAt, Fin.sum_univ_succ, add_mul, Finset.sum_mul]
    simp only [Fin.val_succ, Fin.val_zero, pow_succ, pow_zero, one_mul, mul_assoc]
    ring

/-! ### Recovery -/

/-- A polynomial that is one at zero and zero at the points. -/
noncomputable def maskPoly (points : Finset K) : K[X] :=
  ∏ x ∈ points, (1 - C x⁻¹ * X)

/-- The coefficients of such a polynomial but for the constant one. -/
noncomputable def mask (m : ℕ) (points : Finset K) (k : Fin m) : K :=
  (maskPoly points).coeff (k.val + 1)

theorem natDegree_maskPoly_le (points : Finset K) : (maskPoly points).natDegree ≤ points.card := by
  have factor (x : K) : (1 - C x⁻¹ * X : K[X]).natDegree ≤ 1 := by
    compute_degree
  have sum := natDegree_prod_le points fun x => (1 - C x⁻¹ * X : K[X])
  refine sum.trans ((Finset.sum_le_sum fun x _ => factor x).trans ?_)
  simp

theorem shareAt_mask {points : Finset K} (nonzero : 0 ∉ points) (few : points.card ≤ m) {x : K}
    (x_mem : x ∈ points) : shareAt 1 (mask m points) x = 0 := by
  have degree : (maskPoly points).natDegree < m + 1 :=
    Nat.lt_succ_of_le ((natDegree_maskPoly_le points).trans few)
  have constant : (maskPoly points).coeff 0 = 1 := by
    rw [coeff_zero_eq_eval_zero, maskPoly, eval_prod]
    exact Finset.prod_eq_one fun x _ => by simp
  have vanishes : (maskPoly points).eval x = 0 := by
    rw [maskPoly, eval_prod]
    refine Finset.prod_eq_zero x_mem ?_
    have x_ne : x ≠ 0 := fun zero => nonzero (zero ▸ x_mem)
    simp [inv_mul_cancel₀ x_ne]
  rw [← vanishes, eval_eq_sum_range' degree, Finset.sum_range_succ', constant, shareAt,
    ← Fin.sum_univ_eq_sum_range (fun k => (maskPoly points).coeff (k + 1) * x ^ (k + 1)) m]
  simp [mask, add_comm]

/-- What is added to the draws for a secret to get draws for another. -/
theorem shareAt_add (secret t : K) (coeffs others : Fin m → K) (x : K) :
    shareAt (secret + t) (coeffs + fun k => t * others k) x =
      shareAt secret coeffs x + t * shareAt 1 others x := by
  simp only [shareAt, Pi.add_apply, add_mul, Finset.sum_add_distrib, mul_add, Finset.mul_sum,
    mul_one, mul_assoc]
  ring

/-- As many draws give these shares of one row of secrets as of another, if there are no more points
than other coefficients. -/
theorem card_draws_eq {len : ℕ} {points : Finset K} (nonzero : 0 ∉ points)
    (few : points.card ≤ m) (secrets secrets' : Fin len → K) (shares : K → Fin len → K) :
    Nat.card {draws : Fin len → Fin m → K //
        ∀ x ∈ points, ∀ b, shareAt (secrets b) (draws b) x = shares x b} =
      Nat.card {draws : Fin len → Fin m → K //
        ∀ x ∈ points, ∀ b, shareAt (secrets' b) (draws b) x = shares x b} := by
  let shift : Fin len → Fin m → K := fun b k => (secrets' b - secrets b) * mask m points k
  refine Nat.card_congr (Equiv.subtypeEquiv (Equiv.addRight shift) fun draws => ?_)
  refine forall_congr' fun x => forall_congr' fun x_mem => forall_congr' fun b => ?_
  have moved := shareAt_add (secrets b) (secrets' b - secrets b) (draws b) (mask m points) x
  rw [shareAt_mask nonzero few x_mem, mul_zero, add_zero, add_sub_cancel] at moved
  rw [← moved]
  rfl

end FinBit.Lib
