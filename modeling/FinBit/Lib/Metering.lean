import Mathlib.Algebra.Order.Field.Rat
import Mathlib.Algebra.BigOperators.Group.List.Basic
import Mathlib.Tactic.Linarith
import Mathlib.Tactic.Ring

/-! # Metering

What a token bucket guarantees about what was spent through it. Tokens come in at a constant
rate and are capped; whoever spends gives tokens for it. Then the ledger of what was spent
stays under a line in every window of time.
-/

namespace FinBit.Lib

/-- Amounts with the times at which they were spent, the latest at the end. -/
abbrev Ledger := List (Nat × Nat)

namespace Ledger

/-- What was spent from `start` to `stop`. -/
def within (ledger : Ledger) (start stop : Nat) : Nat :=
  ((ledger.filter fun entry => start ≤ entry.1 ∧ entry.1 ≤ stop).map Prod.snd).sum

@[simp] theorem within_nil (start stop : Nat) : within [] start stop = 0 := rfl

theorem within_append (ledger : Ledger) (entry : Nat × Nat) (start stop : Nat) :
    within (ledger ++ [entry]) start stop =
      ledger.within start stop + if start ≤ entry.1 ∧ entry.1 ≤ stop then entry.2 else 0 := by
  by_cases inside : start ≤ entry.1 ∧ entry.1 ≤ stop <;>
    simp [within, List.filter_append, inside]

/-- After the last entry nothing more comes in. -/
theorem within_of_past {ledger : Ledger} {last : Nat} (past : ∀ entry ∈ ledger, entry.1 ≤ last)
    (start : Nat) {stop : Nat} (later : last ≤ stop) :
    ledger.within start stop = ledger.within start last := by
  unfold within
  congr 2
  refine List.filter_congr fun entry member => ?_
  have := past entry member
  simp only [decide_eq_decide]
  omega

theorem within_of_future {ledger : Ledger} {last start : Nat}
    (past : ∀ entry ∈ ledger, entry.1 ≤ last) (later : last < start) (stop : Nat) :
    ledger.within start stop = 0 := by
  have none_ : ledger.filter (fun entry => start ≤ entry.1 ∧ entry.1 ≤ stop) = [] := by
    rw [List.filter_eq_nil_iff]
    intro entry member
    have := past entry member
    simp only [decide_eq_true_eq]
    omega
  rw [within, none_]
  rfl

end Ledger

/-- A ledger next to the bucket it was spent from: `tokens` are left at the time `last`. -/
structure Metered (burst rate : ℚ) (ledger : Ledger) (last : Nat) (tokens : ℚ) : Prop where
  windows : ∀ start stop, start ≤ stop →
    (ledger.within start stop : ℚ) ≤ burst + rate * (stop - start)
  past : ∀ entry ∈ ledger, entry.1 ≤ last
  left : ∀ start ≤ last, (ledger.within start last : ℚ) + tokens ≤ burst + rate * (last - start)
  nonneg : 0 ≤ tokens

namespace Metered

variable {burst rate tokens tokens' : ℚ} {ledger : Ledger} {last now : Nat}

/-- A full bucket, from which nothing has been spent. -/
theorem full (burst_nonneg : 0 ≤ burst) (rate_nonneg : 0 ≤ rate) (now : Nat) :
    Metered burst rate [] now burst where
  windows start stop ordered := by
    have elapsed : (start : ℚ) ≤ stop := by exact_mod_cast ordered
    have := mul_nonneg rate_nonneg (sub_nonneg.mpr elapsed)
    simp only [Ledger.within_nil, Nat.cast_zero]
    linarith
  past _ member := by cases member
  left start before := by
    have elapsed : (start : ℚ) ≤ now := by exact_mod_cast before
    have := mul_nonneg rate_nonneg (sub_nonneg.mpr elapsed)
    simp only [Ledger.within_nil, Nat.cast_zero]
    linarith
  nonneg := burst_nonneg

/-- Time passes, and tokens come in no faster than at the rate. -/
theorem refill (metered : Metered burst rate ledger last tokens) (rate_nonneg : 0 ≤ rate)
    (later : last ≤ now) (slow : tokens' ≤ tokens + rate * (now - last)) (capped : tokens' ≤ burst)
    (nonneg : 0 ≤ tokens') : Metered burst rate ledger now tokens' where
  windows := metered.windows
  past entry member := (metered.past entry member).trans later
  left start before := by
    rcases le_or_gt start last with old | new
    · have earlier := metered.left start old
      rw [Ledger.within_of_past metered.past start later]
      linarith
    · -- nothing was spent since then
      have elapsed : (start : ℚ) ≤ now := by exact_mod_cast before
      have := mul_nonneg rate_nonneg (sub_nonneg.mpr elapsed)
      rw [Ledger.within_of_future metered.past new, Nat.cast_zero]
      linarith
  nonneg := nonneg

/-- What is spent is paid for. -/
theorem spend (metered : Metered burst rate ledger last tokens) (rate_nonneg : 0 ≤ rate)
    {amount : Nat} (paid : amount ≤ tokens) :
    Metered burst rate (ledger ++ [(last, amount)]) last (tokens - amount) where
  windows start stop ordered := by
    rw [Ledger.within_append]
    by_cases inside : start ≤ last ∧ last ≤ stop
    · have before := metered.left start inside.1
      have elapsed : (last : ℚ) ≤ stop := by exact_mod_cast inside.2
      have := mul_le_mul_of_nonneg_left elapsed rate_nonneg
      rw [if_pos inside, Ledger.within_of_past metered.past start inside.2, Nat.cast_add]
      linarith
    · rw [if_neg inside, Nat.add_zero]
      exact metered.windows start stop ordered
  past entry member := by
    rcases List.mem_append.mp member with old | new
    · exact metered.past entry old
    · rw [List.mem_singleton.mp new]
  left start before := by
    rw [Ledger.within_append, if_pos ⟨before, le_refl last⟩, Nat.cast_add]
    linarith [metered.left start before]
  nonneg := sub_nonneg.mpr paid

end Metered

end FinBit.Lib
