import Mathlib.Data.List.Basic

/-! # Secrets that take turns

A numbered secret takes the place of the current one if its number is higher. The one that it
replaces is good for a while longer, and those before it are not.
-/

namespace FinBit.Lib

structure Generation (ν σ : Type) where
  number : ν
  secret : σ
  since : Nat

namespace Generation

variable {ν σ : Type}

/-- The current generation, and the one before it for a while after it was replaced. -/
def live (grace now : Nat) : List (Generation ν σ) → List (Generation ν σ)
  | a :: b :: _ => if now < a.since + grace then [a, b] else [a]
  | l => l

theorem live_subset (grace now : Nat) (l : List (Generation ν σ)) :
    live grace now l ⊆ l.take 2 := by
  intro x good
  match l with
  | [] => cases good
  | [a] => exact good
  | a :: b :: rest =>
    rw [live] at good
    split at good
    · exact good
    · exact List.mem_cons.mpr (.inl (List.mem_singleton.mp good))

section

variable [LE ν] [LT ν] [DecidableLT ν]

/-- The generations so far, the newest first. -/
def install (l : List (Generation ν σ)) (g : Generation ν σ) : List (Generation ν σ) :=
  match l with
  | [] => [g]
  | a :: _ => if a.number < g.number then g :: l else l

def Rising (l : List (Generation ν σ)) : Prop :=
  l.Pairwise fun a b => b.number < a.number

variable [Std.IsLinearOrder ν] [Std.LawfulOrderLT ν] {l : List (Generation ν σ)}
  {a b g : Generation ν σ}

theorem Rising.install (rising : Rising l) : Rising (install l g) := by
  match l with
  | [] => exact List.pairwise_singleton _ _
  | a :: rest =>
    rw [Generation.install]
    split
    next higher =>
      refine List.pairwise_cons.mpr ⟨fun b older => ?_, rising⟩
      obtain rfl | older := List.mem_cons.mp older
      · exact higher
      · exact Std.lt_trans ((List.pairwise_cons.mp rising).1 b older) higher
    · exact rising

omit [DecidableLT ν] [Std.IsLinearOrder ν] in
/-- A number stands for one generation. -/
theorem Rising.unique (rising : Rising l) (first : a ∈ l) (second : b ∈ l)
    (same : a.number = b.number) : a = b := by
  induction rising with
  | nil => cases first
  | @cons x rest older _ ih =>
    obtain here | later := List.mem_cons.mp first
    · obtain here' | later' := List.mem_cons.mp second
      · rw [here, here']
      · have less := older b later'
        rw [← same, here] at less
        exact absurd less Std.lt_irrefl
    · obtain here' | later' := List.mem_cons.mp second
      · have less := older a later
        rw [same, here'] at less
        exact absurd less Std.lt_irrefl
      · exact ih later later'

end

end Generation

end FinBit.Lib
