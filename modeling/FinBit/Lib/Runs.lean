import Mathlib.Data.List.Basic

/-! # Runs of labelled transition relations

Every long-lived component of this development is a relation
`step : σ → ε → σ → Prop` between states, labelled by what an observer sees of
the step. A run is a finite path of such steps. This module holds the rules by
which a fact about one step becomes a fact about a whole run; it knows nothing
about the program.
-/

namespace FinBit.Lib

variable {σ ε : Type*}

/-- `Run step s es t`: starting in `s`, the steps labelled `es` lead to `t`. -/
inductive Run (step : σ → ε → σ → Prop) : σ → List ε → σ → Prop
  | nil (s : σ) : Run step s [] s
  | cons {s t u : σ} {e : ε} {es : List ε} :
      step s e t → Run step t es u → Run step s (e :: es) u

/-- The steps of `step` that are taken where `allowed` permits them. -/
def Guarded (step : σ → ε → σ → Prop) (allowed : σ → ε → Prop) : σ → ε → σ → Prop :=
  fun s e t => allowed s e ∧ step s e t

namespace Run

variable {step : σ → ε → σ → Prop}

/-- What every step preserves, every run preserves. -/
theorem invariant (Inv : σ → Prop) (preserved : ∀ s e t, Inv s → step s e t → Inv t)
    {s t : σ} {es : List ε} (run : Run step s es t) (initial : Inv s) : Inv t := by
  induction run with
  | nil s => exact initial
  | cons taken _ ih => exact ih (preserved _ _ _ initial taken)

theorem append {s t u : σ} {es fs : List ε} (first : Run step s es t)
    (second : Run step t fs u) : Run step s (es ++ fs) u := by
  induction first with
  | nil s => exact second
  | cons taken _ ih => exact .cons taken (ih second)

/-- An invariant that also speaks of the labels so far. -/
theorem invariant_history (Inv : List ε → σ → Prop)
    (preserved : ∀ history s e t, Inv history s → step s e t → Inv (history ++ [e]) t)
    {s t : σ} {es : List ε} (run : Run step s es t) (initial : Inv [] s) : Inv es t := by
  have further : ∀ history, Inv history s → Inv (history ++ es) t := by
    clear initial
    induction run with
    | nil s => simp
    | cons taken _ ih =>
      intro history inv
      simpa using ih _ (preserved _ _ _ _ inv taken)
  exact further [] initial

/-- The step at a given place of a run. -/
theorem split {s t : σ} {before after : List ε} {e : ε}
    (run : Run step s (before ++ e :: after) t) :
    ∃ u v, Run step s before u ∧ step u e v ∧ Run step v after t := by
  induction before generalizing s with
  | nil =>
    cases run with
    | cons taken rest => exact ⟨s, _, .nil s, taken, rest⟩
  | cons first others ih =>
    cases run with
    | cons taken rest =>
      obtain ⟨u, v, start, here, later⟩ := ih rest
      exact ⟨u, v, .cons taken start, here, later⟩

/-- A property of labels that holds at every step taken from a state satisfying
the invariant holds of every label of the run. -/
theorem forall_label (Inv : σ → Prop) {P : ε → Prop}
    (preserved : ∀ s e t, Inv s → step s e t → Inv t)
    (holds : ∀ s e t, Inv s → step s e t → P e)
    {s t : σ} {es : List ε} (run : Run step s es t) (initial : Inv s) : ∀ e ∈ es, P e := by
  induction run with
  | nil s => simp
  | cons taken _ ih =>
    intro e member
    rcases List.mem_cons.mp member with rfl | later
    · exact holds _ _ _ initial taken
    · exact ih (preserved _ _ _ initial taken) e later

/-- A relation between an earlier and a later label of a run. `Fact e` is what
the earlier step leaves behind in the state: it is established by the step
labelled `e`, kept by every later step, and implies the relation to the label of
any later step. -/
theorem pairwise (Inv : σ → Prop) (Fact : ε → σ → Prop) {R : ε → ε → Prop}
    (preserved : ∀ s e t, Inv s → step s e t → Inv t)
    (established : ∀ s e t, Inv s → step s e t → Fact e t)
    (kept : ∀ e s f t, Inv s → Fact e s → step s f t → Fact e t)
    (related : ∀ e s f t, Inv s → Fact e s → step s f t → R e f)
    {s t : σ} {es : List ε} (run : Run step s es t) (initial : Inv s) : es.Pairwise R := by
  have after : ∀ (e : ε) {s t : σ} {es : List ε}, Run step s es t → Inv s → Fact e s →
      ∀ f ∈ es, R e f := by
    intro e s t es run
    induction run with
    | nil s => simp
    | cons taken _ ih =>
      intro inv fact f member
      rcases List.mem_cons.mp member with rfl | later
      · exact related _ _ _ _ inv fact taken
      · exact ih (preserved _ _ _ inv taken) (kept _ _ _ _ inv fact taken) f later
  induction run with
  | nil s => exact List.Pairwise.nil
  | cons taken rest ih =>
    have inv := preserved _ _ _ initial taken
    exact List.pairwise_cons.mpr
      ⟨after _ rest inv (established _ _ _ initial taken), ih inv⟩

/-- Elements that enter at the back of a queue and leave at its front: what was
waiting and what entered is what left and what still waits. -/
theorem fifo {β : Type*} (Inv : σ → Prop) (waiting : σ → List β) (entered left : ε → List β)
    (preserved : ∀ s e t, Inv s → step s e t → Inv t)
    (moved : ∀ s e t, Inv s → step s e t → waiting s ++ entered e = left e ++ waiting t)
    {s t : σ} {es : List ε} (run : Run step s es t) (initial : Inv s) :
    waiting s ++ es.flatMap entered = es.flatMap left ++ waiting t := by
  induction run with
  | nil s => simp
  | @cons s t u e es taken _ ih =>
    have rest := ih (preserved _ _ _ initial taken)
    calc waiting s ++ (e :: es).flatMap entered
        = (waiting s ++ entered e) ++ es.flatMap entered := by simp
      _ = left e ++ (waiting t ++ es.flatMap entered) := by
          rw [moved _ _ _ initial taken, List.append_assoc]
      _ = (e :: es).flatMap left ++ waiting u := by
          rw [rest, List.flatMap_cons, List.append_assoc]

/-- A guarded run is a run. -/
theorem unguarded {allowed : σ → ε → Prop} {s t : σ} {es : List ε}
    (run : Run (Guarded step allowed) s es t) : Run step s es t := by
  induction run with
  | nil s => exact .nil _
  | cons taken _ ih => exact .cons taken.2 ih

/-- A run is guarded by what all of its labels allow in any state. -/
theorem guarded {allowed : σ → ε → Prop} {s t : σ} {es : List ε} (run : Run step s es t)
    (all : ∀ s, ∀ e ∈ es, allowed s e) : Run (Guarded step allowed) s es t := by
  induction run with
  | nil s => exact .nil _
  | cons taken _ ih =>
    exact .cons ⟨all _ _ List.mem_cons_self, taken⟩
      (ih fun s e member => all s e (List.mem_cons_of_mem _ member))

/-- A step-by-step simulation carries a run over. -/
theorem simulate {τ δ : Type*} {step' : τ → δ → τ → Prop} (view : σ → τ) (label : ε → δ)
    (simulated : ∀ s e t, step s e t → step' (view s) (label e) (view t))
    {s t : σ} {es : List ε} (run : Run step s es t) :
    Run step' (view s) (es.map label) (view t) := by
  induction run with
  | nil s => exact .nil _
  | cons taken _ ih => exact .cons (simulated _ _ _ taken) ih

/-- A simulation in which one step stands for several. -/
theorem simulate_runs {τ δ : Type*} {step' : τ → δ → τ → Prop} (view : σ → τ)
    (labels : ε → List δ)
    (simulated : ∀ s e t, step s e t → Run step' (view s) (labels e) (view t))
    {s t : σ} {es : List ε} (run : Run step s es t) :
    Run step' (view s) (es.flatMap labels) (view t) := by
  induction run with
  | nil s => exact .nil _
  | cons taken _ ih => exact (simulated _ _ _ taken).append ih

/-- A simulation by a relation between the states, with labels that are alike. -/
theorem related {τ δ : Type*} {step' : τ → δ → τ → Prop} (Rel : σ → τ → Prop)
    (Alike : ε → δ → Prop)
    (related : ∀ s e t s', Rel s s' → step s e t → ∃ e' t', step' s' e' t' ∧ Alike e e' ∧ Rel t t')
    {s t : σ} {es : List ε} (run : Run step s es t) {s' : τ} (initial : Rel s s') :
    ∃ es' t', Run step' s' es' t' ∧ List.Forall₂ Alike es es' ∧ Rel t t' := by
  induction run generalizing s' with
  | nil s => exact ⟨[], s', .nil _, .nil, initial⟩
  | cons taken _ ih =>
    obtain ⟨e', t', here, alike, further⟩ := related _ _ _ _ initial taken
    obtain ⟨es', u', rest, others, last⟩ := ih further
    exact ⟨e' :: es', u', .cons here rest, .cons alike others, last⟩

/-- What a label mentions lies below the level that the run reaches, if it lies
below the level reached by the step and levels never fall. -/
theorem mentions_below (Inv : σ → Prop) (level : σ → Nat) (mentions : Nat → ε → Prop)
    (preserved : ∀ s e t, Inv s → step s e t → Inv t)
    (climbs : ∀ s e t, Inv s → step s e t → level s ≤ level t ∧ ∀ n, mentions n e → n < level t)
    {s t : σ} {es : List ε} (run : Run step s es t) (initial : Inv s) :
    level s ≤ level t ∧ ∀ e ∈ es, ∀ n, mentions n e → n < level t := by
  induction run with
  | nil s => simp
  | cons taken _ ih =>
    obtain ⟨mono, below⟩ := climbs _ _ _ initial taken
    obtain ⟨later, rest⟩ := ih (preserved _ _ _ initial taken)
    refine ⟨Nat.le_trans mono later, fun e member n mentioned => ?_⟩
    rcases List.mem_cons.mp member with rfl | inside
    · exact Nat.lt_of_lt_of_le (below n mentioned) later
    · exact rest e inside n mentioned

/-- A run that climbs level by level. Each step either leaves the level and fires
nothing, or raises it by one and fires exactly the level it left; then every
level climbed has fired once. -/
theorem fires_once (Inv : σ → Prop) (level : σ → Nat) (fires : Nat → ε → Bool)
    (preserved : ∀ s e t, Inv s → step s e t → Inv t)
    (progress : ∀ s e t, Inv s → step s e t →
      (level t = level s ∧ ∀ n, fires n e = false) ∨
      (level t = level s + 1 ∧ ∀ n, fires n e = decide (n = level s)))
    {s t : σ} {es : List ε} (run : Run step s es t) (initial : Inv s) :
    level s ≤ level t ∧
      ∀ n, es.countP (fires n) = if level s ≤ n ∧ n < level t then 1 else 0 := by
  induction run with
  | nil s =>
    refine ⟨Nat.le_refl _, fun n => ?_⟩
    rw [if_neg (by omega)]
    rfl
  | @cons s t u e es taken rest ih =>
    obtain ⟨mono, counts⟩ := ih (preserved _ _ _ initial taken)
    rcases progress _ _ _ initial taken with ⟨same, quiet⟩ | ⟨raised, fired⟩
    · refine ⟨by omega, fun n => ?_⟩
      rw [List.countP_cons_of_neg (by simp [quiet n]), counts n, same]
    · refine ⟨by omega, fun n => ?_⟩
      by_cases here : n = level s
      · rw [List.countP_cons_of_pos (by rw [fired n]; exact decide_eq_true here), counts n,
          if_neg (by omega), if_pos (by omega)]
      · rw [List.countP_cons_of_neg (by rw [fired n]; simpa using here), counts n]
        congr 1
        simp only [eq_iff_iff]
        omega

end Run

end FinBit.Lib
