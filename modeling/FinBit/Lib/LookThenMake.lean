import FinBit.Lib.Runs

/-! # Looking before making

Tasks share a thing that may be there or not. Each of them looks first; one that has missed it goes
off to prepare it, and comes back to make it whatever the others have done meanwhile. The thing is
made once as long as nobody misses it while another task is off to prepare it.
-/

namespace FinBit.Lib

/-- What there is to see of the thing. -/
inductive ThingEvent
  | missed
  | made
  | used
  | other
  deriving DecidableEq

structure Thing where
  present : Bool
  /-- The tasks that have missed it and not come back. -/
  awaiting : Nat

namespace Thing

inductive Step : Thing → ThingEvent → Thing → Prop
  | missed (n : Nat) : Step ⟨false, n⟩ .missed ⟨false, n + 1⟩
  | made (b : Bool) (n : Nat) : Step ⟨b, n + 1⟩ .made ⟨true, n⟩
  | used (n : Nat) : Step ⟨true, n⟩ .used ⟨true, n⟩
  | other (t : Thing) : Step t .other t
  /-- A task comes back and does not make it. -/
  | gaveUp (b : Bool) (n : Nat) : Step ⟨b, n + 1⟩ .other ⟨b, n⟩
  /-- Making it has failed after what was there had been thrown away. -/
  | lost (b : Bool) (n : Nat) : Step ⟨b, n + 1⟩ .other ⟨false, n⟩

/-- Nobody else is off to prepare the thing when a task misses it. -/
def Alone (t : Thing) (e : ThingEvent) : Prop :=
  e = .missed → t.awaiting = 0

section Runs

/-- Effects on other things leave this one alone. -/
theorem run_other (t : Thing) {es : List ThingEvent} (others : ∀ e ∈ es, e = .other) :
    Run (Guarded Step Alone) t es t := by
  induction es with
  | nil => exact .nil t
  | cons e es ih =>
    obtain rfl := others e List.mem_cons_self
    exact .cons ⟨fun h => (by cases h), .other t⟩ (ih fun e later => others e (.tail _ later))

theorem run_used {n : Nat} {es : List ThingEvent} {t : Thing}
    (rest : Run (Guarded Step Alone) ⟨true, n⟩ es t) :
    Run (Guarded Step Alone) ⟨true, n⟩ (.used :: es) t :=
  .cons ⟨fun h => (by cases h), .used n⟩ rest

theorem run_made {b : Bool} {n : Nat} {es : List ThingEvent} {t : Thing}
    (rest : Run (Guarded Step Alone) ⟨true, n⟩ es t) :
    Run (Guarded Step Alone) ⟨b, n + 1⟩ (.made :: es) t :=
  .cons ⟨fun h => (by cases h), .made b n⟩ rest

/-- A task comes back, one of those that are off or one that is after something else. -/
theorem run_gaveUp (b mine : Bool) (n : Nat) :
    Run (Guarded Step Alone) ⟨b, n + if mine then 1 else 0⟩ [.other] ⟨b, n⟩ := by
  cases mine with
  | true => exact .cons ⟨fun h => (by cases h), .gaveUp b n⟩ (.nil _)
  | false => exact run_other _ (by simp)

theorem run_lost (b : Bool) (n : Nat) :
    Run (Guarded Step Alone) ⟨b, n + 1⟩ [.other] ⟨false, n⟩ :=
  .cons ⟨fun h => (by cases h), .lost b n⟩ (.nil _)

theorem run_missed : Run (Guarded Step Alone) ⟨false, 0⟩ [.missed] ⟨false, 1⟩ :=
  .cons ⟨fun _ => rfl, .missed 0⟩ (.nil _)

end Runs

/-- At most one task is off, and the thing is not there while it is. -/
def Orderly (t : Thing) : Prop :=
  t.awaiting ≤ 1 ∧ (t.awaiting = 1 → t.present = false)

theorem Orderly.step {s t : Thing} {e : ThingEvent} (inv : Orderly s)
    (taken : Guarded Step Alone s e t) : Orderly t := by
  obtain ⟨alone, taken⟩ := taken
  cases taken with
  | missed n =>
    -- the guard leaves no other task that is off
    obtain rfl : n = 0 := alone rfl
    exact ⟨Nat.le_refl 1, fun _ => rfl⟩
  | made b n | gaveUp b n | lost b n =>
    have hn : n = 0 := by have := inv.1; simp only at this; omega
    subst hn
    exact ⟨Nat.zero_le 1, fun h => by cases h⟩
  | used n => exact inv
  | other => exact inv

/-- Nothing has been made or used by the time the thing is made. -/
def MadeOnce (es : List ThingEvent) : Prop :=
  es.Pairwise fun earlier later => later = .made → earlier ≠ .made ∧ earlier ≠ .used

/-- What has been made or used is there, and making takes a task that has missed it. -/
theorem madeOnce {b : Bool} {t : Thing} {es : List ThingEvent}
    (run : Run (Guarded Step Alone) ⟨b, 0⟩ es t) : MadeOnce es := by
  refine run.pairwise Orderly (fun e s => e = .made ∨ e = .used → s.present = true)
    (fun s e t inv taken => inv.step taken) ?_ ?_ ?_ ⟨Nat.zero_le 1, fun h => by cases h⟩
  · rintro s e t - ⟨-, taken⟩ seen
    cases taken with
    | made | used => rfl
    | missed | other | gaveUp | lost => rcases seen with h | h <;> cases h
  · rintro e s f t inv fact ⟨-, taken⟩ seen
    have there := fact seen
    cases taken with
    | missed => cases there
    | made | used | other | gaveUp => first | rfl | exact there
    | lost b n =>
      -- a task that is off has missed the thing
      have absent := inv.2 (by have := inv.1; simp only at this ⊢; omega)
      rw [there] at absent
      cases absent
  · rintro e s f t inv fact ⟨-, taken⟩ rfl
    cases taken with
    | made b n =>
      have absent := inv.2 (by have := inv.1; simp only at this ⊢; omega)
      have unseen : ¬(e = .made ∨ e = .used) := fun seen => by
        rw [fact seen] at absent
        cases absent
      exact not_or.mp unseen

theorem MadeOnce.count_le_one {es : List ThingEvent} (once : MadeOnce es) :
    es.count .made ≤ 1 := by
  induction es with
  | nil => simp
  | cons e es ih =>
    obtain ⟨first, rest⟩ := List.pairwise_cons.mp once
    by_cases made : e = .made
    · have none_later : es.count .made = 0 :=
        List.count_eq_zero.mpr fun later => (first .made later rfl).1 made
      simp [made, none_later]
    · rw [List.count_cons_of_ne made]
      exact ih rest

end Thing

end FinBit.Lib
