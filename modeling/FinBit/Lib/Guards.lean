import Mathlib.Tactic.Common

/-! # Chains of early exits

A C++ function that validates its arguments one by one is a chain of
`if … then .error … else …` here. These lemmas turn the success of such a chain
into the conjunction of what it checked, and its failure into the disjunction of
what it refuses.
-/

namespace FinBit.Lib

variable {ε α β : Type*}

theorem ite_error_eq_ok {c : Prop} [Decidable c] {e : ε} {x : Except ε α} {a : α} :
    (if c then .error e else x) = .ok a ↔ ¬ c ∧ x = .ok a := by
  split <;> simp_all

theorem ite_false_eq_true {c : Prop} [Decidable c] {b : Bool} :
    (if c then false else b) = true ↔ ¬ c ∧ b = true := by
  split <;> simp_all

/-- A sequence succeeds if both of its parts do. -/
theorem bind_eq_ok {α β : Type} {x : Except ε α} {f : α → Except ε β} {b : β} :
    (x >>= f) = .ok b ↔ ∃ a, x = .ok a ∧ f a = .ok b := by
  cases x <;> simp [bind, Except.bind]

theorem map_eq_ok {x : Except ε α} {f : α → β} {b : β} :
    x.map f = .ok b ↔ ∃ a, x = .ok a ∧ f a = b := by
  cases x <;> simp [Except.map]

/-- An exception leaves the call. -/
def Fails (x : Except ε α) : Prop := ∃ e, x = .error e

@[simp] theorem fails_error (e : ε) : Fails (.error e : Except ε α) := ⟨e, rfl⟩

@[simp] theorem not_fails_ok (a : α) : ¬Fails (.ok a : Except ε α) := by
  rintro ⟨e, failed⟩
  cases failed

theorem not_fails_iff {x : Except ε α} : ¬Fails x ↔ ∃ a, x = .ok a := by
  cases x <;> simp

theorem fails_ite_error {c : Prop} [Decidable c] {e : ε} {x : Except ε α} :
    Fails (if c then .error e else x) ↔ c ∨ Fails x := by
  by_cases holds : c <;> simp [holds]

theorem fails_ite_ok {c : Prop} [Decidable c] {a : α} {x : Except ε α} :
    Fails (if c then .ok a else x) ↔ ¬c ∧ Fails x := by
  by_cases holds : c <;> simp [holds]

@[simp] theorem fails_map {x : Except ε α} {f : α → β} : Fails (x.map f) ↔ Fails x := by
  cases x <;> simp [Except.map]

theorem toOption_eq_some {x : Except ε α} {a : α} : x.toOption = some a ↔ x = .ok a := by
  cases x <;> simp [Except.toOption]

/-- One check of a verification next to the same check before its message is built: where
it fails, both say no. -/
theorem ite_ok_false_eq {c : Prop} [Decidable c] {x : Except ε Bool} {message : Option α}
    {verify : α → Bool} (rest : ¬c → x = .ok (message.any verify)) :
    (if c then .ok false else x) = .ok ((if c then none else message).any verify) := by
  by_cases fails : c
  · rw [if_pos fails, if_pos fails]
    rfl
  · rw [if_neg fails, if_neg fails]
    exact rest fails

/-! ### Loops that may throw -/

/-- A loop that reads a list of which every element opens. -/
theorem mapM_opened {α β γ : Type} {read : α → Except String β} {open_ : α → Option β}
    {value : γ → β} {xs : List α} {ys : List γ}
    (same : xs.map open_ = ys.map fun y => some (value y))
    (reads : ∀ x ∈ xs, ∀ b, open_ x = some b → read x = .ok b) :
    xs.mapM read = .ok (ys.map value) := by
  induction xs generalizing ys with
  | nil =>
    obtain rfl : ys = [] := by simpa using same.symm
    rfl
  | cons x xs ih =>
    cases ys with
    | nil => simp at same
    | cons y ys =>
      simp only [List.map_cons, List.cons.injEq] at same
      have first := reads x List.mem_cons_self _ same.1
      have rest := ih same.2 fun x' member => reads x' (List.mem_cons_of_mem x member)
      rw [List.mapM_cons, first, rest]
      rfl

theorem length_of_mapM {α β : Type} {read : α → Except String β} {xs : List α} {ys : List β}
    (done : xs.mapM read = .ok ys) : ys.length = xs.length := by
  induction xs generalizing ys with
  | nil =>
    cases done
    rfl
  | cons x xs ih =>
    rw [List.mapM_cons] at done
    obtain ⟨y, -, rest⟩ := bind_eq_ok.mp done
    obtain ⟨tail, others, last⟩ := bind_eq_ok.mp rest
    cases last
    rw [List.length_cons, List.length_cons, ih others]

end FinBit.Lib
