import Mathlib.Logic.Function.Basic

/-! # A copy in front of a store

Values are kept in a store, and some of them in memory as well. A value that is asked for is
taken from the copy, and from the store only where the copy has none. As long as every write
reaches both, nobody can tell the copy from the store; a write that goes past the copy shows
exactly where the copy has another value.
-/

namespace FinBit.Lib

structure ReadThrough (K V : Type) where
  copy : K → Option V
  stored : K → V

namespace ReadThrough

variable {K V : Type} [DecidableEq K] (r : ReadThrough K V) (k : K) (v : V)

/-- What somebody who asks gets. -/
def value : V := (r.copy k).getD (r.stored k)

/-- The copy keeps what was asked for. -/
def fetch : ReadThrough K V := { r with copy := Function.update r.copy k (some (r.value k)) }

def write : ReadThrough K V :=
  ⟨Function.update r.copy k (some v), Function.update r.stored k v⟩

/-- A write to the store alone. -/
def writePast : ReadThrough K V := { r with stored := Function.update r.stored k v }

@[simp] theorem copy_writePast : (r.writePast k v).copy = r.copy := rfl

@[simp] theorem stored_writePast :
    (r.writePast k v).stored = Function.update r.stored k v := rfl

/-- The copy is gone. -/
def reload : ReadThrough K V := { r with copy := fun _ => none }

/-- Whoever asks gets what is stored. -/
def Coherent (r : ReadThrough K V) : Prop := ∀ k, r.value k = r.stored k

variable {r k v}

omit [DecidableEq K] in
theorem coherent_iff : r.Coherent ↔ ∀ k v, r.copy k = some v → v = r.stored k := by
  unfold Coherent value
  constructor
  · intro coherent k v held
    have same := coherent k
    rwa [held] at same
  · intro agrees k
    cases held : r.copy k with
    | none => rfl
    | some v => exact agrees k v held

omit [DecidableEq K] in
theorem coherent_reload : r.reload.Coherent := fun _ => rfl

theorem value_fetch (k' : K) : (r.fetch k).value k' = r.value k' := by
  unfold value fetch
  by_cases same : k' = k
  · subst same
    simp [value]
  · simp [Function.update_of_ne same]

theorem Coherent.fetch (coherent : r.Coherent) : (r.fetch k).Coherent := by
  intro k'
  rw [value_fetch]
  exact coherent k'

theorem Coherent.write (coherent : r.Coherent) : (r.write k v).Coherent := by
  intro k'
  unfold value ReadThrough.write
  by_cases same : k' = k
  · subst same
    simp
  · have before := coherent k'
    unfold value at before
    simpa [Function.update_of_ne same] using before

theorem value_writePast_of_ne {k' : K} (differ : k' ≠ k) : (r.writePast k v).value k' = r.value k' := by
  simp [value, writePast, Function.update_of_ne differ]

/-- A write past the copy shows where the copy has another value. -/
theorem Coherent.writePast_iff (coherent : r.Coherent) :
    (r.writePast k v).Coherent ↔ ∀ w, r.copy k = some w → w = v := by
  constructor
  · intro after w held
    simpa using coherent_iff.mp after k w held
  · intro agrees
    refine coherent_iff.mpr fun k' w held => ?_
    by_cases same : k' = k
    · subst same
      rw [agrees w held, stored_writePast, Function.update_self]
    · rw [stored_writePast, Function.update_of_ne same]
      exact coherent_iff.mp coherent k' w held

end ReadThrough

end FinBit.Lib
