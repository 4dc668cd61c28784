import Mathlib.Logic.Function.Basic

/-! # A map and its index

Records are kept under a name, and an index leads from a key inside a record back to the
name. The two maps are written by hand, one after the other; the rules say which writes
keep them each other's inverse.
-/

namespace FinBit.Lib

variable {N I R : Type*} [DecidableEq N] [DecidableEq I] {records : N → Option R} {key : R → I}
  {index : I → Option N}

/-- Every key in the index leads to a record that has it, and every record is found by its key. -/
structure Mirror (records : N → Option R) (key : R → I) (index : I → Option N) : Prop where
  found : ∀ i n, index i = some n → ∃ r, records n = some r ∧ key r = i
  indexed : ∀ n r, records n = some r → index (key r) = some n

namespace Mirror

omit [DecidableEq N] [DecidableEq I] in
theorem empty : Mirror (fun _ : N => (none : Option R)) key fun _ : I => none :=
  ⟨by simp, by simp⟩

omit [DecidableEq N] [DecidableEq I] in
/-- A key belongs to one record. -/
theorem unique (mirror : Mirror records key index) {n n' : N} {r r' : R}
    (here : records n = some r) (there : records n' = some r') (same : key r = key r') : n = n' := by
  have first := mirror.indexed n r here
  rw [same, mirror.indexed n' r' there] at first
  exact (Option.some.inj first).symm

omit [DecidableEq I] in
/-- A record changes and keeps its key. -/
theorem modify (mirror : Mirror records key index) {n : N} {r r' : R} (here : records n = some r)
    (same : key r' = key r) : Mirror (Function.update records n (some r')) key index := by
  constructor
  · intro i m entry
    obtain ⟨x, stored, rfl⟩ := mirror.found i m entry
    by_cases named : m = n
    · subst named
      rw [here] at stored
      cases stored
      exact ⟨r', Function.update_self .., same⟩
    · exact ⟨x, (Function.update_of_ne named ..).trans stored, rfl⟩
  · intro m x stored
    by_cases named : m = n
    · subst named
      rw [Function.update_self] at stored
      cases stored
      rw [same]
      exact mirror.indexed m r here
    · rw [Function.update_of_ne named] at stored
      exact mirror.indexed m x stored

/-- A record comes in under a new name, with a key that nobody has. -/
theorem add (mirror : Mirror records key index) {n : N} {r : R} (fresh : records n = none)
    (free : index (key r) = none) :
    Mirror (Function.update records n (some r)) key (Function.update index (key r) (some n)) := by
  constructor
  · intro i m entry
    by_cases here : i = key r
    · subst here
      rw [Function.update_self] at entry
      cases entry
      exact ⟨r, Function.update_self .., rfl⟩
    · rw [Function.update_of_ne here] at entry
      obtain ⟨x, stored, rfl⟩ := mirror.found i m entry
      have apart : m ≠ n := by
        rintro rfl
        rw [fresh] at stored
        cases stored
      exact ⟨x, (Function.update_of_ne apart ..).trans stored, rfl⟩
  · intro m x stored
    by_cases named : m = n
    · subst named
      rw [Function.update_self] at stored
      cases stored
      exact Function.update_self ..
    · rw [Function.update_of_ne named] at stored
      have entry := mirror.indexed m x stored
      have apart : key x ≠ key r := by
        intro same
        rw [same, free] at entry
        cases entry
      exact (Function.update_of_ne apart ..).trans entry

omit [DecidableEq N] in
/-- The index is written again with what it holds. -/
theorem rewrite (mirror : Mirror records key index) {n : N} {r : R} (here : records n = some r) :
    Function.update index (key r) (some n) = index := by
  rw [← mirror.indexed n r here, Function.update_eq_self]

/-- A record goes, and its key with it. -/
theorem erase (mirror : Mirror records key index) {n : N} {r : R} (here : records n = some r) :
    Mirror (Function.update records n none) key (Function.update index (key r) none) := by
  constructor
  · intro i m entry
    by_cases gone : i = key r
    · subst gone
      rw [Function.update_self] at entry
      cases entry
    · rw [Function.update_of_ne gone] at entry
      obtain ⟨x, stored, rfl⟩ := mirror.found i m entry
      have apart : m ≠ n := by
        rintro rfl
        rw [here] at stored
        cases stored
        exact gone rfl
      exact ⟨x, (Function.update_of_ne apart ..).trans stored, rfl⟩
  · intro m x stored
    by_cases named : m = n
    · subst named
      rw [Function.update_self] at stored
      cases stored
    · rw [Function.update_of_ne named] at stored
      have apart : key x ≠ key r := fun same => named (mirror.unique stored here same)
      exact (Function.update_of_ne apart ..).trans (mirror.indexed m x stored)

end Mirror

end FinBit.Lib
