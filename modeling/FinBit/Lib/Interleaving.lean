import FinBit.Lib.Runs
import FinBit.Lib.Transactions

/-! # Programs that run side by side

Several programs share one store. A step starts a program or runs the next transaction of one that
goes on; a transaction is never interrupted, and it may fail.
-/

namespace FinBit.Lib

/-! ### Replacing what stands at a position -/

section

variable {α : Type*}

theorem mem_set_cases {xs : List α} {i : Nat} {new other : α} (member : other ∈ xs.set i new) :
    other = new ∨ ∃ j, j ≠ i ∧ xs[j]? = some other := by
  obtain ⟨j, found⟩ := List.mem_iff_getElem?.mp member
  rw [List.getElem?_set] at found
  split at found
  next same =>
    split at found
    · exact .inl (Option.some.inj found).symm
    · cases found
  next apart => exact .inr ⟨j, Ne.symm apart, found⟩

theorem mem_set_of_ne {xs : List α} {i : Nat} {old new other : α}
    (found : xs[i]? = some old) (member : other ∈ xs) (apart : other ≠ old) :
    other ∈ xs.set i new := by
  obtain ⟨j, here⟩ := List.mem_iff_getElem?.mp member
  have elsewhere : i ≠ j := by
    rintro rfl
    exact apart (Option.some.inj (here.symm.trans found))
  exact List.mem_iff_getElem?.mpr ⟨j, (List.getElem?_set_ne elsewhere).trans here⟩

end

structure Interleaved (σ α : Type) where
  store : σ
  threads : List (Prog σ α)

inductive Turn (σ α : Type)
  | start (p : Prog σ α)
  | next (i : Nat)
  | fail (i : Nat) (e : String)

namespace Interleaved

variable {σ α : Type}

inductive Step : Interleaved σ α → Turn σ α → Interleaved σ α → Prop
  | start (s : Interleaved σ α) (p : Prog σ α) :
      Step s (.start p) { s with threads := s.threads ++ [p] }
  | next {s : Interleaved σ α} {i : Nat} {β : Type} {body : σ → β × σ}
      {next : Except String β → Prog σ α} (here : s.threads[i]? = some (.tx body next)) :
      Step s (.next i) ⟨(body s.store).2, s.threads.set i (next (.ok (body s.store).1))⟩
  | fail {s : Interleaved σ α} {i : Nat} {β : Type} {body : σ → β × σ}
      {next : Except String β → Prog σ α} (here : s.threads[i]? = some (.tx body next))
      (e : String) :
      Step s (.fail i e) { s with threads := s.threads.set i (next (.error e)) }

/-! ### Threads that are known by their stages

The stages of the threads are a type of their own, with what each does with the store, so that what
a thread has read can be spoken of.
-/

/-- A stage has its program. One that is not at its end runs a transaction and comes to another stage,
and where the transaction fails the program ends with the error. -/
structure Staged {ρ : Type} (prog : ρ → Prog σ α) (act : ρ → σ → ρ × σ) (failed : String → ρ)
    (ended : ρ → Bool) : Prop where
  finished : ∀ stage, ended stage = true → ∃ result, prog stage = .done result
  going : ∀ stage, ended stage = false → ∃ (β : Type) (body : σ → β × σ)
    (next : Except String β → Prog σ α), prog stage = .tx body next ∧
      (∀ s, (act stage s).2 = (body s).2) ∧
      (∀ s, prog (act stage s).1 = next (.ok (body s).1)) ∧
      ∀ e, prog (failed e) = next (.error e)

namespace Staged

variable {ρ : Type} {prog : ρ → Prog σ α} {act : ρ → σ → ρ × σ} {failed : String → ρ}
  {ended : ρ → Bool}

/-- A thread that runs a transaction is at a stage before its end. -/
theorem stage_of_tx (staged : Staged prog act failed ended) {stages : List ρ} {i : Nat}
    {β : Type} {body : σ → β × σ} {next : Except String β → Prog σ α}
    (here : (stages.map prog)[i]? = some (.tx body next)) :
    ∃ stage, stages[i]? = some stage ∧ ended stage = false ∧
      (∀ s, (act stage s).2 = (body s).2) ∧
      (∀ s, prog (act stage s).1 = next (.ok (body s).1)) ∧
      ∀ e, prog (failed e) = next (.error e) := by
  rw [List.getElem?_map, Option.map_eq_some_iff] at here
  obtain ⟨stage, there, program⟩ := here
  cases done : ended stage with
  | true =>
    obtain ⟨result, same⟩ := staged.finished stage done
    rw [same] at program
    cases program
  | false =>
    obtain ⟨β', body', next', same, store, onward, thrown⟩ := staged.going stage done
    rw [same] at program
    cases program
    exact ⟨stage, there, done, store, onward, thrown⟩

end Staged

end Interleaved

end FinBit.Lib
