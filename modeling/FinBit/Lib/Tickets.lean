import Mathlib.Data.List.Nodup
import Mathlib.Data.List.Pairwise

/-! # Tickets

Work that is handed from one place to another: every piece of work carries a number,
the numbers are given out in order, and each number that was given out is held in
exactly one place. `Accounted` says so by counting, which is what the steps of a
program are checked against; `existsUnique` is what it means.
-/

namespace FinBit.Lib

variable {ι : Type*} {places : List ι} {held held' : ι → List Nat} {n : Nat}

/-- Of the numbers, those below `n` are held once and the others not at all. -/
def Accounted (places : List ι) (held : ι → List Nat) (n : Nat) : Prop :=
  ∀ id, (places.flatMap held).count id = if id < n then 1 else 0

namespace Accounted

theorem existsUnique (accounted : Accounted places held n) (complete : ∀ p, p ∈ places) {id : Nat}
    (issued : id < n) : ∃! p, id ∈ held p := by
  have nodup : (places.flatMap held).Nodup := by
    rw [List.nodup_iff_count_le_one]
    intro other
    rw [accounted other]
    split <;> omega
  have present : id ∈ places.flatMap held := by
    rw [← List.count_pos_iff, accounted id, if_pos issued]
    exact Nat.one_pos
  obtain ⟨p, -, holds⟩ := List.mem_flatMap.mp present
  refine ⟨p, holds, fun q also => ?_⟩
  -- two places would hold the number twice
  by_contra different
  have symmetric : Std.Symm (Function.onFun List.Disjoint held) :=
    ⟨fun _ _ apart _ left right => apart right left⟩
  have disjoint := (List.nodup_flatMap.mp nodup).2.forall (complete q) (complete p) different
  exact disjoint also holds

/-- Work that only changes its place. -/
theorem moved (accounted : Accounted places held n)
    (same : ∀ id, (places.flatMap held').count id = (places.flatMap held).count id) :
    Accounted places held' n := by
  intro id
  rw [same, accounted id]

/-- Work that is new. -/
theorem issued (accounted : Accounted places held n)
    (more : ∀ id, (places.flatMap held').count id =
      (places.flatMap held).count id + if id = n then 1 else 0) :
    Accounted places held' (n + 1) := by
  intro id
  rw [more, accounted id]
  split <;> split <;> split <;> omega

end Accounted

end FinBit.Lib
