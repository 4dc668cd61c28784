import Mathlib.Data.List.Nodup
import FinBit.Web.BrowserStores

/-! # Object stores with generated keys

A key is generated once. The records stand in the order of their keys, and what is put back under a
key takes the place of the record that had it, or a place that had become free.
-/

namespace FinBit.Web.AutoStore

variable {α : Type} {s : AutoStore α} {row x : Nat × α} {id : Nat}

/-- The records stand in the order of their keys, all of which have been generated. -/
structure Ordered (s : AutoStore α) : Prop where
  ascending : s.rows.Pairwise fun a b => a.1 < b.1
  below : ∀ row ∈ s.rows, row.1 < s.nextId

theorem mem_delete : x ∈ (delete id s).2.rows ↔ x ∈ s.rows ∧ x.1 ≠ id := by
  simp [delete]

theorem mem_put : x ∈ (s.put row).rows ↔ x = row ∨ x ∈ s.rows ∧ x.1 ≠ row.1 := by
  have apart : x.1 ≠ row.1 ↔ x.1 < row.1 ∨ row.1 < x.1 := by omega
  simp only [put, List.mem_append, List.mem_cons, List.mem_filter, decide_eq_true_eq, apart]
  tauto

theorem mem_add {a : α} : x ∈ (add a s).2.rows ↔ x ∈ s.rows ∨ x = (s.nextId, a) := by
  simp [add]

namespace Ordered

theorem new : Ordered (new : AutoStore α) := ⟨.nil, List.forall_mem_nil _⟩

theorem nodup (ordered : Ordered s) : (s.rows.map Prod.fst).Nodup :=
  (List.pairwise_map.mpr ordered.ascending).imp Nat.ne_of_lt

/-- Two records with one key are one record. -/
theorem eq_of_id (ordered : Ordered s) {a b : Nat × α} (left : a ∈ s.rows) (right : b ∈ s.rows)
    (same : a.1 = b.1) : a = b :=
  List.inj_on_of_nodup_map ordered.nodup left right same

theorem add (ordered : Ordered s) (a : α) : Ordered (add a s).2 := by
  constructor
  · refine List.pairwise_append.mpr ⟨ordered.ascending, List.pairwise_singleton _ _, ?_⟩
    intro row listed new last
    rw [List.mem_singleton.mp last]
    exact ordered.below row listed
  · intro row listed
    obtain earlier | rfl := mem_add.mp listed
    · exact Nat.lt_succ_of_lt (ordered.below row earlier)
    · exact Nat.lt_succ_self _

theorem delete (ordered : Ordered s) (id : Nat) : Ordered (delete id s).2 := by
  refine ⟨ordered.ascending.filter _, fun row listed => ?_⟩
  exact ordered.below row (mem_delete.mp listed).1

theorem put (ordered : Ordered s) (generated : row.1 < s.nextId) : Ordered (s.put row) := by
  constructor
  · refine List.pairwise_append.mpr ⟨ordered.ascending.filter _, ?_, ?_⟩
    · refine List.pairwise_cons.mpr ⟨fun above listed => ?_, ordered.ascending.filter _⟩
      exact of_decide_eq_true (List.mem_filter.mp listed).2
    · intro before listed behind member
      have less : before.1 < row.1 := of_decide_eq_true (List.mem_filter.mp listed).2
      obtain rfl | member := List.mem_cons.mp member
      · exact less
      · exact Nat.lt_trans less (of_decide_eq_true (List.mem_filter.mp member).2)
  · intro other listed
    obtain rfl | ⟨earlier, -⟩ := mem_put.mp listed
    · exact generated
    · exact ordered.below other earlier

end Ordered

theorem mem_of_get {a : α} (found : s.get id = some a) : (id, a) ∈ s.rows := by
  obtain ⟨before, after, rows, -⟩ := List.lookup_eq_some_iff.mp found
  rw [rows]
  exact List.mem_append_right before List.mem_cons_self

end FinBit.Web.AutoStore
