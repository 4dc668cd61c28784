import Mathlib.Data.List.Basic
import Mathlib.Data.List.Nodup

/-! # Maps in order of insertion

A map that enumerates its keys in the order in which they were first set. A key that is set again
keeps its place.
-/

namespace FinBit.Lib

abbrev OrderedMap (κ α : Type) := List (κ × α)

namespace OrderedMap

variable {κ α : Type} [DecidableEq κ]

def get (m : OrderedMap κ α) (k : κ) : Option α := (m.find? fun e => e.1 = k).map Prod.snd

def set (m : OrderedMap κ α) (k : κ) (v : α) : OrderedMap κ α :=
  if k ∈ m.map Prod.fst then m.map fun e => if e.1 = k then (k, v) else e else m ++ [(k, v)]

def delete (m : OrderedMap κ α) (k : κ) : OrderedMap κ α := m.filter fun e => e.1 ≠ k

variable {m : OrderedMap κ α} {k k' : κ} {v : α}

theorem get_eq_none_iff : m.get k = none ↔ k ∉ m.map Prod.fst := by
  rw [get, Option.map_eq_none_iff, List.find?_eq_none, List.mem_map]
  constructor
  · rintro none ⟨e, member, key⟩
    exact none e member (decide_eq_true key)
  · intro new e member key
    exact new ⟨e, member, of_decide_eq_true key⟩

theorem mem_of_get (found : m.get k = some v) : (k, v) ∈ m := by
  obtain ⟨e, first, rfl⟩ := Option.map_eq_some_iff.mp found
  have key : e.1 = k := by simpa using List.find?_some first
  rw [← key]
  exact List.mem_of_find?_eq_some first

theorem get_of_mem (once : (m.map Prod.fst).Nodup) (member : (k, v) ∈ m) : m.get k = some v := by
  cases found : m.get k with
  | none => exact absurd (List.mem_map_of_mem member) (get_eq_none_iff.mp found)
  | some w =>
    -- two entries of one key are one entry
    have same := List.inj_on_of_nodup_map once (mem_of_get found) member rfl
    rw [(Prod.mk.inj same).2]

theorem get_eq_some_iff (once : (m.map Prod.fst).Nodup) : m.get k = some v ↔ (k, v) ∈ m :=
  ⟨mem_of_get, get_of_mem once⟩

theorem set_of_new (new : k ∉ m.map Prod.fst) (v : α) : m.set k v = m ++ [(k, v)] := if_neg new

theorem mem_delete {e : κ × α} : e ∈ m.delete k ↔ e ∈ m ∧ e.1 ≠ k := by
  simp [delete]

theorem nodup_delete (once : (m.map Prod.fst).Nodup) (k : κ) : ((m.delete k).map Prod.fst).Nodup :=
  once.sublist (List.filter_sublist.map Prod.fst)

end OrderedMap

end FinBit.Lib
