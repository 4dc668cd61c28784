import Std.Data.ExtTreeMap

/-! # The values of a map

A property of every value of a map, and how the operations keep it. `insertIfNew` is
`emplace`, seen through look-ups.
-/

namespace FinBit.Lib

open Std

variable {α β : Type} [Ord α] [TransOrd α] {p q : β → Prop} {m : ExtTreeMap α β}

def AllValues (p : β → Prop) (m : ExtTreeMap α β) : Prop := ∀ (k : α) (v : β), m[k]? = some v → p v

namespace AllValues

theorem empty : AllValues p (∅ : ExtTreeMap α β) := by
  intro k v found
  simp at found

theorem mono (all : AllValues p m) (weaker : ∀ v, p v → q v) : AllValues q m :=
  fun k v found => weaker v (all k v found)

theorem insert (all : AllValues p m) {k : α} {v : β} (new : p v) : AllValues p (m.insert k v) := by
  intro k' v' found
  rw [ExtTreeMap.getElem?_insert] at found
  split at found
  · cases found
    exact new
  · exact all k' v' found

theorem insertIfNew (all : AllValues p m) {k : α} {v : β} (new : p v) :
    AllValues p (m.insertIfNew k v) := by
  intro k' v' found
  rw [ExtTreeMap.getElem?_insertIfNew] at found
  split at found
  · cases found
    exact new
  · exact all k' v' found

theorem erase (all : AllValues p m) {k : α} : AllValues p (m.erase k) := by
  intro k' v' found
  rw [ExtTreeMap.getElem?_erase] at found
  split at found
  · cases found
  · exact all k' v' found

end AllValues

theorem nodup_keys (m : ExtTreeMap α β) : m.keys.Nodup :=
  m.distinct_keys.imp fun apart same => apart (by simp [same])

theorem nodup_keys_toList (m : ExtTreeMap α β) : (m.toList.map Prod.fst).Nodup := by
  rw [ExtTreeMap.map_fst_toList_eq_keys]
  exact nodup_keys m

theorem mem_values [LawfulEqOrd α] {m : ExtTreeMap α β} {v : β} :
    v ∈ m.toList.map Prod.snd ↔ ∃ k : α, m[k]? = some v := by
  simp [ExtTreeMap.mem_toList_iff_getElem?_eq_some]

theorem getElem?_emplace [LawfulEqOrd α] [DecidableEq α] (m : ExtTreeMap α β) (k : α) (v : β) (i : α) :
    (m.insertIfNew k v)[i]? = if k = i ∧ m[i]? = none then some v else m[i]? := by
  rw [ExtTreeMap.getElem?_insertIfNew]
  by_cases here : k = i
  · subst here
    simp
  · simp [here]

theorem size_emplace (m : ExtTreeMap α β) (k : α) (v : β) :
    (m.insertIfNew k v).size = m.size + if m[k]? = none then 1 else 0 := by
  rw [ExtTreeMap.size_insertIfNew]
  by_cases member : k ∈ m <;> simp [member]

/-! ### Entries one after the other -/

section Inserts

variable [LawfulEqOrd α] {γ : Type} (key : γ → α) (value : γ → β)

/-- The last of the new entries counts. -/
theorem getElem?_inserts [DecidableEq α] (entries : List γ) (m : ExtTreeMap α β) (k : α) :
    (entries.foldl (fun m e => m.insert (key e) (value e)) m)[k]? =
      ((entries.reverse.find? (key · = k)).map value).or m[k]? := by
  induction entries generalizing m with
  | nil => simp
  | cons e rest ih =>
    rw [List.foldl_cons, ih, ExtTreeMap.getElem?_insert, List.reverse_cons, List.find?_append,
      Option.map_or, Option.or_assoc]
    congr 1
    by_cases here : key e = k <;> simp [here]

theorem mem_inserts (entries : List γ) (m : ExtTreeMap α β) (k : α) :
    k ∈ entries.foldl (fun m e => m.insert (key e) (value e)) m ↔
      k ∈ entries.map key ∨ k ∈ m := by
  induction entries generalizing m with
  | nil => simp
  | cons e rest ih =>
    rw [List.foldl_cons, ih, ExtTreeMap.mem_insert, Std.compare_eq_iff_eq, List.map_cons,
      List.mem_cons]
    grind

theorem inserts_twice [DecidableEq α] (entries : List γ) (m : ExtTreeMap α β) :
    entries.foldl (fun m e => m.insert (key e) (value e))
      (entries.foldl (fun m e => m.insert (key e) (value e)) m) =
      entries.foldl (fun m e => m.insert (key e) (value e)) m := by
  refine ExtTreeMap.ext_getElem? fun k => ?_
  rw [getElem?_inserts, getElem?_inserts]
  cases entries.reverse.find? (key · = k) <;> rfl

end Inserts

end FinBit.Lib
