import FinBit.Lib.MapEntries

/-! # Maps of maps

Values under a key and, within the bucket of that key, under a second one. A bucket that is not there
is an empty one, so that what matters of such a map is what is found under both keys.
-/

namespace FinBit.Lib.Nested

open Std

variable {α β γ : Type} [Ord α] [TransOrd α] [LawfulEqOrd α] [Ord β] [TransOrd β] [LawfulEqOrd β]

abbrev Map (α β γ : Type) [Ord α] [Ord β] := ExtTreeMap α (ExtTreeMap β γ)

def bucket (m : Map α β γ) (a : α) : ExtTreeMap β γ :=
  m[a]?.getD ∅

def lookup (m : Map α β γ) (a : α) (b : β) : Option γ :=
  (bucket m a)[b]?

/-- A value under new keys, or over another one. -/
def put (m : Map α β γ) (a : α) (b : β) (v : γ) : Map α β γ :=
  m.insert a ((bucket m a).insert b v)

/-- The values with a property; a bucket that has none is dropped. -/
def keep (f : γ → Bool) (m : Map α β γ) : Map α β γ :=
  (m.map fun _ bucket => bucket.filter fun _ v => f v).filter fun _ bucket => !bucket.isEmpty

omit [LawfulEqOrd α] [LawfulEqOrd β] in
theorem lookup_empty (a : α) (b : β) : lookup (∅ : Map α β γ) a b = none := by
  simp [lookup, bucket]

theorem lookup_put [DecidableEq α] [DecidableEq β] (m : Map α β γ) (a a' : α) (b b' : β) (v : γ) :
    lookup (put m a b v) a' b' = if a = a' ∧ b = b' then some v else lookup m a' b' := by
  by_cases same : a = a'
  · subst same
    have found : bucket (put m a b v) a = (bucket m a).insert b v := by
      rw [bucket, put, ExtTreeMap.getElem?_insert_self]
      rfl
    rw [lookup, found, ExtTreeMap.getElem?_insert]
    by_cases here : b = b'
    · rw [if_pos (Std.compare_eq_iff_eq.mpr here), if_pos ⟨rfl, here⟩]
    · rw [if_neg (fun equal => here (Std.compare_eq_iff_eq.mp equal)), if_neg fun both => here both.2]
      rfl
  · rw [if_neg fun both => same both.1, lookup, bucket, put, ExtTreeMap.getElem?_insert,
      if_neg fun equal => same (Std.compare_eq_iff_eq.mp equal)]
    rfl

theorem bucket_keep (f : γ → Bool) (m : Map α β γ) (a : α) :
    bucket (keep f m) a = (bucket m a).filter fun _ v => f v := by
  rw [bucket, bucket, keep, ExtTreeMap.getElem?_filter', ExtTreeMap.getElem?_map]
  cases m[a]? with
  | none => exact (ExtTreeMap.ext_getElem? fun b => by simp).symm
  | some values =>
    rw [Option.map_some, Option.getD_some, Option.filter_some]
    split
    · rfl
    next dropped =>
      have nothing : (values.filter fun _ v => f v).isEmpty = true := by simpa using dropped
      rw [Option.getD_none, ExtTreeMap.isEmpty_iff.mp nothing]

theorem lookup_keep (f : γ → Bool) (m : Map α β γ) (a : α) (b : β) :
    lookup (keep f m) a b = (lookup m a b).filter f := by
  rw [lookup, bucket_keep, ExtTreeMap.getElem?_filter']
  rfl

/-- The values of a bucket. -/
def values (m : Map α β γ) (a : α) : List γ :=
  (bucket m a).toList.map Prod.snd

omit [LawfulEqOrd α] in
theorem mem_values_iff {m : Map α β γ} {a : α} {v : γ} :
    v ∈ values m a ↔ ∃ b, lookup m a b = some v :=
  mem_values

/-- The values with a property are those of the bucket in which the others are left out. -/
theorem filter_values (f : γ → Bool) (m : Map α β γ) (a : α) :
    (values m a).filter f = values (keep f m) a := by
  rw [values, values, bucket_keep, ExtTreeMap.toList_filter, List.filter_map]
  rfl

/-- Where the same is found with a property, the values with the property are listed alike. -/
theorem filter_values_congr {f : γ → Bool} {m m' : Map α β γ} {a : α}
    (same : ∀ b, (lookup m a b).filter f = (lookup m' a b).filter f) :
    (values m a).filter f = (values m' a).filter f := by
  have buckets : bucket (keep f m) a = bucket (keep f m') a := by
    refine ExtTreeMap.ext_getElem? fun b => ?_
    have kept := same b
    rwa [← lookup_keep, ← lookup_keep] at kept
  rw [filter_values, filter_values, values, values, buckets]

end FinBit.Lib.Nested
