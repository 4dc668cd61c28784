import FinBit.Lib.Sql

/-! # Tables seen through a reader

A table whose value column is encoded stands for the table of what is read from it. A
statement that does not look at the value column does the same to both, and so does a
query. `Shows` relates the two tables; there is one rule for each statement.
-/

namespace FinBit.Lib.Sql

/-- Key types whose columns tell the keys apart. -/
class DistinctColumns (κ : Type) [KeyColumns κ] : Prop where
  injective : Function.Injective (columns : κ → List Value)

instance : DistinctColumns (Option Bytes) where
  injective a b same := by
    cases a <;> cases b <;> simp_all [columns]

instance : DistinctColumns CString where
  injective a b same := by simpa [columns] using same

instance : DistinctColumns (Bytes × Bytes) where
  injective a b same := by
    simp only [columns, List.cons.injEq, Value.blob.injEq, and_true] at same
    exact Prod.ext same.1 same.2

instance : DistinctColumns (Bytes × Int64) where
  injective a b same := by
    simp only [columns, List.cons.injEq, Value.blob.injEq, Value.integer.injEq, and_true] at same
    exact Prod.ext same.1 (Int64.toInt_inj.mp same.2)

theorem key_eq_of_clash {κ : Type} [KeyColumns κ] [DistinctColumns κ] {a b : κ}
    (same : clash a b = true) : a = b :=
  DistinctColumns.injective ((matchAll_eq_true_iff _ _).mp same).1

namespace Table

variable {κ ι ν ν' : Type} [KeyColumns κ]

/-! ### Statements and a map over the values -/

theorem has_mapValues (t : Table κ ι ν) (f : Row κ ι ν → ν') (k : κ) :
    (t.mapValues f).has k = t.has k := by
  simp [has, Function.comp_def]

theorem mapValues_insert (t : Table κ ι ν) (f : Row κ ι ν → ν') (r : Row κ ι ν) :
    (t.insert r).map (·.mapValues f) = (t.mapValues f).insert { r with value := f r } := by
  unfold insert
  simp only [has_mapValues]
  split
  · simp [mapValues, mapRows]
  · rfl

theorem mapValues_insertOrIgnore (t : Table κ ι ν) (f : Row κ ι ν → ν') (r : Row κ ι ν) :
    (t.insertOrIgnore r).mapValues f = (t.mapValues f).insertOrIgnore { r with value := f r } := by
  rw [insertOrIgnore, insertOrIgnore, ← mapValues_insert]
  cases t.insert r <;> rfl

theorem mapValues_delete (t : Table κ ι ν) (f : Row κ ι ν → ν') (p : κ → ι → Bool) :
    (t.delete p).mapValues f = (t.mapValues f).delete p := by
  apply Table.ext
  simp [delete, List.filter_map, Function.comp_def]

theorem mapValues_insertOrReplace (t : Table κ ι ν) (f : Row κ ι ν → ν') (r : Row κ ι ν) :
    (t.insertOrReplace r).mapValues f = (t.mapValues f).insertOrReplace { r with value := f r } := by
  apply Table.ext
  have rows := congrArg Table.rows (mapValues_delete t f fun k _ => clash k r.key)
  simp only [mapValues_rows] at rows
  simp only [insertOrReplace, mapValues_rows, List.map_append, rows, List.map_cons, List.map_nil]

/-- The row that an upsert rewrites has the key of the new one. -/
theorem mapValues_upsert [DistinctColumns κ] (t : Table κ ι ν) (f : Row κ ι ν → ν')
    (r : Row κ ι ν) :
    (t.upsert r).mapValues f = (t.mapValues f).upsert { r with value := f r } := by
  unfold upsert
  simp only [has_mapValues]
  split
  · apply Table.ext
    simp only [mapRows, mapValues_rows, List.map_map, List.map_inj_left, Function.comp_apply]
    intro old _
    by_cases same : clash old.key r.key = true
    · simp only [same, if_true]
      rw [key_eq_of_clash same]
    · simp only [same, if_false, Bool.false_eq_true]
  · exact mapValues_insertOrIgnore t f r

/-! ### What an upsert leaves to a look-up -/

theorem mem_upsert [DistinctColumns κ] (t : Table κ ι ν) (r : Row κ ι ν) :
    r ∈ (t.upsert r).rows := by
  unfold upsert
  split
  next taken =>
    obtain ⟨old, member, same⟩ := List.any_eq_true.mp taken
    apply List.mem_map.mpr
    refine ⟨old, member, ?_⟩
    rw [if_pos same, key_eq_of_clash same]
  next free =>
    rw [Bool.not_eq_true] at free
    simp [insertOrIgnore, insert, free]

/-- A row that was written is found by its key. -/
theorem find_upsert [DistinctColumns κ] (t : Table κ ι ν) {r : Row κ ι ν}
    (present : Value.null ∉ columns r.key) : (t.upsert r).find (columns r.key) = some r :=
  (t.upsert r).find_columns (t.mem_upsert r) present

theorem find_upsert_other [DistinctColumns κ] (t : Table κ ι ν) {r : Row κ ι ν}
    {bound : List Value} (other : matchAll (columns r.key) bound = false) :
    (t.upsert r).find bound = t.find bound := by
  unfold upsert
  split
  · have keys (old : Row κ ι ν) :
        (if clash old.key r.key then { r with key := old.key } else old : Row κ ι ν).key =
          old.key := by
      split <;> rfl
    simp only [find, mapRows, List.find?_map, Function.comp_def, keys]
    cases found : t.rows.find? fun old => matchAll (columns old.key) bound with
    | none => rfl
    | some old =>
      have hit : matchAll (columns old.key) bound = true := by
        simpa using List.find?_some found
      have apart : clash old.key r.key = false := by
        rw [Bool.eq_false_iff]
        intro same
        rw [key_eq_of_clash same, other] at hit
        contradiction
      simp [apart]
  next free =>
    rw [Bool.not_eq_true] at free
    simp [find, insertOrIgnore, insert, free, List.find?_append, other]

/-- Rewriting every value in place, each row addressed by its rowid. -/
def mapValuesIdx (t : Table κ ι ν) (f : Nat → Row κ ι ν → ν') : Table κ ι ν' where
  rows := t.rows.zipIdx.map fun p => { p.1 with value := f p.2 p.1 }
  primaryKey := by
    have distinct := t.primaryKey
    rw [← List.zipIdx_map_fst 0 t.rows, List.pairwise_map] at distinct
    exact List.pairwise_map.mpr distinct

/-- A reader that sees a row as before sees the table as before. -/
theorem mapValuesIdx_mapValues {μ : Type} (t : Table κ ι ν) (f : Nat → Row κ ι ν → ν')
    {g : Row κ ι ν' → μ} {h : Row κ ι ν → μ}
    (same : ∀ i, ∀ r ∈ t.rows, g { r with value := f i r } = h r) :
    (t.mapValuesIdx f).mapValues g = t.mapValues h := by
  apply Table.ext
  simp only [mapValues_rows, mapValuesIdx, List.map_map]
  conv_rhs => rw [← List.zipIdx_map_fst 0 t.rows, List.map_map]
  apply List.map_congr_left
  intro p member
  simp only [Function.comp_apply, same p.2 p.1 (List.fst_mem_of_mem_zipIdx member)]

/-! ### Queries -/

/-- A query that looks at the keys and the other columns, but not at the values. -/
structure Query (κ ι : Type) where
  run {μ : Type} : List (Row κ ι μ) → List (Row κ ι μ)
  natural : ∀ {μ μ' : Type} (f : Row κ ι μ → μ') (rows : List (Row κ ι μ)),
    run (rows.map fun r => { r with value := f r }) = (run rows).map fun r => { r with value := f r }

namespace Query

/-- `WHERE`. -/
def select (p : κ → ι → Bool) : Query κ ι where
  run rows := rows.filter fun r => p r.key r.info
  natural _ _ := List.filter_map

/-- `ORDER BY`. -/
def orderBy (le : κ → ι → κ → ι → Bool) : Query κ ι where
  run rows := rows.mergeSort fun a b => le a.key a.info b.key b.info
  natural f rows := by
    symm
    apply List.map_mergeSort
    intros
    rfl

def comp (second first : Query κ ι) : Query κ ι where
  run rows := second.run (first.run rows)
  natural f rows := by rw [first.natural, second.natural]

end Query

/-! ### What a table shows -/

/-- Every value of `t` is read, and what is read is the value in `u`. -/
def Shows (read : Row κ ι ν → Option ν') (t : Table κ ι ν) (u : Table κ ι ν') : Prop :=
  t.mapValues read = u.mapValues fun r => some r.value

namespace Shows

variable {read : Row κ ι ν → Option ν'} {t : Table κ ι ν} {u : Table κ ι ν'}

theorem insertOrIgnore (shows : Shows read t u) {r : Row κ ι ν} {v : ν'} (opens : read r = some v) :
    Shows read (t.insertOrIgnore r) (u.insertOrIgnore { r with value := v }) := by
  rw [Shows, mapValues_insertOrIgnore, mapValues_insertOrIgnore, shows, opens]

theorem insertOrReplace (shows : Shows read t u) {r : Row κ ι ν} {v : ν'}
    (opens : read r = some v) :
    Shows read (t.insertOrReplace r) (u.insertOrReplace { r with value := v }) := by
  rw [Shows, mapValues_insertOrReplace, mapValues_insertOrReplace, shows, opens]

theorem upsert [DistinctColumns κ] (shows : Shows read t u) {r : Row κ ι ν} {v : ν'}
    (opens : read r = some v) : Shows read (t.upsert r) (u.upsert { r with value := v }) := by
  rw [Shows, mapValues_upsert, mapValues_upsert, shows, opens]

theorem delete (shows : Shows read t u) (p : κ → ι → Bool) :
    Shows read (t.delete p) (u.delete p) := by
  rw [Shows, mapValues_delete, mapValues_delete, shows]

theorem opens (shows : Shows read t u) {r : Row κ ι ν} (member : r ∈ t.rows) :
    ∃ v, read r = some v := by
  have rows := congrArg Table.rows shows
  simp only [mapValues_rows] at rows
  have seen := List.mem_map_of_mem (f := fun r => ({ r with value := read r } : Row κ ι (Option ν')))
    member
  rw [rows] at seen
  obtain ⟨r', -, same⟩ := List.mem_map.mp seen
  exact ⟨r'.value, (congrArg Row.value same).symm⟩

/-- Rewriting the values for another reader. -/
theorem rewrite {read' : Row κ ι ν → Option ν'} (shows : Shows read t u) {f : Nat → Row κ ι ν → ν}
    (same : ∀ i, ∀ r ∈ t.rows, ∀ v, read r = some v → read' { r with value := f i r } = some v) :
    Shows read' (t.mapValuesIdx f) u := by
  rw [Shows, ← shows]
  apply mapValuesIdx_mapValues
  intro i r member
  obtain ⟨v, opened⟩ := shows.opens member
  rw [opened]
  exact same i r member v opened

theorem find (shows : Shows read t u) (bound : List Value) :
    (t.find bound).bind read = (u.find bound).map (·.value) := by
  have found := congrArg (·.find bound) shows
  simp only [find_mapValues] at found
  have values := congrArg (fun row => row.bind (·.value)) found
  rw [Option.map_eq_bind]
  simpa [Option.bind_map, Function.comp_def] using values

theorem query (shows : Shows read t u) (q : Query κ ι) :
    ((q.run t.rows).map fun r => ({ r with value := read r } : Row κ ι (Option ν'))) =
      (q.run u.rows).map fun r => { r with value := some r.value } := by
  rw [← q.natural, ← q.natural]
  exact congrArg (fun t => q.run t.rows) shows

/-- What is listed of the rows of a query. -/
theorem listed {β : Type} (shows : Shows read t u) (q : Query κ ι) (show_ : κ → ι → ν' → β) :
    (q.run t.rows).filterMap (fun r => (read r).map (show_ r.key r.info)) =
      (q.run u.rows).map fun r => show_ r.key r.info r.value := by
  have seen := congrArg (List.filterMap fun r => r.value.map (show_ r.key r.info)) (shows.query q)
  simpa only [List.filterMap_map, Function.comp_def, Option.map_some,
    List.filterMap_eq_map'] using seen

end Shows

end Table

end FinBit.Lib.Sql
