import Mathlib.Data.List.Basic
import Mathlib.Data.List.Pairwise
import Mathlib.Data.List.Induction
import FinBit.Lib.Bytes

/-! # Keyed tables

A fragment of SQLite: values with their storage classes, the comparison `=` of a
`WHERE` clause, and tables with a primary key. A row has its key columns, one
column `value` that a statement rewrites, and the rest of its columns in `info`.

A table lists its rows in rowid order. `NULL` equals nothing, so a nullable key
column may hold it in several rows.
-/

namespace FinBit.Lib.Sql

/-- A value with its storage class. -/
inductive Value
  | null
  | integer (n : Int)
  | text (s : CString)
  | blob (b : Bytes)
  deriving DecidableEq

namespace Value

/-- `sqlite3_column_blob`; an integer is read as its decimal text. -/
def bytes : Value → Bytes
  | null => []
  | integer n => ascii (toString n)
  | text s => s.val
  | blob b => b

/-- Whether `a = b` is true in SQL: `NULL` equals nothing, and values of different
storage classes differ. -/
def equals (a b : Value) : Bool := a ≠ null && a = b

@[simp] theorem equals_eq_true_iff (a b : Value) : a.equals b = true ↔ a ≠ null ∧ a = b := by
  simp [equals]

end Value

/-- A `BLOB` column that may be `NULL`. -/
def nullable : Option Bytes → Value
  | none => .null
  | some b => .blob b

@[simp] theorem nullable_none : nullable none = .null := rfl
@[simp] theorem nullable_some (b : Bytes) : nullable (some b) = .blob b := rfl

/-- What `sqlite3_bind_blob` puts into a column: a null pointer binds `NULL`. -/
def column (b : Span) : Option Bytes := if b.isNull then none else some b.bytes

@[simp] theorem column_of (b : Bytes) : column (.of b) = some b := rfl

theorem column_ofVector (b : Bytes) : column (.ofVector b) = if b = [] then none else some b := by
  simp [column, Span.ofVector]

/-- `sqlite3_bind_blob`. -/
def bindBlob (b : Span) : Value := nullable (column b)

/-- The conjunction of `column = value` over the columns of a key. -/
def matchAll (columns bound : List Value) : Bool :=
  columns.length = bound.length && (columns.zip bound).all fun p => p.1.equals p.2

/-- Lists that match are equal, and hold no `NULL`. -/
theorem matchAll_eq_true_iff (a b : List Value) :
    matchAll a b = true ↔ a = b ∧ Value.null ∉ a := by
  induction a generalizing b with
  | nil => cases b <;> simp [matchAll]
  | cons v vs ih =>
    cases b with
    | nil => simp [matchAll]
    | cons w ws =>
      have rest := ih ws
      simp only [matchAll, Bool.and_eq_true, decide_eq_true_eq, List.length_cons,
        List.zip_cons_cons, List.all_cons, Nat.add_right_cancel_iff, Value.equals_eq_true_iff,
        List.cons.injEq, List.mem_cons, not_or] at rest ⊢
      constructor
      · rintro ⟨lengths, ⟨present, same⟩, all⟩
        obtain ⟨tails, absent⟩ := rest.mp ⟨lengths, all⟩
        exact ⟨⟨same, tails⟩, Ne.symm present, absent⟩
      · rintro ⟨⟨same, tails⟩, present, absent⟩
        obtain ⟨lengths, all⟩ := rest.mpr ⟨tails, absent⟩
        exact ⟨lengths, ⟨Ne.symm present, same⟩, all⟩

theorem matchAll_comm (a b : List Value) : matchAll a b = matchAll b a := by
  rw [Bool.eq_iff_iff, matchAll_eq_true_iff, matchAll_eq_true_iff]
  constructor
  all_goals
    rintro ⟨rfl, absent⟩
    exact ⟨rfl, absent⟩

/-! ### Keys and columns -/

/-- A type of primary keys, by its columns. -/
class KeyColumns (κ : Type) where
  columns : κ → List Value

export KeyColumns (columns)

instance : KeyColumns (Option Bytes) := ⟨fun k => [nullable k]⟩
instance : KeyColumns CString := ⟨fun k => [.text k]⟩
instance : KeyColumns Int := ⟨fun k => [.integer k]⟩
instance : KeyColumns (Bytes × Bytes) := ⟨fun k => [.blob k.1, .blob k.2]⟩
instance : KeyColumns (Bytes × Int64) := ⟨fun k => [.blob k.1, .integer k.2.toInt]⟩

/-- Whether two keys violate uniqueness. -/
def clash {κ : Type} [KeyColumns κ] (a b : κ) : Bool := matchAll (columns a) (columns b)

theorem clash_comm {κ : Type} [KeyColumns κ] (a b : κ) : clash a b = clash b a :=
  matchAll_comm _ _

/-- A column that holds binary data, and what else its type admits. -/
class BlobColumn (ν : Type) where
  bytes : ν → Bytes
  ofBlob : Bytes → ν
  bytes_ofBlob : ∀ b, bytes (ofBlob b) = b

attribute [simp] BlobColumn.bytes_ofBlob

/-- `BLOB NOT NULL`. -/
instance : BlobColumn Bytes := ⟨id, id, fun _ => rfl⟩

/-- `BLOB`. -/
instance : BlobColumn (Option Bytes) := ⟨fun v => v.getD [], some, fun _ => rfl⟩

/-- `TEXT NOT NULL`; text affinity leaves a bound `BLOB` as it is. -/
instance : BlobColumn (CString ⊕ Bytes) :=
  ⟨fun v => v.elim (·.val) id, .inr, fun _ => rfl⟩

@[simp] theorem bytes_blob (b : Bytes) : BlobColumn.bytes b = b := rfl
@[simp] theorem bytes_some (b : Bytes) : BlobColumn.bytes (some b) = b := rfl
@[simp] theorem bytes_text (s : CString) :
    BlobColumn.bytes (.inl s : CString ⊕ Bytes) = s.val := rfl

/-! ### Tables -/

@[ext] structure Row (κ ι ν : Type) where
  key : κ
  info : ι
  value : ν

@[ext] structure Table (κ ι ν : Type) [KeyColumns κ] where
  rows : List (Row κ ι ν)
  primaryKey : rows.Pairwise fun a b => clash a.key b.key = false

namespace Table

variable {κ ι ν ν' : Type} [KeyColumns κ]

def empty : Table κ ι ν := ⟨[], .nil⟩

@[simp] theorem empty_rows : (empty : Table κ ι ν).rows = [] := rfl

/-- Whether a row has this key. -/
def has (t : Table κ ι ν) (k : κ) : Bool := t.rows.any fun r => clash r.key k

private theorem primaryKey_append (t : Table κ ι ν) {r : Row κ ι ν} (free : t.has r.key = false) :
    (t.rows ++ [r]).Pairwise fun a b => clash a.key b.key = false := by
  apply List.pairwise_append.mpr
  refine ⟨t.primaryKey, List.pairwise_singleton _ _, ?_⟩
  intro a member b last
  rw [List.mem_singleton.mp last]
  simpa using List.any_eq_false.mp free a member

/-- `INSERT`; `none` where the key is taken. -/
def insert (t : Table κ ι ν) (r : Row κ ι ν) : Option (Table κ ι ν) :=
  if free : t.has r.key = false then some ⟨t.rows ++ [r], t.primaryKey_append free⟩ else none

/-- `INSERT OR IGNORE`, and an `INSERT` whose failure nobody looks at. -/
def insertOrIgnore (t : Table κ ι ν) (r : Row κ ι ν) : Table κ ι ν := (t.insert r).getD t

/-- `DELETE … WHERE`. -/
def delete (t : Table κ ι ν) (p : κ → ι → Bool) : Table κ ι ν :=
  ⟨t.rows.filter fun r => !p r.key r.info, t.primaryKey.filter _⟩

private theorem has_delete (t : Table κ ι ν) (k : κ) :
    (t.delete fun k' _ => clash k' k).has k = false := by
  simp [has, delete]

/-- `INSERT OR REPLACE`. -/
def insertOrReplace (t : Table κ ι ν) (r : Row κ ι ν) : Table κ ι ν :=
  ⟨(t.delete fun k _ => clash k r.key).rows ++ [r], primaryKey_append _ (t.has_delete r.key)⟩

/-- Rewriting rows without touching a key. -/
def mapRows (t : Table κ ι ν) (f : Row κ ι ν → Row κ ι ν') (keys : ∀ r, (f r).key = r.key) :
    Table κ ι ν' :=
  ⟨t.rows.map f, by simpa [List.pairwise_map, keys] using t.primaryKey⟩

/-- Rewriting the value column. -/
def mapValues (t : Table κ ι ν) (f : Row κ ι ν → ν') : Table κ ι ν' :=
  t.mapRows (fun r => { r with value := f r }) fun _ => rfl

@[simp] theorem mapValues_rows (t : Table κ ι ν) (f : Row κ ι ν → ν') :
    (t.mapValues f).rows = t.rows.map fun r => { r with value := f r } := rfl

/-- `INSERT … ON CONFLICT(key) DO UPDATE SET` every other column to the one of `excluded`. -/
def upsert (t : Table κ ι ν) (r : Row κ ι ν) : Table κ ι ν :=
  if t.has r.key = true then
    t.mapRows (fun old => if clash old.key r.key then { r with key := old.key } else old) fun old =>
      by split <;> rfl
  else t.insertOrIgnore r

/-- `INSERT … ON CONFLICT(key) DO UPDATE SET` the columns to what `set` makes of the old row
and `excluded`. -/
def upsertWith (t : Table κ ι ν) (r : Row κ ι ν) (set : Row κ ι ν → Row κ ι ν → ι × ν) :
    Table κ ι ν :=
  if t.has r.key = true then
    t.mapRows (fun old => if clash old.key r.key then ⟨old.key, (set old r).1, (set old r).2⟩ else old)
      fun old => by split <;> rfl
  else t.insertOrIgnore r

theorem rows_upsertWith_of_has {t : Table κ ι ν} {r : Row κ ι ν} (taken : t.has r.key = true)
    (set : Row κ ι ν → Row κ ι ν → ι × ν) :
    (t.upsertWith r set).rows = t.rows.map fun old =>
      if clash old.key r.key then ⟨old.key, (set old r).1, (set old r).2⟩ else old := by
  simp [upsertWith, taken, mapRows]

theorem rows_upsertWith_of_free {t : Table κ ι ν} {r : Row κ ι ν} (free : t.has r.key = false)
    (set : Row κ ι ν → Row κ ι ν → ι × ν) : (t.upsertWith r set).rows = t.rows ++ [r] := by
  simp [upsertWith, free, insertOrIgnore, insert]

/-- `UPDATE … SET value = ? WHERE key = ?`. -/
def update (t : Table κ ι ν) (bound : List Value) (v : ν) : Table κ ι ν :=
  t.mapValues fun r => if matchAll (columns r.key) bound then v else r.value

/-- `SELECT … WHERE key = ?`, of which the first row is read. -/
def find (t : Table κ ι ν) (bound : List Value) : Option (Row κ ι ν) :=
  t.rows.find? fun r => matchAll (columns r.key) bound

@[simp] theorem clash_self_eq_true_iff (k : κ) : clash k k = true ↔ Value.null ∉ columns k := by
  simp [clash, matchAll_eq_true_iff]

/-- The primary key leaves one row for a key without `NULL`. -/
theorem eq_of_clash (t : Table κ ι ν) {r r' : Row κ ι ν} (member : r ∈ t.rows)
    (member' : r' ∈ t.rows) (same : clash r.key r'.key = true) : r = r' := by
  by_contra ne
  have symm : Std.Symm fun a b : Row κ ι ν => clash a.key b.key = false := by
    constructor
    intro a b free
    rw [clash_comm, free]
  have apart := t.primaryKey.forall member member' ne
  rw [same] at apart
  contradiction

/-- A row is found by its key. -/
theorem find_columns (t : Table κ ι ν) {r : Row κ ι ν} (member : r ∈ t.rows)
    (present : Value.null ∉ columns r.key) : t.find (columns r.key) = some r := by
  have some_row : (t.find (columns r.key)).isSome := by
    apply List.find?_isSome.mpr
    exact ⟨r, member, by simpa [matchAll_eq_true_iff] using present⟩
  obtain ⟨first, found⟩ := Option.isSome_iff_exists.mp some_row
  have hit : matchAll (columns first.key) (columns r.key) = true := by
    simpa using List.find?_some found
  have same : clash first.key r.key = true := hit
  rw [found, t.eq_of_clash (List.mem_of_find?_eq_some found) member same]

theorem find_nullable_iff (t : Table (Option Bytes) ι ν) (b : Span) (r : Row (Option Bytes) ι ν) :
    t.find [bindBlob b] = some r ↔ r ∈ t.rows ∧ r.key = some b.bytes ∧ b.isNull = false := by
  constructor
  · intro found
    have hit : matchAll (columns r.key) [bindBlob b] = true := by
      simpa using List.find?_some found
    refine ⟨List.mem_of_find?_eq_some found, ?_⟩
    rw [matchAll_eq_true_iff] at hit
    cases key : r.key <;> cases null : b.isNull <;>
      simp_all [KeyColumns.columns, bindBlob, column]
  · rintro ⟨member, key, present⟩
    have bound : [bindBlob b] = columns r.key := by
      simp [KeyColumns.columns, bindBlob, column, present, key]
    rw [bound]
    exact t.find_columns member (by simp [KeyColumns.columns, key])

/-- Two ways of reading a row agree on every look-up when they agree on every row
that a look-up can reach. -/
theorem lookups_eq_iff {β : Type} (t : Table (Option Bytes) ι ν)
    (f g : Row (Option Bytes) ι ν → Bytes → Option β) :
    (∀ b : Span, (t.find [bindBlob b]).bind (f · b.bytes) =
        (t.find [bindBlob b]).bind (g · b.bytes)) ↔
      ∀ r ∈ t.rows, ∀ b, r.key = some b → f r b = g r b := by
  constructor
  · intro same r member b key
    have found := (t.find_nullable_iff (.of b) r).mpr ⟨member, key, rfl⟩
    simpa [found] using same (.of b)
  · intro same b
    cases found : t.find [bindBlob b] with
    | none => rfl
    | some r =>
      obtain ⟨member, key, -⟩ := (t.find_nullable_iff b r).mp found
      exact same r member b.bytes key

theorem find_mapValues (t : Table κ ι ν) (f : Row κ ι ν → ν') (bound : List Value) :
    (t.mapValues f).find bound = (t.find bound).map fun r => { r with value := f r } := by
  simp only [find, mapValues_rows, List.find?_map, Function.comp_def]

/-! ### A pass of updates

A statement that is prepared once and run for each row of an earlier `SELECT`. -/

section Pass

variable {σ : Type} (bound : σ → List Value) (new : σ → ν)

/-- What the pass makes of one row: the last update that addresses it wins. -/
def passValue (steps : List σ) (r : Row κ ι ν) : ν :=
  steps.foldl (fun v s => if matchAll (columns r.key) (bound s) then new s else v) r.value

private theorem foldl_update (steps : List σ) (t : Table κ ι ν) :
    steps.foldl (fun t s => t.update (bound s) (new s)) t =
      t.mapValues (passValue bound new steps) := by
  induction steps generalizing t with
  | nil =>
    apply Table.ext
    simp [passValue]
  | cons s rest ih =>
    rw [List.foldl_cons, ih]
    apply Table.ext
    simp [passValue, update, Function.comp_def]

/-- A pass leaves a value alone, or takes it from a step that addresses the row. -/
private theorem passValue_cases (steps : List σ) (r : Row κ ι ν) :
    (∀ s ∈ steps, matchAll (columns r.key) (bound s) = false) ∧
        passValue bound new steps r = r.value ∨
      ∃ s ∈ steps, matchAll (columns r.key) (bound s) = true ∧
        passValue bound new steps r = new s := by
  induction steps using List.reverseRecOn with
  | nil => exact .inl ⟨by simp, rfl⟩
  | append_singleton before s ih =>
    simp only [passValue, List.foldl_append, List.foldl_cons, List.foldl_nil] at ih ⊢
    -- the last step decides, unless it passes the row by
    cases hit : matchAll (columns r.key) (bound s) with
    | true => exact .inr ⟨s, by simp, hit, rfl⟩
    | false =>
      rcases ih with ⟨miss, kept⟩ | ⟨s', member, hit', taken⟩
      · left
        refine ⟨?_, kept⟩
        intro s' member
        rcases List.mem_append.mp member with earlier | last
        · exact miss s' earlier
        · rw [List.mem_singleton.mp last, hit]
      · exact .inr ⟨s', by simp [member], hit', taken⟩

theorem exists_foldl_update (steps : List σ) (t : Table κ ι ν) :
    ∃ value, steps.foldl (fun t s => t.update (bound s) (new s)) t = t.mapValues value ∧
      ∀ r, (∀ s ∈ steps, matchAll (columns r.key) (bound s) = false) ∧ value r = r.value ∨
        ∃ s ∈ steps, matchAll (columns r.key) (bound s) = true ∧ value r = new s :=
  ⟨_, foldl_update bound new steps t, passValue_cases bound new steps⟩

end Pass

end Table

end FinBit.Lib.Sql
