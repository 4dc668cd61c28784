import Mathlib.Data.List.AList
import FinBit.Lib.Bytes
import FinBit.Lib.Runs

/-! # The relay's user directory

`Directory` keeps the name-to-key binding in two places: the in-memory map
`name_to_pub_` and, once persistence is enabled, the table `srv_directory`. The
operations fill them differently. `register_user` consults only the map;
`resolve` and `reverse_resolve` fall back to the table and copy what they find
into the map. A restart empties the map and keeps the table.

The property of interest is about whole runs: once a name has been registered
for a key, no later call gives it to another one.
-/

namespace FinBit.Server

open FinBit.Lib

/-! ### The table `srv_directory` -/

/-- A row of `srv_directory`. The username was bound with length `-1`, so it
holds no NUL; `pubkey` is declared `NOT NULL`. -/
structure DirectoryRow where
  username : CString
  pubkey : Bytes

/-- The table in rowid order, with `username` as its primary key. -/
structure SrvDirectory where
  rows : List DirectoryRow
  primaryKey : (rows.map DirectoryRow.username).Nodup

namespace SrvDirectory

def empty : SrvDirectory := ⟨[], by simp⟩

def find (db : SrvDirectory) (name : CString) : Option Bytes :=
  (db.rows.find? (·.username = name)).map (·.pubkey)

private def setKey (name : CString) (pubkey : Bytes) (row : DirectoryRow) : DirectoryRow :=
  if row.username = name then { row with pubkey } else row

private theorem setKey_username (name : CString) (pubkey : Bytes) (row : DirectoryRow) :
    (setKey name pubkey row).username = row.username := by
  unfold setKey
  split <;> rfl

/-- `INSERT … ON CONFLICT(username) DO UPDATE SET pubkey = excluded.pubkey`. -/
def upsert (db : SrvDirectory) (name : CString) (pubkey : Bytes) : SrvDirectory :=
  if taken : name ∈ db.rows.map DirectoryRow.username then
    ⟨db.rows.map (setKey name pubkey), by
      simpa [Function.comp_def, setKey_username] using db.primaryKey⟩
  else
    ⟨db.rows ++ [⟨name, pubkey⟩], by
      simpa [List.nodup_append, db.primaryKey] using taken⟩

/-- An upsert adds no name but its own. -/
theorem mem_rows_upsert {db : SrvDirectory} {name : CString} {pubkey : Bytes} {row : DirectoryRow}
    (member : row ∈ (db.upsert name pubkey).rows) :
    row.username = name ∨ ∃ old ∈ db.rows, old.username = row.username := by
  unfold upsert at member
  split at member
  · obtain ⟨old, inside, rfl⟩ := List.mem_map.mp member
    exact .inr ⟨old, inside, (setKey_username name pubkey old).symm⟩
  · rcases List.mem_append.mp member with old | new
    · exact .inr ⟨row, old, rfl⟩
    · rw [List.mem_singleton.mp new]
      exact .inl rfl

private theorem find?_map_setKey (rows : List DirectoryRow) (name other : CString)
    (pubkey : Bytes) :
    (rows.map (setKey name pubkey)).find? (·.username = other) =
      (rows.find? (·.username = other)).map (setKey name pubkey) := by
  induction rows with
  | nil => rfl
  | cons row rest ih =>
    simp only [List.map_cons, List.find?_cons, setKey_username]
    split
    · rfl
    · exact ih

theorem find_upsert_self (db : SrvDirectory) (name : CString) (pubkey : Bytes) :
    (db.upsert name pubkey).find name = some pubkey := by
  unfold upsert
  split
  next taken =>
    obtain ⟨row, member, named⟩ := List.mem_map.mp taken
    have found : (db.rows.find? (·.username = name)).isSome :=
      List.find?_isSome.mpr ⟨row, member, by simpa using named⟩
    obtain ⟨first, first_eq⟩ := Option.isSome_iff_exists.mp found
    have first_named : first.username = name := by
      simpa using List.find?_some first_eq
    simp only [find, find?_map_setKey, first_eq, Option.map_some, setKey, first_named, if_true]
  next free =>
    have absent : db.rows.find? (·.username = name) = none := by
      simp only [List.find?_eq_none, decide_eq_true_eq]
      intro row member named
      exact free (List.mem_map.mpr ⟨row, member, named⟩)
    simp [find, List.find?_append, absent]

theorem find_upsert_ne (db : SrvDirectory) {name other : CString} (ne : other ≠ name)
    (pubkey : Bytes) : (db.upsert name pubkey).find other = db.find other := by
  unfold upsert
  split
  next =>
    simp only [find, find?_map_setKey, Option.map_map]
    cases found : db.rows.find? (·.username = other) with
    | none => rfl
    | some row =>
      have named : row.username = other := by simpa using List.find?_some found
      simp [setKey, named, ne]
  next =>
    have skipped : [DirectoryRow.mk name pubkey].find? (·.username = other) = none := by
      simp [Ne.symm ne]
    simp only [find, List.find?_append, skipped, Option.or_none]

/-- Writing the key a row already has, or a row for an unused name, disturbs no
binding that exists. -/
theorem find_upsert_mono (db : SrvDirectory) {name other : CString} {pubkey key : Bytes}
    (compatible : db.find name = some pubkey ∨ db.find name = none)
    (bound : db.find other = some key) : (db.upsert name pubkey).find other = some key := by
  by_cases same : other = name
  · subst same
    rcases compatible with held | free
    · rw [find_upsert_self, ← held, bound]
    · rw [bound] at free
      contradiction
  · rw [find_upsert_ne db same, bound]

/-- A row found by its key is found by its name. -/
theorem find_of_find? (db : SrvDirectory) {row : DirectoryRow} {key : Bytes}
    (found : db.rows.find? (·.pubkey = key) = some row) : db.find row.username = some key := by
  have member : row ∈ db.rows := List.mem_of_find?_eq_some found
  have keyed : row.pubkey = key := by simpa using List.find?_some found
  have some_row : (db.rows.find? (·.username = row.username)).isSome :=
    List.find?_isSome.mpr ⟨row, member, by simp⟩
  obtain ⟨first, first_eq⟩ := Option.isSome_iff_exists.mp some_row
  have named : first.username = row.username := by simpa using List.find?_some first_eq
  -- The primary key leaves only one row of that name.
  have same : first = row :=
    List.inj_on_of_nodup_map db.primaryKey (List.mem_of_find?_eq_some first_eq) member named
  simp [find, first_eq, same, keyed]

end SrvDirectory

/-! ### The store's accessors -/

/-- `SqliteStore::srv_register_user`. A null span binds SQL `NULL`, the `NOT NULL`
constraint rejects the statement, and the result of the step is not looked at. -/
def srvRegisterUser (db : SrvDirectory) (username : Bytes) (pubkey : Span) : SrvDirectory :=
  if pubkey.isNull then db else db.upsert (cstr username) pubkey.bytes

/-- `SqliteStore::srv_resolve_username`. -/
def srvResolveUsername (db : SrvDirectory) (username : Bytes) : Option Bytes :=
  db.find (cstr username)

/-- `SqliteStore::srv_reverse_resolve_pubkey`; no row equals `NULL`. -/
def srvReverseResolvePubkey (db : SrvDirectory) (pubkey : Span) : Option Bytes :=
  if pubkey.isNull then none
  else (db.rows.find? (·.pubkey = pubkey.bytes)).map (·.username.val)

/-! ### `Directory` -/

/-- `std::unordered_map<std::string, std::vector<std::uint8_t>>`. -/
abbrev NameMap := AList (fun _ : Bytes => Bytes)

/-- The order in which a hash map happens to iterate over its entries. -/
structure IterationOrder where
  arrange : NameMap → List (Sigma fun _ : Bytes => Bytes)
  perm : ∀ m, (arrange m).Perm m.entries

structure Directory where
  nameToPub : NameMap
  store : Option SrvDirectory

namespace Directory

/-- A Directory just constructed, with persistence enabled on `db`. -/
def fresh (db : SrvDirectory) : Directory := ⟨∅, some db⟩

def registerUser (d : Directory) (username : Bytes) (pubkey : Span) : Directory × Bool :=
  match d.nameToPub.lookup username with
  | some held => (d, held = pubkey.bytes)
  | none =>
    ({ nameToPub := d.nameToPub.insert username pubkey.bytes
       store := d.store.map (srvRegisterUser · username pubkey) }, true)

def resolve (d : Directory) (username : Bytes) : Directory × Option Bytes :=
  match d.nameToPub.lookup username with
  | some held => (d, some held)
  | none =>
    match d.store.bind (srvResolveUsername · username) with
    | some loaded => ({ d with nameToPub := d.nameToPub.insert username loaded }, some loaded)
    | none => (d, none)

def reverseResolve (order : IterationOrder) (d : Directory) (pubkey : Span) :
    Directory × Option Bytes :=
  match (order.arrange d.nameToPub).find? (·.2 = pubkey.bytes) with
  | some entry => (d, some entry.1)
  | none =>
    match d.store.bind (srvReverseResolvePubkey · pubkey) with
    | some loaded =>
      ({ d with nameToPub := d.nameToPub.insert loaded pubkey.bytes }, some loaded)
    | none => (d, none)

/-- A server restart: a fresh Directory on the same store. -/
def restart (d : Directory) : Directory := { d with nameToPub := ∅ }

end Directory

/-! ### Runs -/

/-- A call with what it returned, or a restart. -/
inductive Event where
  | registerUser (username : Bytes) (pubkey : Span) (ok : Bool)
  | resolve (username : Bytes) (found : Option Bytes)
  | reverseResolve (pubkey : Span) (found : Option Bytes)
  | restart

def Step (order : IterationOrder) (d : Directory) : Event → Directory → Prop
  | .registerUser username pubkey ok, d' => d.registerUser username pubkey = (d', ok)
  | .resolve username found, d' => d.resolve username = (d', found)
  | .reverseResolve pubkey found, d' => d.reverseResolve order pubkey = (d', found)
  | .restart, d' => d' = d.restart

/-- What a successful registration promises about a later event: another key is
refused the name, and a lookup of the name returns the registered key. -/
def OwnershipKept (earlier later : Event) : Prop :=
  ∀ username pubkey, earlier = .registerUser username pubkey true →
    (∀ other ok, later = .registerUser username other ok →
      other.bytes ≠ pubkey.bytes → ok = false) ∧
    (∀ found, later = .resolve username found → found = some pubkey.bytes)

/-- A registration that misses the map does not contradict the table: the name's
row is absent or already holds the key, and a missing row can be written. -/
def Uncontested (d : Directory) : Event → Prop
  | .registerUser username pubkey _ =>
    d.nameToPub.lookup username = none → ∀ db ∈ d.store,
      srvResolveUsername db username = some pubkey.bytes ∨
      (srvResolveUsername db username = none ∧ pubkey.isNull = false)
  | _ => True

/-- The table binds `username` to `key`. -/
def Stored (d : Directory) (username key : Bytes) : Prop :=
  ∃ db, d.store = some db ∧ srvResolveUsername db username = some key

/-- Every cached binding is the table's. -/
structure Mirrored (d : Directory) : Prop where
  persistent : d.store.isSome
  cached : ∀ username key, d.nameToPub.lookup username = some key → Stored d username key

theorem fresh_mirrored (db : SrvDirectory) : Mirrored (Directory.fresh db) :=
  ⟨rfl, by simp [Directory.fresh]⟩

/-- What an allowed step can do to the two copies: the table keeps every binding
it had, and the map stays, is emptied, or gets one binding that the table holds. -/
theorem step_cases {order : IterationOrder} {d d' : Directory} {e : Event}
    (mirrored : Mirrored d) (taken : Guarded (Step order) Uncontested d e d') :
    d'.store.isSome ∧
    (∀ username key, Stored d username key → Stored d' username key) ∧
    (d'.nameToPub = d.nameToPub ∨ d'.nameToPub = ∅ ∨
      ∃ username key, d'.nameToPub = d.nameToPub.insert username key ∧
        Stored d' username key) := by
  obtain ⟨allowed, taken⟩ := taken
  obtain ⟨db, store_eq⟩ := Option.isSome_iff_exists.mp mirrored.persistent
  cases e with
  | registerUser username pubkey ok =>
    simp only [Step, Directory.registerUser] at taken
    split at taken
    next held hit =>
      obtain ⟨rfl, -⟩ := Prod.mk.inj taken
      exact ⟨mirrored.persistent, fun _ _ h => h, .inl rfl⟩
    next miss =>
      obtain ⟨rfl, -⟩ := Prod.mk.inj taken
      have compatible := allowed miss db store_eq
      have kept : ∀ other key, srvResolveUsername db other = some key →
          srvResolveUsername (srvRegisterUser db username pubkey) other = some key := by
        intro other key bound
        unfold srvRegisterUser
        split
        · exact bound
        · exact db.find_upsert_mono (compatible.imp id And.left) bound
      have written : srvResolveUsername (srvRegisterUser db username pubkey) username =
          some pubkey.bytes := by
        rcases compatible with held | ⟨-, notNull⟩
        · exact kept _ _ held
        · simp [srvRegisterUser, notNull, srvResolveUsername, SrvDirectory.find_upsert_self]
      have store_eq' : (d.store.map (srvRegisterUser · username pubkey)) =
          some (srvRegisterUser db username pubkey) := by rw [store_eq]; rfl
      refine ⟨by simp [store_eq'], ?_,
        .inr (.inr ⟨username, pubkey.bytes, rfl, _, store_eq', written⟩)⟩
      rintro other key ⟨db', held_eq, bound⟩
      obtain rfl : db = db' := Option.some.inj (store_eq.symm.trans held_eq)
      exact ⟨_, store_eq', kept _ _ bound⟩
  | resolve username found =>
    simp only [Step, Directory.resolve] at taken
    split at taken
    next held hit =>
      obtain ⟨rfl, -⟩ := Prod.mk.inj taken
      exact ⟨mirrored.persistent, fun _ _ h => h, .inl rfl⟩
    next miss =>
      split at taken
      next loaded hit =>
        obtain ⟨rfl, -⟩ := Prod.mk.inj taken
        refine ⟨mirrored.persistent, fun _ _ h => h,
          .inr (.inr ⟨username, loaded, rfl, db, store_eq, ?_⟩)⟩
        simpa [store_eq] using hit
      next =>
        obtain ⟨rfl, -⟩ := Prod.mk.inj taken
        exact ⟨mirrored.persistent, fun _ _ h => h, .inl rfl⟩
  | reverseResolve pubkey found =>
    simp only [Step, Directory.reverseResolve] at taken
    split at taken
    next entry hit =>
      obtain ⟨rfl, -⟩ := Prod.mk.inj taken
      exact ⟨mirrored.persistent, fun _ _ h => h, .inl rfl⟩
    next miss =>
      split at taken
      next loaded hit =>
        obtain ⟨rfl, -⟩ := Prod.mk.inj taken
        refine ⟨mirrored.persistent, fun _ _ h => h,
          .inr (.inr ⟨loaded, pubkey.bytes, rfl, db, store_eq, ?_⟩)⟩
        simp only [store_eq, Option.bind_some, srvReverseResolvePubkey] at hit
        split at hit
        · contradiction
        · obtain ⟨row, row_eq, rfl⟩ := Option.map_eq_some_iff.mp hit
          simpa [srvResolveUsername] using db.find_of_find? row_eq
      next =>
        obtain ⟨rfl, -⟩ := Prod.mk.inj taken
        exact ⟨mirrored.persistent, fun _ _ h => h, .inl rfl⟩
  | restart =>
    simp only [Step] at taken
    subst taken
    exact ⟨mirrored.persistent, fun _ _ h => h, .inr (.inl rfl)⟩

theorem step_mirrored {order : IterationOrder} {d d' : Directory} {e : Event}
    (mirrored : Mirrored d) (taken : Guarded (Step order) Uncontested d e d') :
    Mirrored d' := by
  obtain ⟨persistent, kept, change⟩ := step_cases mirrored taken
  refine ⟨persistent, ?_⟩
  intro other key hit
  rcases change with same | emptied | ⟨username, added, inserted, stored⟩
  · exact kept _ _ (mirrored.cached _ _ (same ▸ hit))
  · simp [emptied] at hit
  · rw [inserted] at hit
    by_cases named : other = username
    · subst named
      obtain rfl : added = key := by simpa using hit
      exact stored
    · rw [AList.lookup_insert_ne named] at hit
      exact kept _ _ (mirrored.cached _ _ hit)

private theorem Stored.unique {d : Directory} {username key other : Bytes}
    (left : Stored d username key) (right : Stored d username other) : key = other := by
  obtain ⟨db, store_eq, held⟩ := left
  obtain ⟨db', store_eq', held'⟩ := right
  obtain rfl : db = db' := Option.some.inj (store_eq.symm.trans store_eq')
  exact Option.some.inj (held.symm.trans held')

/-- A registration that returned true leaves its binding in the table. -/
theorem registered_stored {order : IterationOrder} {d d' : Directory} {username : Bytes}
    {pubkey : Span} (mirrored : Mirrored d)
    (taken : Guarded (Step order) Uncontested d (.registerUser username pubkey true) d') :
    Stored d' username pubkey.bytes := by
  have after := step_mirrored mirrored taken
  have taken := taken.2
  simp only [Step, Directory.registerUser] at taken
  split at taken
  next held hit =>
    obtain ⟨rfl, ok⟩ := Prod.mk.inj taken
    have same : held = pubkey.bytes := by simpa using ok
    exact mirrored.cached _ _ (same ▸ hit)
  next miss =>
    obtain ⟨rfl, -⟩ := Prod.mk.inj taken
    exact after.cached _ _ (by simp)

/-- While the table binds a name, every event agrees with the binding. -/
theorem stored_respected {order : IterationOrder} {d d' : Directory} {e : Event}
    {username key : Bytes} (mirrored : Mirrored d) (stored : Stored d username key)
    (taken : Guarded (Step order) Uncontested d e d') :
    (∀ other ok, e = .registerUser username other ok → other.bytes ≠ key → ok = false) ∧
    (∀ found, e = .resolve username found → found = some key) := by
  obtain ⟨allowed, taken⟩ := taken
  constructor
  · rintro other ok rfl ne
    simp only [Step, Directory.registerUser] at taken
    split at taken
    next held hit =>
      obtain rfl : held = key := (mirrored.cached _ _ hit).unique stored
      obtain ⟨-, rfl⟩ := Prod.mk.inj taken
      simpa using Ne.symm ne
    next miss =>
      -- The guard leaves this call no room: the row exists and holds another key.
      obtain ⟨db, store_eq, held⟩ := stored
      rcases allowed miss db store_eq with same | ⟨free, -⟩
      · exact absurd (Option.some.inj (same.symm.trans held)) ne
      · rw [held] at free
        contradiction
  · rintro found rfl
    simp only [Step, Directory.resolve] at taken
    split at taken
    next held hit =>
      obtain ⟨-, rfl⟩ := Prod.mk.inj taken
      rw [(mirrored.cached _ _ hit).unique stored]
    next miss =>
      obtain ⟨db, store_eq, held⟩ := stored
      simp only [store_eq, Option.bind_some, held] at taken
      exact (Prod.mk.inj taken).2.symm

/-- Name ownership survives restarts in every run whose registrations are
uncontested, from a fresh Directory on any table. -/
theorem ownership_survives_restarts (order : IterationOrder) (db : SrvDirectory)
    {events : List Event} {d : Directory}
    (run : Run (Guarded (Step order) Uncontested) (Directory.fresh db) events d) :
    events.Pairwise OwnershipKept := by
  refine Run.pairwise Mirrored
    (fun e s => ∀ username pubkey, e = .registerUser username pubkey true →
      Stored s username pubkey.bytes)
    (fun s e t inv taken => step_mirrored inv taken) ?_ ?_ ?_ run (fresh_mirrored db)
  · rintro s e t inv taken username pubkey rfl
    exact registered_stored inv taken
  · intro e s f t inv fact taken username pubkey named
    exact (step_cases inv taken).2.1 _ _ (fact username pubkey named)
  · intro e s f t inv fact taken username pubkey named
    exact stored_respected inv (fact username pubkey named) taken

/-- The iteration order that is the order of the entries themselves. -/
def IterationOrder.entries : IterationOrder := ⟨AList.entries, fun _ => List.Perm.refl _⟩

private def bob : Bytes := [98, 111, 98]

private def keyOf (b : UInt8) : Span := .of (List.replicate 32 b)

theorem ownership_kept_for_bob :
    [Event.registerUser bob (keyOf 1) true, .restart, .resolve bob (some (keyOf 1).bytes),
      .registerUser bob (keyOf 2) false].Pairwise OwnershipKept := by
  refine ownership_survives_restarts .entries .empty
    (d := ⟨⟨[⟨bob, (keyOf 1).bytes⟩], by simp⟩, some ⟨[⟨cstr bob, (keyOf 1).bytes⟩], by simp⟩⟩) ?_
  refine .cons ⟨?_, rfl⟩ (.cons ⟨trivial, rfl⟩ (.cons ⟨trivial, rfl⟩ (.cons ⟨?_, rfl⟩ (.nil _))))
  · rintro - db ⟨⟩
    exact .inr ⟨rfl, rfl⟩
  · intro miss
    contradiction

/-- After a restart the map is cold, and the name goes to whoever registers it next. -/
theorem ownership_lost_after_restart :
    ¬ ∀ (order : IterationOrder) (db : SrvDirectory) (events : List Event) (d : Directory),
      Run (Step order) (Directory.fresh db) events d → events.Pairwise OwnershipKept := by
  intro claimed
  have pairs := claimed .entries .empty
    [.registerUser bob (keyOf 1) true, .restart, .registerUser bob (keyOf 2) true] _
    (.cons rfl (.cons rfl (.cons rfl (.nil _))))
  have kept := (List.pairwise_cons.mp pairs).1
    (.registerUser bob (keyOf 2) true) (by simp) bob (keyOf 1) rfl
  exact absurd (kept.1 (keyOf 2) true rfl (by decide)) (by decide)

end FinBit.Server
