import FinBit.Store.Open

/-! # What the migration keeps

Every accessor is compared on a database written without a key, before and after
it was opened with one. The migration wraps the rows that its `UPDATE`
statements address, and leaves the others as they are; a reader with a key
unwraps them all. A row that was left in plaintext is lost to its reader, because
what comes out of an unwrapping is shorter than what went in.
-/

namespace FinBit.Store

open FinBit.Lib Sql

/-! ### What a pass over a table does -/

section Pass

variable (P : StoreCrypto) {κ ι ν : Type} [KeyColumns κ] [BlobColumn ν]

/-- After a pass, `new` is the value of a row: wrapped if the row was addressed, and
unchanged otherwise. -/
structure WrappedBy (key : Key) (addressed : Row κ ι ν → Prop) (aad : Row κ ι ν → Bytes)
    (t : Table κ ι ν) (new : Row κ ι ν → ν) : Prop where
  wrapped : ∀ r ∈ t.rows, addressed r →
    ∃ nonce, new r = BlobColumn.ofBlob (aeadWrap P key nonce (BlobColumn.bytes r.value) (aad r))
  unchanged : ∀ r ∈ t.rows, ¬addressed r → new r = r.value

/-- The statements of a pass address no row but the one they were made for. -/
def Addresses (bound : Row κ ι ν → List Value) : Prop :=
  ∀ r r' : Row κ ι ν, matchAll (columns r.key) (bound r') = true → clash r.key r'.key = true

theorem wrapRows_spec (key : Key) (nonce : Nat → Nonce) (select : Row κ ι ν → Bool)
    {bound : Row κ ι ν → List Value} (aad : Row κ ι ν → Bytes) (t : Table κ ι ν)
    (only : Addresses bound) :
    ∃ new, wrapRows P key nonce select bound aad t = t.mapValues new ∧
      WrappedBy P key (fun r => select r = true ∧ matchAll (columns r.key) (bound r) = true) aad
        t new := by
  obtain ⟨new, pass, cases_of⟩ := Table.exists_foldl_update
    (fun step : Row κ ι ν × Nat => bound step.1)
    (fun step => BlobColumn.ofBlob
      (aeadWrap P key (nonce step.2) (BlobColumn.bytes step.1.value) (aad step.1)))
    (t.rows.filter select).zipIdx t
  refine ⟨new, pass, ?_⟩
  -- a step that hits a row was made for that row
  have own : ∀ r ∈ t.rows, ∀ step ∈ (t.rows.filter select).zipIdx,
      matchAll (columns r.key) (bound step.1) = true → step.1 = r ∧ select r = true := by
    intro r member step listed hit
    have selected := List.mem_filter.mp (List.fst_mem_of_mem_zipIdx listed)
    have same := t.eq_of_clash member selected.1 (only _ _ hit)
    rw [same]
    exact ⟨rfl, selected.2⟩
  constructor
  · intro r member addressed
    rcases cases_of r with ⟨miss, -⟩ | ⟨step, listed, hit, taken⟩
    · have listed : r ∈ t.rows.filter select := List.mem_filter.mpr ⟨member, addressed.1⟩
      obtain ⟨i, at_i⟩ := List.mem_iff_getElem?.mp listed
      have := miss (r, i) (List.mk_mem_zipIdx_iff_getElem?.mpr at_i)
      rw [addressed.2] at this
      contradiction
    · rw [taken, (own r member step listed hit).1]
      exact ⟨_, rfl⟩
  · intro r member missed
    rcases cases_of r with ⟨-, kept⟩ | ⟨step, listed, hit, -⟩
    · exact kept
    · obtain ⟨rfl, selected⟩ := own r member step listed hit
      exact absurd ⟨selected, hit⟩ missed

/-- After a pass, exactly the rows that were addressed unwrap to what they held. -/
theorem WrappedBy.unwraps_iff {key : Key} {addressed : Row κ ι ν → Prop} {aad : Row κ ι ν → Bytes}
    {t : Table κ ι ν} {new : Row κ ι ν → ν} (pass : WrappedBy P key addressed aad t new)
    {r : Row κ ι ν} (member : r ∈ t.rows) :
    aeadUnwrap P key (BlobColumn.bytes (new r)) (aad r) = some (BlobColumn.bytes r.value) ↔
      addressed r := by
  constructor
  · intro opened
    by_contra missed
    rw [pass.unchanged r member missed] at opened
    exact aeadUnwrap_ne_self P key _ _ opened
  · intro hit
    obtain ⟨nonce, wrapped⟩ := pass.wrapped r member hit
    simp [wrapped]

end Pass

/-! ### Which rows are addressed -/

/-- A key column that a `std::vector` carries over unchanged. -/
def Addressable : Option Bytes → Prop
  | none => False
  | some b => b ≠ []

instance (k : Option Bytes) : Decidable (Addressable k) :=
  match k with
  | none => inferInstanceAs (Decidable False)
  | some b => inferInstanceAs (Decidable (b ≠ []))

private theorem bind_vector (b : Bytes) :
    bindBlob (.ofVector b) = if b = [] then .null else .blob b := by
  rw [bindBlob, column_ofVector]
  split <;> rfl

theorem addressed_nullable (k : Option Bytes) :
    matchAll (columns k) (whereKeys k) = true ↔ Addressable k := by
  cases k with
  | none => simp [matchAll_eq_true_iff, KeyColumns.columns, Addressable]
  | some b =>
    by_cases empty : b = [] <;>
      simp [matchAll_eq_true_iff, KeyColumns.columns, whereKeys, Value.bytes, bind_vector, empty,
        Addressable]

theorem addressed_pair (k : Bytes × Bytes) :
    matchAll (columns k) (whereKeys k) = true ↔ k.1 ≠ [] ∧ k.2 ≠ [] := by
  by_cases left : k.1 = [] <;> by_cases right : k.2 = [] <;>
    simp [matchAll_eq_true_iff, KeyColumns.columns, whereKeys, Value.bytes, bind_vector, left,
      right]

/-- A `TEXT` key is bound as a `BLOB`, and matches nothing. -/
theorem addressed_text (k k' : CString) : matchAll (columns k) (whereKeys k') = false := by
  rw [Bool.eq_false_iff, ne_eq, matchAll_eq_true_iff]
  by_cases empty : k'.val = [] <;>
    simp [KeyColumns.columns, whereKeys, Value.bytes, bind_vector, empty]

/-- A list of `BLOB` columns that a `std::vector` carries over matches itself only. -/
private theorem clash_of_match {κ : Type} [KeyColumns κ] {k k' : κ}
    (blobs : ∀ c ∈ columns k', c = .null ∨ ∃ b, c = .blob b)
    (hit : matchAll (columns k) (whereKeys k') = true) : clash k k' = true := by
  rw [matchAll_eq_true_iff] at hit
  rw [clash, matchAll_eq_true_iff]
  refine ⟨?_, hit.2⟩
  rw [hit.1]
  conv_rhs => rw [← List.map_id (columns k')]
  apply List.map_congr_left
  intro c member
  have present : bindBlob (.ofVector c.bytes) ≠ .null := by
    intro null
    apply hit.2
    rw [hit.1, ← null]
    exact List.mem_map_of_mem member
  rcases blobs c member with rfl | ⟨b, rfl⟩
  · exact absurd rfl present
  · by_cases empty : b = [] <;> simp_all [bind_vector, Value.bytes]

theorem addresses_nullable {ι ν : Type} :
    Addresses fun r : Row (Option Bytes) ι ν => whereKeys r.key := by
  intro r r' hit
  apply clash_of_match _ hit
  intro c member
  obtain rfl : c = nullable r'.key := by simpa [KeyColumns.columns] using member
  cases r'.key <;> simp

theorem addresses_pair {ι ν : Type} :
    Addresses fun r : Row (Bytes × Bytes) ι ν => whereKeys r.key := by
  intro r r' hit
  apply clash_of_match _ hit
  intro c member
  rcases (by simpa [KeyColumns.columns] using member : c = .blob r'.key.1 ∨ c = .blob r'.key.2)
    with rfl | rfl <;> simp

theorem addresses_text {ι ν : Type} :
    Addresses fun r : Row CString ι ν => whereKeys r.key := by
  intro r r' hit
  rw [addressed_text] at hit
  contradiction

/-! ### What each pass leaves readable -/

section Passes

variable (P : StoreCrypto) (key : Key) (nonce : Nat → Nonce) {ι ν : Type} [BlobColumn ν]

theorem wrapTable_nullable (t : Table (Option Bytes) ι ν) :
    ∃ new, wrapTable P key nonce (fun _ => true) t = t.mapValues new ∧
      ∀ r ∈ t.rows, (aeadUnwrap P key (BlobColumn.bytes (new r)) (r.key.getD []) =
        some (BlobColumn.bytes r.value) ↔ Addressable r.key) := by
  obtain ⟨new, passed, pass⟩ := wrapRows_spec P key nonce (fun _ => true) (fun r => keyAad r.key) t
    addresses_nullable
  refine ⟨new, passed, ?_⟩
  intro r member
  rw [← keyAad_nullable, pass.unwraps_iff P member]
  simp [addressed_nullable]

theorem wrapTable_pair (t : Table (Bytes × Bytes) ι ν) :
    ∃ new, wrapTable P key nonce (fun _ => true) t = t.mapValues new ∧
      ∀ r ∈ t.rows, (aeadUnwrap P key (BlobColumn.bytes (new r)) (r.key.1 ++ r.key.2) =
        some (BlobColumn.bytes r.value) ↔ r.key.1 ≠ [] ∧ r.key.2 ≠ []) := by
  obtain ⟨new, passed, pass⟩ := wrapRows_spec P key nonce (fun _ => true) (fun r => keyAad r.key) t
    addresses_pair
  refine ⟨new, passed, ?_⟩
  intro r member
  rw [← keyAad_pair, pass.unwraps_iff P member]
  simp [addressed_pair]

/-- The pass over `chan_state` changes nothing. -/
theorem wrapTable_text (select : Row CString ι ν → Bool) (t : Table CString ι ν) :
    wrapTable P key nonce select t = t := by
  obtain ⟨new, passed, pass⟩ := wrapRows_spec P key nonce select (fun r => keyAad r.key) t
    addresses_text
  rw [wrapTable, passed]
  apply Table.ext
  rw [Table.mapValues_rows]
  conv_rhs => rw [← List.map_id t.rows]
  apply List.map_congr_left
  intro r member
  rw [pass.unchanged r member (by simp [addressed_text])]
  rfl

/-- The pass over `chan_inbox` reaches every row. -/
theorem wrapRows_id (aad : Row Int ι ν → Bytes) (t : Table Int ι ν) :
    ∃ new, wrapRows P key nonce (fun _ => true) (fun r => columns r.key) aad t =
        t.mapValues new ∧
      ∀ r ∈ t.rows, aeadUnwrap P key (BlobColumn.bytes (new r)) (aad r) =
        some (BlobColumn.bytes r.value) := by
  obtain ⟨new, passed, pass⟩ := wrapRows_spec P key nonce (fun _ => true) aad t fun _ _ hit => hit
  refine ⟨new, passed, ?_⟩
  intro r member
  rw [pass.unwraps_iff P member]
  simp [matchAll_eq_true_iff, KeyColumns.columns]

end Passes

/-! ### What the accessors return

The two stores differ in the value columns and in whether they have keys. -/

namespace SqliteStore

section Readers

variable (P : StoreCrypto) (key : Key)

/-- A listing loses a row, or shortens it, unless every value opens. -/
theorem listing_iff {α β : Type} (rows : List α) (opened : α → Option Bytes) (value : α → Bytes)
    (show_ : α → Bytes → β) (inj : ∀ a, Function.Injective (show_ a)) :
    rows.filterMap (fun a => (opened a).map (show_ a)) =
        rows.filterMap (fun a => some (show_ a (value a))) ↔
      ∀ a ∈ rows, opened a = some (value a) := by
  simp only [List.filterMap_eq_map', List.filterMap_eq_map_iff_forall_eq_some]
  apply forall₂_congr
  intro a _
  cases opened a with
  | none => simp
  | some x => simp [(inj a).eq_iff]

theorem mem_of_mem_takeLimit {α : Type} {limit : UInt64} {rows : List α} {a : α}
    (member : a ∈ takeLimit limit rows) : a ∈ rows := by
  unfold takeLimit at member
  split at member
  · exact member
  · exact List.mem_of_mem_take member

/-- The greatest limit is bound as `-1`. -/
theorem takeLimit_none {α : Type} (rows : List α) : takeLimit (-1) rows = rows := by
  simp [takeLimit]

theorem map_takeLimit {α β : Type} (f : α → β) (limit : UInt64) (rows : List α) :
    takeLimit limit (rows.map f) = (takeLimit limit rows).map f := by
  unfold takeLimit
  split <;> simp

theorem limited_listing_iff {α β : Type} (rows : List α) (opened : α → Option Bytes)
    (value : α → Bytes) (show_ : α → Bytes → β) (inj : ∀ a, Function.Injective (show_ a)) :
    (∀ limit, (takeLimit limit rows).filterMap (fun a => (opened a).map (show_ a)) =
        (takeLimit limit rows).filterMap (fun a => some (show_ a (value a)))) ↔
      ∀ a ∈ rows, opened a = some (value a) := by
  simp only [listing_iff _ _ _ _ inj]
  constructor
  · intro opens a member
    exact opens (-1) a (by rwa [takeLimit_none])
  · intro opens limit a member
    exact opens a (mem_of_mem_takeLimit member)

theorem recentMessages_iff (t : MessageTable) (new : Row (Option Bytes) MessageInfo Bytes → Bytes) :
    (∀ limit, recentMessages P (some key) (t.mapValues new) limit = recentMessages P none t limit) ↔
      ∀ r ∈ t.rows, aeadUnwrap P key (new r) (r.key.getD []) = some r.value := by
  have sorted : (t.mapValues new).rows.mergeSort (fun a b => decide (b.info.tsMs ≤ a.info.tsMs)) =
      (t.rows.mergeSort fun a b => decide (b.info.tsMs ≤ a.info.tsMs)).map
        fun r => { r with value := new r } := by
    symm
    apply List.map_mergeSort
    intros
    rfl
  simp only [recentMessages, sorted, map_takeLimit, List.filterMap_map, Function.comp_def,
    openValue, Option.map_some]
  rw [limited_listing_iff _ (fun r => aeadUnwrap P key (new r) (r.key.getD [])) (·.value)
    (fun r plaintext => (⟨r.key.getD [], r.info.peerPub, plaintext, r.info.tsMs.toUInt64⟩ :
      MessageRow)) fun r a b same => by simpa using same]
  simp only [List.mem_mergeSort]

variable {db after : Db} (atRest : AtRest)

theorem loadSession_iff {new : Row (Option Bytes) Unit Bytes → Bytes}
    (passed : after.sessions = db.sessions.mapValues new) :
    (∀ peerPub, loadSession P ⟨after, some atRest⟩ peerPub = loadSession P ⟨db, none⟩ peerPub) ↔
      ∀ r ∈ db.sessions.rows, ∀ b, r.key = some b →
        aeadUnwrap P atRest.keys.sessions (new r) b = some r.value := by
  simp only [loadSession, passed, Table.find_mapValues, SqliteStore.key, Option.map_some,
    Option.map_none, openValue, Option.bind_map, Function.comp_def]
  exact db.sessions.lookups_eq_iff
    (fun r b => aeadUnwrap P atRest.keys.sessions (new r) b) fun r _ => some r.value

theorem peerName_iff {new : Row (Option Bytes) Int64 (CString ⊕ Bytes) → CString ⊕ Bytes}
    (passed : after.peerNameCache = db.peerNameCache.mapValues new)
    (plain : ∀ r ∈ db.peerNameCache.rows, r.value.isLeft = true) :
    (∀ peerPub, peerName P ⟨after, some atRest⟩ peerPub = peerName P ⟨db, none⟩ peerPub) ↔
      ∀ r ∈ db.peerNameCache.rows, ∀ b, r.key = some b →
        aeadUnwrap P atRest.keys.peerName (BlobColumn.bytes (new r)) b =
          some (BlobColumn.bytes r.value) := by
  simp only [peerName, passed, Table.find_mapValues, SqliteStore.key, Option.map_some,
    Option.map_none, readName, Option.bind_map, Function.comp_def]
  rw [db.peerNameCache.lookups_eq_iff
    (fun r b => aeadUnwrap P atRest.keys.peerName (BlobColumn.bytes (new r)) b)
    fun r _ => some (r.value.elim (·.val) fun b => (cstr b).val)]
  apply forall₂_congr
  intro r member
  obtain ⟨name, text⟩ := Sum.isLeft_iff.mp (plain r member)
  simp [text]

theorem chanList_iff (unchanged : after.chanState = db.chanState) :
    chanList P ⟨after, some atRest⟩ = chanList P ⟨db, none⟩ ↔
      ∀ r ∈ db.chanState.rows, BlobColumn.bytes r.value = [] := by
  simp only [chanList, unchanged, SqliteStore.key, Option.map_some, Option.map_none,
    List.map_inj_left, List.mem_mergeSort]
  apply forall₂_congr
  intro r _
  simp only [readOwnDist, ChannelRow.mk.injEq, Option.isSome_some, Option.isSome_none, openValue,
    Bool.false_eq_true, false_and, true_and, and_true, if_false, ne_eq]
  by_cases empty : BlobColumn.bytes r.value = []
  · simp [empty]
  · simp only [empty, not_false_iff, if_true, iff_false]
    -- what is read is shorter than what was stored
    cases opened : aeadUnwrap P atRest.keys.chanState (BlobColumn.bytes r.value) r.key.val with
    | none => exact fun same => empty same.symm
    | some pt =>
      rintro rfl
      exact aeadUnwrap_ne_self P _ _ _ opened

theorem chanPeers_iff {new : Row (Bytes × Bytes) Unit Bytes → Bytes}
    (passed : after.chanPeers = db.chanPeers.mapValues new) :
    (∀ channelId, chanPeers P ⟨after, some atRest⟩ channelId = chanPeers P ⟨db, none⟩ channelId) ↔
      ∀ r ∈ db.chanPeers.rows,
        aeadUnwrap P atRest.keys.chanPeers (new r) (r.key.1 ++ r.key.2) = some r.value := by
  have listed (channelId : Span) :
      chanPeers P ⟨after, some atRest⟩ channelId = chanPeers P ⟨db, none⟩ channelId ↔
        ∀ r ∈ db.chanPeers.rows, column channelId = some r.key.1 →
          aeadUnwrap P atRest.keys.chanPeers (new r) (r.key.1 ++ r.key.2) = some r.value := by
    simp only [chanPeers, passed, Table.mapValues_rows, List.filter_map, List.filterMap_map,
      Function.comp_def, SqliteStore.key, Option.map_some, Option.map_none, openValue]
    rw [listing_iff _
      (fun r => aeadUnwrap P atRest.keys.chanPeers (new r) (channelId.bytes ++ r.key.2)) (·.value)
      (fun r peerDist => (⟨r.key.2, peerDist⟩ : ChannelPeerRow))
      fun r a b same => by simpa using same]
    simp only [List.mem_filter, and_imp]
    apply forall₂_congr
    intro r _
    cases null : channelId.isNull with
    | true => simp [bindBlob, column, null]
    | false =>
      simp only [bindBlob, column, null, Bool.false_eq_true, if_false, nullable_some,
        Value.equals_eq_true_iff, ne_eq, reduceCtorEq, not_false_iff, true_and, Value.blob.injEq,
        Option.some.injEq]
      constructor
      · intro opens same
        rw [← same]
        exact opens same.symm
      · intro opens same
        rw [← same]
        exact opens same.symm
  simp only [listed]
  constructor
  · intro opens r member
    exact opens (.of r.key.1) r member rfl
  · intro opens channelId r member _
    exact opens r member

theorem chanRecentInbox_eq {new : Row Int ChannelMessageInfo Bytes → Bytes}
    (passed : after.chanInbox = db.chanInbox.mapValues new)
    (opens : ∀ r ∈ db.chanInbox.rows,
      aeadUnwrap P atRest.keys.chanInbox (new r) r.info.channelId = some r.value)
    (channelId : Span) (limit : UInt64) :
    chanRecentInbox P ⟨after, some atRest⟩ channelId limit =
      chanRecentInbox P ⟨db, none⟩ channelId limit := by
  have sorted : ((after.chanInbox.rows.filter fun r =>
        (Value.blob r.info.channelId).equals (bindBlob channelId)).mergeSort
          fun a b => decide (b.info.tsMs ≤ a.info.tsMs)) =
      ((db.chanInbox.rows.filter fun r =>
        (Value.blob r.info.channelId).equals (bindBlob channelId)).mergeSort
          fun a b => decide (b.info.tsMs ≤ a.info.tsMs)).map fun r => { r with value := new r } := by
    rw [passed, Table.mapValues_rows, List.filter_map]
    symm
    apply List.map_mergeSort
    intros
    rfl
  simp only [chanRecentInbox, sorted, map_takeLimit, List.filterMap_map, Function.comp_def,
    SqliteStore.key, Option.map_some, Option.map_none, openValue]
  apply (limited_listing_iff _
    (fun r => aeadUnwrap P atRest.keys.chanInbox (new r) r.info.channelId) (·.value)
    (fun r plaintext => (⟨r.info.channelId, r.info.senderPub, plaintext, r.info.tsMs.toUInt64⟩ :
      ChannelInboxRow)) fun r a b same => by simpa using same).mpr
  intro r member
  exact opens r (List.mem_filter.mp (List.mem_mergeSort.mp member)).1

private theorem plain_log (channelId : Bytes) (log : List (Row (Bytes × Int64) Unit Bytes)) :
    log.mapM (readLogRow P none channelId) = .ok (log.map (·.value)) :=
  List.mapM_pure

/-- The MLS tables are not migrated: a group that was saved does not load any more. -/
theorem mlsGroupLoad_iff (unchanged : after.mlsGroupState = db.mlsGroupState)
    (unchanged_log : after.mlsGroupLog = db.mlsGroupLog) :
    (∀ channelId, mlsGroupLoad P ⟨after, some atRest⟩ channelId =
        mlsGroupLoad P ⟨db, none⟩ channelId) ↔
      ∀ r ∈ db.mlsGroupState.rows, r.key = none := by
  constructor
  · intro same r member
    by_contra keyed
    obtain ⟨b, key⟩ := Option.ne_none_iff_exists'.mp keyed
    have found := (db.mlsGroupState.find_nullable_iff (.of b) r).mpr ⟨member, key, rfl⟩
    have loads := same (.of b)
    simp only [mlsGroupLoad, mlsLogRows, unchanged, unchanged_log, found, SqliteStore.key,
      Option.map_some, Option.map_none, openValue, Span.of_bytes, plain_log] at loads
    generalize (db.mlsGroupLog.rows.filter _).mergeSort _ = log at loads
    cases opened : aeadUnwrap P atRest.keys.mlsState r.value b with
    | none =>
      rw [opened] at loads
      cases loads
    | some seed =>
      rw [opened] at loads
      cases read : log.mapM (readLogRow P (some atRest.keys.mlsLog) b) with
      | error e =>
        simp only [read] at loads
        cases loads
      | ok ops =>
        simp only [read] at loads
        have seeds : seed = r.value := by
          injection loads with loads
          injection loads with loads
          injection loads
        exact aeadUnwrap_ne_self P _ _ _ (seeds ▸ opened)
  · intro keyless channelId
    have missing : db.mlsGroupState.find [bindBlob channelId] = none := by
      apply Option.eq_none_iff_forall_ne_some.mpr
      intro r found
      obtain ⟨member, key, -⟩ := (db.mlsGroupState.find_nullable_iff channelId r).mp found
      rw [keyless r member] at key
      contradiction
    simp [mlsGroupLoad, unchanged, missing]

end Readers

/-- Two stores give the same answer to every read. -/
structure SameReads (P : StoreCrypto) (s t : SqliteStore) : Prop where
  recentInbox : ∀ limit, s.recentInbox P limit = t.recentInbox P limit
  recentOutbox : ∀ limit, s.recentOutbox P limit = t.recentOutbox P limit
  loadSession : ∀ peerPub, s.loadSession P peerPub = t.loadSession P peerPub
  chanList : s.chanList P = t.chanList P
  chanPeers : ∀ channelId, s.chanPeers P channelId = t.chanPeers P channelId
  chanRecentInbox : ∀ channelId limit,
    s.chanRecentInbox P channelId limit = t.chanRecentInbox P channelId limit
  peerName : ∀ peerPub, s.peerName P peerPub = t.peerName P peerPub
  mlsGroupLoad : ∀ channelId, s.mlsGroupLoad P channelId = t.mlsGroupLoad P channelId

end SqliteStore

/-! ### Databases written without a key -/

/-- A database that was only ever opened without a key. -/
structure Db.Legacy (db : Db) : Prop where
  version : db.userVersion = 0
  no_master : db.storageMaster = none
  no_keys : db.storageKeys = .empty
  names_text : ∀ r ∈ db.peerNameCache.rows, r.value.isLeft = true

theorem Db.legacy_empty : Db.empty.Legacy := ⟨rfl, rfl, rfl, by simp [Db.empty]⟩

private theorem upsert_values {κ ι ν : Type} [KeyColumns κ] {t : Table κ ι ν} {new : Row κ ι ν}
    {p : ν → Prop} (old : ∀ r ∈ t.rows, p r.value) (fresh : p new.value) :
    ∀ r ∈ (t.upsert new).rows, p r.value := by
  intro r member
  unfold Table.upsert at member
  split at member
  · obtain ⟨r', member', rfl⟩ := List.mem_map.mp member
    split
    · exact fresh
    · exact old r' member'
  · unfold Table.insertOrIgnore Table.insert at member
    split at member
    · rcases List.mem_append.mp member with earlier | last
      · exact old r earlier
      · rw [List.mem_singleton.mp last]
        exact fresh
    · exact old r member

/-- Every writer of a store without a key keeps the database legacy. -/
theorem Db.Legacy.write {P : StoreCrypto} {db : Db} (legacy : db.Legacy) (draws : Draws)
    (w : SqliteStore.Write) :
    (SqliteStore.write P ⟨db, none⟩ draws w).db.Legacy ∧
      (SqliteStore.write P ⟨db, none⟩ draws w).atRest = none := by
  obtain ⟨version, no_master, no_keys, names_text⟩ := legacy
  cases w with
  | cachePeerName now peer name =>
    refine ⟨⟨version, no_master, no_keys, ?_⟩, rfl⟩
    exact upsert_values (p := fun v : CString ⊕ Bytes => v.isLeft = true) names_text rfl
  | _ =>
    simp only [SqliteStore.write, SqliteStore.saveSession, SqliteStore.chanSave,
      SqliteStore.chanSavePeer, SqliteStore.chanAppendInbox, SqliteStore.mlsGroupSave,
      SqliteStore.mlsGroupOpAppend]
    repeat' split
    all_goals exact ⟨⟨version, no_master, no_keys, names_text⟩, rfl⟩

/-- A new store without a key, after a sequence of writes. -/
def written (P : StoreCrypto) (writes : List (SqliteStore.Write × Draws)) : SqliteStore :=
  writes.foldl (fun s w => s.write P w.2 w.1) ⟨.empty, none⟩

theorem written_legacy (P : StoreCrypto) (writes : List (SqliteStore.Write × Draws)) :
    (written P writes).db.Legacy ∧ (written P writes).atRest = none := by
  induction writes using List.reverseRecOn with
  | nil => exact ⟨Db.legacy_empty, rfl⟩
  | append_singleton before w ih =>
    obtain ⟨legacy, plain⟩ := ih
    have same : written P before = ⟨(written P before).db, none⟩ := by rw [← plain]
    have step : written P (before ++ [w]) = (written P before).write P w.2 w.1 := by
      simp [written]
    rw [step, same]
    exact legacy.write w.2 w.1

/-! ### The result -/

/-- The rows that the migration does not carry over are absent. -/
structure Db.Migratable (db : Db) : Prop where
  inbox : ∀ r ∈ db.inbox.rows, Addressable r.key
  outbox : ∀ r ∈ db.outbox.rows, Addressable r.key
  sessions : ∀ r ∈ db.sessions.rows, r.key ≠ some []
  chan_state : ∀ r ∈ db.chanState.rows, BlobColumn.bytes r.value = []
  chan_peers : ∀ r ∈ db.chanPeers.rows, r.key.1 ≠ [] ∧ r.key.2 ≠ []
  peer_names : ∀ r ∈ db.peerNameCache.rows, r.key ≠ some []
  mls_groups : ∀ r ∈ db.mlsGroupState.rows, r.key = none

/-- The keys of a database that has neither ratcheted nor rotated. -/
def initialKeys (P : StoreCrypto) (master : Key) : AtRest where
  masterKey := master
  storageMaster := master
  storageMasterGeneration := 0
  storageKeysGeneration := 0
  keys := deriveTableKeys P master

theorem open_legacy (P : StoreCrypto) {db : Db} (legacy : db.Legacy) (master : Key)
    (draws : Draws) :
    SqliteStore.open P db [] draws = .ok ⟨db, none⟩ ∧
      SqliteStore.open P db master.val draws =
        .ok ⟨migrate P db (deriveTableKeys P master) draws, some (initialKeys P master)⟩ := by
  have loaded : loadKeys P db master = .ok (initialKeys P master) := by
    simp only [loadKeys, loadStorageMaster, legacy.no_master, loadWrapped, legacy.no_keys]
    rfl
  constructor
  · simp [SqliteStore.open, legacy.version]
  · simp only [SqliteStore.open, if_neg master.val_ne_nil, asKey_val, loaded, legacy.version]
    rfl

/-- A row that look-ups reach, unless its key is `NULL`. -/
private theorem reachable_iff {k : Option Bytes} {p : Bytes → Prop}
    (opens : p (k.getD []) ↔ Addressable k) : (∀ b, k = some b → p b) ↔ k ≠ some [] := by
  cases k with
  | none => simp
  | some b => simpa [Addressable] using opens

theorem sameReads_migrate_iff (P : StoreCrypto) {db : Db} (legacy : db.Legacy) (draws : Draws)
    (atRest : AtRest) {keys : TableKeys} (same : atRest.keys = keys) :
    SqliteStore.SameReads P ⟨migrate P db keys draws, some atRest⟩ ⟨db, none⟩ ↔
      db.Migratable := by
  subst same
  obtain ⟨inbox, inbox_eq, inbox_opens⟩ :=
    wrapTable_nullable P atRest.keys.inbox (draws.nonce 0) db.inbox
  obtain ⟨outbox, outbox_eq, outbox_opens⟩ :=
    wrapTable_nullable P atRest.keys.outbox (draws.nonce 1) db.outbox
  obtain ⟨sessions, sessions_eq, sessions_opens⟩ :=
    wrapTable_nullable P atRest.keys.sessions (draws.nonce 2) db.sessions
  obtain ⟨peers, peers_eq, peers_opens⟩ :=
    wrapTable_pair P atRest.keys.chanPeers (draws.nonce 4) db.chanPeers
  obtain ⟨messages, messages_eq, messages_open⟩ :=
    wrapRows_id P atRest.keys.chanInbox (draws.nonce 5) (fun r => r.info.channelId) db.chanInbox
  obtain ⟨names, names_eq, names_open⟩ :=
    wrapTable_nullable P atRest.keys.peerName (draws.nonce 6) db.peerNameCache
  have old : db.userVersion < 2 := by rw [legacy.version]; omega
  generalize after_eq : migrate P db atRest.keys draws = after
  have inbox_after : after.inbox = db.inbox.mapValues inbox := by
    rw [← after_eq, ← inbox_eq]
    exact if_pos old
  have outbox_after : after.outbox = db.outbox.mapValues outbox := by
    rw [← after_eq, ← outbox_eq]
    exact if_pos old
  have sessions_after : after.sessions = db.sessions.mapValues sessions := by
    rw [← after_eq, ← sessions_eq]
    rfl
  have peers_after : after.chanPeers = db.chanPeers.mapValues peers := by
    rw [← after_eq, ← peers_eq]
    rfl
  have messages_after : after.chanInbox = db.chanInbox.mapValues messages := by
    rw [← after_eq, ← messages_eq]
    rfl
  have names_after : after.peerNameCache = db.peerNameCache.mapValues names := by
    rw [← after_eq, ← names_eq]
    rfl
  have state_after : after.chanState = db.chanState := by
    rw [← after_eq]
    exact wrapTable_text P _ _ _ _
  have groups_after : after.mlsGroupState = db.mlsGroupState := by
    rw [← after_eq]
    rfl
  have log_after : after.mlsGroupLog = db.mlsGroupLog := by
    rw [← after_eq]
    rfl
  have inbox_iff := SqliteStore.recentMessages_iff P atRest.keys.inbox db.inbox inbox
  have outbox_iff := SqliteStore.recentMessages_iff P atRest.keys.outbox db.outbox outbox
  rw [← inbox_after] at inbox_iff
  rw [← outbox_after] at outbox_iff
  have sessions_iff := SqliteStore.loadSession_iff P atRest sessions_after
  have names_iff := SqliteStore.peerName_iff P atRest names_after legacy.names_text
  constructor
  · intro reads
    constructor
    · intro r member
      exact (inbox_opens r member).mp (inbox_iff.mp reads.recentInbox r member)
    · intro r member
      exact (outbox_opens r member).mp (outbox_iff.mp reads.recentOutbox r member)
    · intro r member
      exact (reachable_iff (sessions_opens r member)).mp (sessions_iff.mp reads.loadSession r member)
    · exact (SqliteStore.chanList_iff P atRest state_after).mp reads.chanList
    · intro r member
      exact (peers_opens r member).mp
        ((SqliteStore.chanPeers_iff P atRest peers_after).mp reads.chanPeers r member)
    · intro r member
      exact (reachable_iff (names_open r member)).mp (names_iff.mp reads.peerName r member)
    · exact (SqliteStore.mlsGroupLoad_iff P atRest groups_after log_after).mp reads.mlsGroupLoad
  · intro clean
    constructor
    · exact inbox_iff.mpr fun r member => (inbox_opens r member).mpr (clean.inbox r member)
    · exact outbox_iff.mpr fun r member => (outbox_opens r member).mpr (clean.outbox r member)
    · exact sessions_iff.mpr fun r member =>
        (reachable_iff (sessions_opens r member)).mpr (clean.sessions r member)
    · exact (SqliteStore.chanList_iff P atRest state_after).mpr clean.chan_state
    · exact (SqliteStore.chanPeers_iff P atRest peers_after).mpr fun r member =>
        (peers_opens r member).mpr (clean.chan_peers r member)
    · exact SqliteStore.chanRecentInbox_eq P atRest messages_after messages_open
    · exact names_iff.mpr fun r member =>
        (reachable_iff (names_open r member)).mpr (clean.peer_names r member)
    · exact (SqliteStore.mlsGroupLoad_iff P atRest groups_after log_after).mpr clean.mls_groups

/-- A legacy database reads the same after its migration exactly when it holds none
of the rows that the migration misses. -/
theorem migration_preserves_reads (P : StoreCrypto) (db : Db) (legacy : db.Legacy) (master : Key)
    (draws : Draws) :
    ∃ before after, SqliteStore.open P db [] draws = .ok before ∧
      SqliteStore.open P db master.val draws = .ok after ∧
      (SqliteStore.SameReads P after before ↔ db.Migratable) := by
  obtain ⟨opened_plain, opened_key⟩ := open_legacy P legacy master draws
  refine ⟨_, _, opened_plain, opened_key, ?_⟩
  exact sameReads_migrate_iff P legacy _ (initialKeys P master) rfl

/-! ### Two databases -/

/-- An AEAD whose tag is a run of zeros. -/
private def zeroTag : StoreCrypto where
  encrypt _ _ _ pt := pt ++ List.replicate 16 0
  decrypt _ _ _ ct :=
    if ct.length ≥ 16 ∧ ct.drop (ct.length - 16) = List.replicate 16 0 then
      some (ct.take (ct.length - 16))
    else none
  decrypt_encrypt _ _ _ pt := by simp
  length_encrypt := StoreCrypto.plain.length_encrypt
  length_decrypt {_ _ _ ct pt} opened := by
    split at opened
    next long =>
      obtain rfl : ct.take (ct.length - 16) = pt := by simpa using opened
      simp only [kXTag, List.length_take]
      omega
    · cases opened
  hkdfExtract _ ikm := ikm
  hkdfExpand prk _ := prk

private def zeroKey : Key := .filled 0
private def zeroDraws : Draws := .filled 0

/-- A message and a session. -/
private def history : SqliteStore := written zeroTag
  [(.appendInbox (.of [1]) (.of [2]) (.of [3]) 5 0, zeroDraws),
    (.saveSession (.of [2]) (.of [4]), zeroDraws)]

private theorem history_migratable : history.db.Migratable := by
  constructor <;> decide

theorem migration_preserves_reads_history :
    history.db.Migratable ∧ ∃ before after,
      SqliteStore.open zeroTag history.db [] zeroDraws = .ok before ∧
      SqliteStore.open zeroTag history.db zeroKey.val zeroDraws = .ok after ∧
      SqliteStore.SameReads zeroTag after before := by
  refine ⟨history_migratable, ?_⟩
  obtain ⟨before, after, plain, keyed, reads⟩ := migration_preserves_reads zeroTag history.db
    (written_legacy zeroTag _).1 zeroKey zeroDraws
  exact ⟨before, after, plain, keyed, reads.mpr history_migratable⟩

/-- A channel with its own distribution, as every channel that was sent to has. -/
private def channel : SqliteStore := written zeroTag
  [(.chanSave (ascii "general") (.of [1]) (.of [7]) .kSenderKeys, zeroDraws)]

/-- The distribution is there before the migration and gone after it. -/
theorem own_dist_lost :
    ∃ before after, SqliteStore.open zeroTag channel.db [] zeroDraws = .ok before ∧
      SqliteStore.open zeroTag channel.db zeroKey.val zeroDraws = .ok after ∧
      (before.chanList zeroTag).map (·.ownDist) = [[7]] ∧
      (after.chanList zeroTag).map (·.ownDist) = [[]] := by
  have legacy : channel.db.Legacy := (written_legacy zeroTag _).1
  obtain ⟨plain, keyed⟩ := open_legacy zeroTag legacy zeroKey zeroDraws
  have rows : channel.db.chanState.rows = [⟨cstr (ascii "general"), ⟨[1], 0⟩, some [7]⟩] := rfl
  have untouched : (migrate zeroTag channel.db (deriveTableKeys zeroTag zeroKey) zeroDraws).chanState =
      channel.db.chanState := wrapTable_text zeroTag _ _ _ _
  -- one byte is too short for a wrapping
  have closed (key : Key) (aad : Bytes) : aeadUnwrap zeroTag key [7] aad = none :=
    dif_pos (by decide)
  refine ⟨_, _, plain, keyed, ?_, ?_⟩
  · simp [SqliteStore.chanList, rows, SqliteStore.readOwnDist, SqliteStore.key]
  · simp [SqliteStore.chanList, untouched, rows, SqliteStore.readOwnDist, SqliteStore.key, openValue,
      closed]

end FinBit.Store
