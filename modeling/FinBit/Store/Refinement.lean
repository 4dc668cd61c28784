import FinBit.Lib.Guards
import FinBit.Store.Rekey
import FinBit.Store.Migration

/-! # The store that the encrypted one stands for

`PlainStore` has the tables of the client's store with the plaintext in the value
column, and no keys. A store with keys is related to it if every row of every table
unwraps, under the key that its table has now, to the value in the plain table, and if
opening the database again yields these keys. Every call keeps the relation, whichever
way it ends, and related stores answer every read alike.
-/

namespace FinBit.Store

open FinBit.Lib Sql SqliteStore

/-! ### The plain store -/

structure PlainStore where
  inbox : MessageTable
  outbox : MessageTable
  sessions : Table (Option Bytes) Unit Bytes
  chanState : Table CString ChannelInfo Bytes
  chanPeers : Table (Bytes × Bytes) Unit Bytes
  chanInbox : Table Int ChannelMessageInfo Bytes
  chanInboxSeq : Int
  peerNameCache : Table (Option Bytes) Int64 Bytes
  mlsGroupState : Table (Option Bytes) Unit Bytes
  mlsGroupLog : Table (Bytes × Int64) Unit Bytes

namespace PlainStore

def empty : PlainStore where
  inbox := .empty
  outbox := .empty
  sessions := .empty
  chanState := .empty
  chanPeers := .empty
  chanInbox := .empty
  chanInboxSeq := 0
  peerNameCache := .empty
  mlsGroupState := .empty
  mlsGroupLog := .empty

variable (p : PlainStore)

/-- A row is refused where a column other than the value violates `NOT NULL`. -/
def append (t : MessageTable) (envelopeId peerPub plaintext : Span)
    (timestampMs expiresAtMs : UInt64) : MessageTable :=
  match column peerPub with
  | none => t
  | some peer => t.insertOrIgnore ⟨column envelopeId,
      ⟨peer, timestampMs.toInt64, expiresAtMs.toInt64⟩, plaintext.bytes⟩

def write : Write → PlainStore
  | .appendInbox id peer pt ts exp => { p with inbox := append p.inbox id peer pt ts exp }
  | .appendOutbox id peer ct ts exp => { p with outbox := append p.outbox id peer ct ts exp }
  | .pruneExpired now =>
    { p with
      inbox := p.inbox.delete fun _ => expired now
      outbox := p.outbox.delete fun _ => expired now }
  | .saveSession peer blob =>
    { p with sessions := p.sessions.insertOrReplace ⟨column peer, (), blob.bytes⟩ }
  | .chanSave name id dist crypto =>
    match column id with
    | none => p
    | some id =>
      { p with chanState := p.chanState.upsert ⟨cstr name, ⟨id, crypto.toInt⟩, dist.bytes⟩ }
  | .chanSavePeer id peer dist =>
    match column id, column peer with
    | some id, some peer =>
      { p with chanPeers := p.chanPeers.upsert ⟨(id, peer), (), dist.bytes⟩ }
    | _, _ => p
  | .chanAppendInbox id sender pt ts =>
    match column id, column sender with
    | some id, some sender =>
      { p with
        chanInbox :=
          p.chanInbox.insertOrIgnore ⟨p.chanInboxSeq + 1, ⟨id, sender, ts.toInt64⟩, pt.bytes⟩
        chanInboxSeq := p.chanInboxSeq + 1 }
    | _, _ => p
  | .cachePeerName now peer name =>
    { p with peerNameCache := p.peerNameCache.upsert ⟨column peer, now, name⟩ }
  | .mlsGroupSave id seed =>
    { p with mlsGroupState := p.mlsGroupState.upsert ⟨column id, (), seed.bytes⟩ }
  | .mlsGroupOpAppend id seq op =>
    match column id with
    | none => p
    | some id =>
      { p with mlsGroupLog := p.mlsGroupLog.insertOrIgnore ⟨(id, seq), (), op.bytes⟩ }

/-- The keys are no concern of this store. -/
def step : Event → PlainStore
  | .write call _ => p.write call
  | .rotate _ _ => p
  | .ratchet _ _ => p
  | .reopen _ => p

end PlainStore

/-! ### Reads -/

/-- The answers to all reads. -/
structure Reads where
  recentInbox : UInt64 → List MessageRow
  recentOutbox : UInt64 → List MessageRow
  loadSession : Span → Option Bytes
  chanList : List ChannelRow
  chanPeers : Span → List ChannelPeerRow
  chanRecentInbox : Span → UInt64 → List ChannelInboxRow
  peerName : Span → Option Bytes
  allCachedPeers : List CachedPeer
  peerPubkeysForUsername : Bytes → List Bytes
  mlsGroupLoad : Span → Except String (Option MlsGroupSnapshot)

def SqliteStore.reads (P : StoreCrypto) (s : SqliteStore) : Reads where
  recentInbox := s.recentInbox P
  recentOutbox := s.recentOutbox P
  loadSession := s.loadSession P
  chanList := s.chanList P
  chanPeers := s.chanPeers P
  chanRecentInbox := s.chanRecentInbox P
  peerName := s.peerName P
  allCachedPeers := s.allCachedPeers P
  peerPubkeysForUsername := s.peerPubkeysForUsername P
  mlsGroupLoad := s.mlsGroupLoad P

namespace PlainStore

def recent (t : MessageTable) (limit : UInt64) : List MessageRow :=
  (takeLimit limit (t.rows.mergeSort fun a b => b.info.tsMs ≤ a.info.tsMs)).map fun r =>
    ⟨r.key.getD [], r.info.peerPub, r.value, r.info.tsMs.toUInt64⟩

def snapshot (log : Table (Bytes × Int64) Unit Bytes) (channelId : Span) (seed : Bytes) :
    MlsGroupSnapshot :=
  let rows := (log.rows.filter fun r =>
    (Value.blob r.key.1).equals (bindBlob channelId)).mergeSort fun a b => a.key.2 ≤ b.key.2
  ⟨seed, rows.map (·.value), nextSeq rows⟩

def allCachedPeers (p : PlainStore) : List CachedPeer :=
  (p.peerNameCache.rows.mergeSort fun a b => b.info ≤ a.info).map fun r => ⟨r.key.getD [], r.value⟩

def reads (p : PlainStore) : Reads where
  recentInbox := recent p.inbox
  recentOutbox := recent p.outbox
  loadSession peerPub := (p.sessions.find [bindBlob peerPub]).map (·.value)
  chanList := (p.chanState.rows.mergeSort fun a b => a.key.val ≤ b.key.val).map fun r =>
    { name := r.key.val
      channelId := r.info.channelId
      ownDist := r.value
      crypto := if r.info.crypto = (1 : Int) then .kMls else .kSenderKeys }
  chanPeers channelId :=
    (p.chanPeers.rows.filter fun r => (Value.blob r.key.1).equals (bindBlob channelId)).map
      fun r => ⟨r.key.2, r.value⟩
  chanRecentInbox channelId limit :=
    let rows := p.chanInbox.rows.filter fun r =>
      (Value.blob r.info.channelId).equals (bindBlob channelId)
    (takeLimit limit (rows.mergeSort fun a b => b.info.tsMs ≤ a.info.tsMs)).map fun r =>
      ⟨r.info.channelId, r.info.senderPub, r.value, r.info.tsMs.toUInt64⟩
  peerName peerPub := (p.peerNameCache.find [bindBlob peerPub]).map (·.value)
  allCachedPeers := p.allCachedPeers
  peerPubkeysForUsername username :=
    (p.allCachedPeers.filter fun peer => peer.username = username).map (·.peerPub)
  mlsGroupLoad channelId := .ok ((p.mlsGroupState.find [bindBlob channelId]).map fun r =>
    snapshot p.mlsGroupLog channelId r.value)

end PlainStore

/-! ### The relation -/

section Opened

variable (P : StoreCrypto) {κ ι ν : Type} [BlobColumn ν]

/-- What a row holds. -/
def opened (key : Key) (aad : κ → ι → Bytes) (r : Row κ ι ν) : Option Bytes :=
  aeadUnwrap P key (BlobColumn.bytes r.value) (aad r.key r.info)

/-- What a row of `chan_state` holds, where nothing is wrapped as nothing. -/
def openedDist (key : Key) (r : Row CString ChannelInfo (Option Bytes)) : Option Bytes :=
  if BlobColumn.bytes r.value = [] then some [] else opened P key (fun k _ => keyAad k) r

variable {P}

theorem aeadWrap_ne_nil (key : Key) (nonce : Nonce) (plaintext aad : Bytes) :
    aeadWrap P key nonce plaintext aad ≠ [] := by
  intro nothing
  have size := length_aeadWrap P key nonce plaintext aad
  rw [nothing, List.length_nil] at size
  omega

theorem opened_wrap (key : Key) (nonce : Nonce) (aad : κ → ι → Bytes) (k : κ) (info : ι)
    (plaintext : Bytes) : opened P key aad (⟨k, info, BlobColumn.ofBlob
      (aeadWrap P key nonce plaintext (aad k info))⟩ : Row κ ι ν) = some plaintext := by
  simp [opened]

variable [KeyColumns κ] {oldK newK : Key} {nonce : Nat → Nonce} {aad : κ → ι → Bytes}
  {t : Table κ ι ν} {u : Table κ ι Bytes}

theorem shows_rewrapTable (shows : t.Shows (opened P oldK aad) u) :
    (rewrapTable P oldK newK nonce aad t).1.Shows (opened P newK aad) u := by
  apply shows.rewrite
  intro i r _ plaintext opens
  rw [opened] at opens
  simp only [rewrapped, opens, Option.map_some, Option.getD_some]
  exact opened_wrap newK (nonce i) aad r.key r.info plaintext

/-- What unwraps is not empty, so that a ratchet takes the same rows. -/
theorem shows_rewrap (shows : t.Shows (opened P oldK aad) u) :
    (rewrap P oldK newK nonce aad t).1.Shows (opened P newK aad) u := by
  apply shows.rewrite
  intro i r _ plaintext opens
  rw [opened] at opens
  have filled : BlobColumn.bytes r.value ≠ [] := by
    intro nothing
    have size := length_of_aeadUnwrap P opens
    rw [nothing, List.length_nil] at size
    omega
  simp only [if_neg filled, rewrapped, opens, Option.map_some, Option.getD_some]
  exact opened_wrap newK (nonce i) aad r.key r.info plaintext

theorem shows_rewrap_dist {t : Table CString ChannelInfo (Option Bytes)}
    {u : Table CString ChannelInfo Bytes} (shows : t.Shows (openedDist P oldK) u) :
    (rewrap P oldK newK nonce (fun k _ => keyAad k) t).1.Shows (openedDist P newK) u := by
  apply shows.rewrite
  intro i r _ plaintext opens
  unfold openedDist at opens
  split at opens
  next nothing => simpa [openedDist, nothing] using opens
  next filled =>
    rw [opened] at opens
    simp only [if_neg filled, rewrapped, opens, Option.map_some, Option.getD_some]
    rw [openedDist, if_neg (by simp [aeadWrap_ne_nil])]
    exact opened_wrap newK (nonce i) (fun k _ => keyAad k) r.key r.info plaintext

end Opened

/-- Every table shows the plain one. -/
structure Refines (P : StoreCrypto) (keys : TableKeys) (db : Db) (p : PlainStore) : Prop where
  inbox : db.inbox.Shows (opened P keys.inbox fun k _ => keyAad k) p.inbox
  outbox : db.outbox.Shows (opened P keys.outbox fun k _ => keyAad k) p.outbox
  sessions : db.sessions.Shows (opened P keys.sessions fun k _ => keyAad k) p.sessions
  chanState : db.chanState.Shows (openedDist P keys.chanState) p.chanState
  chanPeers : db.chanPeers.Shows (opened P keys.chanPeers fun k _ => keyAad k) p.chanPeers
  chanInbox : db.chanInbox.Shows (opened P keys.chanInbox fun _ info => info.channelId) p.chanInbox
  chanInboxSeq : db.chanInboxSeq = p.chanInboxSeq
  peerNameCache :
    db.peerNameCache.Shows (opened P keys.peerName fun k _ => keyAad k) p.peerNameCache
  mlsGroupState :
    db.mlsGroupState.Shows (opened P keys.mlsState fun k _ => keyAad k) p.mlsGroupState
  mlsGroupLog :
    db.mlsGroupLog.Shows (opened P keys.mlsLog fun k _ => mlsLogAad k.1 k.2) p.mlsGroupLog

/-! ### Related stores answer alike -/

section Answers

variable {P : StoreCrypto} {key : Key}

def limited {κ ι : Type} (limit : UInt64) : Table.Query κ ι where
  run := takeLimit limit
  natural _ rows := map_takeLimit _ limit rows

theorem recentMessages_eq {t u : MessageTable}
    (shows : t.Shows (opened P key fun k _ => keyAad k) u) (limit : UInt64) :
    recentMessages P (some key) t limit = PlainStore.recent u limit := by
  have listed := shows.listed
    ((limited limit).comp (.orderBy fun _ a _ b => b.tsMs ≤ a.tsMs))
    (fun k info plaintext =>
      (⟨k.getD [], info.peerPub, plaintext, info.tsMs.toUInt64⟩ : MessageRow))
  simp only [opened, keyAad_nullable] at listed
  exact listed

/-- A look-up unwraps with the bytes it has looked for, which are the key it has found. -/
theorem lookup_eq {ι ν : Type} [BlobColumn ν] {t : Table (Option Bytes) ι ν}
    {u : Table (Option Bytes) ι Bytes} (shows : t.Shows (opened P key fun k _ => keyAad k) u)
    (b : Span) :
    ((t.find [bindBlob b]).bind fun r => aeadUnwrap P key (BlobColumn.bytes r.value) b.bytes) =
      (u.find [bindBlob b]).map (·.value) := by
  rw [← shows.find]
  cases found : t.find [bindBlob b] with
  | none => rfl
  | some r =>
    have keyed := ((t.find_nullable_iff b r).mp found).2.1
    simp [opened, keyed]

theorem readOwnDist_eq (r : Row CString ChannelInfo (Option Bytes)) :
    readOwnDist P (some key) (BlobColumn.bytes r.value) r.key.val =
      (openedDist P key r).getD [] := by
  by_cases nothing : BlobColumn.bytes r.value = []
  · simp [readOwnDist, openedDist, nothing]
  · simp [readOwnDist, openedDist, opened, openValue, nothing]

variable {keys : TableKeys} {db : Db} {p : PlainStore} {a : AtRest}

theorem chanList_eq (shows : db.chanState.Shows (openedDist P a.keys.chanState) p.chanState) :
    chanList P ⟨db, some a⟩ = p.reads.chanList := by
  have seen := shows.query (.orderBy fun k _ k' _ => k.val ≤ k'.val)
  have rows := congrArg (List.map fun r => ({
    name := r.key.val
    channelId := r.info.channelId
    ownDist := r.value.getD []
    crypto := if r.info.crypto = (1 : Int) then .kMls else .kSenderKeys } : ChannelRow)) seen
  simp only [List.map_map, Function.comp_def, Option.getD_some, ← readOwnDist_eq] at rows
  exact rows

/-- The rows of a channel have its id in their key. -/
theorem key_of_selected {κ ι ν : Type} {rows : List (Row κ ι ν)} (id : Row κ ι ν → Bytes)
    {channelId : Span} {r : Row κ ι ν}
    (member : r ∈ rows.filter fun r => (Value.blob (id r)).equals (bindBlob channelId)) :
    id r = channelId.bytes := by
  have selected := (List.mem_filter.mp member).2
  cases null : channelId.isNull <;> simp_all [bindBlob, column]

theorem chanPeers_eq
    (shows : db.chanPeers.Shows (opened P a.keys.chanPeers fun k _ => keyAad k) p.chanPeers)
    (channelId : Span) : chanPeers P ⟨db, some a⟩ channelId = p.reads.chanPeers channelId := by
  have listed := shows.listed
    (.select fun k _ => (Value.blob k.1).equals (bindBlob channelId))
    (fun k _ peerDist => (⟨k.2, peerDist⟩ : ChannelPeerRow))
  refine Eq.trans ?_ listed
  apply List.filterMap_congr
  intro r member
  have id : r.key.1 = channelId.bytes :=
    key_of_selected (fun r : Row (Bytes × Bytes) Unit Bytes => r.key.1) member
  simp [SqliteStore.key, openValue, opened, id]

theorem chanRecentInbox_eq_plain
    (shows : db.chanInbox.Shows (opened P a.keys.chanInbox fun _ info => info.channelId)
      p.chanInbox) (channelId : Span) (limit : UInt64) :
    chanRecentInbox P ⟨db, some a⟩ channelId limit = p.reads.chanRecentInbox channelId limit :=
  shows.listed
    ((limited limit).comp (.comp (.orderBy fun _ a _ b => b.tsMs ≤ a.tsMs)
      (.select fun _ info => (Value.blob info.channelId).equals (bindBlob channelId))))
    fun _ info plaintext =>
      (⟨info.channelId, info.senderPub, plaintext, info.tsMs.toUInt64⟩ : ChannelInboxRow)

theorem allCachedPeers_eq
    (shows : db.peerNameCache.Shows (opened P a.keys.peerName fun k _ => keyAad k)
      p.peerNameCache) : allCachedPeers P ⟨db, some a⟩ = p.allCachedPeers := by
  have listed := shows.listed (.orderBy fun _ learned _ learned' => learned' ≤ learned)
    (fun k _ username => (⟨k.getD [], username⟩ : CachedPeer))
  simp only [opened, keyAad_nullable] at listed
  exact listed

/-- The rows of the log of a channel. -/
def ofChannel (channelId : Span) : Table.Query (Bytes × Int64) Unit :=
  .comp (.orderBy fun k _ k' _ => k.2 ≤ k'.2)
    (.select fun k _ => (Value.blob k.1).equals (bindBlob channelId))

theorem readLog_eq
    (shows : db.mlsGroupLog.Shows (opened P a.keys.mlsLog fun k _ => mlsLogAad k.1 k.2)
      p.mlsGroupLog) (channelId : Span) :
    (mlsLogRows ⟨db, some a⟩ channelId).mapM
        (readLogRow P (some a.keys.mlsLog) channelId.bytes) =
      .ok (((ofChannel channelId).run p.mlsGroupLog.rows).map (·.value)) := by
  have seen := congrArg (List.map (·.value)) (shows.query (ofChannel channelId))
  simp only [List.map_map, Function.comp_def] at seen
  apply mapM_opened seen
  intro r member op opens
  have id : r.key.1 = channelId.bytes :=
    key_of_selected (fun r : Row (Bytes × Int64) Unit Bytes => r.key.1)
      (List.mem_mergeSort.mp member)
  rw [opened, id] at opens
  simp only [readLogRow, openValue]
  rw [show aeadUnwrap P a.keys.mlsLog r.value (mlsLogAad channelId.bytes r.key.2) = some op
    from opens]

theorem mlsGroupLoad_eq
    (state : db.mlsGroupState.Shows (opened P a.keys.mlsState fun k _ => keyAad k)
      p.mlsGroupState)
    (log : db.mlsGroupLog.Shows (opened P a.keys.mlsLog fun k _ => mlsLogAad k.1 k.2)
      p.mlsGroupLog) (channelId : Span) :
    mlsGroupLoad P ⟨db, some a⟩ channelId = p.reads.mlsGroupLoad channelId := by
  have looked := lookup_eq state channelId
  have numbers : nextSeq (mlsLogRows ⟨db, some a⟩ channelId) =
      nextSeq ((ofChannel channelId).run p.mlsGroupLog.rows) := by
    have seen := congrArg (List.map (·.key.2)) (log.query (ofChannel channelId))
    simp only [List.map_map, Function.comp_def] at seen
    rw [nextSeq_eq, nextSeq_eq]
    exact congrArg (fun seqs => List.foldl _ (-1) seqs + 1) seen
  unfold mlsGroupLoad
  simp only [PlainStore.reads]
  cases found : db.mlsGroupState.find [bindBlob channelId] with
  | none =>
    rw [found] at looked
    rw [Option.map_eq_none_iff.mp looked.symm]
    rfl
  | some r =>
    obtain ⟨seed, opens⟩ := state.opens (List.mem_of_find?_eq_some found)
    have keyed := ((db.mlsGroupState.find_nullable_iff channelId r).mp found).2.1
    have unwrapped : aeadUnwrap P a.keys.mlsState r.value channelId.bytes = some seed := by
      simpa [opened, keyed] using opens
    rw [found] at looked
    simp only [Option.bind_some, bytes_blob, unwrapped] at looked
    obtain ⟨row, plain, rfl⟩ := Option.map_eq_some_iff.mp looked.symm
    simp only [SqliteStore.key, Option.map_some, openValue, unwrapped, plain]
    rw [readLog_eq log channelId, numbers]
    rfl

end Answers

theorem Refines.reads {P : StoreCrypto} {db : Db} {p : PlainStore} {a : AtRest}
    (refines : Refines P a.keys db p) : (⟨db, some a⟩ : SqliteStore).reads P = p.reads := by
  have names := allCachedPeers_eq refines.peerNameCache
  unfold SqliteStore.reads PlainStore.reads
  congr 1
  · exact funext (recentMessages_eq refines.inbox)
  · exact funext (recentMessages_eq refines.outbox)
  · exact funext (lookup_eq refines.sessions)
  · exact chanList_eq refines.chanState
  · exact funext (chanPeers_eq refines.chanPeers)
  · exact funext fun channelId => funext (chanRecentInbox_eq_plain refines.chanInbox channelId)
  · exact funext (lookup_eq refines.peerNameCache)
  · funext username
    rw [peerPubkeysForUsername, names]
  · exact funext (mlsGroupLoad_eq refines.mlsGroupState refines.mlsGroupLog)

/-! ### Writers keep the relation -/

section Writers

variable {P : StoreCrypto} {db : Db} {p : PlainStore} {a : AtRest}

@[simp] theorem getD_column (b : Span) : (column b).getD [] = b.bytes := by
  cases null : b.isNull with
  | true => simp [column, null, b.null_empty null]
  | false => simp [column, null]

theorem bytes_of_column {b : Span} {bytes : Bytes} (bound : column b = some bytes) :
    bytes = b.bytes := by
  rw [← getD_column, bound]
  rfl

theorem shows_append {key : Key} {t u : MessageTable}
    (shows : t.Shows (opened P key fun k _ => keyAad k) u) (nonce : Nonce)
    (envelopeId peerPub plaintext : Span) (timestampMs expiresAtMs : UInt64) :
    (insertMessage t envelopeId peerPub
        (storedValue P (some key) nonce plaintext envelopeId.bytes) timestampMs expiresAtMs).Shows
      (opened P key fun k _ => keyAad k)
      (PlainStore.append u envelopeId peerPub plaintext timestampMs expiresAtMs) := by
  simp only [insertMessage, PlainStore.append, storedValue, column_of]
  cases column peerPub with
  | none => exact shows
  | some peer =>
    apply shows.insertOrIgnore
    simp [opened]

/-- The name of a channel has no NUL. -/
def SqliteStore.Write.Named : Write → Prop
  | .chanSave name _ _ _ => (0 : UInt8) ∉ name
  | _ => True

theorem Refines.write (refines : Refines P a.keys db p) (draws : Draws) {call : Write}
    (named : call.Named) :
    ∃ db', SqliteStore.write P ⟨db, some a⟩ draws call = ⟨db', some a⟩ ∧
      db'.userVersion = db.userVersion ∧ db'.storageMaster = db.storageMaster ∧
      db'.storageKeys = db.storageKeys ∧ Refines P a.keys db' (p.write call) := by
  cases call with
  | appendInbox id peer pt ts exp =>
    exact ⟨_, rfl, rfl, rfl, rfl,
      { refines with inbox := shows_append refines.inbox _ id peer pt ts exp }⟩
  | appendOutbox id peer ct ts exp =>
    exact ⟨_, rfl, rfl, rfl, rfl,
      { refines with outbox := shows_append refines.outbox _ id peer ct ts exp }⟩
  | pruneExpired now =>
    exact ⟨_, rfl, rfl, rfl, rfl,
      { refines with inbox := refines.inbox.delete _, outbox := refines.outbox.delete _ }⟩
  | saveSession peer blob =>
    refine ⟨_, rfl, rfl, rfl, rfl, { refines with sessions := ?_ }⟩
    apply refines.sessions.insertOrReplace
    simp [opened, SqliteStore.key, storedValue]
  | chanSave name id dist crypto =>
    simp only [SqliteStore.write, SqliteStore.chanSave, PlainStore.write]
    cases column id with
    | none => exact ⟨_, rfl, rfl, rfl, rfl, refines⟩
    | some id =>
      refine ⟨_, rfl, rfl, rfl, rfl, { refines with chanState := ?_ }⟩
      apply refines.chanState.upsert
      -- an empty distribution is stored as it is
      by_cases nothing : dist.bytes = []
      · have stored : BlobColumn.bytes (column dist) = [] := by
          rw [← nothing]
          exact getD_column dist
        simp only [nothing, if_true, storedValue, openedDist, stored]
      · simp only [nothing, if_false, SqliteStore.key, Option.map_some, storedValue, column_of]
        rw [openedDist, if_neg (by simp [aeadWrap_ne_nil])]
        simp [opened, cstr_of_not_mem named]
  | chanSavePeer id peer dist =>
    simp only [SqliteStore.write, SqliteStore.chanSavePeer, PlainStore.write, SqliteStore.key,
      Option.map_some, storedValue, column_of]
    cases boundId : column id with
    | none => exact ⟨_, rfl, rfl, rfl, rfl, refines⟩
    | some idBytes =>
      cases boundPeer : column peer with
      | none => exact ⟨_, rfl, rfl, rfl, rfl, refines⟩
      | some peerBytes =>
        refine ⟨_, rfl, rfl, rfl, rfl, { refines with chanPeers := ?_ }⟩
        apply refines.chanPeers.upsert
        simp [opened, bytes_of_column boundId, bytes_of_column boundPeer]
  | chanAppendInbox id sender pt ts =>
    simp only [SqliteStore.write, SqliteStore.chanAppendInbox, PlainStore.write, SqliteStore.key,
      Option.map_some, storedValue, column_of]
    cases boundId : column id with
    | none => exact ⟨_, rfl, rfl, rfl, rfl, refines⟩
    | some idBytes =>
      cases column sender with
      | none => exact ⟨_, rfl, rfl, rfl, rfl, refines⟩
      | some senderBytes =>
        refine ⟨_, rfl, rfl, rfl, rfl, { refines with chanInbox := ?_, chanInboxSeq := ?_ }⟩
        · rw [← refines.chanInboxSeq]
          apply refines.chanInbox.insertOrIgnore
          simp [opened, bytes_of_column boundId]
        · rw [← refines.chanInboxSeq]
  | cachePeerName now peer name =>
    refine ⟨_, rfl, rfl, rfl, rfl, { refines with peerNameCache := ?_ }⟩
    apply refines.peerNameCache.upsert
    rw [opened, keyAad_nullable, getD_column]
    exact aeadUnwrap_aeadWrap P _ _ _ _
  | mlsGroupSave id seed =>
    refine ⟨_, rfl, rfl, rfl, rfl, { refines with mlsGroupState := ?_ }⟩
    apply refines.mlsGroupState.upsert
    simp [opened, SqliteStore.key, storedValue]
  | mlsGroupOpAppend id seq op =>
    simp only [SqliteStore.write, SqliteStore.mlsGroupOpAppend, PlainStore.write, SqliteStore.key,
      Option.map_some, storedValue, column_of]
    cases boundId : column id with
    | none => exact ⟨_, rfl, rfl, rfl, rfl, refines⟩
    | some idBytes =>
      -- a call that throws leaves the log, as an insertion does that is ignored
      have log := refines.mlsGroupLog.insertOrIgnore (r := ⟨(idBytes, seq), (), aeadWrap P
        a.keys.mlsLog (draws.nonce 0 0) op.bytes (mlsLogAad id.bytes seq)⟩) (v := op.bytes)
        (by simp [opened, bytes_of_column boundId])
      unfold Table.insertOrIgnore at log
      simp only
      cases inserted : db.mlsGroupLog.insert ⟨(idBytes, seq), (), aeadWrap P
        a.keys.mlsLog (draws.nonce 0 0) op.bytes (mlsLogAad id.bytes seq)⟩ with
      | none =>
        rw [inserted] at log
        exact ⟨_, rfl, rfl, rfl, rfl, { refines with mlsGroupLog := log }⟩
      | some table =>
        rw [inserted] at log
        exact ⟨_, rfl, rfl, rfl, rfl, { refines with mlsGroupLog := log }⟩

end Writers

/-! ### Keys on disk -/

section Keys

variable {P : StoreCrypto} {db db' : Db} {a : AtRest}

/-- The database leads to the keys that are in memory. The generations may differ. -/
def Reloads (P : StoreCrypto) (masterKey : Key) (db : Db) (a : AtRest) : Prop :=
  ∃ a', loadKeys P db masterKey = .ok a' ∧ a'.storageMaster = a.storageMaster ∧ a'.keys = a.keys

theorem loadKeys_congr {masterKey : Key} (master : db'.storageMaster = db.storageMaster)
    (keys : db'.storageKeys = db.storageKeys) :
    loadKeys P db' masterKey = loadKeys P db masterKey := by
  simp only [loadKeys, loadStorageMaster, loadWrapped, master, keys]

theorem loadWrapped_of_find (db : Db) {storageMaster k : Key} {nonce : Nonce} {name : CString}
    {generation : UInt64}
    (found : db.storageKeys.find (columns name) = some ⟨name, generation,
      aeadWrap P storageMaster nonce k.val (storageKeyAad name generation)⟩) :
    loadWrapped P db storageMaster name = some (k, generation) := by
  have found' : db.storageKeys.find [.text name] = _ := found
  simp [loadWrapped, found']

/-- A key that was persisted is found, and the keys of other names as before. -/
theorem find_persistWrapped (t : Table CString UInt64 Bytes) (storageMaster k : Key)
    (generation : UInt64) (nonce : Nonce) (name : CString) :
    (persistWrapped P storageMaster generation nonce name k t).find (columns name) =
      some ⟨name, generation,
        aeadWrap P storageMaster nonce k.val (storageKeyAad name generation)⟩ :=
  t.find_upsert (r := ⟨name, generation, _⟩) (by simp [columns])

theorem find_persistWrapped_other (t : Table CString UInt64 Bytes) {storageMaster k : Key}
    {generation : UInt64} {nonce : Nonce} {name other : CString} (ne : name ≠ other) :
    (persistWrapped P storageMaster generation nonce name k t).find (columns other) =
      t.find (columns other) := by
  apply t.find_upsert_other
  rw [Bool.eq_false_iff]
  intro hit
  have same := ((matchAll_eq_true_iff _ _).mp hit).1
  exact ne (DistinctColumns.injective same)

/-- The keys that a database leads to, given the storage master. -/
def loadedKeys (P : StoreCrypto) (db : Db) (storageMaster : Key) : TableKeys :=
  let derived := deriveTableKeys P storageMaster
  { derived with
    inbox := override derived.inbox (loadWrapped P db storageMaster inboxName)
    outbox := override derived.outbox (loadWrapped P db storageMaster outboxName)
    sessions := override derived.sessions (loadWrapped P db storageMaster sessionsName) }

theorem reloads_iff {masterKey : Key} : Reloads P masterKey db a ↔
    (∃ generation, loadStorageMaster P db masterKey = .ok (a.storageMaster, generation)) ∧
      a.keys = loadedKeys P db a.storageMaster := by
  constructor
  · rintro ⟨a', loaded, master, keys⟩
    obtain ⟨⟨storageMaster, generation⟩, read, done⟩ := bind_eq_ok.mp loaded
    cases done
    subst master
    exact ⟨⟨generation, read⟩, keys.symm⟩
  · rintro ⟨⟨generation, read⟩, keys⟩
    exact ⟨_, bind_eq_ok.mpr ⟨_, read, rfl⟩, rfl, keys.symm⟩

/-- After a rotation the three keys come from `storage_keys`. -/
theorem Reloads.rotate {masterKey : Key} (reloads : Reloads P masterKey db a) (draws : Draws)
    {s : SqliteStore} (rotated : (SqliteStore.rotateStorageKeys P ⟨db, some a⟩ draws).1 = s) :
    ∃ a', s.atRest = some a' ∧ Reloads P masterKey s.db a' := by
  obtain ⟨⟨generation, read⟩, keys⟩ := reloads_iff.mp reloads
  subst rotated
  refine ⟨_, rfl, reloads_iff.mpr ⟨⟨generation, read⟩, ?_⟩⟩
  have names : inboxName ≠ outboxName ∧ inboxName ≠ sessionsName ∧ outboxName ≠ sessionsName := by
    decide
  -- the key that was persisted last is found first
  have sessions := loadWrapped_of_find (SqliteStore.rotateStorageKeys P ⟨db, some a⟩ draws).1.db
    (find_persistWrapped _ a.storageMaster (draws.key 2) _ (draws.nonce 3 2) sessionsName)
  have outbox := loadWrapped_of_find (SqliteStore.rotateStorageKeys P ⟨db, some a⟩ draws).1.db
    ((find_persistWrapped_other _ names.2.2.symm).trans
      (find_persistWrapped _ a.storageMaster (draws.key 1) _ (draws.nonce 3 1) outboxName))
  have inbox := loadWrapped_of_find (SqliteStore.rotateStorageKeys P ⟨db, some a⟩ draws).1.db
    (((find_persistWrapped_other _ names.2.1.symm).trans
      (find_persistWrapped_other _ names.1.symm)).trans
      (find_persistWrapped _ a.storageMaster (draws.key 0) _ (draws.nonce 3 0) inboxName))
  simp only [loadedKeys, sessions, outbox, inbox, override, Option.map_some, Option.getD_some]
  rw [keys]
  rfl

/-- After a ratchet all keys derive from the new master. -/
theorem Reloads.ratchet (db : Db) {masterKey : Key} (same : a.masterKey = masterKey) (draws : Draws)
    {s : SqliteStore} (ratcheted : (SqliteStore.ratchetStorageMaster P ⟨db, some a⟩ draws).1 = s) :
    ∃ a', s.atRest = some a' ∧ Reloads P masterKey s.db a' := by
  subst ratcheted
  refine ⟨_, rfl, reloads_iff.mpr ⟨⟨a.storageMasterGeneration + 1, ?_⟩, ?_⟩⟩
  · simp [loadStorageMaster, ratchetStorageMaster, same]
  · have gone (name : CString) : (SqliteStore.ratchetStorageMaster P ⟨db, some a⟩
        draws).1.db.storageKeys.find [Value.text name] = none := by
      simp [ratchetStorageMaster, Table.find, Table.delete]
    simp only [loadedKeys, loadWrapped, gone, Option.bind_none, override, Option.map_none,
      Option.getD_none]

end Keys

/-! ### Runs -/

section Runs

variable {P : StoreCrypto} {masterKey : Key} {s : SqliteStore} {p : PlainStore}

/-- The store stands for `p`, now and after it is opened again. -/
def Represents (P : StoreCrypto) (masterKey : Key) (s : SqliteStore) (p : PlainStore) : Prop :=
  ∃ a, s.atRest = some a ∧ a.masterKey = masterKey ∧ s.db.userVersion = 3 ∧
    Reloads P masterKey s.db a ∧ Refines P a.keys s.db p

theorem Represents.reads (represents : Represents P masterKey s p) : s.reads P = p.reads := by
  obtain ⟨db, atRest⟩ := s
  obtain ⟨a, rfl, -, -, -, refines⟩ := represents
  exact refines.reads

theorem Represents.write (represents : Represents P masterKey s p) (draws : Draws) {call : Write}
    (named : call.Named) : Represents P masterKey (s.write P draws call) (p.write call) := by
  obtain ⟨db, atRest⟩ := s
  obtain ⟨a, rfl, same, version, ⟨a', loaded, keys⟩, refines⟩ := represents
  obtain ⟨db', written, version', master', keys', refines'⟩ := refines.write draws named
  rw [written]
  refine ⟨a, rfl, same, version'.trans version, ⟨a', ?_, keys⟩, refines'⟩
  exact (loadKeys_congr master' keys').trans loaded

theorem Represents.rotate (represents : Represents P masterKey s p) (draws : Draws) :
    Represents P masterKey (s.rotateStorageKeys P draws).1 p := by
  obtain ⟨db, atRest⟩ := s
  obtain ⟨a, rfl, same, version, reloads, refines⟩ := represents
  obtain ⟨a', held, reloads'⟩ := reloads.rotate draws rfl
  cases held
  exact ⟨_, rfl, same, version, reloads', { refines with
    inbox := shows_rewrapTable refines.inbox
    outbox := shows_rewrapTable refines.outbox
    sessions := shows_rewrapTable refines.sessions }⟩

theorem Represents.ratchet (represents : Represents P masterKey s p) (draws : Draws) :
    Represents P masterKey (s.ratchetStorageMaster P draws).1 p := by
  obtain ⟨db, atRest⟩ := s
  obtain ⟨a, rfl, same, version, reloads, refines⟩ := represents
  obtain ⟨a', held, reloads'⟩ := Reloads.ratchet (P := P) db same draws rfl
  cases held
  exact ⟨_, rfl, same, version, reloads', {
    inbox := shows_rewrap refines.inbox
    outbox := shows_rewrap refines.outbox
    sessions := shows_rewrap refines.sessions
    chanState := shows_rewrap_dist refines.chanState
    chanPeers := shows_rewrap refines.chanPeers
    chanInbox := shows_rewrap refines.chanInbox
    chanInboxSeq := refines.chanInboxSeq
    peerNameCache := shows_rewrap refines.peerNameCache
    mlsGroupState := shows_rewrap refines.mlsGroupState
    mlsGroupLog := shows_rewrap refines.mlsGroupLog }⟩

/-- What is on disk stands for `p` without what was in memory. -/
theorem Represents.reopen (represents : Represents P masterKey s p) (draws : Draws) :
    ∃ s', SqliteStore.open P s.db masterKey.val draws = .ok s' ∧ Represents P masterKey s' p := by
  obtain ⟨a, -, -, version, ⟨a', loaded, master, keys⟩, refines⟩ := represents
  have current : ¬s.db.userVersion < 3 := by omega
  refine ⟨⟨s.db, some a'⟩, ?_, a', rfl, ?_, version, ⟨a', loaded, rfl, rfl⟩, keys ▸ refines⟩
  · simp only [SqliteStore.open, if_neg masterKey.val_ne_nil, asKey_val, loaded, if_neg current]
    rfl
  · obtain ⟨_, -, done⟩ := bind_eq_ok.mp loaded
    cases done
    rfl

theorem Represents.finish {after : SqliteStore} (before : Represents P masterKey s p)
    (done : Represents P masterKey after p) (draws : Draws) (ending : Ending) :
    ∃ s', SqliteStore.finish P s draws masterKey after ending = .ok s' ∧
      Represents P masterKey s' p := by
  cases ending with
  | returned => exact ⟨after, rfl, done⟩
  | threw => exact ⟨s, rfl, before⟩
  | crashedBeforeCommit => exact before.reopen draws
  | crashedAfterCommit => exact done.reopen draws

def SqliteStore.Event.Named : Event → Prop
  | .write call _ => call.Named
  | _ => True

theorem Represents.step (represents : Represents P masterKey s p) {event : Event}
    (named : event.Named) :
    ∃ s', s.step P masterKey event = .ok s' ∧ Represents P masterKey s' (p.step event) := by
  cases event with
  | write call draws => exact ⟨_, rfl, represents.write draws named⟩
  | rotate draws ending => exact represents.finish (represents.rotate draws) draws ending
  | ratchet draws ending => exact represents.finish (represents.ratchet draws) draws ending
  | reopen draws => exact represents.reopen draws

theorem Represents.run (represents : Represents P masterKey s p) {events : List Event}
    (named : ∀ event ∈ events, event.Named) :
    ∃ s', events.foldlM (SqliteStore.step P masterKey) s = .ok s' ∧
      Represents P masterKey s' (events.foldl PlainStore.step p) := by
  induction events generalizing s p with
  | nil => exact ⟨s, rfl, represents⟩
  | cons event rest ih =>
    obtain ⟨next, stepped, represents'⟩ := represents.step (named event List.mem_cons_self)
    obtain ⟨last, ran, done⟩ := ih represents' fun e later => named e (List.mem_cons_of_mem _ later)
    refine ⟨last, ?_, done⟩
    rw [List.foldlM_cons, stepped]
    exact ran

/-- A new database that is opened with a key. -/
theorem represents_new (P : StoreCrypto) (masterKey : Key) (draws : Draws) :
    ∃ s, SqliteStore.open P .empty masterKey.val draws = .ok s ∧
      Represents P masterKey s .empty := by
  refine ⟨_, (open_legacy P Db.legacy_empty masterKey draws).2, _, rfl, rfl, rfl, ?_, ?_⟩
  · exact ⟨initialKeys P masterKey, rfl, rfl, rfl⟩
  · exact ⟨rfl, rfl, rfl, rfl, rfl, rfl, rfl, rfl, rfl, rfl⟩

end Runs

/-- Whatever is called on a store with a key, and wherever a change of its keys is
interrupted, it goes on to answer every read as the plain store does. -/
theorem encrypted_refines_plain (P : StoreCrypto) (masterKey : Key) (draws : Draws)
    (events : List Event) (named : ∀ event ∈ events, event.Named) :
    ∃ s₀ s, SqliteStore.open P .empty masterKey.val draws = .ok s₀ ∧
      events.foldlM (SqliteStore.step P masterKey) s₀ = .ok s ∧
      s.reads P = (events.foldl PlainStore.step .empty).reads := by
  obtain ⟨s₀, opened, represents⟩ := represents_new P masterKey draws
  obtain ⟨s, ran, represents'⟩ := represents.run named
  exact ⟨s₀, s, opened, ran, represents'.reads⟩

private theorem length_half (k : Key) : (k.val.take 16).length = 16 := by
  simp [k.property, kKeyLen]

/-- An AEAD whose tag is the first half of the key. -/
private def keyTag : StoreCrypto where
  encrypt k _ _ pt := pt ++ k.val.take 16
  decrypt k _ _ ct :=
    if ct.length ≥ 16 ∧ ct.drop (ct.length - 16) = k.val.take 16 then
      some (ct.take (ct.length - 16))
    else none
  decrypt_encrypt k _ _ pt := by
    rw [List.length_append, length_half]
    simp
  length_encrypt k _ _ pt := by rw [List.length_append, length_half]
  length_decrypt {_ _ _ ct pt} opened := by
    split at opened
    next long =>
      obtain rfl : ct.take (ct.length - 16) = pt := by simpa using opened
      simp only [kXTag, List.length_take]
      omega
    · cases opened
  hkdfExtract _ ikm := ikm
  hkdfExpand prk _ := prk

private def filled (b : UInt8) : Key := .filled b

private def sameDraws (b : UInt8) : Draws := .filled b

/-- A message, a rotation that crashes behind its commit, a channel, a ratchet that
crashes before its commit, and one that returns. -/
private def eventful : List Event :=
  [.write (.appendInbox (.of [1]) (.of [2]) (.of [3]) 5 0) (sameDraws 1),
    .rotate (sameDraws 2) .crashedAfterCommit,
    .write (.chanSave (ascii "general") (.of [1]) (.of [7]) .kSenderKeys) (sameDraws 3),
    .ratchet (sameDraws 4) .crashedBeforeCommit, .ratchet (sameDraws 5) .returned,
    .reopen (sameDraws 6)]

theorem encrypted_refines_plain_eventful :
    (∀ event ∈ eventful, event.Named) ∧
    ∃ s₀ s, SqliteStore.open keyTag .empty (filled 0).val (sameDraws 0) = .ok s₀ ∧
      eventful.foldlM (SqliteStore.step keyTag (filled 0)) s₀ = .ok s ∧
      s.reads keyTag = (eventful.foldl PlainStore.step .empty).reads := by
  have named : ∀ event ∈ eventful, event.Named := by
    intro event member
    simp only [eventful, List.mem_cons, List.not_mem_nil, or_false] at member
    rcases member with rfl | rfl | rfl | rfl | rfl | rfl <;> try trivial
    simp only [Event.Named, Write.Named]
    decide
  exact ⟨named, encrypted_refines_plain keyTag (filled 0) (sameDraws 0) eventful named⟩

end FinBit.Store
