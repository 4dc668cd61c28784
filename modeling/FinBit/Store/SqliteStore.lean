import FinBit.Lib.Sql

/-! # The client's store

`SqliteStore` keeps the client's history, sessions, channels and MLS logs in one
SQLite database. Opened with a master key it wraps one column of each table with
XChaCha20-Poly1305, under a key of that table and with the row's key columns as
associated data; opened without one it stores the same column as it is.

Columns that no accessor reads (`updated_ms`, `created_at_ms`, `applied_at_ms`,
`sent`) are left out.
-/

namespace FinBit.Store

open FinBit.Lib Sql

/-! ### Wrapping a column -/

abbrev kXNonce : Nat := 24
abbrev kXTag : Nat := 16
abbrev kKeyLen : Nat := 32

/-- A 32-byte key array. -/
def Key := { b : Bytes // b.length = kKeyLen }

/-- A nonce as `randombytes_buf` fills it. -/
def Nonce := { b : Bytes // b.length = kXNonce }

/-- What the store takes from libsodium. The AEAD's arguments are the key, the
nonce, the associated data and the text. -/
structure StoreCrypto where
  encrypt : Key → Nonce → Bytes → Bytes → Bytes
  decrypt : Key → Nonce → Bytes → Bytes → Option Bytes
  decrypt_encrypt : ∀ k n aad pt, decrypt k n aad (encrypt k n aad pt) = some pt
  length_encrypt : ∀ k n aad pt, (encrypt k n aad pt).length = pt.length + kXTag
  length_decrypt : ∀ {k n aad ct pt}, decrypt k n aad ct = some pt → pt.length + kXTag = ct.length
  /-- Salt and input key material to a pseudo-random key. -/
  hkdfExtract : Bytes → Key → Key
  /-- Pseudo-random key and info to 32 bytes. -/
  hkdfExpand : Key → Bytes → Key

section Crypto

variable (P : StoreCrypto)

def deriveTableKey (master : Key) (info : Bytes) : Key :=
  P.hkdfExpand (P.hkdfExtract [] master) info

/-- `nonce(24) || ct+tag`. -/
def aeadWrap (key : Key) (nonce : Nonce) (plaintext aad : Bytes) : Bytes :=
  nonce.val ++ P.encrypt key nonce aad plaintext

def aeadUnwrap (key : Key) (blob aad : Bytes) : Option Bytes :=
  if short : blob.length < kXNonce + kXTag then none
  else P.decrypt key ⟨blob.take kXNonce, by simp at short ⊢; omega⟩ aad (blob.drop kXNonce)

theorem length_aeadWrap (key : Key) (nonce : Nonce) (plaintext aad : Bytes) :
    (aeadWrap P key nonce plaintext aad).length = plaintext.length + 40 := by
  have size : nonce.val.length = 24 := nonce.property
  rw [aeadWrap, List.length_append, size, P.length_encrypt, kXTag]
  omega

@[simp] theorem aeadUnwrap_aeadWrap (key : Key) (nonce : Nonce) (plaintext aad : Bytes) :
    aeadUnwrap P key (aeadWrap P key nonce plaintext aad) aad = some plaintext := by
  have long : ¬(aeadWrap P key nonce plaintext aad).length < kXNonce + kXTag := by
    rw [length_aeadWrap, kXNonce, kXTag]
    omega
  have size : nonce.val.length = kXNonce := nonce.property
  rw [aeadUnwrap, dif_neg long]
  simp only [aeadWrap, List.take_left' size, List.drop_left' size]
  exact P.decrypt_encrypt key nonce aad plaintext

/-- What comes out of a wrapping is 40 bytes shorter than what went in. -/
theorem length_of_aeadUnwrap {key : Key} {blob aad pt : Bytes}
    (opened : aeadUnwrap P key blob aad = some pt) : pt.length + 40 = blob.length := by
  unfold aeadUnwrap at opened
  split at opened
  · cases opened
  next long =>
    have := P.length_decrypt opened
    rw [List.length_drop] at this
    simp only [kXNonce, kXTag] at this long
    omega

theorem aeadUnwrap_ne_self (key : Key) (blob aad : Bytes) :
    aeadUnwrap P key blob aad ≠ some blob := by
  intro opened
  have := length_of_aeadUnwrap P opened
  omega

/-- Reading a column: as it is without a key, unwrapped with one. -/
def openValue (key : Option Key) (stored aad : Bytes) : Option Bytes :=
  match key with
  | none => some stored
  | some key => aeadUnwrap P key stored aad

/-- Writing a column. -/
def storedValue (key : Option Key) (nonce : Nonce) (plaintext : Span) (aad : Bytes) : Span :=
  match key with
  | none => plaintext
  | some key => .of (aeadWrap P key nonce plaintext.bytes aad)

end Crypto

/-- An AEAD that appends a tag and checks nothing. -/
def StoreCrypto.unchecked : StoreCrypto where
  encrypt _ _ _ pt := pt ++ List.replicate kXTag 0
  decrypt _ _ _ ct := if kXTag ≤ ct.length then some (ct.take (ct.length - kXTag)) else none
  decrypt_encrypt _ _ _ pt := by simp
  length_encrypt _ _ _ pt := by simp
  length_decrypt {_ _ _ ct pt} opened := by
    split at opened
    next long =>
      obtain rfl : ct.take (ct.length - kXTag) = pt := by simpa using opened
      rw [List.length_take]
      omega
    · cases opened
  hkdfExtract _ ikm := ikm
  hkdfExpand prk _ := prk

/-! ### Schema -/

/-- `inbox` and `outbox`, beside the key `envelope_id`. -/
structure MessageInfo where
  peerPub : Bytes
  tsMs : Int64
  expiresAtMs : Int64

/-- `chan_state`, beside the key `name`. -/
structure ChannelInfo where
  channelId : Bytes
  crypto : Int

/-- `chan_inbox`, beside the key `id`. -/
structure ChannelMessageInfo where
  channelId : Bytes
  senderPub : Bytes
  tsMs : Int64

/-- A key wrapped under another one, with its generation. -/
structure WrappedKey where
  wrapped : Bytes
  generation : UInt64

abbrev MessageTable := Table (Option Bytes) MessageInfo Bytes

structure Db where
  userVersion : Nat
  inbox : MessageTable
  outbox : MessageTable
  /-- By `peer_pub`; the value is `blob`. -/
  sessions : Table (Option Bytes) Unit Bytes
  /-- By `name`; the value is `own_dist`. -/
  chanState : Table CString ChannelInfo (Option Bytes)
  /-- By `channel_id` and `peer_pub`; the value is `peer_dist`. -/
  chanPeers : Table (Bytes × Bytes) Unit Bytes
  /-- By the autoincremented `id`; the value is `plaintext`. -/
  chanInbox : Table Int ChannelMessageInfo Bytes
  /-- The `sqlite_sequence` entry of `chan_inbox`. -/
  chanInboxSeq : Int
  /-- By `peer_pub`, with `learned_ms`; the value is `username`. -/
  peerNameCache : Table (Option Bytes) Int64 (CString ⊕ Bytes)
  /-- By `channel_id`; the value is `seed_blob`. -/
  mlsGroupState : Table (Option Bytes) Unit Bytes
  /-- By `channel_id` and `seq`; the value is `op_blob`. -/
  mlsGroupLog : Table (Bytes × Int64) Unit Bytes
  /-- The rows of `storage_keys`, by `name`; the value is `wrapped`. -/
  storageKeys : Table CString UInt64 Bytes
  /-- The row of `storage_master`. -/
  storageMaster : Option WrappedKey

/-- A new database. -/
def Db.empty : Db where
  userVersion := 0
  inbox := .empty
  outbox := .empty
  sessions := .empty
  chanState := .empty
  chanPeers := .empty
  chanInbox := .empty
  chanInboxSeq := 0
  peerNameCache := .empty
  mlsGroupState := .empty
  mlsGroupLog := .empty
  storageKeys := .empty
  storageMaster := none

structure TableKeys where
  inbox : Key
  outbox : Key
  sessions : Key
  chanState : Key
  chanPeers : Key
  chanInbox : Key
  peerName : Key
  mlsState : Key
  mlsLog : Key

/-- The fields of `Impl` that are set when `encrypt_at_rest` is. -/
structure AtRest where
  masterKey : Key
  storageMaster : Key
  storageMasterGeneration : UInt64
  storageKeysGeneration : UInt64
  keys : TableKeys

/-- An open store; `encrypt_at_rest` is `atRest.isSome`. -/
structure SqliteStore where
  db : Db
  atRest : Option AtRest

/-- The key of a table, where the store has keys. -/
def SqliteStore.key (s : SqliteStore) (table : TableKeys → Key) : Option Key :=
  s.atRest.map fun a => table a.keys

/-- What a call draws with `randombytes_buf`: keys, and a nonce for each row of each
table that it wraps. -/
structure Draws where
  key : Nat → Key
  nonce : Nat → Nat → Nonce

/-! ### Values to compute with -/

/-- An AEAD that leaves the text as it is. -/
def StoreCrypto.plain : StoreCrypto where
  encrypt _ _ _ pt := pt ++ List.replicate 16 0
  decrypt _ _ _ ct := if 16 ≤ ct.length then some (ct.take (ct.length - 16)) else none
  decrypt_encrypt _ _ _ pt := by simp
  length_encrypt _ _ _ pt := by simp
  length_decrypt {_ _ _ ct pt} opened := by
    split at opened
    next long =>
      obtain rfl : ct.take (ct.length - 16) = pt := by simpa using opened
      simp only [kXTag, List.length_take]
      omega
    · cases opened
  hkdfExtract _ ikm := ikm
  hkdfExpand prk _ := prk

def Key.filled (b : UInt8) : Key := ⟨List.replicate kKeyLen b, List.length_replicate⟩

def Draws.filled (b : UInt8) : Draws :=
  ⟨fun _ => .filled b, fun _ _ => ⟨List.replicate kXNonce b, List.length_replicate⟩⟩

/-! ### Writing

A statement whose result is not looked at leaves the database alone when a
constraint fails. -/

namespace SqliteStore

variable (P : StoreCrypto) (s : SqliteStore) (draws : Draws)

/-- `INSERT OR IGNORE` into `inbox` or `outbox`. -/
def insertMessage (t : MessageTable) (envelopeId peerPub stored : Span)
    (timestampMs expiresAtMs : UInt64) : MessageTable :=
  match column peerPub, column stored with
  | some peer, some value =>
    t.insertOrIgnore ⟨column envelopeId, ⟨peer, timestampMs.toInt64, expiresAtMs.toInt64⟩, value⟩
  | _, _ => t

def appendInboxWithExpiry (envelopeId peerPub plaintext : Span)
    (timestampMs expiresAtMs : UInt64) : SqliteStore :=
  let stored := storedValue P (s.key (·.inbox)) (draws.nonce 0 0) plaintext envelopeId.bytes
  { s with db.inbox :=
      insertMessage s.db.inbox envelopeId peerPub stored timestampMs expiresAtMs }

/-- `append_inbox`; `expires_at_ms` has its default. -/
def appendInbox (envelopeId peerPub plaintext : Span) (timestampMs : UInt64) : SqliteStore :=
  s.appendInboxWithExpiry P draws envelopeId peerPub plaintext timestampMs 0

def appendOutboxWithExpiry (envelopeId peerPub ciphertext : Span)
    (timestampMs expiresAtMs : UInt64) : SqliteStore :=
  let stored := storedValue P (s.key (·.outbox)) (draws.nonce 0 0) ciphertext envelopeId.bytes
  { s with db.outbox :=
      insertMessage s.db.outbox envelopeId peerPub stored timestampMs expiresAtMs }

/-- `append_outbox`. -/
def appendOutbox (envelopeId peerPub ciphertext : Span) (timestampMs : UInt64) : SqliteStore :=
  s.appendOutboxWithExpiry P draws envelopeId peerPub ciphertext timestampMs 0

/-- The rows that `prune_expired` deletes from `inbox` and `outbox`. -/
def expired (nowMs : UInt64) (info : MessageInfo) : Bool :=
  info.expiresAtMs > 0 && info.expiresAtMs ≤ nowMs.toInt64

def pruneExpired (nowMs : UInt64) : SqliteStore :=
  { s with
    db.inbox := s.db.inbox.delete fun _ => expired nowMs
    db.outbox := s.db.outbox.delete fun _ => expired nowMs }

/-- The one writer besides `mls_group_op_append` that reports a failed statement. -/
def saveSession (peerPub blob : Span) : Except String SqliteStore :=
  match column (storedValue P (s.key (·.sessions)) (draws.nonce 0 0) blob peerPub.bytes) with
  | none => .error "save_session: NOT NULL constraint failed: sessions.blob"
  | some stored =>
    .ok { s with db.sessions := s.db.sessions.insertOrReplace ⟨column peerPub, (), stored⟩ }

inductive ChannelCrypto
  | kSenderKeys
  | kMls

def ChannelCrypto.toInt : ChannelCrypto → Int
  | kSenderKeys => 0
  | kMls => 1

/-- `chan_save`. An empty `own_dist` is stored unwrapped. -/
def chanSave (name : Bytes) (channelId ownDist : Span) (crypto : ChannelCrypto) : SqliteStore :=
  let key := if ownDist.bytes = [] then none else s.key (·.chanState)
  let stored := storedValue P key (draws.nonce 0 0) ownDist name
  match column channelId with
  | none => s
  | some channelId =>
    { s with db.chanState :=
        s.db.chanState.upsert ⟨cstr name, ⟨channelId, crypto.toInt⟩, column stored⟩ }

def chanSavePeer (channelId peerPub peerDist : Span) : SqliteStore :=
  let aad := channelId.bytes ++ peerPub.bytes
  let stored := storedValue P (s.key (·.chanPeers)) (draws.nonce 0 0) peerDist aad
  match column channelId, column peerPub, column stored with
  | some channelId, some peerPub, some stored =>
    { s with db.chanPeers := s.db.chanPeers.upsert ⟨(channelId, peerPub), (), stored⟩ }
  | _, _, _ => s

def chanAppendInbox (channelId senderPub plaintext : Span) (timestampMs : UInt64) : SqliteStore :=
  let stored := storedValue P (s.key (·.chanInbox)) (draws.nonce 0 0) plaintext channelId.bytes
  match column channelId, column senderPub, column stored with
  | some channelId, some senderPub, some stored =>
    { s with
      db.chanInbox := s.db.chanInbox.insertOrIgnore
        ⟨s.db.chanInboxSeq + 1, ⟨channelId, senderPub, timestampMs.toInt64⟩, stored⟩
      db.chanInboxSeq := s.db.chanInboxSeq + 1 }
  | _, _, _ => s

/-- `cache_peer_name`, at the time of the clock. Without a key the name is bound as
a C string. -/
def cachePeerName (nowMs : Int64) (peerPub : Span) (username : Bytes) : SqliteStore :=
  let stored : CString ⊕ Bytes :=
    match s.key (·.peerName) with
    | none => .inl (cstr username)
    | some key => .inr (aeadWrap P key (draws.nonce 0 0) username peerPub.bytes)
  { s with db.peerNameCache := s.db.peerNameCache.upsert ⟨column peerPub, nowMs, stored⟩ }

def mlsGroupSave (channelId seedBlob : Span) : SqliteStore :=
  let stored := storedValue P (s.key (·.mlsState)) (draws.nonce 0 0) seedBlob channelId.bytes
  match column stored with
  | some stored =>
    { s with db.mlsGroupState := s.db.mlsGroupState.upsert ⟨column channelId, (), stored⟩ }
  | none => s

def mlsLogAad (channelId : Bytes) (seq : Int64) : Bytes := channelId ++ be64 seq.toUInt64

def mlsGroupOpAppend (channelId : Span) (seq : Int64) (opBlob : Span) :
    Except String SqliteStore :=
  let aad := mlsLogAad channelId.bytes seq
  let stored := storedValue P (s.key (·.mlsLog)) (draws.nonce 0 0) opBlob aad
  match column channelId, column stored with
  | none, _ =>
    .error "mls_group_op_append: NOT NULL constraint failed: mls_group_log.channel_id"
  | _, none =>
    .error "mls_group_op_append: NOT NULL constraint failed: mls_group_log.op_blob"
  | some channelId, some stored =>
    match s.db.mlsGroupLog.insert ⟨(channelId, seq), (), stored⟩ with
    | none => .error ("mls_group_op_append: UNIQUE constraint failed: " ++
        "mls_group_log.channel_id, mls_group_log.seq")
    | some log => .ok { s with db.mlsGroupLog := log }

/-- A call of a writer, with its arguments. -/
inductive Write
  | appendInbox (envelopeId peerPub plaintext : Span) (timestampMs expiresAtMs : UInt64)
  | appendOutbox (envelopeId peerPub ciphertext : Span) (timestampMs expiresAtMs : UInt64)
  | pruneExpired (nowMs : UInt64)
  | saveSession (peerPub blob : Span)
  | chanSave (name : Bytes) (channelId ownDist : Span) (crypto : ChannelCrypto)
  | chanSavePeer (channelId peerPub peerDist : Span)
  | chanAppendInbox (channelId senderPub plaintext : Span) (timestampMs : UInt64)
  | cachePeerName (nowMs : Int64) (peerPub : Span) (username : Bytes)
  | mlsGroupSave (channelId seedBlob : Span)
  | mlsGroupOpAppend (channelId : Span) (seq : Int64) (opBlob : Span)

/-- The store after a call; one that throws has changed nothing. -/
def write : Write → SqliteStore
  | .appendInbox id peer pt ts exp => s.appendInboxWithExpiry P draws id peer pt ts exp
  | .appendOutbox id peer ct ts exp => s.appendOutboxWithExpiry P draws id peer ct ts exp
  | .pruneExpired now => s.pruneExpired now
  | .saveSession peer blob => (s.saveSession P draws peer blob).toOption.getD s
  | .chanSave name id dist crypto => s.chanSave P draws name id dist crypto
  | .chanSavePeer id peer dist => s.chanSavePeer P draws id peer dist
  | .chanAppendInbox id sender pt ts => s.chanAppendInbox P draws id sender pt ts
  | .cachePeerName now peer name => s.cachePeerName P draws now peer name
  | .mlsGroupSave id seed => s.mlsGroupSave P draws id seed
  | .mlsGroupOpAppend id seq op => (s.mlsGroupOpAppend P draws id seq op).toOption.getD s

/-! ### Reading -/

/-- `LIMIT ?`, bound as a signed integer: a negative limit is none. -/
def takeLimit {α : Type} (limit : UInt64) (rows : List α) : List α :=
  if limit.toInt64 < 0 then rows else rows.take limit.toNat

structure MessageRow where
  envelopeId : Bytes
  peerPub : Bytes
  plaintext : Bytes
  timestampMs : UInt64

/-- `recent_inbox` and `recent_outbox`. The limit counts rows before the ones that
do not unwrap are skipped. -/
def recentMessages (key : Option Key) (t : MessageTable) (limit : UInt64) : List MessageRow :=
  (takeLimit limit (t.rows.mergeSort fun a b => b.info.tsMs ≤ a.info.tsMs)).filterMap fun r =>
    (openValue P key r.value (r.key.getD [])).map fun plaintext =>
      ⟨r.key.getD [], r.info.peerPub, plaintext, r.info.tsMs.toUInt64⟩

def recentInbox (limit : UInt64) : List MessageRow :=
  recentMessages P (s.key (·.inbox)) s.db.inbox limit

def recentOutbox (limit : UInt64) : List MessageRow :=
  recentMessages P (s.key (·.outbox)) s.db.outbox limit

def loadSession (peerPub : Span) : Option Bytes :=
  (s.db.sessions.find [bindBlob peerPub]).bind fun r =>
    openValue P (s.key (·.sessions)) r.value peerPub.bytes

structure ChannelRow where
  name : Bytes
  channelId : Bytes
  ownDist : Bytes
  crypto : ChannelCrypto

/-- The `own_dist` of a row of `chan_list`: a channel whose blob does not unwrap is
listed without one. -/
def readOwnDist (key : Option Key) (stored name : Bytes) : Bytes :=
  if key.isSome ∧ stored ≠ [] then (openValue P key stored name).getD [] else stored

def chanList : List ChannelRow :=
  (s.db.chanState.rows.mergeSort fun a b => a.key.val ≤ b.key.val).map fun r =>
    { name := r.key.val
      channelId := r.info.channelId
      ownDist := readOwnDist P (s.key (·.chanState)) (BlobColumn.bytes r.value) r.key.val
      crypto := if r.info.crypto = (1 : Int) then .kMls else .kSenderKeys }

structure ChannelPeerRow where
  peerPub : Bytes
  peerDist : Bytes

/-- `chan_peers`; without `ORDER BY`, in the order of the table. -/
def chanPeers (channelId : Span) : List ChannelPeerRow :=
  (s.db.chanPeers.rows.filter fun r => (Value.blob r.key.1).equals (bindBlob channelId)).filterMap
    fun r => (openValue P (s.key (·.chanPeers)) r.value (channelId.bytes ++ r.key.2)).map
      fun peerDist => ⟨r.key.2, peerDist⟩

structure ChannelInboxRow where
  channelId : Bytes
  senderPub : Bytes
  plaintext : Bytes
  timestampMs : UInt64

def chanRecentInbox (channelId : Span) (limit : UInt64) : List ChannelInboxRow :=
  let rows := s.db.chanInbox.rows.filter fun r =>
    (Value.blob r.info.channelId).equals (bindBlob channelId)
  (takeLimit limit (rows.mergeSort fun a b => b.info.tsMs ≤ a.info.tsMs)).filterMap fun r =>
    (openValue P (s.key (·.chanInbox)) r.value r.info.channelId).map fun plaintext =>
      ⟨r.info.channelId, r.info.senderPub, plaintext, r.info.tsMs.toUInt64⟩

/-- The name in a row of `peer_name_cache`: without a key, `sqlite3_column_text`. -/
def readName (key : Option Key) (stored : CString ⊕ Bytes) (aad : Bytes) : Option Bytes :=
  match key with
  | none => some (stored.elim (·.val) fun b => (cstr b).val)
  | some key => aeadUnwrap P key (BlobColumn.bytes stored) aad

def peerName (peerPub : Span) : Option Bytes :=
  (s.db.peerNameCache.find [bindBlob peerPub]).bind fun r =>
    readName P (s.key (·.peerName)) r.value peerPub.bytes

structure CachedPeer where
  peerPub : Bytes
  username : Bytes

def allCachedPeers : List CachedPeer :=
  (s.db.peerNameCache.rows.mergeSort fun a b => b.info ≤ a.info).filterMap fun r =>
    (readName P (s.key (·.peerName)) r.value (r.key.getD [])).map fun username =>
      ⟨r.key.getD [], username⟩

def peerPubkeysForUsername (username : Bytes) : List Bytes :=
  ((s.allCachedPeers P).filter fun p => p.username = username).map (·.peerPub)

structure MlsGroupSnapshot where
  seed : Bytes
  ops : List Bytes
  nextSeq : Int64

/-- The rows of `mls_group_log` for a channel, in order. -/
def mlsLogRows (channelId : Span) : List (Row (Bytes × Int64) Unit Bytes) :=
  (s.db.mlsGroupLog.rows.filter fun r =>
    (Value.blob r.key.1).equals (bindBlob channelId)).mergeSort fun a b => a.key.2 ≤ b.key.2

def readLogRow (key : Option Key) (channelId : Bytes) (r : Row (Bytes × Int64) Unit Bytes) :
    Except String Bytes :=
  match openValue P key r.value (mlsLogAad channelId r.key.2) with
  | none =>
    .error ("mls_group_load: log row AEAD verify failed at seq " ++ toString r.key.2.toInt)
  | some op => .ok op

/-- `max_seq + 1` after the loop over the log. -/
def nextSeq (rows : List (Row (Bytes × Int64) Unit Bytes)) : Int64 :=
  rows.foldl (fun maxSeq r => if maxSeq < r.key.2 then r.key.2 else maxSeq) (-1) + 1

theorem nextSeq_eq (rows : List (Row (Bytes × Int64) Unit Bytes)) :
    nextSeq rows = (rows.map (·.key.2)).foldl
      (fun maxSeq seq => if maxSeq < seq then seq else maxSeq) (-1) + 1 := by
  rw [List.foldl_map]
  rfl

def mlsGroupLoad (channelId : Span) : Except String (Option MlsGroupSnapshot) :=
  match s.db.mlsGroupState.find [bindBlob channelId] with
  | none => .ok none
  | some r =>
    match openValue P (s.key (·.mlsState)) r.value channelId.bytes with
    | none =>
      .error "mls_group_load: seed AEAD verify failed (corruption or wrong master_key)"
    | some seed => do
      let rows := s.mlsLogRows channelId
      let ops ← rows.mapM (readLogRow P (s.key (·.mlsLog)) channelId.bytes)
      pure (some ⟨seed, ops, nextSeq rows⟩)

end SqliteStore

end FinBit.Store
