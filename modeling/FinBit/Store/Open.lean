import FinBit.Store.SqliteStore

/-! # Opening a store

`SqliteStore::open` resolves the keys and, on a database that was written without
one, wraps what is there. The keys of the tables derive from the storage master,
which is the key of the vault until a ratchet replaces it; keys that a rotation
has put into `storage_keys` take precedence.

The migration goes over a table twice: it reads every row, and then runs one
`UPDATE` for each row it has read, addressed by the key columns as they were read.
An `UPDATE` that addresses no row is no error.
-/

namespace FinBit.Store

open FinBit.Lib Sql

/-! ### Keys -/

section Keys

variable (P : StoreCrypto)

def deriveTableKeys (master : Key) : TableKeys where
  inbox := deriveTableKey P master (ascii "FinBit-DB-Inbox-v1")
  outbox := deriveTableKey P master (ascii "FinBit-DB-Outbox-v1")
  sessions := deriveTableKey P master (ascii "FinBit-DB-Sessions-v1")
  chanState := deriveTableKey P master (ascii "FinBit-DB-ChanState-v1")
  chanPeers := deriveTableKey P master (ascii "FinBit-DB-ChanPeers-v1")
  chanInbox := deriveTableKey P master (ascii "FinBit-DB-ChanInbox-v1")
  peerName := deriveTableKey P master (ascii "FinBit-DB-PeerName-v1")
  mlsState := deriveTableKey P master (ascii "FinBit-DB-MlsState-v1")
  mlsLog := deriveTableKey P master (ascii "FinBit-DB-MlsLog-v1")

def storageMasterAad (generation : UInt64) : Bytes :=
  ascii "FinBit-DB-StorageMaster-v1" ++ be64 generation

/-- The associated data of a row of `storage_keys`. -/
def storageKeyAad (name : CString) (generation : UInt64) : Bytes := name.val ++ be64 generation

/-- A byte string of the size of a key. -/
def asKey (b : Bytes) : Option Key :=
  if size : b.length = kKeyLen then some ⟨b, size⟩ else none

theorem Key.val_ne_nil (key : Key) : key.val ≠ [] := by
  intro empty
  have size := key.property
  rw [empty] at size
  contradiction

@[simp] theorem asKey_val (key : Key) : asKey key.val = some key := dif_pos key.property

/-- The storage master and its generation; without a row it is the vault's key. -/
def loadStorageMaster (db : Db) (masterKey : Key) : Except String (Key × UInt64) :=
  match db.storageMaster with
  | none => .ok (masterKey, 0)
  | some row =>
    match (aeadUnwrap P masterKey row.wrapped (storageMasterAad row.generation)).bind asKey with
    | none => .error ("SqliteStore::open: storage_master present but could not be unwrapped — " ++
        "wrong key/passphrase or corruption")
    | some master => .ok (master, row.generation)

def inboxName : CString := cstr (ascii "inbox")
def outboxName : CString := cstr (ascii "outbox")
def sessionsName : CString := cstr (ascii "sessions")

/-- `load_wrapped`: a key that a rotation has persisted, with its generation. -/
def loadWrapped (db : Db) (storageMaster : Key) (name : CString) : Option (Key × UInt64) :=
  (db.storageKeys.find [.text name]).bind fun r =>
    ((aeadUnwrap P storageMaster r.value (storageKeyAad name r.info)).bind asKey).map
      fun key => (key, r.info)

/-- The key of a table, unless a rotation has persisted another one. -/
def override (derived : Key) (persisted : Option (Key × UInt64)) : Key :=
  (persisted.map Prod.fst).getD derived

def laterGeneration (generation : UInt64) (persisted : Option (Key × UInt64)) : UInt64 :=
  match persisted with
  | some (_, other) => if generation < other then other else generation
  | none => generation

def loadKeys (db : Db) (masterKey : Key) : Except String AtRest := do
  let (storageMaster, generation) ← loadStorageMaster P db masterKey
  let derived := deriveTableKeys P storageMaster
  let inbox := loadWrapped P db storageMaster inboxName
  let outbox := loadWrapped P db storageMaster outboxName
  let sessions := loadWrapped P db storageMaster sessionsName
  pure
    { masterKey
      storageMaster
      storageMasterGeneration := generation
      storageKeysGeneration :=
        laterGeneration (laterGeneration (laterGeneration 0 inbox) outbox) sessions
      keys := { derived with
        inbox := override derived.inbox inbox
        outbox := override derived.outbox outbox
        sessions := override derived.sessions sessions } }

end Keys

/-! ### Migration -/

section Migration

variable (P : StoreCrypto) {κ ι ν : Type} [KeyColumns κ] [BlobColumn ν]

/-- Read the selected rows, then wrap the value of each where `bound` addresses it. -/
def wrapRows (key : Key) (nonce : Nat → Nonce) (select : Row κ ι ν → Bool)
    (bound : Row κ ι ν → List Value) (aad : Row κ ι ν → Bytes) (t : Table κ ι ν) : Table κ ι ν :=
  (t.rows.filter select).zipIdx.foldl (fun t step =>
    t.update (bound step.1) (BlobColumn.ofBlob
      (aeadWrap P key (nonce step.2) (BlobColumn.bytes step.1.value) (aad step.1)))) t

/-- `where_keys`, as they are bound: each column through a `std::vector`. -/
def whereKeys (k : κ) : List Value :=
  (columns k).map fun c => bindBlob (.ofVector c.bytes)

/-- The associated data: the key columns one after the other. -/
def keyAad (k : κ) : Bytes := ((columns k).map Value.bytes).flatten

@[simp] theorem keyAad_nullable (k : Option Bytes) : keyAad k = k.getD [] := by
  cases k <;> simp [keyAad, columns, Value.bytes]

@[simp] theorem keyAad_text (k : CString) : keyAad k = k.val := by
  simp [keyAad, columns, Value.bytes]

@[simp] theorem keyAad_pair (k : Bytes × Bytes) : keyAad k = k.1 ++ k.2 := by
  simp [keyAad, columns, Value.bytes]

def wrapTable (key : Key) (nonce : Nat → Nonce) (select : Row κ ι ν → Bool) (t : Table κ ι ν) :
    Table κ ι ν :=
  wrapRows P key nonce select (fun r => whereKeys r.key) (fun r => keyAad r.key) t

/-- The migration of a database below version 3. The two MLS tables are not part of it. -/
def migrate (db : Db) (keys : TableKeys) (draws : Draws) : Db :=
  let all {κ ι ν : Type} : Row κ ι ν → Bool := fun _ => true
  { db with
    userVersion := 3
    inbox :=
      if db.userVersion < 2 then wrapTable P keys.inbox (draws.nonce 0) all db.inbox else db.inbox
    outbox :=
      if db.userVersion < 2 then wrapTable P keys.outbox (draws.nonce 1) all db.outbox
      else db.outbox
    sessions := wrapTable P keys.sessions (draws.nonce 2) all db.sessions
    chanState := wrapTable P keys.chanState (draws.nonce 3) (fun r => r.value.isSome) db.chanState
    chanPeers := wrapTable P keys.chanPeers (draws.nonce 4) all db.chanPeers
    -- inlined in the source: the row is addressed by `id` and bound to its channel
    chanInbox := wrapRows P keys.chanInbox (draws.nonce 5) all (fun r => columns r.key)
      (fun r => r.info.channelId) db.chanInbox
    peerNameCache := wrapTable P keys.peerName (draws.nonce 6) all db.peerNameCache }

end Migration

/-- `SqliteStore::open` on an existing database. -/
def SqliteStore.open (P : StoreCrypto) (db : Db) (masterKey : Bytes) (draws : Draws) :
    Except String SqliteStore :=
  if masterKey = [] then
    if db.userVersion = 3 then
      .error ("SqliteStore::open: database is encrypted at rest (user_version=3) but no " ++
        "master_key was provided")
    else .ok ⟨db, none⟩
  else
    match asKey masterKey with
    | none => .error "SqliteStore::open: master_key must be exactly 32 bytes"
    | some masterKey => do
      let atRest ← loadKeys P db masterKey
      if db.userVersion < 3 then pure ⟨migrate P db atRest.keys draws, some atRest⟩
      else pure ⟨db, some atRest⟩

end FinBit.Store
