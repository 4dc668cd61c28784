import FinBit.Store.Open
import FinBit.Lib.SqlView

/-! # Changing the keys of a store

`rotate_storage_keys` replaces the keys of three tables by random ones and persists
them, wrapped under the storage master. `ratchet_storage_master` replaces the storage
master, and with it the keys of all tables, and persists it wrapped under the vault's
key. Both wrap the rows again inside one transaction, and swap the keys in memory once
it is committed.
-/

namespace FinBit.Store

open FinBit.Lib Sql

section Rewrap

variable (P : StoreCrypto) {κ ι ν : Type} [KeyColumns κ] [BlobColumn ν]

/-- A row under a new key; one that does not unwrap is skipped. -/
def rewrapped (oldK newK : Key) (nonce : Nonce) (aad : Bytes) (stored : ν) : Option ν :=
  (aeadUnwrap P oldK (BlobColumn.bytes stored) aad).map fun plaintext =>
    BlobColumn.ofBlob (aeadWrap P newK nonce plaintext aad)

/-- The rows are read, and those that were wrapped again are updated by their rowid;
the other result counts them. -/
def rewrapRows (new : Nat → Row κ ι ν → Option ν) (t : Table κ ι ν) : Table κ ι ν × Nat :=
  (t.mapValuesIdx fun i r => (new i r).getD r.value,
    t.rows.zipIdx.countP fun p => (new p.2 p.1).isSome)

/-- `rewrap_table` of a rotation. -/
def rewrapTable (oldK newK : Key) (nonce : Nat → Nonce) (aad : κ → ι → Bytes)
    (t : Table κ ι ν) : Table κ ι ν × Nat :=
  rewrapRows (fun i r => rewrapped P oldK newK (nonce i) (aad r.key r.info) r.value) t

/-- `rewrap` of a ratchet, which leaves an empty column alone. -/
def rewrap (oldK newK : Key) (nonce : Nat → Nonce) (aad : κ → ι → Bytes)
    (t : Table κ ι ν) : Table κ ι ν × Nat :=
  rewrapRows (fun i r =>
    if BlobColumn.bytes r.value = [] then none
    else rewrapped P oldK newK (nonce i) (aad r.key r.info) r.value) t

end Rewrap

namespace SqliteStore

variable (P : StoreCrypto) (s : SqliteStore) (draws : Draws)

/-- `persist_wrapped`. -/
def persistWrapped (storageMaster : Key) (newGen : UInt64) (nonce : Nonce) (name : CString)
    (k : Key) (t : Table CString UInt64 Bytes) : Table CString UInt64 Bytes :=
  t.upsert ⟨name, newGen, aeadWrap P storageMaster nonce k.val (storageKeyAad name newGen)⟩

def rotateStorageKeys : SqliteStore × Nat :=
  match s.atRest with
  | none => (s, 0)
  | some a =>
    let newGen := a.storageKeysGeneration + 1
    let inbox := rewrapTable P a.keys.inbox (draws.key 0) (draws.nonce 0) (fun k _ => keyAad k)
      s.db.inbox
    let outbox := rewrapTable P a.keys.outbox (draws.key 1) (draws.nonce 1)
      (fun k _ => keyAad k) s.db.outbox
    let sessions := rewrapTable P a.keys.sessions (draws.key 2) (draws.nonce 2)
      (fun k _ => keyAad k) s.db.sessions
    let persist (i : Nat) := persistWrapped P a.storageMaster newGen (draws.nonce 3 i)
    ({ db := { s.db with
          inbox := inbox.1
          outbox := outbox.1
          sessions := sessions.1
          storageKeys := persist 2 sessionsName (draws.key 2) (persist 1 outboxName (draws.key 1)
            (persist 0 inboxName (draws.key 0) s.db.storageKeys)) }
       atRest := some { a with
          storageKeysGeneration := newGen
          keys := { a.keys with
            inbox := draws.key 0
            outbox := draws.key 1
            sessions := draws.key 2 } } },
      inbox.2 + outbox.2 + sessions.2)

def ratchetStorageMaster : SqliteStore × Nat :=
  match s.atRest with
  | none => (s, 0)
  | some a =>
    let newMaster := draws.key 0
    let newGen := a.storageMasterGeneration + 1
    let n := deriveTableKeys P newMaster
    let inbox := rewrap P a.keys.inbox n.inbox (draws.nonce 0) (fun k _ => keyAad k) s.db.inbox
    let outbox := rewrap P a.keys.outbox n.outbox (draws.nonce 1) (fun k _ => keyAad k)
      s.db.outbox
    let sessions := rewrap P a.keys.sessions n.sessions (draws.nonce 2) (fun k _ => keyAad k)
      s.db.sessions
    let chanState := rewrap P a.keys.chanState n.chanState (draws.nonce 3)
      (fun k _ => keyAad k) s.db.chanState
    let chanPeers := rewrap P a.keys.chanPeers n.chanPeers (draws.nonce 4)
      (fun k _ => keyAad k) s.db.chanPeers
    let chanInbox := rewrap P a.keys.chanInbox n.chanInbox (draws.nonce 5)
      (fun _ info => info.channelId) s.db.chanInbox
    let peerNameCache := rewrap P a.keys.peerName n.peerName (draws.nonce 6)
      (fun k _ => keyAad k) s.db.peerNameCache
    let mlsGroupState := rewrap P a.keys.mlsState n.mlsState (draws.nonce 7)
      (fun k _ => keyAad k) s.db.mlsGroupState
    -- inlined in the source: the sequence number is appended in binary
    let mlsGroupLog := rewrap P a.keys.mlsLog n.mlsLog (draws.nonce 8)
      (fun k _ => mlsLogAad k.1 k.2) s.db.mlsGroupLog
    let wrapped := aeadWrap P a.masterKey (draws.nonce 9 0) newMaster.val (storageMasterAad newGen)
    ({ db := { s.db with
          inbox := inbox.1
          outbox := outbox.1
          sessions := sessions.1
          chanState := chanState.1
          chanPeers := chanPeers.1
          chanInbox := chanInbox.1
          peerNameCache := peerNameCache.1
          mlsGroupState := mlsGroupState.1
          mlsGroupLog := mlsGroupLog.1
          storageMaster := some ⟨wrapped, newGen⟩
          storageKeys := s.db.storageKeys.delete fun _ _ => true }
       atRest := some { a with
          storageMaster := newMaster
          storageMasterGeneration := newGen
          storageKeysGeneration := 0
          keys := n } },
      inbox.2 + outbox.2 + sessions.2 + chanState.2 + chanPeers.2 + chanInbox.2 +
        peerNameCache.2 + mlsGroupState.2 + mlsGroupLog.2)

/-! ### How a call ends

The transaction is atomic, and durable once it is committed. -/

/-- How a call that changes the keys ends. -/
inductive Ending
  | returned
  /-- A statement failed and the transaction was rolled back. -/
  | threw
  | crashedBeforeCommit
  | crashedAfterCommit

/-- A call on a store, and the process that opens the database again after a crash. -/
inductive Event
  | write (call : Write) (draws : Draws)
  | rotate (draws : Draws) (ending : Ending)
  | ratchet (draws : Draws) (ending : Ending)
  | reopen (draws : Draws)

/-- What is left of a call that would have made `after` of the store. -/
def finish (masterKey : Key) (after : SqliteStore) : Ending → Except String SqliteStore
  | .returned => .ok after
  | .threw => .ok s
  | .crashedBeforeCommit => SqliteStore.open P s.db masterKey.val draws
  | .crashedAfterCommit => SqliteStore.open P after.db masterKey.val draws

def step (masterKey : Key) (s : SqliteStore) : Event → Except String SqliteStore
  | .write call draws => .ok (s.write P draws call)
  | .rotate draws ending => finish P s draws masterKey (s.rotateStorageKeys P draws).1 ending
  | .ratchet draws ending => finish P s draws masterKey (s.ratchetStorageMaster P draws).1 ending
  | .reopen draws => SqliteStore.open P s.db masterKey.val draws

end SqliteStore

end FinBit.Store
