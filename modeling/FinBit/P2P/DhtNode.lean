import Mathlib.Tactic.DeriveCountable
import FinBit.Lib.Ideal
import FinBit.P2P.Kademlia
import FinBit.P2P.RecordStore

/-! # DHT node

`DhtNode::on_message`: records that other peers publish, lookups that they make, and
their answers to the lookups of this node. Providers and prekeys go the same way
through different stores, so the three cases are written once.

Everything a peer sends ends in a store that verifies it, and no store throws;
`not_fails_onMessage` says so for every message in every state.
-/

namespace FinBit.P2P

open FinBit.Lib Std

/-- The three messages about one kind of record. -/
inductive RecordMessage (R : Type) where
  | publish (record : R)
  | lookup (targetPubkey requestId : Bytes)
  | response (requestId : Bytes) (records : List R)

inductive DhtMessage where
  | provider (message : RecordMessage ProviderRecord)
  | prekey (message : RecordMessage PrekeyRecord)
  | notSet

deriving instance Countable for ProviderRecord, PrekeyRecord, RecordMessage, DhtMessage

/-- `PendingLookup` and `PendingPrekey`. -/
structure PendingLookup (R : Type) where
  targetPubkey : Bytes
  awaitingReplies : Nat
  seen : ExtTreeMap Bytes R

/-- The part of a node that serves one kind of record. -/
structure RecordService (R : Type) where
  store : RecordStore R
  pending : ExtTreeMap Bytes (PendingLookup R)

structure DhtNode where
  routing : RoutingTable
  providers : RecordService ProviderRecord
  prekeys : RecordService PrekeyRecord

/-- What the node does besides changing its state: the answer that it sends, or the
records that it hands to the callback of a lookup. -/
inductive RecordEffect (R : Type) where
  | reply (requestId : Bytes) (records : List R)
  | report (targetPubkey : Bytes) (records : List R)

section

variable {R : Type} (kind : RecordKind R)

/-- The loop over the records of a response: those of the target are kept and stored. -/
def collect (now : UInt64) (target : Bytes) :
    List R → ExtTreeMap Bytes R → RecordStore R →
      Except String (ExtTreeMap Bytes R × RecordStore R)
  | [], seen, store => .ok (seen, store)
  | record :: rest, seen, store =>
    if kind.publisherPubkey record ≠ target then collect now target rest seen store
    else
      match store.put kind record now with
      | .error e => .error e
      | .ok (store, _) =>
        -- a record counts as seen whether or not the store takes it
        collect now target rest (seen.insert (kind.recordKey record) record) store

/-- The handling of one message about records. -/
def RecordService.onMessage (s : RecordService R) (now : UInt64) :
    RecordMessage R → Except String (RecordService R × List (RecordEffect R))
  | .publish record =>
    match s.store.put kind record now with
    | .error e => .error e
    | .ok (store, _) => .ok ({ s with store := store }, [])
  | .lookup targetPubkey requestId =>
    if targetPubkey.length ≠ 32 then .ok (s, [])
    else .ok (s, [.reply requestId (s.store.get kind targetPubkey now)])
  | .response requestId records =>
    match s.pending[requestId]? with
    | none => .ok (s, [])
    | some pl =>
      match collect kind now pl.targetPubkey records pl.seen s.store with
      | .error e => .error e
      | .ok (seen, store) =>
        let awaiting := pl.awaitingReplies - 1
        -- with the last answer the lookup is over
        let pending :=
          if awaiting = 0 then s.pending.erase requestId
          else s.pending.insert requestId { pl with awaitingReplies := awaiting, seen := seen }
        .ok (⟨store, pending⟩, [.report pl.targetPubkey (seen.toList.map Prod.snd)])

variable {kind}

theorem not_fails_collect (safe : ∀ record, ¬Fails (kind.verifySignature record)) (now : UInt64)
    (target : Bytes) (records : List R) (seen : ExtTreeMap Bytes R) (store : RecordStore R) :
    ¬Fails (collect kind now target records seen store) := by
  induction records generalizing seen store with
  | nil => exact not_fails_ok _
  | cons record rest ih =>
    unfold collect
    split
    · exact ih seen store
    · -- `put` returns, whatever it makes of the record
      obtain ⟨⟨stored, result⟩, put⟩ :=
        not_fails_iff.mp (RecordStore.not_fails_put kind safe store record now)
      rw [put]
      exact ih _ stored

theorem RecordService.not_fails_onMessage (safe : ∀ record, ¬Fails (kind.verifySignature record))
    (s : RecordService R) (now : UInt64) (message : RecordMessage R) :
    ¬Fails (s.onMessage kind now message) := by
  cases message with
  | publish record =>
    obtain ⟨⟨stored, result⟩, put⟩ :=
      not_fails_iff.mp (RecordStore.not_fails_put kind safe s.store record now)
    simp only [onMessage, put]
    exact not_fails_ok _
  | lookup targetPubkey requestId =>
    simp only [onMessage, fails_ite_ok, not_fails_ok, and_false, not_false_eq_true]
  | response requestId records =>
    simp only [onMessage]
    split
    · exact not_fails_ok _
    next pl found =>
      obtain ⟨⟨seen, stored⟩, collected⟩ :=
        not_fails_iff.mp (not_fails_collect safe now pl.targetPubkey records pl.seen s.store)
      rw [collected]
      exact not_fails_ok _

end

/-- What the node takes from outside. -/
structure DhtCrypto where
  verify : SignVerify
  message : Codec DhtMessage

inductive DhtEffect where
  | provider (effect : RecordEffect ProviderRecord)
  | prekey (effect : RecordEffect PrekeyRecord)

namespace DhtNode

variable (P : DhtCrypto)

def observe (node : DhtNode) (peer : PeerInfo) : DhtNode :=
  { node with routing := node.routing.observe peer }

/-- Replies go back to `fromPeer`. -/
def onMessage (node : DhtNode) (fromPeer : PeerInfo) (wireBytes : Bytes) (now : UInt64) :
    Except String (DhtNode × List DhtEffect) :=
  match P.message.decode wireBytes with
  | none => .ok (node, [])
  | some message =>
    -- whoever sends something that parses becomes known
    let node := node.observe fromPeer
    match message with
    | .provider message =>
      (node.providers.onMessage (providerKind P.verify) now message).map fun (service, effects) =>
        ({ node with providers := service }, effects.map .provider)
    | .prekey message =>
      (node.prekeys.onMessage (prekeyKind P.verify) now message).map fun (service, effects) =>
        ({ node with prekeys := service }, effects.map .prekey)
    | .notSet => .ok (node, [])

/-- No message makes the node throw. -/
theorem not_fails_onMessage (node : DhtNode) (fromPeer : PeerInfo) (wireBytes : Bytes)
    (now : UInt64) : ¬Fails (node.onMessage P fromPeer wireBytes now) := by
  unfold onMessage
  split
  · exact not_fails_ok _
  · dsimp only
    split
    · rw [fails_map]
      exact RecordService.not_fails_onMessage (providerKind_safe P.verify) _ now _
    · rw [fails_map]
      exact RecordService.not_fails_onMessage (prekeyKind_safe P.verify) _ now _
    · exact not_fails_ok _

end DhtNode

end FinBit.P2P
