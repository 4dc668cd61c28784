import Mathlib.Logic.Function.Basic
import FinBit.Lib.Bytes

/-! # Friend relays

`OfflineRelayStore`: what a client holds for contacts that are offline, a bounded
queue of opaque blobs for each recipient.
-/

namespace FinBit.P2P

open FinBit.Lib

abbrev kMaxBlobsPerRecipient : Nat := 256
abbrev kDefaultBlobTtlMs : UInt64 := 7 * 24 * 60 * 60 * 1000

structure Blob where
  bytes : Bytes
  depositedAtMs : UInt64

/-- `by_recipient`; a recipient without an entry has an empty queue. -/
abbrev OfflineRelayStore := Bytes → List Blob

namespace OfflineRelayStore

inductive DepositResult where
  | accepted
  | rejectedFormat
  | rejectedFull
  deriving DecidableEq

def deposit (store : OfflineRelayStore) (recipientPubkey payload : Bytes) (now : UInt64) :
    OfflineRelayStore × DepositResult :=
  if recipientPubkey.length ≠ 32 then (store, .rejectedFormat)
  else if payload = [] then (store, .rejectedFormat)
  else if (store recipientPubkey).length ≥ kMaxBlobsPerRecipient then (store, .rejectedFull)
  else
    (Function.update store recipientPubkey (store recipientPubkey ++ [⟨payload, now⟩]), .accepted)

/-- The blobs that have not expired, and the store without the recipient's queue. -/
def fetchAndClear (store : OfflineRelayStore) (recipientPubkey : Bytes) (now : UInt64) :
    OfflineRelayStore × List Bytes :=
  if recipientPubkey.length ≠ 32 then (store, [])
  else
    (Function.update store recipientPubkey [],
      ((store recipientPubkey).filter fun blob =>
        blob.depositedAtMs + kDefaultBlobTtlMs > now).map Blob.bytes)

end OfflineRelayStore

end FinBit.P2P
