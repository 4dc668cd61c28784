import Mathlib.Data.List.FinRange
import Mathlib.Logic.Function.Basic
import FinBit.Lib.Bytes

/-! # Kademlia

The routing table of the DHT: peers in 160 buckets by the highest bit of their
distance, each bucket with the least recently seen peer in front.
-/

namespace FinBit.P2P

open FinBit.Lib

abbrev kNodeIdBytes : Nat := 20
/-- K. -/
abbrev kBucketSize : Nat := 16
abbrev kAddressBits : Nat := 8 * kNodeIdBytes

/-- The first octets of the SHA-256 of a public key. -/
abbrev NodeId := Vector UInt8 kNodeIdBytes

/-- A default-constructed id. -/
def NodeId.zero : NodeId := Vector.replicate kNodeIdBytes 0

structure PeerInfo where
  id : NodeId
  addr : Bytes
  /-- Empty when not known. -/
  pubkey : Bytes

def xorDistance (a b : NodeId) : NodeId := Vector.zipWith (· ^^^ ·) a b

/-- The position of the highest set bit, counted in the octets that are left. -/
def highestBit : Bytes → Nat
  | [] => kAddressBits
  | octet :: rest =>
    if octet = 0 then highestBit rest
    else 8 * rest.length + ((List.range 8).reverse.find? octet.toNat.testBit).getD 0

/-- `kAddressBits` stands for a distance of zero. -/
def bucketIndex (distance : NodeId) : Nat := highestBit distance.toList

structure RoutingTable where
  self : NodeId
  buckets : Fin kAddressBits → List PeerInfo

namespace RoutingTable

def new (self : NodeId) : RoutingTable := ⟨self, fun _ => []⟩

/-- What `observe` makes of the bucket of a peer. -/
def refresh (bucket : List PeerInfo) (peer : PeerInfo) : List PeerInfo :=
  match bucket.find? (·.id = peer.id) with
  | some known => bucket.eraseP (·.id = peer.id) ++ [{ known with addr := peer.addr }]
  | none =>
    if bucket.length < kBucketSize then bucket ++ [peer]
    else
      -- a full bucket: the newcomer takes the place of the oldest
      peer :: bucket.tail

def observe (table : RoutingTable) (peer : PeerInfo) : RoutingTable :=
  if peer.id = table.self then table
  else
    let index := bucketIndex (xorDistance table.self peer.id)
    if inside : index < kAddressBits then
      let bucket := refresh (table.buckets ⟨index, inside⟩) peer
      { table with buckets := Function.update table.buckets ⟨index, inside⟩ bucket }
    else table

def all (table : RoutingTable) : List PeerInfo := (List.finRange kAddressBits).flatMap table.buckets

/-- At most `limit` peers, by their distance to the target. -/
def closest (table : RoutingTable) (target : NodeId) (limit : Nat) : List PeerInfo :=
  (table.all.mergeSort fun a b =>
    (xorDistance a.id target).toList ≤ (xorDistance b.id target).toList).take limit

/-! ### What an observation does -/

/-- A known peer goes to the end with the new address, a newcomer joins, or takes the place of the
peer in front. -/
inductive Refreshed (peer : PeerInfo) : List PeerInfo → List PeerInfo → Prop
  | known {before after : List PeerInfo} {entry : PeerInfo}
      (same : entry.id = peer.id) (first : ∀ p ∈ before, p.id ≠ peer.id) :
      Refreshed peer (before ++ entry :: after)
        (before ++ after ++ [{ entry with addr := peer.addr }])
  | joins {bucket : List PeerInfo} (new : ∀ p ∈ bucket, p.id ≠ peer.id)
      (room : bucket.length < kBucketSize) : Refreshed peer bucket (bucket ++ [peer])
  | displaces {front : PeerInfo} {rest : List PeerInfo}
      (new : ∀ p ∈ front :: rest, p.id ≠ peer.id)
      (full : kBucketSize ≤ (front :: rest).length) :
      Refreshed peer (front :: rest) (peer :: rest)

theorem refreshed (bucket : List PeerInfo) (peer : PeerInfo) :
    Refreshed peer bucket (refresh bucket peer) := by
  unfold refresh
  cases found : bucket.find? (·.id = peer.id) with
  | some entry =>
    obtain ⟨same, before, after, rfl, others⟩ := List.find?_eq_some_iff_append.mp found
    have same : entry.id = peer.id := of_decide_eq_true same
    have first : ∀ p ∈ before, p.id ≠ peer.id := by simpa using others
    have erased : (before ++ entry :: after).eraseP (·.id = peer.id) = before ++ after := by
      rw [List.eraseP_append_right _ (by simpa using first),
        List.eraseP_cons_of_pos (by simpa using same)]
    dsimp only
    rw [erased]
    exact .known same first
  | none =>
    have new : ∀ p ∈ bucket, p.id ≠ peer.id := by simpa using found
    dsimp only
    split
    next room => exact .joins new room
    next full =>
      cases bucket with
      | nil => exact absurd (by decide) full
      | cons front rest => exact .displaces new (Nat.le_of_not_lt full)

/-- Only the bucket that the peer belongs into is refreshed. -/
theorem buckets_observe (table : RoutingTable) {peer : PeerInfo} {n : Nat}
    (apart : peer.id ≠ table.self) (index : bucketIndex (xorDistance table.self peer.id) = n)
    (inside : n < kAddressBits) :
    (table.observe peer).buckets =
      Function.update table.buckets ⟨n, inside⟩ (refresh (table.buckets ⟨n, inside⟩) peer) := by
  subst index
  rw [observe, if_neg apart]
  dsimp only
  rw [dif_pos inside]

theorem self_observe (table : RoutingTable) (peer : PeerInfo) :
    (table.observe peer).self = table.self := by
  unfold observe
  split
  · rfl
  · dsimp only
    split <;> rfl

end RoutingTable

end FinBit.P2P
