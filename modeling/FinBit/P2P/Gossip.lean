import Mathlib.Data.Finset.Insert
import Mathlib.Data.List.AList
import Mathlib.Data.List.Sort
import Mathlib.Data.String.Basic
import Mathlib.Tactic.DeriveCountable
import FinBit.Lib.Ideal
import FinBit.Lib.Recency
import FinBit.P2P.Kademlia

/-! # Gossip node

`P2PNode`: a node floods what it hears to its connections, once for each message id. It
remembers the last ids and drops what it has seen; a copy with no hops left is not relayed.

The sockets and the cutting of the stream into frames are not modelled. What a call or a frame
makes the node do is its output: the messages handed to the application and the messages
queued for each connection.
-/

namespace FinBit.P2P

open FinBit.Lib

abbrev Fd := Nat

/-! ### Messages -/

/-- `fb::proto::PeerInfo`. -/
structure PeerInfoProto where
  nodeId : Bytes
  addr : Bytes
  deriving DecidableEq, Countable

/-- The sender is the field `from`. -/
structure Publish where
  sender : PeerInfoProto
  topic : String
  messageId : Bytes
  payload : Bytes
  ttl : UInt32
  deriving DecidableEq

inductive P2PMessage where
  | ping (sender : PeerInfoProto) (nonce : Bytes)
  | pong (sender : PeerInfoProto) (nonce : Bytes)
  | findNode (sender : PeerInfoProto) (targetNodeId : Bytes)
  | findNodeResp (sender : PeerInfoProto) (peers : List PeerInfoProto)
  | subscribe (sender : PeerInfoProto) (topic : String)
  | unsubscribe (sender : PeerInfoProto) (topic : String)
  | publish (message : Publish)
  | notSet
  deriving DecidableEq

instance countableChar : Countable Char := by
  apply Function.Injective.countable (f := Char.toNat)
  intro a b same
  exact Char.toNat_inj.mp same

instance countableString : Countable String := by
  apply Function.Injective.countable (f := String.toList)
  intro a b same
  exact String.toList_inj.mp same

deriving instance Countable for Publish, P2PMessage

/-! ### Seen messages -/

def kSeenMessageCap : Nat := 4096

structure SeenMessages where
  seenOrder : List Bytes
  seenSet : Finset Bytes

namespace SeenMessages

def empty : SeenMessages := ⟨[], ∅⟩

/-- Whether the id is remembered; it is from now on. -/
def seenRecently (s : SeenMessages) (mid : Bytes) : SeenMessages × Bool :=
  if mid ∈ s.seenSet then (s, true)
  else
    let s := if kSeenMessageCap ≤ s.seenOrder.length then
        { s with
          seenSet := (s.seenOrder.head?.map s.seenSet.erase).getD s.seenSet
          seenOrder := s.seenOrder.drop 1 }
      else s
    ({ s with seenOrder := s.seenOrder ++ [mid], seenSet := insert mid s.seenSet }, false)

/-- The two containers hold the end of what was admitted. -/
structure Remembers (s : SeenMessages) (admitted : List Bytes) : Prop where
  order : s.seenOrder = recent kSeenMessageCap admitted
  same : s.seenSet = s.seenOrder.toFinset
  spaced : Spaced kSeenMessageCap admitted

theorem Remembers.empty : SeenMessages.empty.Remembers [] := ⟨rfl, rfl, .nil _⟩

variable {s : SeenMessages} {admitted : List Bytes} {mid : Bytes}

theorem Remembers.mem_iff (remembers : s.Remembers admitted) :
    mid ∈ s.seenSet ↔ mid ∈ recent kSeenMessageCap admitted := by
  rw [remembers.same, List.mem_toFinset, remembers.order]

theorem seenRecently_of_mem (seen : mid ∈ s.seenSet) : s.seenRecently mid = (s, true) := by
  rw [seenRecently, if_pos seen]

theorem seenRecently_of_not_mem (unseen : mid ∉ s.seenSet) : (s.seenRecently mid).2 = false := by
  rw [seenRecently, if_neg unseen]

theorem mem_seenRecently {other : Bytes} (member : other ∈ (s.seenRecently mid).1.seenSet) :
    other = mid ∨ other ∈ s.seenSet := by
  unfold seenRecently at member
  split at member
  · exact .inr member
  rcases Finset.mem_insert.mp member with same | old
  · exact .inl same
  -- what is left after an eviction was there before
  refine .inr ?_
  split at old
  · cases order : s.seenOrder with
    | nil => simpa [order] using old
    | cons oldest rest =>
      simp only [order, List.head?_cons, Option.map_some, Option.getD_some] at old
      exact Finset.mem_of_mem_erase old
  · exact old

/-- An id that is admitted takes the place of the oldest, in both containers. -/
theorem Remembers.admit (remembers : s.Remembers admitted) (unseen : mid ∉ s.seenSet) :
    (s.seenRecently mid).1.Remembers (admitted ++ [mid]) := by
  have new : mid ∉ recent kSeenMessageCap admitted := remembers.mem_iff.not.mp unseen
  have distinct : s.seenOrder.Nodup := remembers.order ▸ remembers.spaced.nodup_recent
  simp only [seenRecently, if_neg unseen]
  split
  next full =>
    refine ⟨?_, ?_, remembers.spaced.concat new⟩
    · rw [recent_concat (by decide), ← remembers.order, if_pos full]
    · -- the oldest is in front and nowhere else
      cases order : s.seenOrder with
      | nil => rw [order] at full; exact absurd full (by decide)
      | cons oldest rest =>
        rw [order] at distinct
        have once : oldest ∉ rest.toFinset :=
          fun again => (List.nodup_cons.mp distinct).1 (List.mem_toFinset.mp again)
        have erased : s.seenSet.erase oldest = rest.toFinset := by
          rw [remembers.same, order, List.toFinset_cons, Finset.erase_insert once]
        simp only [List.head?_cons, Option.map_some, Option.getD_some, List.drop_one,
          List.tail_cons, erased]
        rw [List.toFinset_append, Finset.union_comm]
        rfl
  next free =>
    refine ⟨?_, ?_, remembers.spaced.concat new⟩
    · rw [recent_concat (by decide), ← remembers.order, if_neg free]
    · rw [remembers.same, List.toFinset_append, Finset.union_comm]
      rfl

/-- Whatever is asked, at most the id itself is admitted. -/
theorem Remembers.seenRecently (remembers : s.Remembers admitted) (mid : Bytes) :
    ∃ new, (s.seenRecently mid).1.Remembers (admitted ++ new) ∧ ∀ y ∈ new, y = mid := by
  by_cases seen : mid ∈ s.seenSet
  · rw [seenRecently_of_mem seen]
    exact ⟨[], by rwa [List.append_nil], by simp⟩
  · exact ⟨[mid], remembers.admit seen, by simp⟩

end SeenMessages

/-! ### State -/

structure PeerConn where
  peer : PeerInfo
  peerKnown : Bool

/-- `id_to_fd` and `topic_subs` are kept up to date and never read; they are left out. -/
structure P2PNode where
  selfId : NodeId
  selfAddr : Bytes
  table : RoutingTable
  conns : AList fun _ : Fd => PeerConn
  /-- In the order of a `std::set`. -/
  myTopics : List String
  seen : SeenMessages
  /-- There is a callback. -/
  onTopic : Bool
  carryGuard : PeerInfo → Nat → Bool

/-- What the callback is given. -/
structure Handed where
  topic : String
  payload : Bytes
  origin : PeerInfo

structure GossipOutput where
  handed : List Handed
  sent : List (Fd × P2PMessage)

namespace P2PNode

def new (selfId : NodeId) (selfAddr : Bytes) : P2PNode :=
  ⟨selfId, selfAddr, .new selfId, ∅, [], .empty, false, fun _ _ => true⟩

def silent : GossipOutput := ⟨[], []⟩

def selfProto (node : P2PNode) : PeerInfoProto := ⟨node.selfId.toList, node.selfAddr⟩

/-- An id of another size is left as it is constructed. -/
def fromProto (p : PeerInfoProto) : PeerInfo :=
  ⟨if size : p.nodeId.length = kNodeIdBytes then ⟨p.nodeId.toArray, size⟩ else .zero, p.addr, []⟩

def toProto (p : PeerInfo) : PeerInfoProto := ⟨p.id.toList, p.addr⟩

def observe (node : P2PNode) (peer : PeerInfo) : P2PNode :=
  { node with table := node.table.observe peer }

/-- `send_to_all`, for what the application starts. -/
def sendToAll (node : P2PNode) (m : P2PMessage) : List (Fd × P2PMessage) :=
  (node.conns.entries.filter fun entry => entry.2.peerKnown).map fun entry => (entry.1, m)

def sendMySubscriptions (node : P2PNode) (fd : Fd) : List (Fd × P2PMessage) :=
  node.myTopics.map fun topic => (fd, .subscribe node.selfProto topic)

def onHandshakeObserved (node : P2PNode) (fd : Fd) (peer : PeerInfo) : P2PNode :=
  { node with conns := node.conns.insert fd ⟨peer, true⟩ }.observe peer

/-! ### Frames -/

/-- `case kPublish`. -/
def onPublish (node : P2PNode) (K : Codec P2PMessage) (fd : Fd) (p : Publish) :
    P2PNode × GossipOutput :=
  if p.messageId = [] then (node, silent)
  else
    let (seen, known) := node.seen.seenRecently p.messageId
    let node := { node with seen := seen }
    if known then (node, silent)
    else
      let origin := fromProto p.sender
      let handed :=
        if p.topic ∈ node.myTopics ∧ node.onTopic then [⟨p.topic, p.payload, origin⟩] else []
      if p.ttl = 0 then (node, ⟨handed, []⟩)
      else
        let forwarded := P2PMessage.publish { p with ttl := p.ttl - 1 }
        let size := (K.encode forwarded).length
        -- not back, not to the author, and not to whom the guard refuses
        let others := node.conns.entries.filter fun entry =>
          entry.1 ≠ fd && entry.2.peerKnown && entry.2.peer.id ≠ origin.id &&
            node.carryGuard entry.2.peer size
        (node, ⟨handed, others.map fun entry => (entry.1, forwarded)⟩)

/-- The `switch` of `handle_frame`. -/
def onMessage (node : P2PNode) (K : Codec P2PMessage) (fd : Fd) :
    P2PMessage → P2PNode × GossipOutput
  | .ping sender nonce =>
    let peer := fromProto sender
    let reply := [(fd, P2PMessage.pong node.selfProto nonce)]
    if peer.id ≠ node.selfId then
      (node.onHandshakeObserved fd peer, ⟨[], node.sendMySubscriptions fd ++ reply⟩)
    else (node, ⟨[], reply⟩)
  | .pong sender _ =>
    let peer := fromProto sender
    if peer.id ≠ node.selfId then
      (node.onHandshakeObserved fd peer, ⟨[], node.sendMySubscriptions fd⟩)
    else (node, silent)
  | .findNode sender targetNodeId =>
    let peer := fromProto sender
    let node := if peer.id ≠ node.selfId then node.observe peer else node
    if targetNodeId.length ≠ kNodeIdBytes then (node, silent)
    else
      let closest := node.table.closest (fromProto ⟨targetNodeId, []⟩).id kBucketSize
      (node, ⟨[], [(fd, .findNodeResp node.selfProto (closest.map toProto))]⟩)
  | .findNodeResp sender peers =>
    let heard := (sender :: peers).map fromProto
    ((heard.filter (·.id ≠ node.selfId)).foldl observe node, silent)
  | .subscribe sender _ =>
    let peer := fromProto sender
    (if peer.id ≠ node.selfId then node.observe peer else node, silent)
  | .unsubscribe _ _ => (node, silent)
  | .publish p => node.onPublish K fd p
  | .notSet => (node, silent)

/-- A frame of a connection; one that does not parse is dropped. -/
def handleFrame (node : P2PNode) (K : Codec P2PMessage) (fd : Fd) (bytes : Bytes) :
    P2PNode × GossipOutput :=
  match K.decode bytes with
  | none => (node, silent)
  | some m => node.onMessage K fd m

/-! ### Calls -/

/-- `register_conn`, for a connection that was dialled or accepted. -/
def registerConn (node : P2PNode) (fd : Fd) (nonce : Bytes) : P2PNode × GossipOutput :=
  ({ node with conns := node.conns.insert fd ⟨⟨.zero, [], []⟩, false⟩ },
    ⟨[], [(fd, .ping node.selfProto nonce)]⟩)

def closeConn (node : P2PNode) (fd : Fd) : P2PNode := { node with conns := node.conns.erase fd }

def subscribe (node : P2PNode) (topic : String) : P2PNode × GossipOutput :=
  let myTopics := if topic ∈ node.myTopics then node.myTopics
    else node.myTopics.orderedInsert (· ≤ ·) topic
  let node := { node with myTopics := myTopics }
  (node, ⟨[], node.sendToAll (.subscribe node.selfProto topic)⟩)

def unsubscribe (node : P2PNode) (topic : String) : P2PNode × GossipOutput :=
  let node := { node with myTopics := node.myTopics.erase topic }
  (node, ⟨[], node.sendToAll (.unsubscribe node.selfProto topic)⟩)

/-- The message id is 16 random octets. The node marks it as seen, so as not to relay it. -/
def publish (node : P2PNode) (topic : String) (payload : Bytes) (ttl : UInt32)
    (mid : Vector UInt8 16) : P2PNode × GossipOutput :=
  let p : Publish := ⟨node.selfProto, topic, mid.toList, payload, ttl⟩
  let node := { node with seen := (node.seen.seenRecently p.messageId).1 }
  (node, ⟨[], node.sendToAll (.publish p)⟩)

def setOnTopicMessage (node : P2PNode) (callback : Bool) : P2PNode :=
  { node with onTopic := callback }

def setCarryGuard (node : P2PNode) (guard : PeerInfo → Nat → Bool) : P2PNode :=
  { node with carryGuard := guard }

end P2PNode

end FinBit.P2P
