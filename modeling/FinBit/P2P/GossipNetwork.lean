import Mathlib.Logic.Function.Basic
import FinBit.Lib.Descent
import FinBit.Lib.Runs
import FinBit.P2P.Gossip

/-! # A network of gossip nodes

Any number of nodes, with connections that come and go. The frames of a connection arrive in
the order in which they were sent; otherwise they travel as they like.

A message is passed on by a node once, as long as the node remembers its id, and its copies
lose a hop each time, so they die out.
-/

namespace FinBit.P2P

open FinBit.Lib

/-! ### What a node does -/

inductive NodeCall where
  | registerConn (fd : Fd) (nonce : Bytes)
  | subscribe (topic : String)
  | unsubscribe (topic : String)
  | publish (topic : String) (payload : Bytes) (ttl : UInt32) (mid : Vector UInt8 16)
  | setOnTopicMessage (callback : Bool)
  | setCarryGuard (guard : PeerInfo → Nat → Bool)

namespace P2PNode

def call (node : P2PNode) : NodeCall → P2PNode × GossipOutput
  | .registerConn fd nonce => node.registerConn fd nonce
  | .subscribe topic => node.subscribe topic
  | .unsubscribe topic => node.unsubscribe topic
  | .publish topic payload ttl mid => node.publish topic payload ttl mid
  | .setOnTopicMessage callback => (node.setOnTopicMessage callback, silent)
  | .setCarryGuard guard => (node.setCarryGuard guard, silent)

/-- To whom a node relays a message that it sees for the first time. -/
def relays (node : P2PNode) (K : Codec P2PMessage) (fd : Fd) (p : Publish) :
    List (Fd × P2PMessage) :=
  let forwarded := P2PMessage.publish { p with ttl := p.ttl - 1 }
  if p.ttl = 0 then []
  else
    (node.conns.entries.filter fun entry =>
      entry.1 ≠ fd && entry.2.peerKnown && entry.2.peer.id ≠ (fromProto p.sender).id &&
        node.carryGuard entry.2.peer (K.encode forwarded).length).map
      fun entry => (entry.1, forwarded)

/-- A message is dropped, or it is new: then it is marked, handed over to a subscriber and
relayed. -/
inductive Published (node : P2PNode) (K : Codec P2PMessage) (fd : Fd) (p : Publish) :
    P2PNode × GossipOutput → Prop
  | dropped (known : p.messageId = [] ∨ p.messageId ∈ node.seen.seenSet) :
      Published node K fd p (node, silent)
  | admitted (named : p.messageId ≠ []) (unseen : p.messageId ∉ node.seen.seenSet)
      (handed : List Handed)
      (subscribed : p.topic ∈ node.myTopics → node.onTopic = true → handed ≠ [])
      (once : handed.length ≤ 1) :
      Published node K fd p ({ node with seen := (node.seen.seenRecently p.messageId).1 },
        ⟨handed, node.relays K fd p⟩)

variable {node : P2PNode} {K : Codec P2PMessage} {fd : Fd}

theorem published (node : P2PNode) (K : Codec P2PMessage) (fd : Fd) (p : Publish) :
    Published node K fd p (node.onPublish K fd p) := by
  by_cases unnamed : p.messageId = []
  · rw [onPublish, if_pos unnamed]
    exact .dropped (.inl unnamed)
  by_cases seen : p.messageId ∈ node.seen.seenSet
  · rw [onPublish, if_neg unnamed, SeenMessages.seenRecently_of_mem seen]
    exact .dropped (.inr seen)
  have result : node.onPublish K fd p =
      ({ node with seen := (node.seen.seenRecently p.messageId).1 },
        ⟨if p.topic ∈ node.myTopics ∧ node.onTopic then
            [⟨p.topic, p.payload, fromProto p.sender⟩] else [],
          node.relays K fd p⟩) := by
    simp only [onPublish, if_neg unnamed, SeenMessages.seenRecently_of_not_mem seen,
      Bool.false_eq_true, if_false, relays]
    split <;> rfl
  rw [result]
  refine .admitted unnamed seen _ (fun subscribed callback => ?_) ?_
  · simp [subscribed, callback]
  · split <;> simp

theorem ttl_pred {ttl : UInt32} (left : ttl ≠ 0) : (ttl - 1).toNat + 1 = ttl.toNat := by
  have positive : 0 < ttl.toNat := Nat.pos_of_ne_zero fun zero => left (UInt32.toNat.inj zero)
  have enough : (1 : UInt32) ≤ ttl := UInt32.le_iff_toNat_le.mpr positive
  rw [UInt32.toNat_sub_of_le _ _ enough]
  exact Nat.sub_add_cancel positive

/-- A relayed copy is the message with one hop less. -/
theorem mem_relays {p : Publish} {dst : Fd} {m : P2PMessage} (member : (dst, m) ∈ node.relays K fd p) :
    p.ttl ≠ 0 ∧ m = .publish { p with ttl := p.ttl - 1 } := by
  unfold relays at member
  dsimp only at member
  split at member
  · cases member
  next hops =>
    obtain ⟨entry, -, same⟩ := List.mem_map.mp member
    exact ⟨hops, (Prod.ext_iff.mp same).2.symm⟩

/-- What is sent as a message arrives as that message. -/
theorem handleFrame_encode (m : P2PMessage) :
    node.handleFrame K fd (K.encode m) = node.onMessage K fd m := by
  rw [handleFrame, Codec.decode_encode]

theorem not_publish_sendMySubscriptions {dst : Fd} {q : Publish} :
    (dst, P2PMessage.publish q) ∉ node.sendMySubscriptions fd := by
  intro member
  obtain ⟨topic, -, same⟩ := List.mem_map.mp member
  cases (Prod.ext_iff.mp same).2

/-- Another message changes nothing of what the node has seen, and starts no copy. -/
theorem onMessage_other {m : P2PMessage} (other : ∀ p, m ≠ .publish p) :
    (node.onMessage K fd m).1.seen = node.seen ∧ (node.onMessage K fd m).2.handed = [] ∧
      ∀ dst q, (dst, P2PMessage.publish q) ∉ (node.onMessage K fd m).2.sent := by
  cases m with
  | publish p => exact absurd rfl (other p)
  | ping sender nonce =>
    simp only [onMessage]
    split
    · refine ⟨rfl, rfl, fun dst q member => ?_⟩
      rcases List.mem_append.mp member with subscription | reply
      · exact not_publish_sendMySubscriptions subscription
      · simp at reply
    · exact ⟨rfl, rfl, by simp⟩
  | pong sender nonce =>
    simp only [onMessage]
    split
    · exact ⟨rfl, rfl, fun dst q => not_publish_sendMySubscriptions⟩
    · exact ⟨rfl, rfl, by simp [silent]⟩
  | findNode sender target =>
    have seen (peer : PeerInfo) :
        (if peer.id ≠ node.selfId then node.observe peer else node).seen = node.seen := by
      split <;> rfl
    simp only [onMessage]
    split
    · exact ⟨seen _, rfl, by simp [silent]⟩
    · exact ⟨seen _, rfl, by simp⟩
  | findNodeResp sender peers =>
    have seen (heard : List PeerInfo) (start : P2PNode) :
        (heard.foldl observe start).seen = start.seen := by
      induction heard generalizing start with
      | nil => rfl
      | cons peer rest ih => exact ih (start.observe peer)
    exact ⟨seen _ node, rfl, by simp [onMessage, silent]⟩
  | subscribe sender topic =>
    simp only [onMessage]
    split <;> exact ⟨rfl, rfl, by simp [silent]⟩
  | unsubscribe | notSet => exact ⟨rfl, rfl, by simp [onMessage, silent]⟩

/-- What a node does with a frame that has been sent to it. -/
inductive Handled (node : P2PNode) (K : Codec P2PMessage) (fd : Fd) :
    P2PMessage → P2PNode × GossipOutput → Prop
  | publish {p : Publish} {result : P2PNode × GossipOutput} (outcome : Published node K fd p result) :
      Handled node K fd (.publish p) result
  | other {m : P2PMessage} {result : P2PNode × GossipOutput} (different : ∀ p, m ≠ .publish p)
      (seen : result.1.seen = node.seen) (handed : result.2.handed = [])
      (unsent : ∀ dst q, (dst, P2PMessage.publish q) ∉ result.2.sent) : Handled node K fd m result

theorem handled (node : P2PNode) (K : Codec P2PMessage) (fd : Fd) (m : P2PMessage) :
    Handled node K fd m (node.handleFrame K fd (K.encode m)) := by
  rw [handleFrame_encode]
  by_cases publishes : ∃ p, m = .publish p
  · obtain ⟨p, rfl⟩ := publishes
    exact .publish (node.published K fd p)
  · have different := not_exists.mp publishes
    obtain ⟨seen, handed, unsent⟩ := onMessage_other different
    exact .other different seen handed unsent

theorem not_publish_sendToAll {m : P2PMessage} (other : ∀ p, m ≠ .publish p) {dst : Fd}
    {q : Publish} : (dst, P2PMessage.publish q) ∉ node.sendToAll m := by
  intro member
  obtain ⟨entry, -, same⟩ := List.mem_map.mp member
  exact other q (Prod.ext_iff.mp same).2

/-- A call starts copies of what it publishes and of nothing else. -/
theorem call_other {c : NodeCall} (other : ∀ topic payload ttl mid, c ≠ .publish topic payload ttl mid) :
    (node.call c).1.seen = node.seen ∧
      ∀ dst q, (dst, P2PMessage.publish q) ∉ (node.call c).2.sent := by
  cases c with
  | publish topic payload ttl mid => exact absurd rfl (other topic payload ttl mid)
  | registerConn fd nonce => exact ⟨rfl, by simp [call, registerConn]⟩
  | subscribe topic => exact ⟨rfl, fun dst q => not_publish_sendToAll (by simp)⟩
  | unsubscribe topic => exact ⟨rfl, fun dst q => not_publish_sendToAll (by simp)⟩
  | setOnTopicMessage | setCarryGuard => exact ⟨rfl, by simp [call, silent]⟩

end P2PNode

/-! ### The network -/

/-- An end of a connection: a node and its descriptor. -/
abbrev Endpoint (N : Type) := N × Fd

structure Net (N : Type) where
  node : N → P2PNode
  /-- The other end. -/
  far : Endpoint N → Option (Endpoint N)
  /-- The frames on their way, in the order in which they were sent. -/
  flight : List (Endpoint N × P2PMessage)

/-- What happens in the network, with what the node does about it. -/
inductive NetLabel (N : Type) where
  /-- A connection comes up; the two nodes have yet to register it. -/
  | link (a b : Endpoint N)
  | call (n : N) (c : NodeCall) (out : GossipOutput)
  | deliver (e : Endpoint N) (m : P2PMessage) (out : GossipOutput)
  | close (e : Endpoint N)

namespace Net

variable {N : Type}

def boot (selfId : N → NodeId) (selfAddr : N → Bytes) : Net N :=
  ⟨fun n => .new (selfId n) (selfAddr n), fun _ => none, []⟩

/-- What a node sends goes to the other ends of its connections. -/
def posted (net : Net N) (n : N) (sent : List (Fd × P2PMessage)) :
    List (Endpoint N × P2PMessage) :=
  sent.filterMap fun x => (net.far (n, x.1)).map fun e => (e, x.2)

variable [DecidableEq N]

/-- A node has done something. -/
def after (net : Net N) (n : N) (result : P2PNode × GossipOutput)
    (flight : List (Endpoint N × P2PMessage)) : Net N where
  node := Function.update net.node n result.1
  far := net.far
  flight := flight ++ net.posted n result.2.sent

inductive Step (K : Codec P2PMessage) : Net N → NetLabel N → Net N → Prop
  | link {net : Net N} {a b : Endpoint N} (different : a ≠ b)
      (unlinked : net.far a = none ∧ net.far b = none)
      (unused : (net.node a.1).conns.lookup a.2 = none ∧ (net.node b.1).conns.lookup b.2 = none) :
      Step K net (.link a b) { net with
        far := Function.update (Function.update net.far a (some b)) b (some a)
        flight := net.flight.filter fun f => f.1 ≠ a ∧ f.1 ≠ b }
  | call (net : Net N) (n : N) (c : NodeCall) :
      Step K net (.call n c ((net.node n).call c).2) (net.after n ((net.node n).call c) net.flight)
  -- the oldest frame on its way to a connection that the node has registered
  | deliver {net : Net N} {e : Endpoint N} {m : P2PMessage}
      {before later : List (Endpoint N × P2PMessage)}
      (registered : ((net.node e.1).conns.lookup e.2).isSome = true)
      (travels : net.flight = before ++ (e, m) :: later) (oldest : ∀ f ∈ before, f.1 ≠ e) :
      Step K net (.deliver e m ((net.node e.1).handleFrame K e.2 (K.encode m)).2)
        (net.after e.1 ((net.node e.1).handleFrame K e.2 (K.encode m)) (before ++ later))
  -- the other end may still read what is on its way to it
  | close (net : Net N) (e : Endpoint N) :
      Step K net (.close e)
        { node := Function.update net.node e.1 ((net.node e.1).closeConn e.2)
          far := fun a => if a = e ∨ net.far a = some e then none else net.far a
          flight := net.flight.filter fun f => f.1 ≠ e }

end Net

namespace NetLabel

variable {N : Type}

/-- The messages that a node sends in a step. -/
def sent : NetLabel N → List (Fd × P2PMessage)
  | .call _ _ out => out.sent
  | .deliver _ _ out => out.sent
  | _ => []

/-- The message id that a publish draws. -/
def drawn : NetLabel N → Option Bytes
  | .call _ (.publish _ _ _ mid) _ => some mid.toList
  | _ => none

def Publishes (n : N) (x : Bytes) (label : NetLabel N) : Prop :=
  ∃ topic payload ttl mid out, label = .call n (.publish topic payload ttl mid) out ∧
    mid.toList = x

theorem Publishes.drawn {n : N} {x : Bytes} {label : NetLabel N} (publishes : label.Publishes n x) :
    label.drawn = some x := by
  obtain ⟨topic, payload, ttl, mid, out, rfl, rfl⟩ := publishes
  rfl

/-- The node hands a copy of the message to its application. -/
def Hands (n : N) (x : Bytes) (label : NetLabel N) : Prop :=
  ∃ fd p out, label = .deliver (n, fd) (.publish p) out ∧ p.messageId = x ∧ out.handed ≠ []

/-- The node forwards a copy of the message. -/
def Forwards (n : N) (x : Bytes) (label : NetLabel N) : Prop :=
  ∃ fd p out, label = .deliver (n, fd) (.publish p) out ∧ p.messageId = x ∧ out.sent ≠ []

variable [DecidableEq N]

/-- The message ids that a node gets to see in a step. -/
def sees (n : N) : NetLabel N → List Bytes
  | .call m (.publish _ _ _ mid) _ => if m = n then [mid.toList] else []
  | .deliver e (.publish p) _ => if e.1 = n ∧ p.messageId ≠ [] then [p.messageId] else []
  | _ => []

end NetLabel

/-! ### One step -/

namespace Net

variable {N : Type} [DecidableEq N] {K : Codec P2PMessage} {net net' : Net N} {label : NetLabel N}
  {n : N} {x : Bytes}

theorem node_after (m : N) (result : P2PNode × GossipOutput)
    (flight : List (Endpoint N × P2PMessage)) :
    (net.after m result flight).node n = if n = m then result.1 else net.node n := by
  exact Function.update_apply net.node m result.1 n

/-- A node gets to see an id and marks it, or remembers what it did. -/
theorem Step.seen (step : Step K net label net') (n : N) :
    (net'.node n).seen = (net.node n).seen ∨
      ∃ y ∈ label.sees n, (net'.node n).seen = ((net.node n).seen.seenRecently y).1 := by
  cases step with
  | link => exact .inl rfl
  | call m c =>
    rw [node_after]
    split
    next same =>
      subst same
      cases c with
      | publish topic payload ttl mid =>
        exact .inr ⟨mid.toList, by simp [NetLabel.sees], rfl⟩
      | _ => exact .inl (P2PNode.call_other (by simp)).1
    · exact .inl rfl
  | @deliver e m =>
    rw [node_after]
    split
    next same =>
      subst same
      have handled := (net.node e.1).handled K e.2 m
      generalize (net.node e.1).handleFrame K e.2 (K.encode m) = result at handled ⊢
      cases handled with
      | @publish p _ outcome =>
        cases outcome with
        | dropped known => exact .inl rfl
        | admitted named unseen handed => exact .inr ⟨p.messageId, by simp [NetLabel.sees, named], rfl⟩
      | other different seen => exact .inl seen
    · exact .inl rfl
  | close e =>
    refine .inl ?_
    dsimp only
    rw [Function.update_apply]
    split
    next same => rw [same]; rfl
    · rfl

/-- What is passed on is new to the node. -/
theorem Step.passes (step : Step K net label net') (passes : label.Hands n x ∨ label.Forwards n x) :
    x ∉ (net.node n).seen.seenSet ∧
      (net'.node n).seen = ((net.node n).seen.seenRecently x).1 := by
  obtain ⟨fd, p, out, rfl, rfl, loud⟩ : ∃ fd p out, label = .deliver (n, fd) (.publish p) out ∧
      p.messageId = x ∧ (out.handed ≠ [] ∨ out.sent ≠ []) := by
    rcases passes with ⟨fd, p, out, same, named, loud⟩ | ⟨fd, p, out, same, named, loud⟩
    · exact ⟨fd, p, out, same, named, .inl loud⟩
    · exact ⟨fd, p, out, same, named, .inr loud⟩
  cases step with
  | deliver =>
    rw [node_after, if_pos rfl]
    have handled := (net.node n).handled K fd (.publish p)
    generalize (net.node n).handleFrame K fd (K.encode (.publish p)) = result at handled loud ⊢
    cases handled with
    | publish outcome =>
      cases outcome with
      | dropped known => simp [P2PNode.silent] at loud
      | admitted named unseen => exact ⟨unseen, rfl⟩
    | other different => exact absurd rfl (different p)

theorem Step.publishes (step : Step K net label net') (publishes : label.Publishes n x) :
    (net'.node n).seen = ((net.node n).seen.seenRecently x).1 := by
  obtain ⟨topic, payload, ttl, mid, out, rfl, rfl⟩ := publishes
  cases step with
  | call =>
    rw [node_after, if_pos rfl]
    rfl

/-- Where a copy of a message comes from: it is published here, or it is what is left of a
copy that has arrived. -/
theorem Step.copies (step : Step K net label net') {dst : Fd} {q : Publish}
    (copy : (dst, P2PMessage.publish q) ∈ label.sent) :
    (∃ n, label.Publishes n q.messageId) ∨
      ∃ e p out, label = .deliver e (.publish p) out ∧ q = { p with ttl := p.ttl - 1 } ∧
        p.ttl ≠ 0 := by
  cases step with
  | link => cases copy
  | close => cases copy
  | call m c =>
    cases c with
    | publish topic payload ttl mid =>
      obtain ⟨entry, -, same⟩ := List.mem_map.mp copy
      obtain rfl := P2PMessage.publish.inj (Prod.ext_iff.mp same).2
      exact .inl ⟨m, topic, payload, ttl, mid, _, rfl, rfl⟩
    | _ => exact absurd copy ((P2PNode.call_other (by simp)).2 dst q)
  | @deliver e m =>
    simp only [NetLabel.sent] at copy
    have handled := (net.node e.1).handled K e.2 m
    generalize (net.node e.1).handleFrame K e.2 (K.encode m) = result at handled copy ⊢
    cases handled with
    | publish outcome =>
      cases outcome with
      | dropped known => simp [P2PNode.silent] at copy
      | admitted named unseen =>
        obtain ⟨hops, same⟩ := P2PNode.mem_relays copy
        exact .inr ⟨e, _, _, rfl, P2PMessage.publish.inj same, hops⟩
    | other different seen handed unsent => exact absurd copy (unsent dst q)

theorem Step.handed_once {e : Endpoint N} {m : P2PMessage} {out : GossipOutput}
    (step : Step K net (.deliver e m out) net') : out.handed.length ≤ 1 := by
  cases step with
  | deliver =>
    have handled := (net.node e.1).handled K e.2 m
    generalize (net.node e.1).handleFrame K e.2 (K.encode m) = result at handled ⊢
    cases handled with
    | publish outcome =>
      cases outcome with
      | dropped known => exact Nat.zero_le 1
      | admitted _ _ _ _ once => exact once
    | other different seen handed => rw [handed]; exact Nat.zero_le 1

/-- What is on its way was before, or was sent just now. -/
theorem Step.flight (step : Step K net label net') {f : Endpoint N × P2PMessage}
    (member : f ∈ net'.flight) : f ∈ net.flight ∨ ∃ dst, (dst, f.2) ∈ label.sent := by
  have sent {n : N} {out : List (Fd × P2PMessage)} (new : f ∈ net.posted n out) :
      ∃ dst, (dst, f.2) ∈ out := by
    obtain ⟨⟨dst, m⟩, listed, there⟩ := List.mem_filterMap.mp new
    obtain ⟨e, -, rfl⟩ := Option.map_eq_some_iff.mp there
    exact ⟨dst, listed⟩
  cases step with
  | link => exact .inl (List.mem_of_mem_filter member)
  | close => exact .inl (List.mem_of_mem_filter member)
  | call m c =>
    rcases List.mem_append.mp member with old | new
    · exact .inl old
    · exact .inr (sent new)
  | @deliver e m before later registered travels =>
    rcases List.mem_append.mp member with old | new
    · rw [travels]
      rcases List.mem_append.mp old with early | late
      · exact .inl (List.mem_append_left _ early)
      · exact .inl (List.mem_append_right _ (List.mem_cons_of_mem _ late))
    · exact .inr (sent new)

/-! ### Runs -/

theorem Step.remembers (step : Step K net label net') {admitted : List Bytes}
    (remembers : (net.node n).seen.Remembers admitted) :
    ∃ new, (net'.node n).seen.Remembers (admitted ++ new) ∧ ∀ y ∈ new, y ∈ label.sees n := by
  rcases step.seen n with same | ⟨y, shown, marked⟩
  · exact ⟨[], by rwa [same, List.append_nil], by simp⟩
  · obtain ⟨new, after, only⟩ := remembers.seenRecently y
    rw [← marked] at after
    refine ⟨new, after, fun z member => ?_⟩
    rw [only z member]
    exact shown

/-- An id that was marked is admitted again only after as many others. -/
theorem forgotten_after {u v w : Net N} {between : List (NetLabel N)} {b : NetLabel N}
    {admitted : List Bytes} (marked : (u.node n).seen.Remembers (admitted ++ [x]))
    (run : Run (Step K) u between v) (step : Step K v b w) (again : b.Hands n x ∨ b.Forwards n x) :
    kSeenMessageCap ≤ ((between.flatMap (NetLabel.sees n)).toFinset.erase x).card := by
  -- what was admitted since is among what was seen since
  obtain ⟨since, remembers, shown⟩ : ∃ since,
      (v.node n).seen.Remembers (admitted ++ x :: since) ∧
        ∀ y ∈ since, y ∈ between.flatMap (NetLabel.sees n) := by
    refine run.invariant_history (fun history net => ∃ since,
      (net.node n).seen.Remembers (admitted ++ x :: since) ∧
        ∀ y ∈ since, y ∈ history.flatMap (NetLabel.sees n)) ?_ ⟨[], marked, by simp⟩
    rintro history s label t ⟨since, remembers, shown⟩ taken
    obtain ⟨new, after, only⟩ := taken.remembers remembers
    refine ⟨since ++ new, by simpa using after, fun y member => ?_⟩
    rw [List.flatMap_append, List.mem_append]
    rcases List.mem_append.mp member with old | late
    · exact .inl (shown y old)
    · exact .inr (by simpa using only y late)
  have unseen := (step.passes again).1
  have spaced : Spaced kSeenMessageCap (admitted ++ x :: (since ++ [x])) := by
    simpa using remembers.spaced.concat (remembers.mem_iff.not.mp unseen)
  refine spaced.card_between.trans (Finset.card_le_card fun y member => ?_)
  rw [Finset.mem_erase, List.mem_toFinset] at member ⊢
  exact ⟨member.1, shown y member.2⟩

/-- What a node has seen and what is on its way was published. -/
structure Known (drawn : List Bytes) (net : Net N) : Prop where
  seen : ∀ n, ∀ y ∈ (net.node n).seen.seenSet, y ∈ drawn
  flight : ∀ f ∈ net.flight, ∀ p, f.2 = .publish p → p.messageId ∈ drawn

theorem Step.travelled {e : Endpoint N} {m : P2PMessage} {out : GossipOutput}
    (step : Step K net (.deliver e m out) net') : (e, m) ∈ net.flight := by
  cases step with
  | deliver registered travels =>
    rw [travels]
    exact List.mem_append_right _ List.mem_cons_self

theorem Known.step {drawn : List Bytes} (known : Known drawn net) (step : Step K net label net') :
    Known (drawn ++ label.drawn.toList) net' := by
  constructor
  · intro n y member
    rcases step.seen n with same | ⟨z, shown, marked⟩
    · rw [same] at member
      exact List.mem_append_left _ (known.seen n y member)
    rw [marked] at member
    rcases SeenMessages.mem_seenRecently member with rfl | old
    · -- a node sees what it publishes and what has travelled
      cases label with
      | call m c out =>
        cases c with
        | publish topic payload ttl mid =>
          simp only [NetLabel.sees] at shown
          split at shown
          · obtain rfl := List.mem_singleton.mp shown
            simp [NetLabel.drawn]
          · cases shown
        | _ => cases shown
      | deliver e m out =>
        cases m with
        | publish p =>
          simp only [NetLabel.sees] at shown
          split at shown
          · obtain rfl := List.mem_singleton.mp shown
            exact List.mem_append_left _ (known.flight _ step.travelled p rfl)
          · cases shown
        | _ => cases shown
      | link | close => cases shown
    · exact List.mem_append_left _ (known.seen n y old)
  · intro f member p same
    rcases step.flight member with old | ⟨dst, sent⟩
    · exact List.mem_append_left _ (known.flight f old p same)
    rw [same] at sent
    rcases step.copies sent with ⟨n, publishes⟩ | ⟨e, q, out, rfl, rfl, -⟩
    · exact List.mem_append_right _ (by simp [publishes.drawn])
    · exact List.mem_append_left _ (known.flight _ step.travelled q rfl)

theorem Known.run {selfId : N → NodeId} {selfAddr : N → Bytes} {labels : List (NetLabel N)}
    (run : Run (Step K) (boot selfId selfAddr) labels net) :
    Known (labels.filterMap NetLabel.drawn) net := by
  refine run.invariant_history (fun history net => Known (history.filterMap NetLabel.drawn) net) ?_
    ⟨by simp [boot, P2PNode.new, SeenMessages.empty], by simp [boot]⟩
  intro history s label t known step
  rw [List.filterMap_append]
  cases drawn : label.drawn <;> simpa [drawn] using known.step step

/-! ### Copies die out -/

/-- The hops that a frame has left, if it is a copy of the message. -/
def hopsLeft (x : Bytes) : P2PMessage → Option Nat
  | .publish p => if p.messageId = x then some p.ttl.toNat else none
  | _ => none

/-- The hops that the copies on their way have left. -/
def hops (x : Bytes) (flight : List (Endpoint N × P2PMessage)) : Multiset Nat :=
  Multiset.ofList (flight.filterMap fun f => hopsLeft x f.2)

omit [DecidableEq N] in
theorem hops_append (first second : List (Endpoint N × P2PMessage)) :
    hops x (first ++ second) = hops x first + hops x second := by
  rw [hops, List.filterMap_append]
  rfl

theorem hopsLeft_eq_some {m : P2PMessage} {left : Nat} (counts : hopsLeft x m = some left) :
    ∃ q, m = .publish q ∧ q.messageId = x ∧ q.ttl.toNat = left := by
  cases m with
  | publish q =>
    simp only [hopsLeft] at counts
    split at counts
    next same => exact ⟨q, rfl, same, Option.some.inj counts⟩
    · cases counts
  | _ => cases counts

omit [DecidableEq N] in
theorem hops_posted {sent : List (Fd × P2PMessage)} {left : Nat}
    (member : left ∈ hops x (net.posted n sent)) :
    ∃ dst q, (dst, P2PMessage.publish q) ∈ sent ∧ q.messageId = x ∧ q.ttl.toNat = left := by
  obtain ⟨f, posted, counts⟩ := List.mem_filterMap.mp member
  obtain ⟨⟨dst, m⟩, listed, there⟩ := List.mem_filterMap.mp posted
  obtain ⟨e, -, rfl⟩ := Option.map_eq_some_iff.mp there
  obtain ⟨q, rfl, named, left⟩ := hopsLeft_eq_some counts
  exact ⟨dst, q, listed, named, left⟩

def SendsCopy (x : Bytes) (label : NetLabel N) : Prop :=
  ∃ dst q, (dst, P2PMessage.publish q) ∈ label.sent ∧ q.messageId = x

/-- A step that does not publish the message may lose copies of it. It sends some only in the
place of one that has arrived, with a hop less. -/
theorem Step.descends (step : Step K net label net') (unpublished : ∀ n, ¬label.Publishes n x) :
    (hops x net'.flight = hops x net.flight ∨
      (hops x net'.flight).IsDershowitzMannaLT (hops x net.flight)) ∧
    (SendsCopy x label → (hops x net'.flight).IsDershowitzMannaLT (hops x net.flight)) := by
  have lost (keep : Endpoint N × P2PMessage → Bool) :
      hops x (net.flight.filter keep) ≤ hops x net.flight :=
    (List.filter_sublist.filterMap _).subperm
  -- a copy that is sent comes from one that has arrived
  have relayed : ∀ dst q, (dst, P2PMessage.publish q) ∈ label.sent → q.messageId = x →
      ∃ e p out, label = .deliver e (.publish p) out ∧ p.messageId = x ∧
        q.ttl.toNat < p.ttl.toNat := by
    rintro dst q sent rfl
    rcases step.copies sent with ⟨n, publishes⟩ | ⟨e, p, out, same, rfl, left⟩
    · exact absurd publishes (unpublished n)
    · exact ⟨e, p, out, same, rfl, Nat.lt_of_succ_le (P2PNode.ttl_pred left).le⟩
  cases step with
  | link => exact ⟨descent_of_le (lost _), fun ⟨_, _, sent, _⟩ => by cases sent⟩
  | close => exact ⟨descent_of_le (lost _), fun ⟨_, _, sent, _⟩ => by cases sent⟩
  | call m c =>
    have nothing : hops x (net.posted m ((net.node m).call c).2.sent) = 0 := by
      refine Multiset.eq_zero_of_forall_notMem fun left member => ?_
      obtain ⟨dst, q, sent, named, -⟩ := hops_posted member
      obtain ⟨_, _, _, same, -⟩ := relayed dst q sent named
      cases same
    refine ⟨.inl ?_, ?_⟩
    · rw [after, hops_append, nothing, add_zero]
    · rintro ⟨dst, q, sent, named⟩
      obtain ⟨_, _, _, same, -⟩ := relayed dst q sent named
      cases same
  | @deliver e m before later registered travels oldest =>
    -- the frame that arrives is no copy, or it makes place for what is sent
    cases counts : hopsLeft x m with
    | none =>
      have other : ∀ p, m = .publish p → p.messageId ≠ x := by
        rintro p rfl named
        simp [hopsLeft, named] at counts
      have silent : ¬SendsCopy x (.deliver e m ((net.node e.1).handleFrame K e.2 (K.encode m)).2) := by
        rintro ⟨dst, q, sent, named⟩
        obtain ⟨_, p, _, same, there, -⟩ := relayed dst q sent named
        exact other p (NetLabel.deliver.inj same).2.1 there
      have nothing : hops x (net.posted e.1
          ((net.node e.1).handleFrame K e.2 (K.encode m)).2.sent) = 0 := by
        refine Multiset.eq_zero_of_forall_notMem fun left member => ?_
        obtain ⟨dst, q, sent, named, -⟩ := hops_posted member
        exact silent ⟨dst, q, sent, named⟩
      refine ⟨.inl ?_, fun sends => absurd sends silent⟩
      rw [after, hops_append, nothing, add_zero, travels]
      simp [hops, counts]
    | some left =>
      have down : (hops x (net.after e.1 ((net.node e.1).handleFrame K e.2 (K.encode m))
          (before ++ later)).flight).IsDershowitzMannaLT (hops x net.flight) := by
        have total : hops x net.flight = left ::ₘ hops x (before ++ later) := by
          rw [travels, hops_append, hops_append, ← Multiset.add_cons]
          simp [hops, counts]
        rw [total, after, hops_append]
        refine descent_replace fun less member => ?_
        obtain ⟨dst, q, sent, named, rfl⟩ := hops_posted member
        obtain ⟨_, p, _, same, there, fewer⟩ := relayed dst q sent named
        obtain rfl := (NetLabel.deliver.inj same).2.1
        rw [hopsLeft, if_pos there] at counts
        exact Option.some.inj counts ▸ fewer
      exact ⟨.inr down, fun _ => down⟩

/-- In an endless run, copies of a message are sent for some time only. -/
theorem copies_die_out {path : Nat → Net N} {labels : Nat → NetLabel N}
    (steps : ∀ k, Step K (path k) (labels k) (path (k + 1)))
    (fresh : ∀ i j, (labels i).drawn = some x → (labels j).drawn = some x → i = j) :
    ∃ last, ∀ k, last ≤ k → ¬SendsCopy x (labels k) := by
  -- after the publish, if there is one, no other draws the same id
  obtain ⟨start, unpublished⟩ : ∃ start, ∀ k, start ≤ k → ∀ n, ¬(labels k).Publishes n x := by
    by_cases published : ∃ i, (labels i).drawn = some x
    · obtain ⟨i, drawn⟩ := published
      refine ⟨i + 1, fun k after n publishes => ?_⟩
      have same := fresh i k drawn publishes.drawn
      omega
    · exact ⟨0, fun k _ n publishes => published ⟨k, publishes.drawn⟩⟩
  obtain ⟨last, late, still⟩ := eventually_still Multiset.wellFounded_isDershowitzMannaLT
    (fun k => hops x (path k).flight) start
    fun k after => ((steps k).descends (unpublished k after)).1
  refine ⟨last, fun k after sends => still k after ?_⟩
  exact ((steps k).descends (unpublished k (Nat.le_trans late after))).2 sends

/-- A node marks what it publishes and what it passes on as the newest that it has seen. -/
theorem Step.marks {drawn : List Bytes} (step : Step K net label net') (known : Known drawn net)
    (fresh : ∀ y, label.drawn = some y → y ∉ drawn)
    (enters : label.Publishes n x ∨ label.Hands n x ∨ label.Forwards n x) {admitted : List Bytes}
    (remembers : (net.node n).seen.Remembers admitted) :
    (net'.node n).seen.Remembers (admitted ++ [x]) := by
  rcases enters with publishes | passes
  · have unseen : x ∉ (net.node n).seen.seenSet :=
      fun seen => fresh x publishes.drawn (known.seen n x seen)
    rw [step.publishes publishes]
    exact remembers.admit unseen
  · obtain ⟨unseen, marked⟩ := step.passes passes
    rw [marked]
    exact remembers.admit unseen

/-- In every run of every network in which no message id is drawn twice: what a node has
published or passed on it passes on again only after `kSeenMessageCap` others; it hands over a
message once, and what it forwards is the message with fewer hops; and however the run goes
on, copies of a message are sent for some time only. -/
theorem gossip_dies_out {selfId : N → NodeId} {selfAddr : N → Bytes} {labels : List (NetLabel N)}
    (run : Run (Step K) (boot selfId selfAddr) labels net)
    (fresh : (labels.filterMap NetLabel.drawn).Nodup) :
    (∀ n x before a between b after, labels = before ++ a :: (between ++ b :: after) →
      (a.Publishes n x ∨ a.Hands n x ∨ a.Forwards n x) → (b.Hands n x ∨ b.Forwards n x) →
        kSeenMessageCap ≤ ((between.flatMap (NetLabel.sees n)).toFinset.erase x).card) ∧
    (∀ e m out, NetLabel.deliver e m out ∈ labels → out.handed.length ≤ 1 ∧
      ∀ dst q, (dst, P2PMessage.publish q) ∈ out.sent →
        ∃ p, m = .publish p ∧ q = { p with ttl := q.ttl } ∧ q.ttl < p.ttl) ∧
    ∀ path : Nat → Net N, ∀ further : Nat → NetLabel N, path 0 = net →
      (∀ k, Step K (path k) (further k) (path (k + 1))) →
      (∀ i j x, (further i).drawn = some x → (further j).drawn = some x → i = j) →
        ∀ x, ∃ last, ∀ k, last ≤ k → ¬SendsCopy x (further k) := by
  refine ⟨?_, ?_, fun path further _ steps unlike x => copies_die_out steps fun i j => unlike i j x⟩
  · rintro n x before a between b after rfl enters again
    obtain ⟨s, u, earlier, first, rest⟩ := run.split
    obtain ⟨v, w, since, second, -⟩ := rest.split
    obtain ⟨admitted, remembers⟩ : ∃ admitted, (s.node n).seen.Remembers admitted := by
      refine earlier.invariant (fun net => ∃ admitted, (net.node n).seen.Remembers admitted) ?_
        ⟨[], .empty⟩
      rintro net label net' ⟨admitted, remembers⟩ step
      obtain ⟨new, after, -⟩ := step.remembers remembers
      exact ⟨_, after⟩
    have new : ∀ y, a.drawn = some y → y ∉ before.filterMap NetLabel.drawn := by
      intro y drawn old
      rw [List.filterMap_append, List.filterMap_cons_some drawn] at fresh
      exact (List.disjoint_of_nodup_append fresh) old List.mem_cons_self
    exact forgotten_after (first.marks (Known.run earlier) new enters remembers) since second again
  · intro e m out member
    obtain ⟨before, after, rfl⟩ := List.append_of_mem member
    obtain ⟨s, u, -, step, -⟩ := run.split
    refine ⟨step.handed_once, fun dst q copy => ?_⟩
    rcases step.copies copy with ⟨n, _, _, _, _, _, same, -⟩ | ⟨_, p, _, same, rfl, left⟩
    · cases same
    · refine ⟨p, (NetLabel.deliver.inj same).2.1, rfl, UInt32.lt_iff_toNat_lt.mpr ?_⟩
      exact Nat.lt_of_succ_le (P2PNode.ttl_pred left).le

/-! ### Two nodes -/

/-- A frame arrives as the message that it was sent as. -/
theorem Step.message (e : Endpoint N) (m : P2PMessage)
    (before later : List (Endpoint N × P2PMessage))
    (registered : ((net.node e.1).conns.lookup e.2).isSome = true)
    (travels : net.flight = before ++ (e, m) :: later) (oldest : ∀ f ∈ before, f.1 ≠ e) :
    Step K net (.deliver e m ((net.node e.1).onMessage K e.2 m).2)
      (net.after e.1 ((net.node e.1).onMessage K e.2 m) (before ++ later)) := by
  rw [← P2PNode.handleFrame_encode]
  exact .deliver registered travels oldest

noncomputable def anyCodec : Codec P2PMessage := .ofCountable _

def numberedId (n : Nat) : NodeId := Vector.replicate 20 (UInt8.ofNat n)

private def pair : Net Bool := boot (fun n => numberedId n.toNat) fun _ => []

private def firstMid : Vector UInt8 16 := Vector.replicate 16 9

/-- They connect; one of them has heard from the other, and publishes something to it. -/
private theorem exists_hello : ∃ labels net, Run (Step anyCodec) pair labels net ∧
    labels.filterMap NetLabel.drawn = [firstMid.toList] ∧
    ∃ label ∈ labels, SendsCopy firstMid.toList label := by
  let one : PeerInfoProto := ⟨(numberedId 0).toList, []⟩
  let two : PeerInfoProto := ⟨(numberedId 1).toList, []⟩
  let p : Publish := ⟨one, "news", firstMid.toList, [7], 4⟩
  let waiting : List (Endpoint Bool × P2PMessage) := [((true, 0), .pong one []), ((true, 0), .publish p)]
  refine ⟨_, _, .cons (.link (a := (false, 0)) (b := (true, 0)) (by decide) ⟨rfl, rfl⟩ ⟨rfl, rfl⟩)
    (.cons (.call _ false (.registerConn 0 []))
    (.cons (.call _ true (.registerConn 0 []))
    (.cons (.message (false, 0) (.ping two []) [((true, 0), .ping one [])] [] rfl rfl (by decide))
    (.cons (.call _ false (.publish "news" [7] 4 firstMid))
    (.cons (.message (true, 0) (.ping one []) [] waiting rfl rfl (by simp))
    (.cons (.message (true, 0) (.pong one []) []
      [((true, 0), .publish p), ((false, 0), .pong two [])] rfl rfl (by simp))
    (.cons (.message (true, 0) (.publish p) [] [((false, 0), .pong two [])] rfl rfl (by simp))
    (.nil _)))))))), rfl, ?_⟩
  refine ⟨_, .tail _ (.tail _ (.tail _ (.tail _ (.head _)))), 0, p, ?_, rfl⟩
  change (0, P2PMessage.publish p) ∈ [(0, P2PMessage.publish p)]
  exact List.mem_singleton_self _

theorem gossip_dies_out_hello : ∃ labels net, Run (Step anyCodec) pair labels net ∧
    (labels.filterMap NetLabel.drawn).Nodup ∧
    (∃ label ∈ labels, SendsCopy firstMid.toList label) ∧
    ∀ path : Nat → Net Bool, ∀ further : Nat → NetLabel Bool, path 0 = net →
      (∀ k, Step anyCodec (path k) (further k) (path (k + 1))) →
      (∀ i j x, (further i).drawn = some x → (further j).drawn = some x → i = j) →
        ∃ last, ∀ k, last ≤ k → ¬SendsCopy firstMid.toList (further k) := by
  obtain ⟨labels, net, run, drawn, sends⟩ := exists_hello
  have fresh : (labels.filterMap NetLabel.drawn).Nodup := by
    rw [drawn]
    exact List.nodup_singleton _
  refine ⟨labels, net, run, fresh, sends, fun path further start steps unlike => ?_⟩
  exact (gossip_dies_out run fresh).2.2 path further start steps unlike _

end Net

end FinBit.P2P
