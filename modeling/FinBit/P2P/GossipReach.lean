import Mathlib.Combinatorics.SimpleGraph.Metric
import Mathlib.Combinatorics.SimpleGraph.Paths
import FinBit.P2P.GossipNetwork

/-! # How far a message goes

A node passes on the first copy of a message that it gets, and that copy may have come a long
way round with few hops left. So a message published with `ttl` hops goes for certain only
where no way round is longer than that.

The length of the way on which a node is first reached is at most the length of some path
without repetition from the publisher. This holds even if nodes forget the message and pass it
on again, because the frames of a connection arrive in order.
-/

namespace FinBit.P2P

open FinBit.Lib

variable {N : Type}

/-! ### A network at work -/

def P2PMessage.Handshake : P2PMessage → Prop
  | .ping _ _ => True
  | .pong _ _ => True
  | _ => False

/-- Two nodes are neighbours if there is a connection between them. -/
def neighbours (far : Endpoint N → Option (Endpoint N)) : SimpleGraph N :=
  .fromRel fun a b => ∃ fd fd', far (a, fd) = some (b, fd')

/-- The handshakes are complete, and every node relays for everybody. -/
structure Net.Settled (net : Net N) : Prop where
  ids : Function.Injective fun n => (net.node n).selfId
  paired : ∀ a b, net.far a = some b → net.far b = some a
  known : ∀ a b, net.far a = some b → a.1 ≠ b.1 →
    ∃ c, (net.node a.1).conns.lookup a.2 = some c ∧ c.peerKnown = true ∧
      c.peer.id = (net.node b.1).selfId
  quiet : ∀ f ∈ net.flight, ¬f.2.Handshake
  permits : ∀ n peer size, (net.node n).carryGuard peer size = true

/-- The network stays as it is, and a node stays subscribed. -/
def NetLabel.Calm (v : N) (topic : String) : NetLabel N → Prop
  | .call _ (.subscribe _) _ => True
  | .call _ (.publish _ _ _ _) _ => True
  | .call n (.unsubscribe other) _ => n = v → other ≠ topic
  | .call n (.setOnTopicMessage callback) _ => n = v → callback = true
  | .deliver _ _ _ => True
  | _ => False

def P2PNode.Subscribed (node : P2PNode) (topic : String) : Prop :=
  topic ∈ node.myTopics ∧ node.onTopic = true

/-! ### What stays -/

namespace P2PNode

variable {node : P2PNode} {K : Codec P2PMessage} {fd : Fd}

/-- The fields that say to whom a node relays. -/
structure SameLinks (node node' : P2PNode) : Prop where
  selfId : node'.selfId = node.selfId
  conns : node'.conns = node.conns
  carryGuard : node'.carryGuard = node.carryGuard

/-- What a frame changes, unless it is a handshake. -/
theorem onMessage_keeps {m : P2PMessage} (other : ¬m.Handshake) :
    SameLinks node (node.onMessage K fd m).1 ∧
      (∀ topic, node.Subscribed topic → (node.onMessage K fd m).1.Subscribed topic) ∧
      ∀ x ∈ (node.onMessage K fd m).2.sent, ¬x.2.Handshake := by
  have plain : SameLinks node node := ⟨rfl, rfl, rfl⟩
  have observed (peer : PeerInfo) : SameLinks node (node.observe peer) := ⟨rfl, rfl, rfl⟩
  cases m with
  | ping | pong => exact absurd trivial other
  | findNode sender target =>
    have kept (peer : PeerInfo) :
        SameLinks node (if peer.id ≠ node.selfId then node.observe peer else node) ∧
        ∀ topic, node.Subscribed topic →
          (if peer.id ≠ node.selfId then node.observe peer else node).Subscribed topic := by
      split
      · exact ⟨observed peer, fun _ => id⟩
      · exact ⟨plain, fun _ => id⟩
    simp only [onMessage]
    split
    · exact ⟨(kept _).1, (kept _).2, by simp [silent]⟩
    · exact ⟨(kept _).1, (kept _).2, by simp [P2PMessage.Handshake]⟩
  | findNodeResp sender peers =>
    have kept (heard : List PeerInfo) (start : P2PNode) :
        SameLinks start (heard.foldl observe start) ∧
        ∀ topic, start.Subscribed topic → (heard.foldl observe start).Subscribed topic := by
      induction heard generalizing start with
      | nil => exact ⟨⟨rfl, rfl, rfl⟩, fun _ => id⟩
      | cons peer rest ih =>
        obtain ⟨links, subscribed⟩ := ih (start.observe peer)
        exact ⟨⟨links.selfId, links.conns, links.carryGuard⟩, subscribed⟩
    exact ⟨(kept _ node).1, (kept _ node).2, by simp [onMessage, silent]⟩
  | subscribe sender topic =>
    simp only [onMessage]
    split
    · exact ⟨observed _, fun _ => id, by simp [silent]⟩
    · exact ⟨plain, fun _ => id, by simp [silent]⟩
  | unsubscribe | notSet => exact ⟨plain, fun _ => id, by simp [onMessage, silent]⟩
  | publish p =>
    have outcome := node.published K fd p
    simp only [onMessage]
    generalize node.onPublish K fd p = result at outcome ⊢
    cases outcome with
    | dropped => exact ⟨plain, fun _ => id, by simp [silent]⟩
    | admitted =>
      refine ⟨⟨rfl, rfl, rfl⟩, fun _ => id, fun x relayed => ?_⟩
      rw [(mem_relays relayed).2]
      exact id

theorem sendToAll_plain {m : P2PMessage} (other : ¬m.Handshake) :
    ∀ x ∈ node.sendToAll m, ¬x.2.Handshake := by
  intro x member
  obtain ⟨entry, -, rfl⟩ := List.mem_map.mp member
  exact other

/-- What a call changes, if the network is to stay as it is. -/
theorem call_keeps {n v : N} {topic : String} {c : NodeCall} {out : GossipOutput}
    (calm : (NetLabel.call n c out).Calm v topic) :
    SameLinks node (node.call c).1 ∧
      (n = v → node.Subscribed topic → (node.call c).1.Subscribed topic) ∧
      ∀ x ∈ (node.call c).2.sent, ¬x.2.Handshake := by
  cases c with
  | registerConn | setCarryGuard => exact absurd calm id
  | subscribe other =>
    refine ⟨⟨rfl, rfl, rfl⟩, fun _ subscribed => ?_, sendToAll_plain id⟩
    refine ⟨?_, subscribed.2⟩
    simp only [call, P2PNode.subscribe]
    split
    · exact subscribed.1
    · exact (List.mem_orderedInsert _).mpr (.inr subscribed.1)
  | unsubscribe other =>
    refine ⟨⟨rfl, rfl, rfl⟩, fun same subscribed => ?_, sendToAll_plain id⟩
    exact ⟨(List.mem_erase_of_ne (calm same).symm).mpr subscribed.1, subscribed.2⟩
  | publish => exact ⟨⟨rfl, rfl, rfl⟩, fun _ => id, sendToAll_plain id⟩
  | setOnTopicMessage callback =>
    exact ⟨⟨rfl, rfl, rfl⟩, fun same subscribed => ⟨subscribed.1, calm same⟩, by
      simp [call, silent]⟩

end P2PNode

namespace Net

variable [DecidableEq N] {K : Codec P2PMessage} {net net' : Net N} {label : NetLabel N}
  {P v : N} {topic : String}

/-- What a calm step keeps. -/
structure Kept (v : N) (topic : String) (net net' : Net N) : Prop where
  far : net'.far = net.far
  links : ∀ n, (net.node n).SameLinks (net'.node n)
  subscribed : (net.node v).Subscribed topic → (net'.node v).Subscribed topic
  quiet : (∀ f ∈ net.flight, ¬f.2.Handshake) → ∀ f ∈ net'.flight, ¬f.2.Handshake

omit [DecidableEq N] in
theorem mem_posted {n : N} {sent : List (Fd × P2PMessage)} {f : Endpoint N × P2PMessage} :
    f ∈ net.posted n sent ↔ ∃ fd, (fd, f.2) ∈ sent ∧ net.far (n, fd) = some f.1 := by
  constructor
  · intro member
    obtain ⟨⟨fd, m⟩, listed, there⟩ := List.mem_filterMap.mp member
    obtain ⟨e, far, rfl⟩ := Option.map_eq_some_iff.mp there
    exact ⟨fd, listed, far⟩
  · rintro ⟨fd, listed, far⟩
    exact List.mem_filterMap.mpr ⟨(fd, f.2), listed, by simp [far]⟩

theorem after_kept {n : N} {result : P2PNode × GossipOutput}
    {flight : List (Endpoint N × P2PMessage)} (links : (net.node n).SameLinks result.1)
    (subscribed : n = v → (net.node n).Subscribed topic → result.1.Subscribed topic)
    (plain : ∀ x ∈ result.2.sent, ¬x.2.Handshake) (fewer : ∀ f ∈ flight, f ∈ net.flight) :
    Kept v topic net (net.after n result flight) where
  far := rfl
  links m := by
    rw [node_after]
    split
    next same => exact same ▸ links
    · exact ⟨rfl, rfl, rfl⟩
  subscribed before := by
    rw [node_after]
    split
    next same =>
      subst same
      exact subscribed rfl before
    · exact before
  quiet calm f member := by
    rcases List.mem_append.mp member with old | new
    · exact calm f (fewer f old)
    · obtain ⟨fd, sent, -⟩ := mem_posted.mp new
      exact plain _ sent

theorem Step.kept (step : Step K net label net') (settled : net.Settled)
    (calm : label.Calm v topic) : Kept v topic net net' := by
  cases step with
  | link | close => exact absurd calm id
  | call n c =>
    obtain ⟨links, subscribed, plain⟩ := P2PNode.call_keeps calm
    exact after_kept links subscribed plain fun _ => id
  | @deliver e m before later registered travels =>
    have listed : (e, m) ∈ net.flight := by
      rw [travels]
      exact List.mem_append_right _ List.mem_cons_self
    obtain ⟨links, subscribed, plain⟩ := P2PNode.onMessage_keeps (settled.quiet _ listed)
    rw [P2PNode.handleFrame_encode]
    refine after_kept links (fun _ => subscribed topic) plain fun f member => ?_
    rw [travels]
    rcases List.mem_append.mp member with early | late
    · exact List.mem_append_left _ early
    · exact List.mem_append_right _ (List.mem_cons_of_mem _ late)

omit [DecidableEq N] in
theorem Settled.kept (settled : net.Settled) (kept : Kept v topic net net') : net'.Settled where
  ids n m same := by
    simp only [(kept.links n).selfId, (kept.links m).selfId] at same
    exact settled.ids same
  paired := kept.far ▸ settled.paired
  known a b linked different := by
    rw [kept.far] at linked
    rw [(kept.links a.1).conns, (kept.links b.1).selfId]
    exact settled.known a b linked different
  quiet := kept.quiet settled.quiet
  permits n := by
    rw [(kept.links n).carryGuard]
    exact settled.permits n

/-! ### The way to a node -/

/-- The hops left of the copies on their way to an endpoint, the oldest first. -/
def copiesTo (x : Bytes) (e : Endpoint N) (flight : List (Endpoint N × P2PMessage)) : List Nat :=
  flight.filterMap fun f => if f.1 = e then hopsLeft x f.2 else none

/-- The nodes that have been reached, with the length of the way to each, while a message
spreads that `v` has not got. -/
structure Spread (P v : N) (p₀ : Publish) (net : Net N) (first : N → Option Nat) : Prop where
  start : first P = some 0
  away : first v = none
  unseen : ∀ n, first n = none → p₀.messageId ∉ (net.node n).seen.seenSet
  bound : ∀ n way, first n = some way → way ≤ p₀.ttl.toNat + 1
  -- a path through nodes that were reached before
  route : ∀ n way, first n = some way → ∃ q : (neighbours net.far).Walk P n,
    q.IsPath ∧ way ≤ q.length ∧ ∀ u ∈ q.support, first u ≠ none
  copies : ∀ e p, (e, P2PMessage.publish p) ∈ net.flight → p.messageId = p₀.messageId →
    p = { p₀ with ttl := p.ttl } ∧ p.ttl.toNat ≤ p₀.ttl.toNat ∧
      ∃ a, net.far a = some e ∧ first a.1 ≠ none
  -- what a node relays when it is reached stands first in line where it is news
  queue : ∀ a e way, net.far a = some e → first e.1 = none → first a.1 = some way →
    way ≤ p₀.ttl.toNat →
      (copiesTo p₀.messageId e net.flight).head? = some (p₀.ttl.toNat - way)

theorem copiesTo_append (x : Bytes) (e : Endpoint N) (first second : List (Endpoint N × P2PMessage)) :
    copiesTo x e (first ++ second) = copiesTo x e first ++ copiesTo x e second :=
  List.filterMap_append

theorem mem_copiesTo {x : Bytes} {e : Endpoint N} {flight : List (Endpoint N × P2PMessage)}
    {left : Nat} : left ∈ copiesTo x e flight ↔ ∃ q, (e, P2PMessage.publish q) ∈ flight ∧
      q.messageId = x ∧ q.ttl.toNat = left := by
  constructor
  · intro member
    obtain ⟨⟨e', m⟩, listed, counts⟩ := List.mem_filterMap.mp member
    dsimp only at counts
    split at counts
    next same =>
      subst same
      obtain ⟨q, rfl, named, left⟩ := hopsLeft_eq_some counts
      exact ⟨q, listed, named, left⟩
    · cases counts
  · rintro ⟨q, listed, rfl, rfl⟩
    exact List.mem_filterMap.mpr ⟨_, listed, by simp [hopsLeft]⟩

theorem copiesTo_eq_nil {x : Bytes} {e : Endpoint N} {flight : List (Endpoint N × P2PMessage)}
    (none : ∀ q, (e, P2PMessage.publish q) ∈ flight → q.messageId ≠ x) :
    copiesTo x e flight = [] := by
  refine List.eq_nil_iff_forall_not_mem.mpr fun left member => ?_
  obtain ⟨q, listed, named, -⟩ := mem_copiesTo.mp member
  exact none q listed named

/-- Copies that all have the same hops left. -/
theorem copiesTo_head {e : Endpoint N} {p : Publish} {flight : List (Endpoint N × P2PMessage)}
    (listed : (e, P2PMessage.publish p) ∈ flight)
    (alike : ∀ q, (e, P2PMessage.publish q) ∈ flight → q.messageId = p.messageId →
      q.ttl = p.ttl) : (copiesTo p.messageId e flight).head? = some p.ttl.toNat := by
  have there := mem_copiesTo.mpr ⟨p, listed, rfl, rfl⟩
  cases line : copiesTo p.messageId e flight with
  | nil =>
    rw [line] at there
    cases there
  | cons head rest =>
    obtain ⟨q, member, named, rfl⟩ := mem_copiesTo.mp (line ▸ List.mem_cons_self)
    rw [alike q member named]
    rfl

/-- A frame to somewhere else, or no copy. -/
theorem copiesTo_skip {x : Bytes} {e : Endpoint N} {f : Endpoint N × P2PMessage}
    (skipped : f.1 = e → hopsLeft x f.2 = none)
    (before later : List (Endpoint N × P2PMessage)) :
    copiesTo x e (before ++ f :: later) = copiesTo x e (before ++ later) := by
  have passed : (if f.1 = e then hopsLeft x f.2 else none) = none := by
    split
    next same => exact skipped same
    · rfl
  have dropped : copiesTo x e (f :: later) = copiesTo x e later := by
    simp only [copiesTo, List.filterMap_cons, passed]
  rw [copiesTo_append, copiesTo_append, dropped]

/-- The copy that arrives is the first in line. -/
theorem copiesTo_oldest {e : Endpoint N} {p : Publish}
    {before later : List (Endpoint N × P2PMessage)} (oldest : ∀ f ∈ before, f.1 ≠ e) :
    (copiesTo p.messageId e (before ++ (e, P2PMessage.publish p) :: later)).head? =
      some p.ttl.toNat := by
  have none : copiesTo p.messageId e before = [] :=
    copiesTo_eq_nil fun q listed => absurd rfl (oldest _ listed)
  rw [copiesTo_append, none, List.nil_append, copiesTo]
  simp [hopsLeft]

/-- What is already in line stays in front. -/
theorem head_append {line more : List Nat} {left : Nat} (head : line.head? = some left) :
    (line ++ more).head? = some left := by
  rw [List.head?_append, head]
  rfl

section Spread

variable {p₀ : Publish} {first : N → Option Nat}

/-- A step that has nothing to do with the message. -/
theorem Spread.other (spread : Spread P v p₀ net first) (far : net'.far = net.far)
    (seen : ∀ n, p₀.messageId ∈ (net'.node n).seen.seenSet →
      p₀.messageId ∈ (net.node n).seen.seenSet)
    (flight : ∀ e p, (e, P2PMessage.publish p) ∈ net'.flight → p.messageId = p₀.messageId →
      (e, P2PMessage.publish p) ∈ net.flight)
    (line : ∀ e, first e.1 = none →
      copiesTo p₀.messageId e net'.flight = copiesTo p₀.messageId e net.flight) :
    Spread P v p₀ net' first where
  start := spread.start
  away := spread.away
  unseen n new old := spread.unseen n new (seen n old)
  bound := spread.bound
  route := far ▸ spread.route
  copies e p listed named := far ▸ spread.copies e p (flight e p listed named) named
  queue a e way linked new reached short := by
    rw [line e new]
    exact spread.queue a e way (far ▸ linked) new reached short

theorem Spread.silent (spread : Spread P v p₀ net first) (step : Step K net label net')
    (far : net'.far = net.far) (unsent : ¬SendsCopy p₀.messageId label)
    (unseen : ∀ n, p₀.messageId ∉ label.sees n)
    (line : ∀ e, first e.1 = none →
      copiesTo p₀.messageId e net'.flight = copiesTo p₀.messageId e net.flight) :
    Spread P v p₀ net' first := by
  refine spread.other far (fun n member => ?_) (fun e p listed named => ?_) line
  · rcases step.seen n with same | ⟨y, shown, marked⟩
    · exact same ▸ member
    · rw [marked] at member
      rcases SeenMessages.mem_seenRecently member with rfl | old
      · exact absurd shown (unseen n)
      · exact old
  · rcases step.flight listed with old | ⟨dst, sent⟩
    · exact old
    · exact absurd ⟨dst, p, sent, named⟩ unsent

omit [DecidableEq N] in
/-- A connection has one other end. -/
theorem Settled.far_inj {a b e : Endpoint N} (settled : net.Settled) (left : net.far a = some e)
    (right : net.far b = some e) : a = b := by
  have back := (settled.paired a e left).symm.trans (settled.paired b e right)
  exact Option.some.inj back

variable {e : Endpoint N} {p : Publish} {before later : List (Endpoint N × P2PMessage)}

omit [DecidableEq N] in
/-- A node that is not the publisher gets a copy from a neighbour that has hops left, unless
the copy has come from there. -/
theorem Settled.mem_relays (settled : net.Settled) {a : Endpoint N} {fd : Fd}
    (linked : net.far a = some e) (different : a.1 ≠ e.1) (back : a.2 ≠ fd) (left : p.ttl ≠ 0)
    (author : (P2PNode.fromProto p.sender).id = (net.node P).selfId) (stranger : e.1 ≠ P) :
    (a.2, P2PMessage.publish { p with ttl := p.ttl - 1 }) ∈ (net.node a.1).relays K fd p := by
  obtain ⟨c, registered, known, peer⟩ := settled.known a e linked different
  have other : c.peer.id ≠ (net.node P).selfId := by
    rw [peer]
    exact fun same => stranger (settled.ids same)
  rw [P2PNode.relays, if_neg left]
  refine List.mem_map.mpr ⟨⟨a.2, c⟩, List.mem_filter.mpr ⟨?_, ?_⟩, rfl⟩
  · exact AList.mem_lookup_iff.mp registered
  · simp [back, known, author, other, settled.permits]

/-- What is on its way after a node has relayed a copy that has arrived. -/
def relayed (net : Net N) (K : Codec P2PMessage) (e : Endpoint N) (p : Publish) :
    List (Endpoint N × P2PMessage) :=
  net.posted e.1 ((net.node e.1).relays K e.2 p)

omit [DecidableEq N] in
theorem mem_relayed {dst : Endpoint N} {q : Publish}
    (member : (dst, P2PMessage.publish q) ∈ net.relayed K e p) :
    p.ttl ≠ 0 ∧ q = { p with ttl := p.ttl - 1 } ∧ ∃ fd, net.far (e.1, fd) = some dst := by
  obtain ⟨fd, sent, linked⟩ := mem_posted.mp member
  obtain ⟨left, same⟩ := P2PNode.mem_relays sent
  exact ⟨left, P2PMessage.publish.inj same, fd, linked⟩

/-- The copies on their way, after one has arrived. -/
theorem Spread.copies_after (spread : Spread P v p₀ net first)
    (travels : net.flight = before ++ (e, P2PMessage.publish p) :: later)
    (named : p.messageId = p₀.messageId) {first' : N → Option Nat}
    (grows : ∀ n, first n ≠ none → first' n ≠ none) (reached : first' e.1 ≠ none) {dst : Endpoint N}
    {q : Publish}
    (listed : (dst, P2PMessage.publish q) ∈ before ++ later ++ net.relayed K e p)
    (copy : q.messageId = p₀.messageId) :
    q = { p₀ with ttl := q.ttl } ∧ q.ttl.toNat ≤ p₀.ttl.toNat ∧
      ∃ a, net.far a = some dst ∧ first' a.1 ≠ none := by
  rcases List.mem_append.mp listed with old | new
  · have was : (dst, P2PMessage.publish q) ∈ net.flight := by
      rw [travels]
      rcases List.mem_append.mp old with early | late
      · exact List.mem_append_left _ early
      · exact List.mem_append_right _ (List.mem_cons_of_mem _ late)
    obtain ⟨same, few, a, linked, source⟩ := spread.copies dst q was copy
    exact ⟨same, few, a, linked, grows _ source⟩
  · obtain ⟨left, rfl, fd, linked⟩ := mem_relayed new
    have was : (e, P2PMessage.publish p) ∈ net.flight := by
      rw [travels]
      exact List.mem_append_right _ List.mem_cons_self
    obtain ⟨same, few, -⟩ := spread.copies e p was named
    refine ⟨?_, ?_, (e.1, fd), linked, reached⟩
    · rw [same]
    · have less := P2PNode.ttl_pred left
      dsimp only
      omega

/-- A copy that arrives at a node that has been reached before, whether the node passes it on
again or not. -/
theorem Spread.again (spread : Spread P v p₀ net first)
    (travels : net.flight = before ++ (e, P2PMessage.publish p) :: later)
    (named : p.messageId = p₀.messageId) (reached : first e.1 ≠ none) {node : P2PNode}
    (more : List (Endpoint N × P2PMessage)) (known : ∀ f ∈ more, f ∈ net.relayed K e p)
    (far : net'.far = net.far) (nodes : net'.node = Function.update net.node e.1 node)
    (flight : net'.flight = before ++ later ++ more) : Spread P v p₀ net' first where
  start := spread.start
  away := spread.away
  unseen n new := by
    have other : n ≠ e.1 := fun same => reached (same ▸ new)
    rw [nodes, Function.update_of_ne other]
    exact spread.unseen n new
  bound := spread.bound
  route := far ▸ spread.route
  copies dst q listed copy := by
    rw [far]
    refine spread.copies_after (K := K) travels named (fun _ => id) reached ?_ copy
    rw [flight] at listed
    rcases List.mem_append.mp listed with old | new
    · exact List.mem_append_left _ old
    · exact List.mem_append_right _ (known _ new)
  queue a dst way linked new source short := by
    have elsewhere : e ≠ dst := by
      rintro rfl
      exact reached new
    have line := spread.queue a dst way (far ▸ linked) new source short
    rw [travels, copiesTo_skip (fun same => absurd same elsewhere)] at line
    rw [flight, copiesTo_append]
    exact head_append line

/-- The first copy has come by way of its sender's first, or its sender was out of hops then. -/
theorem Spread.way_le (spread : Spread P v p₀ net first)
    (travels : net.flight = before ++ (e, P2PMessage.publish p) :: later)
    (oldest : ∀ f ∈ before, f.1 ≠ e) (named : p.messageId = p₀.messageId) (new : first e.1 = none)
    {a : Endpoint N} {way : Nat} (linked : net.far a = some e) (reached : first a.1 = some way) :
    p₀.ttl.toNat + 1 - p.ttl.toNat ≤ way + 1 := by
  by_cases short : way ≤ p₀.ttl.toNat
  · have line := spread.queue a e way linked new reached short
    rw [travels, ← named, copiesTo_oldest oldest] at line
    have hops := Option.some.inj line
    omega
  · omega

/-- What a node relays when it is reached is all that is on its way to a neighbour that is not. -/
theorem Spread.line_new (spread : Spread P v p₀ net first) (settled : net.Settled)
    (travels : net.flight = before ++ (e, P2PMessage.publish p) :: later)
    (named : p.messageId = p₀.messageId)
    (author : (P2PNode.fromProto p₀.sender).id = (net.node P).selfId) (new : first e.1 = none)
    (left : p.ttl ≠ 0) {dst : Endpoint N} (fd : Fd) (linked : net.far (e.1, fd) = some dst)
    (other : dst.1 ≠ e.1) (unreached : first dst.1 = none) :
    (copiesTo p₀.messageId dst (before ++ later ++ net.relayed K e p)).head? =
      some (p.ttl - 1).toNat := by
  have listed : (e, P2PMessage.publish p) ∈ net.flight := by
    rw [travels]
    exact List.mem_append_right _ List.mem_cons_self
  obtain ⟨same, -, a, source, reached⟩ := spread.copies e p listed named
  -- before, nothing was: whoever sends there was not reached
  have empty : copiesTo p₀.messageId dst (before ++ later) = [] := by
    rw [← copiesTo_skip (f := (e, P2PMessage.publish p)) fun same => absurd (congrArg Prod.fst same)
      other.symm, ← travels]
    refine copiesTo_eq_nil fun q there copy => ?_
    obtain ⟨-, -, b, far, known⟩ := spread.copies dst q there copy
    obtain rfl := settled.far_inj far linked
    exact known new
  have forward : fd ≠ e.2 := by
    rintro rfl
    have back := (settled.paired a e source).symm.trans linked
    obtain rfl := Option.some.inj back
    exact reached unreached
  have stranger : dst.1 ≠ P := by
    rintro rfl
    cases spread.start.symm.trans unreached
  have sent : (dst, P2PMessage.publish { p with ttl := p.ttl - 1 }) ∈ net.relayed K e p := by
    refine mem_posted.mpr ⟨fd, ?_, linked⟩
    refine settled.mem_relays linked other.symm forward left ?_ stranger
    rw [same]
    exact author
  rw [copiesTo_append, empty, List.nil_append, ← named]
  refine copiesTo_head sent fun q member _ => ?_
  obtain ⟨-, rfl, -⟩ := mem_relayed member
  rfl

/-- A copy that reaches a node for the first time. -/
theorem Spread.reach (spread : Spread P v p₀ net first) (settled : net.Settled)
    (travels : net.flight = before ++ (e, P2PMessage.publish p) :: later)
    (oldest : ∀ f ∈ before, f.1 ≠ e) (named : p.messageId = p₀.messageId)
    (author : (P2PNode.fromProto p₀.sender).id = (net.node P).selfId)
    (new : first e.1 = none) (elsewhere : e.1 ≠ v) {node : P2PNode}
    (far : net'.far = net.far) (nodes : net'.node = Function.update net.node e.1 node)
    (flight : net'.flight = before ++ later ++ net.relayed K e p) :
    Spread P v p₀ net'
      (Function.update first e.1 (some (p₀.ttl.toNat + 1 - p.ttl.toNat))) := by
  have listed : (e, P2PMessage.publish p) ∈ net.flight := by
    rw [travels]
    exact List.mem_append_right _ List.mem_cons_self
  obtain ⟨same, few, a, linked, source⟩ := spread.copies e p listed named
  obtain ⟨way, reached⟩ := Option.ne_none_iff_exists'.mp source
  have apart : a.1 ≠ e.1 := fun same => source (same ▸ new)
  let first' := Function.update first e.1 (some (p₀.ttl.toNat + 1 - p.ttl.toNat))
  have here : first' e.1 = some (p₀.ttl.toNat + 1 - p.ttl.toNat) := Function.update_self ..
  have there (n : N) (other : n ≠ e.1) : first' n = first n := Function.update_of_ne other ..
  have grows (n : N) (old : first n ≠ none) : first' n ≠ none := by
    rw [there n fun same => old (same ▸ new)]
    exact old
  have apart_of_new (n : N) (unreached : first' n = none) : n ≠ e.1 ∧ first n = none := by
    have other : n ≠ e.1 := by
      rintro rfl
      cases here.symm.trans unreached
    exact ⟨other, there n other ▸ unreached⟩
  constructor
  case start => exact (there P fun same => by cases spread.start.symm.trans (same ▸ new)).trans spread.start
  case away => exact (there v elsewhere.symm).trans spread.away
  case unseen =>
    intro n unreached
    obtain ⟨other, before⟩ := apart_of_new n unreached
    rw [nodes, Function.update_of_ne other]
    exact spread.unseen n before
  case bound =>
    intro n length at_n
    by_cases same : n = e.1
    · subst same
      have := Option.some.inj (here.symm.trans at_n)
      omega
    · exact spread.bound n length ((there n same).symm.trans at_n)
  case route =>
    intro n length at_n
    rw [far]
    by_cases same : n = e.1
    · subst same
      obtain rfl := Option.some.inj (here.symm.trans at_n)
      obtain ⟨q, simple, long, through⟩ := spread.route a.1 way reached
      have edge : (neighbours net.far).Adj a.1 e.1 :=
        (SimpleGraph.fromRel_adj ..).mpr ⟨apart, .inl ⟨a.2, e.2, linked⟩⟩
      refine ⟨q.concat edge, simple.concat (fun old => through e.1 old new) edge, ?_, ?_⟩
      · rw [SimpleGraph.Walk.length_concat]
        have step := spread.way_le travels oldest named new linked reached
        omega
      · intro u member
        rw [SimpleGraph.Walk.support_concat, List.mem_append, List.mem_singleton] at member
        rcases member with old | rfl
        · exact grows u (through u old)
        · exact fun none => by cases here.symm.trans none
    · obtain ⟨q, simple, long, through⟩ := spread.route n length ((there n same).symm.trans at_n)
      exact ⟨q, simple, long, fun u member => grows u (through u member)⟩
  case copies =>
    intro dst q listed copy
    rw [far]
    rw [flight] at listed
    exact spread.copies_after travels named grows (by rw [here]; simp) listed copy
  case queue =>
    intro b dst length linked' unreached at_b short
    rw [far] at linked'
    obtain ⟨other, before'⟩ := apart_of_new dst.1 unreached
    rw [flight]
    by_cases same : b.1 = e.1
    · rw [same] at at_b
      obtain rfl := Option.some.inj (here.symm.trans at_b)
      have left : p.ttl ≠ 0 := by
        intro zero
        rw [zero] at short
        exact absurd short (by simp)
      have line := spread.line_new (K := K) settled travels named author new left b.2
        (by rw [← same]; exact linked') other before'
      rw [line]
      have less := P2PNode.ttl_pred left
      congr 1
      omega
    · have line := spread.queue b dst length linked' before' ((there b.1 same).symm.trans at_b) short
      rw [travels, copiesTo_skip (fun same => absurd (congrArg Prod.fst same) other.symm)] at line
      rw [copiesTo_append]
      exact head_append line

/-- A copy arrives. -/
theorem Spread.arrive (spread : Spread P v p₀ net first) (settled : net.Settled)
    (subscribed : (net.node v).Subscribed p₀.topic) (nonempty : p₀.messageId ≠ [])
    (author : (P2PNode.fromProto p₀.sender).id = (net.node P).selfId)
    (travels : net.flight = before ++ (e, P2PMessage.publish p) :: later)
    (oldest : ∀ f ∈ before, f.1 ≠ e) (named : p.messageId = p₀.messageId)
    (unhanded : e.1 = v → ((net.node e.1).onPublish K e.2 p).2.handed = []) :
    ∃ first', Spread P v p₀ (net.after e.1 ((net.node e.1).onPublish K e.2 p) (before ++ later))
      first' := by
  have listed : (e, P2PMessage.publish p) ∈ net.flight := by
    rw [travels]
    exact List.mem_append_right _ List.mem_cons_self
  have outcome := (net.node e.1).published K e.2 p
  generalize (net.node e.1).onPublish K e.2 p = result at outcome unhanded ⊢
  cases outcome with
  | dropped known =>
    have reached : first e.1 ≠ none := by
      intro new
      rcases known with unnamed | seen
      · exact nonempty (named.symm.trans unnamed)
      · exact spread.unseen e.1 new (named ▸ seen)
    exact ⟨first, spread.again (K := K) travels named reached [] (by simp) rfl rfl rfl⟩
  | admitted _ _ handed hands =>
    by_cases new : first e.1 = none
    · have elsewhere : e.1 ≠ v := by
        intro same
        refine hands ?_ ?_ (unhanded same)
        · rw [same, (spread.copies e p listed named).1]
          exact subscribed.1
        · rw [same]
          exact subscribed.2
      exact ⟨_, spread.reach settled travels oldest named author new elsewhere rfl rfl rfl⟩
    · exact ⟨first, spread.again (K := K) travels named new _ (fun _ => id) rfl rfl rfl⟩

theorem Spread.step (spread : Spread P v p₀ net first) (settled : net.Settled)
    (subscribed : (net.node v).Subscribed p₀.topic) (nonempty : p₀.messageId ≠ [])
    (author : (P2PNode.fromProto p₀.sender).id = (net.node P).selfId)
    (step : Step K net label net') (calm : label.Calm v p₀.topic)
    (undrawn : label.drawn ≠ some p₀.messageId) (unhanded : ¬label.Hands v p₀.messageId) :
    ∃ first', Spread P v p₀ net' first' := by
  have far := (step.kept settled calm).far
  -- what is not a copy starts none
  have unsent : (∀ e p out, label = .deliver e (.publish p) out → p.messageId ≠ p₀.messageId) →
      ¬SendsCopy p₀.messageId label := by
    rintro plain ⟨dst, q, sent, copy⟩
    rcases step.copies sent with ⟨n, publishes⟩ | ⟨e, p, out, same, rfl, -⟩
    · exact undrawn (copy ▸ publishes.drawn)
    · exact plain e p out same copy
  have unposted {n : N} {sent : List (Fd × P2PMessage)}
      (plain : ∀ dst q, (dst, P2PMessage.publish q) ∈ sent → q.messageId ≠ p₀.messageId)
      (flight : List (Endpoint N × P2PMessage)) (e : Endpoint N) :
      copiesTo p₀.messageId e (flight ++ net.posted n sent) = copiesTo p₀.messageId e flight := by
    have nothing : copiesTo p₀.messageId e (net.posted n sent) = [] := by
      refine copiesTo_eq_nil fun q member => ?_
      obtain ⟨fd, listed, -⟩ := mem_posted.mp member
      exact plain fd q listed
    rw [copiesTo_append, nothing, List.append_nil]
  have whole := step
  cases step with
  | link | close => exact absurd calm id
  | call n c =>
    have silent := unsent nofun
    refine ⟨first, spread.silent whole far silent (fun m => ?_) fun e _ => ?_⟩
    · cases c with
      | publish topic payload ttl mid =>
        simp only [NetLabel.sees]
        split
        · exact fun member => undrawn (congrArg some (List.mem_singleton.mp member).symm)
        · simp
      | _ => simp [NetLabel.sees]
    · exact unposted (fun dst q sent copy => silent ⟨dst, q, sent, copy⟩) net.flight e
  | @deliver e m before later registered travels oldest =>
    by_cases copy : ∃ p, m = .publish p ∧ p.messageId = p₀.messageId
    · obtain ⟨p, rfl, named⟩ := copy
      rw [P2PNode.handleFrame_encode] at unhanded ⊢
      refine spread.arrive settled subscribed nonempty author travels oldest named fun here => ?_
      by_contra hands
      obtain ⟨w, fd⟩ := e
      subst here
      exact unhanded ⟨fd, p, _, rfl, named, hands⟩
    · have plain (p : Publish) (same : m = .publish p) : p.messageId ≠ p₀.messageId :=
        fun named => copy ⟨p, same, named⟩
      have silent := unsent fun _ p _ same => plain p (NetLabel.deliver.inj same).2.1
      refine ⟨first, spread.silent whole far silent (fun n => ?_) fun e' _ => ?_⟩
      · cases m with
        | publish p =>
          simp only [NetLabel.sees]
          split
          · exact fun member => plain p rfl (List.mem_singleton.mp member).symm
          · simp
        | _ => simp [NetLabel.sees]
      · have skipped : hopsLeft p₀.messageId m = none := by
          cases m with
          | publish p => exact if_neg (plain p rfl)
          | _ => rfl
        refine (unposted (fun dst q sent named => silent ⟨dst, q, sent, named⟩) _ e').trans ?_
        rw [travels, copiesTo_skip fun _ => skipped]

/-- At first the publisher is all that is reached. -/
theorem Settled.publish (settled : net.Settled) (away : v ≠ P) {p₀ : Publish} {node : P2PNode}
    (unseen : ∀ n, p₀.messageId ∉ (net.node n).seen.seenSet)
    (unsent : ∀ f ∈ net.flight, hopsLeft p₀.messageId f.2 = none)
    (conns : node.conns = (net.node P).conns) :
    Spread P v p₀ (net.after P (node, ⟨[], node.sendToAll (.publish p₀)⟩) net.flight)
      (Function.update (fun _ => none) P (some 0)) := by
  let first : N → Option Nat := Function.update (fun _ => none) P (some 0)
  have start : first P = some 0 := Function.update_self ..
  have others (n : N) (other : n ≠ P) : first n = none := Function.update_of_ne other ..
  have only (n : N) (way : Nat) (at_n : first n = some way) : n = P ∧ way = 0 := by
    have same : n = P := by
      by_contra other
      cases (others n other).symm.trans at_n
    subst same
    exact ⟨rfl, (Option.some.inj (start.symm.trans at_n)).symm⟩
  have uncopied (e : Endpoint N) (p : Publish) (listed : (e, P2PMessage.publish p) ∈ net.flight) :
      p.messageId ≠ p₀.messageId := by
    intro named
    have none := unsent _ listed
    simp [hopsLeft, named] at none
  have sent {e : Endpoint N} {p : Publish} (listed : (e, P2PMessage.publish p) ∈
      net.posted P (node.sendToAll (.publish p₀))) : p = p₀ ∧ ∃ fd, net.far (P, fd) = some e := by
    obtain ⟨fd, member, linked⟩ := mem_posted.mp listed
    obtain ⟨entry, -, same⟩ := List.mem_map.mp member
    exact ⟨(P2PMessage.publish.inj (Prod.ext_iff.mp same).2).symm, fd, linked⟩
  constructor
  case start => exact start
  case away => exact others v away
  case unseen =>
    intro n new
    have other : n ≠ P := by
      rintro rfl
      cases start.symm.trans new
    rw [node_after, if_neg other]
    exact unseen n
  case bound =>
    intro n way at_n
    rw [(only n way at_n).2]
    exact Nat.zero_le _
  case route =>
    intro n way at_n
    obtain ⟨rfl, rfl⟩ := only n way at_n
    exact ⟨.nil, .nil, Nat.zero_le _, fun u member => by simp_all⟩
  case copies =>
    intro e p listed named
    rcases List.mem_append.mp listed with old | new
    · exact absurd named (uncopied e p old)
    · obtain ⟨rfl, fd, linked⟩ := sent new
      exact ⟨rfl, Nat.le_refl _, (P, fd), linked, by simp⟩
  case queue =>
    intro a e way linked new at_a _
    obtain ⟨here, rfl⟩ := only a.1 way at_a
    have other : a.1 ≠ e.1 := by
      intro same
      cases at_a.symm.trans (same ▸ new)
    obtain ⟨c, registered, known, -⟩ := settled.known a e linked other
    have listed : (e, P2PMessage.publish p₀) ∈ net.posted P (node.sendToAll (.publish p₀)) := by
      refine mem_posted.mpr ⟨a.2, List.mem_map.mpr ⟨⟨a.2, c⟩, List.mem_filter.mpr ⟨?_, known⟩, rfl⟩, ?_⟩
      · rw [conns, ← here]
        exact AList.mem_lookup_iff.mp registered
      · rw [← here]
        exact linked
    have empty : copiesTo p₀.messageId e net.flight = [] := copiesTo_eq_nil fun q => uncopied e q
    rw [after, copiesTo_append, empty, List.nil_append, Nat.sub_zero]
    exact copiesTo_head listed fun q member _ => (sent member).1 ▸ rfl

end Spread

/-- The state of a network in which a message spreads that `v` has not got. -/
structure Underway (far : Endpoint N → Option (Endpoint N)) (P v : N) (p₀ : Publish)
    (net : Net N) : Prop where
  spread : ∃ first, Spread P v p₀ net first
  settled : net.Settled
  subscribed : (net.node v).Subscribed p₀.topic
  author : (P2PNode.fromProto p₀.sender).id = (net.node P).selfId
  links : net.far = far

theorem Underway.step {far : Endpoint N → Option (Endpoint N)} {p₀ : Publish}
    (underway : Underway far P v p₀ net) (nonempty : p₀.messageId ≠ []) (step : Step K net label net')
    (calm : label.Calm v p₀.topic) (undrawn : label.drawn ≠ some p₀.messageId)
    (unhanded : ¬label.Hands v p₀.messageId) : Underway far P v p₀ net' := by
  obtain ⟨⟨first, spread⟩, settled, subscribed, author, links⟩ := underway
  have kept := step.kept settled calm
  refine ⟨?_, settled.kept kept, kept.subscribed subscribed, ?_, kept.far.trans links⟩
  · exact spread.step settled subscribed nonempty author step calm undrawn unhanded
  · rw [(kept.links P).selfId]
    exact author

/-! ### Floods -/

/-- Four nodes that all know their neighbours and listen. The descriptor of a connection is the
number of the node at its other end. -/
def meshed (links : Fin 4 → List (Fin 4)) : Net (Fin 4) where
  node n := { P2PNode.new (numberedId n) [] with
    conns := (links n).foldr
      (fun (m : Fin 4) conns => conns.insert m.val ⟨⟨numberedId m, [], []⟩, true⟩) ∅
    myTopics := ["news"]
    onTopic := true }
  far e := ((links e.1).find? (·.val = e.2)).map fun m => (m, e.1.val)
  flight := []

private def oneMid : Vector UInt8 16 := Vector.replicate 16 9

private def news (ttl : UInt32) : Publish :=
  ⟨⟨(numberedId 0).toList, []⟩, "news", oneMid.toList, [7], ttl⟩

private theorem arrives {net : Net (Fin 4)} {v : Fin 4} (e : Endpoint (Fin 4)) (p : Publish)
    (before later : List (Endpoint (Fin 4) × P2PMessage))
    (registered : ((net.node e.1).conns.lookup e.2).isSome = true)
    (travels : net.flight = before ++ (e, .publish p) :: later) (oldest : ∀ f ∈ before, f.1 ≠ e) :
    Guarded (Step K) (fun _ label => label.Calm v topic ∧ label.drawn ≠ some oneMid.toList) net
      (.deliver e (.publish p) ((net.node e.1).onMessage K e.2 (.publish p)).2)
      (net.after e.1 ((net.node e.1).onMessage K e.2 (.publish p)) (before ++ later)) :=
  ⟨⟨trivial, nofun⟩, .message e (.publish p) before later registered travels oldest⟩

end Net

end FinBit.P2P
