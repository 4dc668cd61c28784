import FinBit.Desktop.FrameDispatch
import FinBit.P2P.LastSeen

/-! # What the routing table knows of a peer

The client observes peers of its bootstrap records, with their addresses, and the senders of peer
envelopes, without one; and what a `DhtNode` is handed is observed once more. The table takes the
address of a known peer from each of them, also where there is none, and never its key.
-/

namespace FinBit.Desktop

open FinBit.Lib FinBit.P2P

/-! ### Observations of the client -/

/-- The observations that the client makes. -/
inductive Observation (nodeId : Bytes → NodeId) : PeerInfo → Prop
  | seed {pubkey addr : Bytes} (sized : pubkey.length = 32) (dialable : addr ≠ []) :
    Observation nodeId ⟨nodeId pubkey, addr, pubkey⟩
  | sender {pubkey : Bytes} (sized : pubkey.length = 32) :
    Observation nodeId ⟨nodeId pubkey, [], pubkey⟩
  /-- A message whose sender is blank is handed to the node all the same. -/
  | blank : Observation nodeId ⟨.zero, [], []⟩

namespace Worker

variable {K G C J : Type} (P : Outside K G C J)

/-- What is observed on a peer envelope, on either path. -/
def observed (pe : PeerEnvelope) : List PeerInfo :=
  (if pe.senderPubkey.length = 32 then [peerInfo P pe] else []) ++
    match pe.kind with
    | .dht => if (P.dht.message.decode pe.payload).isSome then [peerInfo P pe] else []
    | _ => []

theorem observation_peerInfo (pe : PeerEnvelope) : Observation P.nodeId (peerInfo P pe) := by
  unfold peerInfo
  split
  next sized => exact .sender sized
  · exact .blank

/-! ### Envelopes leave the table alone -/

variable (w : Worker K G J) (draws : Draws K)

theorem dht_indexMls (completed seedPersisted : Bool) (body : DmBody) :
    (w.indexMls completed seedPersisted body).dht = w.dht := by
  unfold indexMls
  split
  · dsimp only
    split <;> rfl
  · dsimp only
    split <;> split <;> rfl
  · rfl

theorem dht_handleBody (sender : Bytes) (body : DmBody) :
    (w.handleBody P draws sender body).dht = w.dht := by
  unfold handleBody
  split
  · rfl
  · rfl
  · split
    · rfl
    · exact dht_indexMls ..

theorem dht_dispatchChannelEnvelope (gid : Bytes) (env : Envelope) (now : UInt64) :
    (w.dispatchChannelEnvelope P gid env now).dht = w.dht := by
  unfold dispatchChannelEnvelope
  split
  · rfl
  split
  · rfl
  split
  · rfl
  split
  · unfold dispatchMlsChannel
    dsimp only
    split <;> rfl
  · rfl

theorem dht_dispatchWire {payload : Bytes} {w' : Worker K G J}
    (done : w.dispatchWire P draws payload = .ok w') : w'.dht = w.dht := by
  unfold dispatchWire at done
  split at done
  · cases done
    rfl
  unfold dispatchEnvelope at done
  split at done
  · cases done
    exact dht_dispatchChannelEnvelope ..
  · dsimp only at done
    split at done
    · cases done
    · cases done
      rfl
    · cases done
      exact dht_handleBody ..

theorem routing_onMessage (D : DhtCrypto) {node node' : DhtNode} {peer : PeerInfo} {bytes : Bytes}
    {now : UInt64} {effects : List DhtEffect}
    (done : node.onMessage D peer bytes now = .ok (node', effects)) :
    node'.routing = (if (D.message.decode bytes).isSome then [peer] else []).foldl
      RoutingTable.observe node.routing := by
  unfold DhtNode.onMessage at done
  split at done
  next malformed =>
    cases done
    rw [malformed]
    rfl
  next message parsed =>
    rw [parsed]
    dsimp only at done
    split at done
    · obtain ⟨⟨service, out⟩, -, built⟩ := map_eq_ok.mp done
      cases built
      rfl
    · obtain ⟨⟨service, out⟩, -, built⟩ := map_eq_ok.mp done
      cases built
      rfl
    · cases done
      rfl

theorem routing_observePeer (pe : PeerEnvelope) :
    (w.observePeer P pe).dht.map (·.routing) = w.dht.map fun node =>
      (if pe.senderPubkey.length = 32 then [peerInfo P pe] else []).foldl
        RoutingTable.observe node.routing := by
  unfold observePeer
  split
  · rw [Option.map_map]
    rfl
  · rfl

theorem observed_of_ne {pe : PeerEnvelope} (other : pe.kind ≠ .dht) :
    observed P pe = if pe.senderPubkey.length = 32 then [peerInfo P pe] else [] := by
  cases kind : pe.kind with
  | dht => exact absurd kind other
  | _ => rw [observed, kind, List.append_nil]

/-- Only a message for the node is handed to it. -/
theorem dht_dispatchPeer_of_ne {pe : PeerEnvelope} {w' : Worker K G J} (other : pe.kind ≠ .dht)
    (done : w.dispatchPeer P draws pe = .ok w') : w'.dht = (w.observePeer P pe).dht := by
  unfold dispatchPeer at done
  cases kind : pe.kind with
  | dht => exact absurd kind other
  | gossip =>
    rw [kind] at done
    dsimp only at done
    split at done
    · cases done
      rfl
    · obtain ⟨-, -, rfl⟩ := map_eq_ok.mp done
      rfl
  | dm | offlineDelivery =>
    rw [kind] at done
    exact dht_dispatchWire P _ draws done
  | offlineDeposit | offlineFetch =>
    rw [kind] at done
    dsimp only at done
    split at done
    · cases done
      rfl
    · split at done <;> cases done <;> rfl
  | other =>
    rw [kind] at done
    cases done
    rfl

/-- A peer envelope changes the routing table by what is observed on it. -/
theorem routing_dispatchPeer {pe : PeerEnvelope} {w' : Worker K G J}
    (done : w.dispatchPeer P draws pe = .ok w') :
    w'.dht.map (·.routing) = w.dht.map fun node =>
      (observed P pe).foldl RoutingTable.observe node.routing := by
  have touched := routing_observePeer P w pe
  by_cases kind : pe.kind = .dht
  · unfold dispatchPeer at done
    rw [kind] at done
    dsimp only at done
    generalize w.observePeer P pe = v at done touched
    cases before : w.dht with
    | none =>
      rw [before] at touched
      have absent : v.dht = none := by simpa using touched
      rw [absent] at done
      cases done
      rw [absent]
      rfl
    | some start =>
      rw [before] at touched
      obtain ⟨node, present, touched⟩ := Option.map_eq_some_iff.mp touched
      rw [present] at done
      obtain ⟨⟨node', effects⟩, handled, rfl⟩ := map_eq_ok.mp done
      rw [Option.map_some, Option.map_some, observed, kind, List.foldl_append]
      dsimp only at touched ⊢
      rw [← touched]
      exact congrArg some (routing_onMessage P.dht handled)
  · rw [dht_dispatchPeer_of_ne P w draws kind done, observed_of_ne P kind, touched]

end Worker

/-! ### What is kept -/

/-- What is known of a peer. -/
structure Known where
  addr : Bytes
  pubkey : Bytes

def known (peer : PeerInfo) : Known :=
  ⟨peer.addr, peer.pubkey⟩

/-- The address and the key that an observation carries. -/
def Known.hear (k : Known) (peer : PeerInfo) : Known :=
  ⟨if peer.addr = [] then k.addr else peer.addr, if peer.pubkey = [] then k.pubkey else peer.pubkey⟩

/-- The peers in the table after the observations. -/
def entriesAfter (own : NodeId) (history : List PeerInfo) : List PeerInfo :=
  (RoutingTable.observeAll own history).all

/-- At each point of a history the entry of a peer has the last address and the last key that its
observations have carried since it came into the table. -/
structure Remembers (own : NodeId) (history : List PeerInfo) : Prop where
  enters : ∀ before peer, before ++ [peer] <+: history →
    (∀ entry ∈ entriesAfter own before, entry.id ≠ peer.id) →
      ∀ entry ∈ entriesAfter own (before ++ [peer]), entry.id = peer.id → known entry = known peer
  stays : ∀ before since, before ++ since <+: history → ∀ entry ∈ entriesAfter own before,
    (∀ part, part <+: since → ∃ still ∈ entriesAfter own (before ++ part), still.id = entry.id) →
      ∀ entry' ∈ entriesAfter own (before ++ since), entry'.id = entry.id →
        known entry' = (since.filter (·.id = entry.id)).foldl Known.hear (known entry)

variable {own : NodeId} {history : List PeerInfo}

theorem entriesAfter_nil (own : NodeId) : entriesAfter own [] = [] :=
  List.flatMap_eq_nil_iff.mpr fun _ _ => rfl

theorem entriesAfter_concat (before : List PeerInfo) (peer : PeerInfo) :
    entriesAfter own (before ++ [peer]) = ((RoutingTable.observeAll own before).observe peer).all := by
  rw [entriesAfter, RoutingTable.observeAll_concat]

/-- A new peer is stored as it was observed. -/
theorem known_enters {before : List PeerInfo} {peer entry : PeerInfo}
    (new : ∀ e ∈ entriesAfter own before, e.id ≠ peer.id)
    (listed : entry ∈ entriesAfter own (before ++ [peer])) (same : entry.id = peer.id) :
    known entry = known peer := by
  rw [entriesAfter_concat] at listed
  obtain ⟨-, other⟩ | ⟨old, inside, again, -⟩ | ⟨rfl, -⟩ :=
    (RoutingTable.wellFormed_observeAll own before).origin listed
  · exact absurd same other
  · exact absurd again (new old inside)
  · rfl

/-- What an observation does to a peer that is stored before and behind it. -/
theorem known_concat {before : List PeerInfo} {peer entry entry' : PeerInfo}
    (inside : entry ∈ entriesAfter own before) (listed : entry' ∈ entriesAfter own (before ++ [peer]))
    (same : entry'.id = entry.id) :
    known entry' = if peer.id = entry.id then ⟨peer.addr, entry.pubkey⟩ else known entry := by
  have formed := RoutingTable.wellFormed_observeAll own before
  rw [entriesAfter_concat] at listed
  obtain ⟨still, other⟩ | ⟨old, stored, again, rfl⟩ | ⟨rfl, new⟩ := formed.origin listed
  · rw [if_neg fun equal => other (same.trans equal.symm), formed.entry_unique still inside same]
  · have one : old = entry := formed.entry_unique stored inside same
    rw [if_pos (again.symm.trans same), one]
    rfl
  · exact absurd same.symm (new entry inside)

/-- A known peer is stored behind its observation. -/
theorem exists_stored {before : List PeerInfo} {peer entry : PeerInfo}
    (inside : entry ∈ entriesAfter own before) (same : entry.id = peer.id) :
    { entry with addr := peer.addr } ∈ entriesAfter own (before ++ [peer]) := by
  rw [entriesAfter_concat]
  exact (RoutingTable.wellFormed_observeAll own before).stays inside same

/-- The observation takes nothing away. -/
def Adds (peer entry : PeerInfo) : Prop :=
  (peer.addr = [] → entry.addr = []) ∧ (peer.pubkey ≠ [] → peer.pubkey = entry.pubkey)

theorem hear_eq_iff {peer entry : PeerInfo} :
    (⟨peer.addr, entry.pubkey⟩ : Known) = (known entry).hear peer ↔ Adds peer entry := by
  unfold Known.hear known Adds
  rw [Known.mk.injEq]
  constructor
  · rintro ⟨addr, pubkey⟩
    constructor
    · intro none
      rw [if_pos none, none] at addr
      exact addr.symm
    · intro some_key
      rw [if_neg some_key] at pubkey
      exact pubkey.symm
  · rintro ⟨addr, pubkey⟩
    dsimp only
    constructor
    · split
      next none => rw [none, addr none]
      · rfl
    · split
      · rfl
      next some_key => exact (pubkey some_key).symm

/-- With such observations an entry has what has been heard. -/
theorem known_since {before since : List PeerInfo}
    (adds : ∀ part peer, part ++ [peer] <+: since → ∀ entry ∈ entriesAfter own (before ++ part),
      entry.id = peer.id → Adds peer entry)
    {entry : PeerInfo} (inside : entry ∈ entriesAfter own before)
    (present : ∀ part, part <+: since → ∃ still ∈ entriesAfter own (before ++ part), still.id = entry.id)
    {entry' : PeerInfo} (listed : entry' ∈ entriesAfter own (before ++ since))
    (same : entry'.id = entry.id) :
    known entry' = (since.filter (·.id = entry.id)).foldl Known.hear (known entry) := by
  induction since using List.reverseRecOn generalizing entry' with
  | nil =>
    rw [List.append_nil] at listed
    rw [(RoutingTable.wellFormed_observeAll own before).entry_unique listed inside same]
    rfl
  | append_singleton since peer ih =>
    have earlier {part : List PeerInfo} (inner : part <+: since) : part <+: since ++ [peer] :=
      inner.trans (List.prefix_append _ _)
    obtain ⟨still, kept, id⟩ := present since (earlier (List.prefix_refl _))
    have until_now := ih (fun part p inner => adds part p (earlier inner))
      (fun part inner => present part (earlier inner)) kept id
    rw [← List.append_assoc] at listed
    have step := known_concat kept listed (same.trans id.symm)
    rw [step, List.filter_append, List.foldl_append, ← until_now]
    by_cases heard : peer.id = still.id
    · have added := adds since peer (List.prefix_refl _) still kept heard.symm
      rw [if_pos heard, List.filter_cons_of_pos (by simpa using heard.trans id),
        hear_eq_iff.mpr added]
      rfl
    · have other : peer.id ≠ entry.id := fun equal => heard (equal.trans id.symm)
      rw [if_neg heard, List.filter_cons_of_neg (by simpa using other)]
      rfl

theorem adds_of_remembers (remembers : Remembers own history) {before : List PeerInfo}
    {peer entry : PeerInfo} (inside : before ++ [peer] <+: history)
    (listed : entry ∈ entriesAfter own before) (same : entry.id = peer.id) : Adds peer entry := by
  have still := exists_stored listed same
  have kept : ∀ part, part <+: [peer] →
      ∃ e ∈ entriesAfter own (before ++ part), e.id = entry.id := by
    intro part inner
    obtain rfl | ⟨rest, rfl, nothing⟩ := List.prefix_cons_iff.mp inner
    · exact ⟨entry, by rwa [List.append_nil], rfl⟩
    · rw [List.prefix_nil.mp nothing]
      exact ⟨_, still, rfl⟩
  have told := remembers.stays before [peer] inside entry listed kept _ still rfl
  rw [List.filter_cons_of_pos (by simpa using same.symm)] at told
  exact hear_eq_iff.mp told

/-- The table remembers what it has been told exactly when no observation of a stored peer is
without an address where one is stored, or brings a key other than the stored one. -/
theorem remembers_iff (own : NodeId) (history : List PeerInfo) :
    Remembers own history ↔
      ∀ before peer, before ++ [peer] <+: history → ∀ entry ∈ entriesAfter own before,
        entry.id = peer.id →
          (peer.addr = [] → entry.addr = []) ∧ (peer.pubkey ≠ [] → peer.pubkey = entry.pubkey) := by
  constructor
  · exact fun remembers before peer inside entry listed same =>
      adds_of_remembers remembers inside listed same
  · intro adds
    constructor
    · exact fun before peer _ new entry listed same => known_enters new listed same
    · intro before since inside entry listed present entry' listed' same
      refine known_since (fun part peer inner => ?_) listed present listed' same
      refine adds (before ++ part) peer ?_
      rw [List.append_assoc]
      exact ((List.prefix_append_right_inj before).mpr inner).trans inside

/-- The first envelope of a peer that a bootstrap record has named: the address is lost. -/
theorem not_always_remembers :
    ¬∀ nodeId own history, (∀ peer ∈ history, Observation nodeId peer) → Remembers own history := by
  intro all
  let key : Bytes := List.replicate 32 7
  let nodeId : Bytes → NodeId := fun _ => NodeId.zero.set 0 128
  let seed : PeerInfo := ⟨nodeId key, ascii "wss://a:1", key⟩
  let sender : PeerInfo := ⟨nodeId key, [], key⟩
  have sized : key.length = 32 := List.length_replicate
  have made : ∀ peer ∈ [seed, sender], Observation nodeId peer := by
    intro peer member
    obtain rfl | last := List.mem_cons.mp member
    · exact .seed sized (by decide)
    · rw [List.mem_singleton.mp last]
      exact .sender sized
  have apart : seed.id ≠ (RoutingTable.new NodeId.zero).self := by decide
  obtain ⟨entry, listed, same⟩ := (RoutingTable.new NodeId.zero).exists_mem_observe apart
  have entered : known entry = known seed :=
    @known_enters NodeId.zero [] seed entry (fun e stored => absurd stored (by simp [entriesAfter_nil]))
      listed same
  have adds : Adds sender entry := @adds_of_remembers _ _ (all nodeId .zero [seed, sender] made) [seed]
    sender entry (List.prefix_refl _) listed same
  have lost : known entry = ⟨[], entry.pubkey⟩ := congrArg (fun a => (⟨a, entry.pubkey⟩ : Known)) (adds.1 rfl)
  rw [entered] at lost
  cases lost

end FinBit.Desktop
