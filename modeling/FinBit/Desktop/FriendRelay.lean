import FinBit.Desktop.FrameDispatch
import FinBit.Server.Stamping

/-! # The queues of a friend relay

A client that holds messages for contacts who are away hands the queue of a key to whoever
sends an OFFLINE_FETCH in the name of that key, and forgets it. On the way over the relay
server the name is the key of the sender's login. On a direct connection it is whatever the
sender has written; the certificate of the connection is not looked at.
-/

namespace FinBit.Desktop

open FinBit.Lib FinBit.P2P

variable {K G C J B L : Type}

/-! ### What the worker hears from peers -/

def PeerKind.ofNumber : Nat → PeerKind
  | 1 => .dht
  | 2 => .gossip
  | 3 => .dm
  | 4 => .offlineDeposit
  | 5 => .offlineFetch
  | 6 => .offlineDelivery
  | _ => .other

/-- A peer envelope of the relay server as the client reads it. -/
def PeerEnvelope.ofRelay (pe : Server.PeerEnvelope) : PeerEnvelope :=
  ⟨.ofNumber pe.kind, pe.senderPubkey, pe.recipientPubkey, pe.payload⟩

/-- What the worker holds for a key. -/
def Worker.queue (w : Worker K G J) (pubkey : Bytes) : List Blob :=
  (w.offlineStore.map (· pubkey)).getD []

/-- A peer envelope that is handled: its kind, the sender that it names, and the key that its
sender has proved, by the login to the relay server or by the certificate of a direct
connection. -/
structure PeerLabel where
  kind : Option PeerKind
  sender : Bytes
  proved : Option Bytes

def PeerLabel.silent : PeerLabel := ⟨none, [], none⟩

section

variable (P : Outside K G C J) (O : Server.RelayOutside B L)

inductive PeerStep : Worker K G J → PeerLabel → Worker K G J → Prop
  /-- The relay server forwards the envelope of a connection that has logged in. -/
  | relayed {w w' : Worker K G J} {draws : Draws K} {s : Server.RelayServer L} {fd : Server.Fd}
      {c : Server.Conn} {pe forwarded : Server.PeerEnvelope} {x : Server.Write B}
      (connected : s.conns.lookup fd = some c) (authenticated : c.authenticated = true)
      (written : x ∈ s.onPeer O fd c pe) (frame : x.frame = .peer forwarded)
      (handled : w.dispatchPeer P draws (.ofRelay forwarded) = .ok w') :
      PeerStep w ⟨some (.ofNumber forwarded.kind), forwarded.senderPubkey, some c.boundUserPub⟩ w'
  | direct {w w' : Worker K G J} {draws : Draws K} {bytes : Bytes} {pe : PeerEnvelope}
      (certificate : Option Bytes) (decoded : P.frame.decode bytes = some (.peer pe))
      (handled : w.handle P draws (.peerNet bytes) = .ok w') :
      PeerStep w ⟨some pe.kind, pe.senderPubkey, certificate⟩ w'
  /-- Another frame of the relay server. -/
  | frame {w w' : Worker K G J} {draws : Draws K} {frame : Frame} (other : ∀ pe, frame ≠ .peer pe)
      (handled : w.onFrame P draws frame = .ok w') : PeerStep w .silent w'
  | gossip {w w' : Worker K G J} {draws : Draws K} {bytes : Bytes}
      (handled : w.handle P draws (.channelGossip bytes) = .ok w' ∨
        w.handle P draws (.roomGossip bytes) = .ok w') : PeerStep w .silent w'
  /-- Whatever the worker does on its own. -/
  | between {w w' : Worker K G J} (same : w'.offlineStore = w.offlineStore) :
      PeerStep w .silent w'

end

/-- A fetch comes from the key that it names, unless nothing is held for that key. -/
def SenderProved (w : Worker K G J) (label : PeerLabel) : Prop :=
  label.kind = some .offlineFetch → label.proved = some label.sender ∨ w.queue label.sender = []

/-! ### What keeps the store -/

namespace Worker

section

variable {P : Outside K G C J} {w w' : Worker K G J} {draws : Draws K}

theorem offlineStore_dispatchEnvelope {env : Envelope}
    (done : w.dispatchEnvelope P draws env = .ok w') : w'.offlineStore = w.offlineStore := by
  unfold dispatchEnvelope at done
  split at done
  · cases done
    exact (beside_dispatchChannelEnvelope P w _ _ _).offlineStore
  · dsimp only at done
    split at done
    · cases done
    · cases done
      rfl
    · cases done
      exact (beside_handleBody P _ draws _ _).offlineStore

theorem offlineStore_dispatchWire {payload : Bytes}
    (done : w.dispatchWire P draws payload = .ok w') : w'.offlineStore = w.offlineStore := by
  unfold dispatchWire at done
  split at done
  · cases done
    rfl
  · exact offlineStore_dispatchEnvelope done

theorem offlineStore_onKeyFetchResp {r : KeyFetchResp}
    (done : w.onKeyFetchResp P draws r = .ok w') : w'.offlineStore = w.offlineStore := by
  unfold onKeyFetchResp at done
  dsimp only at done
  split at done <;> cases done <;> rfl

/-- A deposit only appends. -/
theorem prefix_deposit (store : OfflineRelayStore) (recipient payload : Bytes) (now : UInt64)
    (pubkey : Bytes) : store pubkey <+: (store.deposit recipient payload now).1 pubkey := by
  unfold OfflineRelayStore.deposit
  split
  · exact List.prefix_rfl
  split
  · exact List.prefix_rfl
  split
  · exact List.prefix_rfl
  · dsimp only
    by_cases same : pubkey = recipient
    · rw [same, Function.update_self]
      exact List.prefix_append _ _
    · rw [Function.update_of_ne same]

theorem queue_of_same (same : w'.offlineStore = w.offlineStore) (pubkey : Bytes) :
    w.queue pubkey <+: w'.queue pubkey := by
  unfold queue
  rw [same]

theorem observePeer_offlineStore (pe : PeerEnvelope) :
    (w.observePeer P pe).offlineStore = w.offlineStore := by
  unfold observePeer
  split <;> rfl

/-- A peer envelope keeps every queue, unless it fetches the one of the sender it names. -/
theorem queue_dispatchPeer {pe : PeerEnvelope} (done : w.dispatchPeer P draws pe = .ok w')
    (pubkey : Bytes) :
    w.queue pubkey <+: w'.queue pubkey ∨ pe.kind = .offlineFetch ∧ pe.senderPubkey = pubkey := by
  have observed := observePeer_offlineStore (P := P) (w := w) pe
  unfold dispatchPeer at done
  dsimp only at done
  -- one case for each kind, in the order of the switch
  split at done
  · left
    split at done
    · cases done
      exact queue_of_same observed pubkey
    · obtain ⟨answer, -, rfl⟩ := map_eq_ok.mp done
      exact queue_of_same observed pubkey
  · left
    split at done
    · cases done
      exact queue_of_same observed pubkey
    · obtain ⟨answer, -, rfl⟩ := map_eq_ok.mp done
      exact queue_of_same observed pubkey
  · exact .inl (queue_of_same ((offlineStore_dispatchWire done).trans observed) pubkey)
  · -- a deposit appends to the queue of its recipient
    left
    split at done
    · cases done
      exact queue_of_same observed pubkey
    next store held =>
      split at done
      · cases done
        exact queue_of_same observed pubkey
      · cases done
        rw [observed] at held
        simp only [queue, held, Option.map_some, Option.getD_some]
        exact prefix_deposit store _ _ _ pubkey
  next fetch =>
    split at done
    · cases done
      exact .inl (queue_of_same observed pubkey)
    next store held =>
      split at done
      · cases done
        exact .inl (queue_of_same observed pubkey)
      next sized =>
        -- the blank sender has no key, so the envelope names one
        have named : (peerInfo P pe).pubkey = pe.senderPubkey := by
          unfold peerInfo at sized ⊢
          split
          · rfl
          next blank =>
            rw [if_neg blank] at sized
            exact absurd (by simp) sized
        cases done
        rw [named]
        by_cases same : pe.senderPubkey = pubkey
        · exact .inr ⟨fetch, same⟩
        · -- the queues of all other keys stay
          left
          rw [observed] at held
          simp only [queue, held, Option.map_some, Option.getD_some, OfflineRelayStore.fetchAndClear]
          split
          · exact List.prefix_rfl
          · dsimp only
            rw [Function.update_of_ne (Ne.symm same)]
  · exact .inl (queue_of_same ((offlineStore_dispatchWire done).trans observed) pubkey)
  · cases done
    exact .inl (queue_of_same observed pubkey)

theorem offlineStore_onFrame {frame : Frame} (other : ∀ pe, frame ≠ .peer pe)
    (done : w.onFrame P draws frame = .ok w') : w'.offlineStore = w.offlineStore := by
  cases frame with
  | peer pe => exact absurd rfl (other pe)
  | keyFetchResp r => exact offlineStore_onKeyFetchResp done
  | envelope env => exact offlineStore_dispatchEnvelope done
  | _ =>
    cases done
    rfl

end

end Worker

/-! ### Runs -/

section

variable {P : Outside K G C J} {O : Server.RelayOutside B L} {w w' : Worker K G J}
  {label : PeerLabel}

theorem PeerStep.queue (taken : PeerStep P O w label w') (pubkey : Bytes) :
    w.queue pubkey <+: w'.queue pubkey ∨
      label.kind = some .offlineFetch ∧ label.sender = pubkey := by
  cases taken with
  | relayed connected authenticated written frame handled =>
    rcases Worker.queue_dispatchPeer handled pubkey with kept | ⟨fetch, sender⟩
    · exact .inl kept
    · exact .inr ⟨congrArg some fetch, sender⟩
  | direct certificate decoded handled =>
    simp only [Worker.handle, decoded] at handled
    rcases Worker.queue_dispatchPeer handled pubkey with kept | ⟨fetch, sender⟩
    · exact .inl kept
    · exact .inr ⟨congrArg some fetch, sender⟩
  | frame other handled =>
    exact .inl (Worker.queue_of_same (Worker.offlineStore_onFrame other handled) pubkey)
  | gossip handled =>
    left
    rcases handled with channel | room
    · exact Worker.queue_of_same (Worker.offlineStore_dispatchWire channel) pubkey
    · -- a beacon only touches the rooms
      simp only [Worker.handle] at room
      split at room
      · split at room
        · cases room
          exact List.prefix_rfl
        · cases room
          exact Worker.queue_of_same rfl pubkey
      · cases room
        exact List.prefix_rfl
  | between same => exact .inl (Worker.queue_of_same same pubkey)

end

/-- If every fetch comes from the key that it names, a queue only grows until its owner
fetches it. -/
theorem queue_kept_or_fetched (P : Outside K G C J) (O : Server.RelayOutside B L)
    (w w' : Worker K G J) (labels : List PeerLabel) (pubkey : Bytes)
    (run : Run (Guarded (PeerStep P O) SenderProved) w labels w') :
    w.queue pubkey <+: w'.queue pubkey ∨
      ∃ label ∈ labels, label.kind = some .offlineFetch ∧ label.proved = some pubkey := by
  -- from the end: what the later steps keep, the first one must have left there
  induction run with
  | nil w => exact .inl List.prefix_rfl
  | @cons w u w' label labels taken rest ih =>
    obtain ⟨proved, taken⟩ := taken
    rcases ih with later | ⟨fetch, member, owner⟩
    · -- the first step keeps the queue, or it is a fetch of the owner or of nothing
      rcases taken.queue pubkey with kept | ⟨kind, rfl⟩
      · exact .inl (kept.trans later)
      · rcases proved kind with owner | nothing
        · exact .inr ⟨label, List.mem_cons_self, kind, owner⟩
        · rw [nothing]
          exact .inl List.nil_prefix
    · exact .inr ⟨fetch, List.mem_cons_of_mem label member, owner⟩

/-! ### A fetch in the name of another -/

private def friend : Bytes := List.replicate 32 7

/-- A worker that holds one message for the friend. -/
private noncomputable def holding : Worker Nat Unit Unit :=
  { connected with offlineStore := some (Function.update (fun _ => []) friend [⟨[1], 0⟩]) }

private theorem queue_holding : holding.queue friend = [⟨[1], 0⟩] := by
  simp [Worker.queue, holding]

/-- A peer envelope that comes over a direct connection. -/
private theorem direct_step {w w' : Worker Nat Unit Unit} (pe : PeerEnvelope)
    (certificate : Option Bytes) (handled : w.dispatchPeer Outside.nat natDraws pe = .ok w') :
    PeerStep Outside.nat Server.plainRelay w ⟨some pe.kind, pe.senderPubkey, certificate⟩ w' := by
  have decoded := Outside.nat.frame.decode_encode (.peer pe)
  have received : w.handle Outside.nat natDraws (.peerNet (Outside.nat.frame.encode (.peer pe))) =
      .ok w' := by
    rw [Worker.handle, decoded]
    exact handled
  exact .direct certificate decoded received

private theorem deposited :
    PeerStep Outside.nat Server.plainRelay connected ⟨some .offlineDeposit, [], none⟩ holding := by
  apply direct_step ⟨.offlineDeposit, [], friend, [1]⟩ none
  have sized : ¬friend.length ≠ 32 := by decide
  simp only [Worker.dispatchPeer, connected, sized, if_false, Worker.observePeer, holding,
    OfflineRelayStore.deposit]
  rfl

/-- A fetch over a direct connection is served whatever its certificate says. -/
private theorem fetched (sender : Bytes) (sized : sender.length = 32) (certificate : Option Bytes) :
    ∃ w, PeerStep Outside.nat Server.plainRelay holding ⟨some .offlineFetch, sender, certificate⟩ w ∧
      w.queue sender = [] := by
  let pe : PeerEnvelope := ⟨.offlineFetch, sender, [], []⟩
  let store : OfflineRelayStore := Function.update (fun _ => []) friend [⟨[1], 0⟩]
  let after : Worker Nat Unit Unit :=
    { holding.observePeer Outside.nat pe with offlineStore := some (store.fetchAndClear sender 0).1 }
  have named : (Worker.peerInfo Outside.nat pe).pubkey = sender := by
    simp [Worker.peerInfo, pe, sized]
  have held : (holding.observePeer Outside.nat pe).offlineStore = some store :=
    Worker.observePeer_offlineStore pe
  have handled : holding.dispatchPeer Outside.nat natDraws pe = .ok after := by
    simp only [Worker.dispatchPeer, pe] at held named ⊢
    simp only [held, named, sized]
    rfl
  refine ⟨after, direct_step pe certificate handled, ?_⟩
  simp [Worker.queue, after, OfflineRelayStore.fetchAndClear, sized]

/-- A stranger empties the queue of the friend over a direct connection, without a
certificate. -/
theorem stranger_empties_queue :
    ∃ labels labels' w w', Run (PeerStep Outside.nat Server.plainRelay) connected labels w ∧
      w.queue friend ≠ [] ∧ Run (PeerStep Outside.nat Server.plainRelay) w labels' w' ∧
      w'.queue friend = [] ∧ ∀ label ∈ labels', label.proved = none := by
  obtain ⟨w, fetch, emptied⟩ := fetched friend (by decide) none
  refine ⟨_, _, holding, w, .cons deposited (.nil _), ?_, .cons fetch (.nil _), emptied, ?_⟩
  · simp [queue_holding]
  · simp

/-- A stranger with a certificate gets what is held for the stranger. -/
theorem queue_kept_from_stranger :
    ∃ labels w, Run (Guarded (PeerStep Outside.nat Server.plainRelay) SenderProved) holding labels w ∧
      holding.queue friend ≠ [] ∧ holding.queue friend <+: w.queue friend := by
  let stranger : Bytes := List.replicate 32 8
  obtain ⟨w, fetch, -⟩ := fetched stranger (by decide) (some stranger)
  have run : Run (Guarded (PeerStep Outside.nat Server.plainRelay) SenderProved) holding _ w :=
    .cons ⟨fun _ => .inl rfl, fetch⟩ (.nil _)
  refine ⟨_, w, run, by simp [queue_holding], ?_⟩
  rcases queue_kept_or_fetched Outside.nat Server.plainRelay holding w _ friend run with kept |
    ⟨label, member, -, owner⟩
  · exact kept
  · rw [List.mem_singleton.mp member] at owner
    exact absurd owner (by decide)

end FinBit.Desktop
