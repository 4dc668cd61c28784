import FinBit.Desktop.MediaCalls
import FinBit.Desktop.Glare

/-! # Two clients that call each other

A client that has a call with a peer ignores the offers of that peer, and answers none of them. When
both dial before either has heard of the other, both offers are ignored, and both calls ring until one
side hangs up. In a voice room only one of two members dials; for other calls there is no such rule.
-/

namespace FinBit.Desktop

open FinBit.Lib Std

/-- What a client has with one peer. -/
structure PeerView where
  entry : Option CallEntry
  queue : List CallSignal
  closing : List CallEntry

namespace PeerView

/-- A call that has been dialled and has heard nothing from the peer's pipeline. -/
def Rings (v : PeerView) : Prop :=
  ∃ e, v.entry = some e ∧ e.call.isCaller = true ∧ e.call.state = .ringing ∧
    e.call.webrtc.isSome = true ∧ e.call.described = false ∧ e.call.answering = false

/-- Neither an answer nor a hang-up is under way. -/
structure Mute (v : PeerView) : Prop where
  queue : ∀ s ∈ v.queue, s.kind ≠ SignalKind.answer.code ∧ s.kind ≠ SignalKind.hangup.code
  closing : ∀ e ∈ v.closing, e.call.answering = false

end PeerView

/-- The peer whose signal an event is. -/
def CallEvent.sender : CallEvent → Option Bytes
  | .signal peer .. => some peer
  | _ => none

namespace Calls

variable {P : CallPrimitives} {h h' : Calls} {k peer : Bytes}

def view (h : Calls) (k : Bytes) : PeerView where
  entry := h.callsByPeer[k]?
  queue := h.mediaQueue.filter fun s => s.peerPub = k
  closing := (h.closing.filter fun c => c.1 = k).map Prod.snd

/-! ### What happens with other peers -/

theorem slot_other (apart : peer ≠ k) (entry : CallEntry) (e : Emitted) :
    (h.slot peer entry e).view k = h.view k := by
  cases e with
  | sendSignal kind payload =>
    rw [slot]
    split
    · simp [view, ExtTreeMap.getElem?_modify, apart]
    · simp [view, apart]
  | stateChanged state =>
    rw [slot]
    split
    · rfl
    · simp [view, ExtTreeMap.getElem?_erase, apart]

theorem slots_other (apart : peer ≠ k) (entry : CallEntry) (signals : List Emitted) :
    (signals.foldl (fun h e => h.slot peer entry e) h).view k = h.view k := by
  induction signals generalizing h with
  | nil => rfl
  | cons e rest ih => rw [List.foldl_cons, ih, slot_other apart]

theorem settle_other (apart : peer ≠ k) (entry : CallEntry) (done : MediaCall × List Emitted) :
    (h.settle peer entry done).view k = h.view k := by
  rw [settle, slots_other apart]
  simp [view, ExtTreeMap.getElem?_insert, apart]

/-! ### What happens with this one -/

theorem settle_still (entry : CallEntry) (c : MediaCall) :
    (h.settle k entry (c, [])).view k = { h.view k with entry := some { entry with call := c } } := by
  simp [settle, view]

/-- A hang-up takes the call out of the map. -/
theorem settle_hangup (entry : CallEntry) (silent : Bool) (open_ : entry.call.state ≠ .closed) :
    (h.settle k entry (entry.call.hangup silent)).callsByPeer[k]? = none := by
  have ends (g : Calls) (e : CallEntry) :
      (g.slot k e (.stateChanged .closed)).callsByPeer[k]? = none := by
    simp [slot]
  rw [MediaCall.hangup, if_neg open_, MediaCall.setState, if_neg open_, settle]
  cases silent with
  | true => exact ends _ _
  | false => exact ends _ _

/-- What the pipeline of a call comes with, apart from an answer, changes nothing. -/
theorem slot_created {entry : CallEntry} {kind : SignalKind} (payload : Bytes)
    (creates : entry.call.creates kind = true) (quiet : entry.call.answering = false)
    (mute : (h.view k).Mute) :
    ((h.slot k entry (.sendSignal kind payload)).view k).Mute ∧
      ((h.view k).Rings → ((h.slot k entry (.sendSignal kind payload)).view k).Rings) ∧
      ((h.view k).entry = none → ((h.slot k entry (.sendSignal kind payload)).view k).entry = none) := by
  have ordinary : kind.code ≠ SignalKind.answer.code ∧ kind.code ≠ SignalKind.hangup.code := by
    cases kind with
    | answer => exact absurd (quiet.symm.trans creates) (by decide)
    | hangup => cases creates
    | _ => decide
  have queued (callId pqCt : Bytes) : ∀ s ∈ (h.mediaQueue ++
      [(⟨k, callId, kind.code, payload, pqCt⟩ : CallSignal)]).filter (fun s => s.peerPub = k),
      s.kind ≠ SignalKind.answer.code ∧ s.kind ≠ SignalKind.hangup.code := by
    intro s member
    obtain ⟨member, own⟩ := List.mem_filter.mp member
    obtain old | new := List.mem_append.mp member
    · exact mute.queue s (List.mem_filter.mpr ⟨old, own⟩)
    · rw [List.mem_singleton.mp new]
      exact ordinary
  rw [slot]
  split
  · refine ⟨⟨queued _ _, mute.closing⟩, ?_, ?_⟩
    · rintro ⟨e, found, rings⟩
      have there : h.callsByPeer[k]? = some e := found
      refine ⟨{ e with sframePqCt := [] }, ?_, rings⟩
      simp [view, there]
    · intro none
      simpa [view] using none
  · exact ⟨⟨queued _ _, mute.closing⟩, id, id⟩

theorem firstRinging_found {entry : CallEntry} (first : h.firstRinging = some (peer, entry)) :
    h.callsByPeer[peer]? = some entry := by
  have member := List.mem_of_find?_eq_some first
  exact ExtTreeMap.mem_toList_iff_getElem?_eq_some.mp member

/-- A hang-up of several calls leaves the view of a peer alone, or ends the peer's call. -/
theorem leave_view {leaving : List (Bytes × CallEntry)}
    (open_ : ∀ e ∈ leaving, e.1 = k → e.2.call.state ≠ .closed) :
    (leaving.foldl (fun h e => h.settle e.1 e.2 (e.2.call.hangup false)) h).view k = h.view k ∨
      (leaving.foldl (fun h e => h.settle e.1 e.2 (e.2.call.hangup false)) h).callsByPeer[k]? = none := by
  induction leaving generalizing h with
  | nil => exact .inl rfl
  | cons first rest ih =>
    obtain ⟨here, later⟩ := List.forall_mem_cons.mp open_
    rw [List.foldl_cons]
    by_cases own : first.1 = k
    · have ended := settle_hangup (h := h) (k := k) first.2 false (here own)
      rw [own] at *
      obtain same | gone := ih (h := h.settle k first.2 (first.2.call.hangup false)) later
      · exact .inr ((congrArg PeerView.entry same).trans ended)
      · exact .inr gone
    · obtain same | gone := ih (h := h.settle first.1 first.2 (first.2.call.hangup false)) later
      · exact .inl (same.trans (settle_other own _ _))
      · exact .inr gone

theorem leave_view_other {leaving : List (Bytes × CallEntry)} (apart : ∀ e ∈ leaving, e.1 ≠ k) :
    (leaving.foldl (fun h e => h.settle e.1 e.2 (e.2.call.hangup false)) h).view k = h.view k := by
  induction leaving generalizing h with
  | nil => rfl
  | cons first rest ih =>
    obtain ⟨here, later⟩ := List.forall_mem_cons.mp apart
    rw [List.foldl_cons, ih later, settle_other here]

/-- A signal of another peer. -/
theorem signal_other {callId payload : Bytes} {kind : UInt32} {built : Bool} (apart : peer ≠ k)
    (acts : h.act P (.signal peer callId kind payload built) = some h') : h'.view k = h.view k := by
  rw [act] at acts
  split at acts
  all_goals cases acts
  · split
    · rw [offered]
      split
      · exact settle_other apart _ _
      · exact settle_other apart _ _
    · rfl
  · split
    · rfl
    · rw [dispatched]
      split
      · exact settle_other apart _ _
      · split
        · exact settle_other apart _ _
        · split
          · exact settle_other apart _ _
          · rfl

/-- What the pipeline of a call that has been closed still comes with. -/
theorem late_created {index : Nat} {kind : SignalKind} {payload : Bytes} (mute : (h.view k).Mute)
    (acts : h.act P (.createdLate index kind payload) = some h') :
    (h'.view k).Mute ∧ ((h.view k).Rings → (h'.view k).Rings) ∧
      ((h.view k).entry = none → (h'.view k).entry = none) := by
  rw [act] at acts
  split at acts
  · cases acts
  next peer other found =>
    split at acts
    next creates =>
      cases acts
      by_cases own : peer = k
      · subst own
        have closing : other ∈ (h.view peer).closing := by
          refine List.mem_map.mpr ⟨(peer, other), List.mem_filter.mpr ⟨?_, decide_eq_true rfl⟩, rfl⟩
          exact List.mem_of_getElem? found
        exact slot_created payload creates (mute.closing other closing) mute
      · rw [slot_other own]
        exact ⟨mute, id, id⟩
    · cases acts

theorem mute_deleted (mute : (h.view k).Mute) (index : Nat) :
    ({ h with closing := h.closing.eraseIdx index }.view k).Mute where
  queue := mute.queue
  closing e member := mute.closing e ((((List.eraseIdx_sublist ..).filter _).map _).subset member)

theorem mute_drained (mute : (h.view k).Mute) :
    ({ h with mediaQueue := h.mediaQueue.tail }.view k).Mute where
  queue s member := mute.queue s (((List.tail_sublist _).filter _).subset member)
  closing := mute.closing

/-- A client that rings goes on ringing, and says nothing that ends it, unless its call is taken out of
the map. -/
theorem rings_own {e : CallEvent} (rings : (h.view k).Rings) (mute : (h.view k).Mute)
    (foreign : e.sender ≠ some k) (acts : h.act P e = some h') :
    ((h'.view k).Rings ∧ (h'.view k).Mute) ∨ h'.callsByPeer[k]? = none := by
  obtain ⟨entry, listed, caller, ringing, pipeline, undescribed, quiet⟩ := rings
  have there : h.callsByPeer[k]? = some entry := listed
  have again : (h.view k).Rings := ⟨entry, listed, caller, ringing, pipeline, undescribed, quiet⟩
  have open_ : entry.call.state ≠ .closed := by rw [ringing]; decide
  have same {g : Calls} (same : g.view k = h.view k) :
      ((g.view k).Rings ∧ (g.view k).Mute) ∨ g.callsByPeer[k]? = none := by
    rw [same]
    exact .inl ⟨again, mute⟩
  have unchanged (g : Calls) (as_was : g = h.settle k entry (entry.call, [])) :
      ((g.view k).Rings ∧ (g.view k).Mute) ∨ g.callsByPeer[k]? = none := by
    refine same ?_
    rw [as_was, settle_still]
    exact congrArg (fun found : Option CallEntry => { h.view k with entry := found }) there.symm
  cases e with
  | startCall peer roomId callId pqCt haveSession built =>
    rw [act] at acts
    split at acts
    · cases acts
      exact same rfl
    next none =>
      -- another peer is dialled: this one has its call already
      have apart : peer ≠ k := by
        rintro rfl
        have member := ExtTreeMap.mem_iff_isSome_getElem?.mpr (Option.isSome_of_eq_some there)
        exact none (ExtTreeMap.contains_iff_mem.mpr member)
      split at acts
      · cases acts
        exact same rfl
      · cases acts
        exact same (settle_other apart _ _)
  | acceptCall built =>
    rw [act] at acts
    split at acts
    · cases acts
      exact same rfl
    next peer first rings =>
      cases acts
      by_cases own : peer = k
      · subst own
        -- a call that was dialled here cannot be accepted
        cases there.symm.trans (firstRinging_found rings)
        refine unchanged _ ?_
        rw [MediaCall.acceptIncoming, if_pos (.inr caller)]
      · exact same (settle_other own _ _)
  | declineCall =>
    rw [act] at acts
    split at acts
    · cases acts
      exact same rfl
    next peer first rings =>
      cases acts
      by_cases own : peer = k
      · subst own
        cases there.symm.trans (firstRinging_found rings)
        exact .inr (settle_hangup entry false open_)
      · exact same (settle_other own _ _)
  | leaveChannelCall roomId =>
    cases acts
    -- the call may be one of the room, and ends then
    have all_open : ∀ e ∈ h.callsByPeer.toList.filter (fun e => e.2.roomId = roomId), e.1 = k →
        e.2.call.state ≠ .closed := by
      rintro ⟨peer, other⟩ member rfl
      have member := ExtTreeMap.mem_toList_iff_getElem?_eq_some.mp (List.mem_filter.mp member).1
      cases there.symm.trans member
      exact open_
    obtain kept | gone := leave_view (h := h) all_open
    · exact same kept
    · exact .inr gone
  | roster roomId peers =>
    cases acts
    exact same rfl
  | signal peer callId kind payload built =>
    exact same (signal_other (fun own => foreign (congrArg some own)) acts)
  | created peer kind payload =>
    rw [act] at acts
    split at acts
    · cases acts
    next other found =>
      split at acts
      next creates =>
        cases acts
        by_cases own : peer = k
        · subst own
          cases there.symm.trans found
          obtain ⟨mute, rings, -⟩ := slot_created payload creates quiet mute
          exact .inl ⟨rings again, mute⟩
        · exact same (slot_other own _ _)
      · cases acts
  | createdLate index kind payload =>
    obtain ⟨mute, rings, -⟩ := late_created mute acts
    exact .inl ⟨rings again, mute⟩
  | deleted index =>
    cases acts
    exact .inl ⟨again, mute_deleted mute index⟩
  | connectionState peer gstState =>
    rw [act] at acts
    split at acts
    · cases acts
    next other found =>
      split at acts
      · cases acts
      next may =>
        cases acts
        by_cases own : peer = k
        · subst own
          cases there.symm.trans found
          rw [MediaCall.onConnectionState, if_neg open_]
          split
          -- without a description of the peer nothing connects
          next connected => exact absurd ⟨connected, by rw [undescribed]; rfl⟩ may
          · split
            · exact .inr (settle_hangup entry false open_)
            · exact unchanged _ rfl
        · exact same (settle_other own _ _)
  | ended peer =>
    rw [act] at acts
    split at acts
    · cases acts
    next other found =>
      cases acts
      by_cases own : peer = k
      · subst own
        cases there.symm.trans found
        exact .inr (settle_hangup entry false open_)
      · exact same (settle_other own _ _)
  | drained =>
    cases acts
    exact .inl ⟨again, mute_drained mute⟩

/-- A client without a call rings once it has dialled. -/
theorem idle_own {e : CallEvent} (idle : h.callsByPeer[k]? = none) (mute : (h.view k).Mute)
    (foreign : e.sender ≠ some k) (acts : h.act P e = some h') :
    (h'.callsByPeer[k]? = none ∨ (h'.view k).Rings) ∧ (h'.view k).Mute := by
  have same {g : Calls} (same : g.view k = h.view k) :
      (g.callsByPeer[k]? = none ∨ (g.view k).Rings) ∧ (g.view k).Mute := by
    have entry : g.callsByPeer[k]? = h.callsByPeer[k]? := congrArg PeerView.entry same
    rw [same, entry]
    exact ⟨.inl idle, mute⟩
  have apart {peer : Bytes} {entry : CallEntry} (found : h.callsByPeer[peer]? = some entry) : peer ≠ k := by
    rintro rfl
    cases idle.symm.trans found
  cases e with
  | startCall peer roomId callId pqCt haveSession built =>
    rw [act] at acts
    split at acts
    · cases acts
      exact same rfl
    · split at acts
      · cases acts
        exact same rfl
      · cases acts
        by_cases own : peer = k
        · subst own
          cases built with
          | true =>
            -- the call that rings from now on
            refine ⟨.inr ⟨⟨⟨.ringing, true, some [], [], []⟩, callId, roomId, pqCt⟩, ?_, ?_⟩,
              mute.queue, mute.closing⟩
            · exact ExtTreeMap.getElem?_insert_self
            · exact ⟨rfl, rfl, rfl, rfl, rfl⟩
          | false =>
            -- the pipeline was not built, so the call is closed at once, before it has answered anything
            refine ⟨.inl ?_, mute.queue, fun e member => ?_⟩
            · exact ExtTreeMap.getElem?_erase_self
            · obtain ⟨⟨q, c⟩, listed, rfl⟩ := List.mem_map.mp member
              obtain ⟨member, own⟩ := List.mem_filter.mp listed
              obtain old | new := List.mem_append.mp member
              · exact mute.closing c (List.mem_map.mpr ⟨(q, c), List.mem_filter.mpr ⟨old, own⟩, rfl⟩)
              · cases List.mem_singleton.mp new
                rfl
        · exact same (settle_other own _ _)
  | acceptCall built =>
    rw [act] at acts
    split at acts
    all_goals cases acts
    · exact same rfl
    next rings => exact same (settle_other (apart (firstRinging_found rings)) _ _)
  | declineCall =>
    rw [act] at acts
    split at acts
    all_goals cases acts
    · exact same rfl
    next rings => exact same (settle_other (apart (firstRinging_found rings)) _ _)
  | leaveChannelCall roomId =>
    cases acts
    have others : ∀ e ∈ h.callsByPeer.toList.filter (fun e => e.2.roomId = roomId), e.1 ≠ k := by
      rintro ⟨peer, other⟩ member
      exact apart (ExtTreeMap.mem_toList_iff_getElem?_eq_some.mp (List.mem_filter.mp member).1)
    exact same (leave_view_other (h := h) others)
  | roster roomId peers =>
    cases acts
    exact same rfl
  | signal peer callId kind payload built =>
    exact same (signal_other (fun own => foreign (congrArg some own)) acts)
  | created peer kind payload =>
    rw [act] at acts
    split at acts
    · cases acts
    next found =>
      split at acts
      · cases acts
        exact same (slot_other (apart found) _ _)
      · cases acts
  | createdLate index kind payload =>
    obtain ⟨mute, -, none⟩ := late_created mute acts
    exact ⟨.inl (none idle), mute⟩
  | deleted index =>
    cases acts
    exact ⟨.inl idle, mute_deleted mute index⟩
  | connectionState peer gstState =>
    rw [act] at acts
    split at acts
    · cases acts
    next found =>
      split at acts
      all_goals cases acts
      exact same (settle_other (apart found) _ _)
  | ended peer =>
    rw [act] at acts
    split at acts
    all_goals cases acts
    next found => exact same (settle_other (apart found) _ _)
  | drained =>
    cases acts
    exact ⟨.inl idle, mute_drained mute⟩

/-- Signals that arrive, apart from an answer and a hang-up, leave a call ringing. -/
theorem rings_signal {callId payload : Bytes} {kind : UInt32} {built : Bool} (rings : (h.view k).Rings)
    (mute : (h.view k).Mute)
    (ordinary : kind ≠ SignalKind.answer.code ∧ kind ≠ SignalKind.hangup.code)
    (acts : h.act P (.signal k callId kind payload built) = some h') :
    (h'.view k).Rings ∧ (h'.view k).Mute := by
  obtain ⟨entry, listed, caller, ringing, pipeline, undescribed, quiet⟩ := rings
  have there : h.callsByPeer[k]? = some entry := listed
  rw [act, there] at acts
  cases acts
  split
  · -- an offer is ignored, since there is a call
    exact ⟨⟨entry, listed, caller, ringing, pipeline, undescribed, quiet⟩, mute⟩
  · rw [dispatched, if_neg ordinary.1, if_neg ordinary.2]
    split
    · -- a candidate
      rw [settle_still]
      refine ⟨⟨{ entry with call := entry.call.receiveIce P payload }, rfl, ?_⟩,
        mute.queue, mute.closing⟩
      obtain ⟨asked, has⟩ := Option.isSome_iff_exists.mp pipeline
      simp only [MediaCall.described, MediaCall.answering, has, Option.any_some] at undescribed quiet ⊢
      rw [MediaCall.receiveIce, has]
      dsimp only
      split
      · exact ⟨caller, ringing, pipeline, by rw [has]; exact undescribed, by rw [has]; exact quiet⟩
      · split
        · exact ⟨caller, ringing, pipeline, by rw [has]; exact undescribed, by rw [has]; exact quiet⟩
        · refine ⟨caller, ringing, ?_, ?_, ?_⟩
          · simp [MediaCall.ask, has]
          · simpa [MediaCall.ask, has] using undescribed
          · simpa [MediaCall.ask, has] using quiet
    · exact ⟨⟨entry, listed, caller, ringing, pipeline, undescribed, quiet⟩, mute⟩

end Calls

/-! ### Two clients -/

/-- No call, or one that rings. -/
structure Calls.Unanswered (h : Calls) (k : Bytes) : Prop where
  call : h.callsByPeer[k]? = none ∨ (h.view k).Rings
  mute : (h.view k).Mute

/-- Two clients, and all the signals that each was sent by the other. -/
structure CallPair where
  client : Side → Calls
  flying : Side → List CallSignal

inductive PairEvent
  /-- Anything but a signal of the other one. -/
  | own (side : Side) (e : CallEvent)
  /-- The worker sends the first signal of its queue. -/
  | sent (side : Side)
  /-- A signal of the other one arrives, in any order and any number of times. -/
  | arrived (side : Side) (index : Nat) (built : Bool)

namespace CallPair

def new : CallPair := ⟨fun _ => .new, fun _ => []⟩

section

variable (P : CallPrimitives) (pub : Side → Bytes) (w : CallPair)

def setClient (side : Side) (h : Calls) : CallPair :=
  { w with client := Function.update w.client side h }

/-- One event; `none` where it cannot happen. -/
def act : PairEvent → Option CallPair
  | .own side e =>
    if e.sender = some (pub side.other) then none
    else ((w.client side).act P e).map (w.setClient side)
  | .sent side =>
    (w.client side).mediaQueue.head?.bind fun s =>
      ((w.client side).act P .drained).map fun h =>
        { w.setClient side h with
          flying := Function.update w.flying side.other
            (w.flying side.other ++ if s.peerPub = pub side.other then [s] else []) }
  | .arrived side index built =>
    (w.flying side)[index]?.bind fun s =>
      ((w.client side).act P (.signal (pub side.other) s.callId s.kind s.payload built)).map (w.setClient side)

/-- The call of a side with the other one. -/
def callOf (side : Side) : Option CallEntry := (w.client side).callsByPeer[pub side.other]?

/-- Who hears of the other one has a call already. -/
def dialled : PairEvent → Bool
  | .arrived side _ _ => (w.callOf pub side).isSome
  | _ => true

/-- No call is taken out of its map. -/
def keeps (w' : CallPair) : Bool :=
  [Side.left, Side.right].all fun side => !(w.callOf pub side).isSome || (w'.callOf pub side).isSome

def CrossingStep (w : CallPair) (e : PairEvent) (w' : CallPair) : Prop :=
  w.act P pub e = some w' ∧ w.dialled pub e = true ∧ w.keeps pub w' = true

/-- The events of a list one after the other, as far as they are such steps. -/
def follow : List PairEvent → CallPair → Option CallPair
  | [], w => some w
  | e :: rest, w => (w.act P pub e).bind fun w' =>
    if w.dialled pub e && w.keeps pub w' then w'.follow rest else none

structure Unanswered : Prop where
  client : ∀ side, (w.client side).Unanswered (pub side.other)
  flying : ∀ side, ∀ s ∈ w.flying side,
    s.kind ≠ SignalKind.answer.code ∧ s.kind ≠ SignalKind.hangup.code

end

variable {P : CallPrimitives} {pub : Side → Bytes} {w w' : CallPair} {side : Side} {h : Calls}

theorem unanswered_new : new.Unanswered pub where
  client side := by
    refine ⟨.inl ExtTreeMap.getElem?_empty, ?_, ?_⟩
    all_goals
      intro _ member
      cases member
  flying side s member := by cases member

theorem Unanswered.setClient (quiet : w.Unanswered pub) (here : h.Unanswered (pub side.other)) :
    (w.setClient side h).Unanswered pub := by
  refine ⟨fun s => ?_, quiet.flying⟩
  by_cases same : s = side
  · subst same
    simpa [CallPair.setClient] using here
  · simpa [CallPair.setClient, same] using quiet.client s

theorem setClient_callOf : (w.setClient side h).callOf pub side = h.callsByPeer[pub side.other]? := by
  simp [callOf, CallPair.setClient]

theorem keeps_callOf {entry : CallEntry} (kept : w.keeps pub w' = true)
    (listed : w.callOf pub side = some entry) : w'.callOf pub side ≠ none := by
  have here := List.all_eq_true.mp kept side (by cases side <;> simp)
  rw [listed] at here
  exact Option.isSome_iff_ne_none.mp (by simpa using here)

/-- An event of a client's own leaves its call unanswered, unless the call is taken out of the map. -/
theorem Unanswered.own {e : CallEvent} (quiet : w.Unanswered pub) (foreign : e.sender ≠ some (pub side.other))
    (acts : (w.client side).act P e = some h)
    (kept : w.keeps pub (w.setClient side h) = true) :
    h.Unanswered (pub side.other) := by
  obtain ⟨idle | rings, mute⟩ := quiet.client side
  · obtain ⟨call, still⟩ := Calls.idle_own idle mute foreign acts
    exact ⟨call, still⟩
  · obtain ⟨entry, listed, -⟩ := id rings
    obtain ⟨ringing, still⟩ | gone := Calls.rings_own rings mute foreign acts
    · exact ⟨.inr ringing, still⟩
    · exact absurd (setClient_callOf.trans gone) (keeps_callOf kept listed)

theorem Unanswered.step {e : PairEvent} (quiet : w.Unanswered pub) (crossing : CrossingStep P pub w e w') :
    w'.Unanswered pub := by
  obtain ⟨acts, heard, kept⟩ := crossing
  cases e with
  | own side e =>
    rw [act] at acts
    split at acts
    · cases acts
    next foreign =>
      obtain ⟨h, done, rfl⟩ := Option.map_eq_some_iff.mp acts
      exact quiet.setClient (quiet.own foreign done kept)
  | sent side =>
    obtain ⟨s, first, acts⟩ := Option.bind_eq_some_iff.mp acts
    obtain ⟨h, done, rfl⟩ := Option.map_eq_some_iff.mp acts
    have here := quiet.own (fun none => by cases none) done kept
    -- what was queued is no answer, so what flies is none
    refine ⟨(quiet.setClient here).client, fun t sent member => ?_⟩
    dsimp only at member
    by_cases same : t = side.other
    · subst same
      rw [Function.update_self] at member
      obtain old | new := List.mem_append.mp member
      · exact quiet.flying _ sent old
      · split at new
        next own =>
          rw [List.mem_singleton.mp new]
          refine (quiet.client side).mute.queue s (List.mem_filter.mpr ⟨List.mem_of_mem_head? first, ?_⟩)
          exact decide_eq_true own
        · cases new
    · rw [Function.update_of_ne same] at member
      exact quiet.flying t sent member
  | arrived side index built =>
    obtain ⟨s, there, acts⟩ := Option.bind_eq_some_iff.mp acts
    obtain ⟨h, done, rfl⟩ := Option.map_eq_some_iff.mp acts
    have ordinary := quiet.flying side s (List.mem_of_getElem? there)
    obtain ⟨idle | rings, mute⟩ := quiet.client side
    · -- only who has a call hears of the other one
      have none : w.callOf pub side = none := idle
      rw [CallPair.dialled, none] at heard
      cases heard
    · obtain ⟨ringing, still⟩ := Calls.rings_signal rings mute ordinary done
      exact quiet.setClient ⟨.inr ringing, still⟩

theorem run_of_follow {events : List PairEvent} (followed : w.follow P pub events = some w') :
    Run (CrossingStep P pub) w events w' := by
  induction events generalizing w with
  | nil =>
    cases followed
    exact .nil _
  | cons e rest ih =>
    obtain ⟨u, acts, followed⟩ := Option.bind_eq_some_iff.mp followed
    split at followed
    next both =>
      obtain ⟨heard, kept⟩ := Bool.and_eq_true_iff.mp both
      exact .cons ⟨acts, heard, kept⟩ (ih followed)
    · cases followed

/-- Two clients that have called each other are never connected: each call goes on ringing until one
of them is taken out of the map. -/
theorem crossed_calls_ring {events : List PairEvent} (quiet : w.Unanswered pub)
    (run : Run (CrossingStep P pub) w events w') :
    w'.Unanswered pub ∧ ∀ side entry, w'.callOf pub side = some entry →
      entry.call.state = .ringing ∧ entry.call.isCaller = true ∧ entry.call.described = false := by
  have still := run.invariant (Unanswered pub) (fun _ _ _ quiet taken => quiet.step taken) quiet
  refine ⟨still, fun side entry listed => ?_⟩
  obtain idle | rings := (still.client side).call
  · cases idle.symm.trans listed
  · obtain ⟨other, there, caller, ringing, -, undescribed, -⟩ := rings
    cases there.symm.trans listed
    exact ⟨ringing, caller, undescribed⟩

/-- Both dial, and the offers cross. -/
def crossing : List PairEvent :=
  [.own .left (.startCall [2] [] [10] [] true true), .own .right (.startCall [1] [] [20] [] true true),
    .own .left (.created [2] .offer [11]), .own .right (.created [1] .offer [21]),
    .sent .left, .sent .right, .arrived .left 0 true, .arrived .right 0 true]

def pubkey : Side → Bytes
  | .left => [1]
  | .right => [2]

def plainPrimitives : CallPrimitives := ⟨fun _ => true, fun _ => none⟩

def crossed : CallPair := (new.follow plainPrimitives pubkey crossing).getD new

theorem crossed_calls_ring_offers :
    new.follow plainPrimitives pubkey crossing = some crossed ∧
      (∀ side, (crossed.callOf pubkey side).isSome ∧ (crossed.flying side).length = 1) ∧
      ∀ side entry, crossed.callOf pubkey side = some entry →
        entry.call.state = .ringing ∧ entry.call.isCaller = true ∧ entry.call.described = false := by
  have followed : new.follow plainPrimitives pubkey crossing = some crossed := rfl
  refine ⟨followed, fun side => ?_, (crossed_calls_ring unanswered_new (run_of_follow followed)).2⟩
  cases side with
  | left => exact ⟨rfl, rfl⟩
  | right => exact ⟨rfl, rfl⟩

end CallPair

end FinBit.Desktop
