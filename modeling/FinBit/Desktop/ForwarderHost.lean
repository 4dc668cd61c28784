import FinBit.Desktop.RoomForwarder
import FinBit.Lib.MapEntries

/-! # The rooms that a client forwards

Media signals of the members, callbacks of the pipeline and the slots of the main thread, in any order.
The members of a room are told which of their tracks carries whom: each new branch adds to what the
subscriber is told with its next offer.
-/

namespace FinBit.Desktop

open FinBit.Lib FinBit.Media Std

/-- `PendingMediaSignal`, as far as a forwarder fills it in. -/
structure PendingMediaSignal where
  peerPub : Bytes
  callId : Bytes
  kind : UInt32
  payload : Bytes
  /-- The identifiers of tracks, with the member that each carries. -/
  trackBindings : List (Bytes × Bytes)

/-- `MediaCall::SignalKind`. -/
inductive SignalKind
  | offer | answer | ice | hangup | sframeKey
  deriving DecidableEq

def SignalKind.code : SignalKind → UInt32
  | offer => 1
  | answer => 2
  | ice => 3
  | hangup => 4
  | sframeKey => 5

/-- What a client keeps of the rooms that it forwards. -/
structure ForwarderHost where
  /-- `room_forwarders`. -/
  forwarders : ExtTreeMap Bytes RoomForwarder
  /-- `room_members`. -/
  members : ExtTreeMap Bytes (List Bytes)
  /-- `forwarder_leaf_callid`. -/
  leafCallId : ExtTreeMap Bytes Bytes
  /-- `pending_track_bindings`. -/
  pendingBindings : ExtTreeMap Bytes (List (Bytes × Bytes))
  /-- All that was pushed to `media_queue`; the worker takes it from the front. -/
  mediaQueue : List PendingMediaSignal
  /-- The signals that wait for the main thread. -/
  posted : List ForwarderSignal
  /-- The promises of `create-offer`, by room and leaf. -/
  creating : List (Bytes × Bytes)

inductive ForwarderEvent
  /-- A roster of the room has been evaluated. -/
  | roster (room : Bytes) (members : List Bytes)
  /-- `ensure_room_forwarder`. -/
  | elected (room : Bytes)
  /-- A media signal of a peer. -/
  | signal (peer callId : Bytes) (kind : UInt32) (webrtc : Option Nat) (parses : Bool)
      (link : RoomForwarder.Linking)
  | padAdded (room leaf : Bytes) (tee : Option Nat) (link : RoomForwarder.Linking)
  | answerCreated (room leaf : Bytes) (answer : Option Bytes)
  | negotiationNeeded (room leaf : Bytes)
  | offerCreated (room leaf : Bytes) (offer : Option Bytes)
  | iceCandidate (room leaf candidate : Bytes)
  /-- The main thread runs the slot of the signal that has waited longest. -/
  | delivered

namespace ForwarderHost

def new : ForwarderHost := ⟨∅, ∅, ∅, ∅, [], [], []⟩

variable (h : ForwarderHost)

/-- `enqueue`. -/
def enqueue (leaf : Bytes) (kind : SignalKind) (payload : Bytes) (bindings : List (Bytes × Bytes)) :
    ForwarderHost :=
  let callId := h.leafCallId[leaf]?.getD (List.replicate 16 0)
  { h with mediaQueue := h.mediaQueue ++ [⟨leaf, callId, kind.code, payload, bindings⟩] }

/-- The slots that `ensure_room_forwarder` connects. -/
def slot : ForwarderSignal → ForwarderHost
  | .answerReady leaf sdp => h.enqueue leaf .answer sdp []
  | .renegotiateOffer leaf sdp =>
    -- the bindings that have accumulated for this subscriber go with the offer
    let bindings := h.pendingBindings[leaf]?.getD []
    { h with pendingBindings := h.pendingBindings.erase leaf }.enqueue leaf .offer sdp bindings
  | .localIce leaf candidate => h.enqueue leaf .ice candidate []
  | .trackBinding sub mid source =>
    let bindings := h.pendingBindings[sub]?.getD []
    { h with pendingBindings := h.pendingBindings.insert sub (bindings ++ [(mid, source)]) }

/-- A call of a forwarder that is there. -/
def inRoom (room : Bytes) (call : RoomForwarder.Call) :
    ForwarderHost × List ForwarderSignal :=
  match h.forwarders[room]? with
  | none => (h, [])
  | some f => ({ h with forwarders := h.forwarders.insert room (f.apply call).1 }, (f.apply call).2)

/-- The first room that is forwarded and has the peer for a member. -/
def roomOf (peer : Bytes) : Option Bytes :=
  h.forwarders.keys.find? fun room => (h.members[room]?.getD []).contains peer

/-- What an event changes, and the signals that it posts. -/
def act : ForwarderEvent → ForwarderHost × List ForwarderSignal
  | .roster room members => ({ h with members := h.members.insert room members }, [])
  | .elected room => ({ h with forwarders := h.forwarders.insertIfNew room .new }, [])
  | .signal peer callId kind webrtc parses link =>
    match h.roomOf peer with
    -- not the signal of a leaf
    | none => (h, [])
    | some room =>
      let h := { h with leafCallId := h.leafCallId.insert peer callId }
      if kind = SignalKind.offer.code then h.inRoom room (.addLeaf peer webrtc parses link)
      else if kind = SignalKind.hangup.code then h.inRoom room (.removeLeaf peer)
      -- answers and candidates are for the `webrtcbin` of the leaf
      else (h, [])
  | .padAdded room leaf tee link => h.inRoom room (.padAdded leaf tee link)
  | .answerCreated room leaf answer => h.inRoom room (.answerCreated leaf answer)
  | .negotiationNeeded room leaf =>
    match h.forwarders[room]? with
    | none => (h, [])
    | some f => if f.wantsOffer leaf then ({ h with creating := (room, leaf) :: h.creating }, []) else (h, [])
  | .offerCreated room leaf offer =>
    if (room, leaf) ∈ h.creating then
      ({ h with creating := h.creating.erase (room, leaf) },
        (offer.map fun sdp => .renegotiateOffer leaf sdp).toList)
    else (h, [])
  | .iceCandidate room leaf candidate => h.inRoom room (.iceCandidate leaf candidate)
  | .delivered =>
    match h.posted with
    | [] => (h, [])
    | signal :: rest => ({ h with posted := rest }.slot signal, [])

def step (e : ForwarderEvent) : ForwarderHost :=
  { (h.act e).1 with posted := (h.act e).1.posted ++ (h.act e).2 }

def run (events : List ForwarderEvent) : ForwarderHost := events.foldl step h

/-- Every element can be made and linked, and a leaf has one stream. -/
def Smooth : ForwarderEvent → Prop
  | .signal _ _ _ _ _ link => ∀ e, (link e).isSome
  | .padAdded room leaf _ link => (∀ e, (link e).isSome) ∧
      ∀ f, h.forwarders[room]? = some f → f.tee leaf = none
  | _ => True

/-- All signals that are posted in a run. -/
def signals : ForwarderHost → List ForwarderEvent → List ForwarderSignal
  | _, [] => []
  | h, e :: rest => (h.act e).2 ++ signals (h.step e) rest

/-! ### What a subscriber is told -/

/-- The tracks that signals name to a subscriber. -/
def bindingsFor (sub : Bytes) : List ForwarderSignal → List (Bytes × Bytes)
  | .trackBinding sub' mid source :: rest =>
    if sub' = sub then (mid, source) :: bindingsFor sub rest else bindingsFor sub rest
  | _ :: rest => bindingsFor sub rest
  | [] => []

/-- The tracks that it has been told with its offers. -/
def told (sub : Bytes) : List (Bytes × Bytes) :=
  (h.mediaQueue.filter fun s => s.peerPub = sub).flatMap PendingMediaSignal.trackBindings

/-- Those that it is still to be told. -/
def untold (sub : Bytes) : List (Bytes × Bytes) :=
  h.pendingBindings[sub]?.getD [] ++ bindingsFor sub h.posted

/-- What leaves, by leaf and kind: the queue, and behind it what the slots will push. -/
def kinds : List ForwarderSignal → List (Bytes × UInt32)
  | .answerReady leaf _ :: rest => (leaf, SignalKind.answer.code) :: kinds rest
  | .renegotiateOffer leaf _ :: rest => (leaf, SignalKind.offer.code) :: kinds rest
  | .localIce leaf _ :: rest => (leaf, SignalKind.ice.code) :: kinds rest
  | .trackBinding _ _ _ :: rest => kinds rest
  | [] => []

def leaving : List (Bytes × UInt32) :=
  h.mediaQueue.map (fun s => (s.peerPub, s.kind)) ++ kinds h.posted

theorem bindingsFor_append {sub : Bytes} {signals others : List ForwarderSignal} :
    bindingsFor sub (signals ++ others) = bindingsFor sub signals ++ bindingsFor sub others := by
  induction signals with
  | nil => rfl
  | cons signal rest ih =>
    cases signal with
    | trackBinding sub' mid source =>
      simp only [List.cons_append, bindingsFor, ih]
      split <;> rfl
    | _ => simpa only [List.cons_append, bindingsFor] using ih

theorem kinds_append {signals others : List ForwarderSignal} :
    kinds (signals ++ others) = kinds signals ++ kinds others := by
  induction signals with
  | nil => rfl
  | cons signal rest ih => cases signal <;> simp only [List.cons_append, kinds, ih]

variable {h}

theorem inRoom_cases (room : Bytes) (call : RoomForwarder.Call) :
    h.inRoom room call = (h, []) ∨ ∃ f, h.forwarders[room]? = some f ∧
      h.inRoom room call =
        ({ h with forwarders := h.forwarders.insert room (f.apply call).1 }, (f.apply call).2) := by
  rw [inRoom]
  cases h.forwarders[room]? with
  | none => exact .inl rfl
  | some f => exact .inr ⟨f, rfl, rfl⟩

/-- What an event does to the forwarders, and what it posts. -/
inductive Acts (h : ForwarderHost) (e : ForwarderEvent) (h' : ForwarderHost)
    (posts : List ForwarderSignal) : Prop
  | aside (same : h'.forwarders = h.forwarders)
      (asked : ∀ leaf sdp, .renegotiateOffer leaf sdp ∈ posts → ∃ room, (room, leaf) ∈ h.creating)
  | elected (room : Bytes) (started : h'.forwarders = h.forwarders.insertIfNew room .new)
      (quiet : posts = [])
  | called (room : Bytes) (f : RoomForwarder) (call : RoomForwarder.Call)
      (found : h.forwarders[room]? = some f) (smooth : h.Smooth e → f.Smooth call)
      (changed : h'.forwarders = h.forwarders.insert room (f.apply call).1)
      (posted : posts = (f.apply call).2)

theorem Acts.inRoom {h' : ForwarderHost} {e : ForwarderEvent} {room : Bytes}
    {call : RoomForwarder.Call} (same : h'.forwarders = h.forwarders)
    (smooth : ∀ f, h.forwarders[room]? = some f → h.Smooth e → f.Smooth call) :
    Acts h e (h'.inRoom room call).1 (h'.inRoom room call).2 := by
  have nothing : ∀ leaf sdp, .renegotiateOffer leaf sdp ∈ ([] : List ForwarderSignal) →
      ∃ room, (room, leaf) ∈ h.creating := fun _ _ posted => absurd posted List.not_mem_nil
  obtain missing | ⟨f, found, made⟩ := h'.inRoom_cases room call
  · rw [missing]
    exact .aside same nothing
  · rw [same] at found
    rw [made, same]
    exact .called room f call found (smooth f found) rfl rfl

theorem acts (h : ForwarderHost) (e : ForwarderEvent) : Acts h e (h.act e).1 (h.act e).2 := by
  have nothing : ∀ leaf sdp, .renegotiateOffer leaf sdp ∈ ([] : List ForwarderSignal) →
      ∃ room, (room, leaf) ∈ h.creating := fun _ _ posted => absurd posted List.not_mem_nil
  cases e with
  | roster room members => exact .aside rfl nothing
  | elected room => exact .elected room rfl rfl
  | signal peer callId kind webrtc parses link =>
    cases first : h.roomOf peer with
    | none =>
      have idle : h.act (.signal peer callId kind webrtc parses link) = (h, []) := by
        simp [act, first]
      rw [idle]
      exact .aside rfl nothing
    | some room =>
      by_cases offer : kind = SignalKind.offer.code
      · have asked : h.act (.signal peer callId kind webrtc parses link) =
            { h with leafCallId := h.leafCallId.insert peer callId }.inRoom room
              (.addLeaf peer webrtc parses link) := by
          simp [act, first, offer]
        rw [asked]
        exact .inRoom rfl fun f _ smooth => smooth
      · by_cases hangup : kind = SignalKind.hangup.code
        · have asked : h.act (.signal peer callId kind webrtc parses link) =
              { h with leafCallId := h.leafCallId.insert peer callId }.inRoom room
                (.removeLeaf peer) := by
            simp [act, first, hangup, SignalKind.code]
          rw [asked]
          exact .inRoom rfl fun f _ _ => trivial
        · have idle : h.act (.signal peer callId kind webrtc parses link) =
              ({ h with leafCallId := h.leafCallId.insert peer callId }, []) := by
            simp [act, first, offer, hangup]
          rw [idle]
          exact .aside rfl nothing
  | padAdded room leaf tee link =>
    exact .inRoom rfl fun f found smooth => ⟨smooth.2 f found, smooth.1⟩
  | answerCreated room leaf answer =>
    exact .inRoom rfl fun f _ _ => trivial
  | negotiationNeeded room leaf =>
    rw [act]
    split
    · exact .aside rfl nothing
    · split
      · exact .aside rfl nothing
      · exact .aside rfl nothing
  | offerCreated room leaf offer =>
    rw [act]
    split
    next promised =>
      cases offer with
      | none => exact .aside rfl nothing
      | some sdp =>
        refine .aside rfl fun leaf' sdp' posted => ⟨room, ?_⟩
        cases List.mem_singleton.mp posted
        exact promised
    · exact .aside rfl nothing
  | iceCandidate room leaf candidate => exact .inRoom rfl fun f _ _ => trivial
  | delivered =>
    rw [act]
    split
    · exact .aside rfl nothing
    next signal rest waiting =>
      refine .aside ?_ nothing
      cases signal <;> rfl

/-! ### The branches of every room -/

theorem enqueue_told (leaf : Bytes) (kind : SignalKind) (payload : Bytes)
    (bindings : List (Bytes × Bytes)) (sub : Bytes) :
    (h.enqueue leaf kind payload bindings).told sub =
      h.told sub ++ if leaf = sub then bindings else [] := by
  simp only [told, enqueue, List.filter_append, List.flatMap_append]
  by_cases here : leaf = sub
  · simp [here]
  · simp [here]

/-- A slot tells the subscriber what it was to be told, or keeps it for later. -/
theorem slot_told (signal : ForwarderSignal) (sub : Bytes) :
    (h.slot signal).told sub ++ (h.slot signal).untold sub =
      h.told sub ++ h.pendingBindings[sub]?.getD [] ++ bindingsFor sub (signal :: h.posted) := by
  cases signal with
  | answerReady leaf sdp =>
    rw [slot, enqueue_told]
    simp [untold, enqueue, bindingsFor]
  | localIce leaf candidate =>
    rw [slot, enqueue_told]
    simp [untold, enqueue, bindingsFor]
  | renegotiateOffer leaf sdp =>
    rw [slot, enqueue_told]
    by_cases here : leaf = sub
    · simp [untold, enqueue, bindingsFor, told, here]
    · have apart : ¬compare leaf sub = .eq := fun equal => here (Std.compare_eq_iff_eq.mp equal)
      simp [untold, enqueue, bindingsFor, told, here, ExtTreeMap.getElem?_erase, apart]
  | trackBinding sub' mid source =>
    by_cases here : sub' = sub
    · simp [slot, untold, bindingsFor, told, here]
    · have apart : ¬compare sub' sub = .eq := fun equal => here (Std.compare_eq_iff_eq.mp equal)
      simp [slot, untold, bindingsFor, told, here, ExtTreeMap.getElem?_insert, apart]

theorem slot_leaving (signal : ForwarderSignal) :
    (h.slot signal).leaving =
      h.mediaQueue.map (fun s => (s.peerPub, s.kind)) ++ kinds (signal :: h.posted) := by
  cases signal <;> simp [slot, leaving, enqueue, kinds]

/-- An event that is not a slot leaves alone what has been pushed, posted and kept for later. -/
theorem act_queues (e : ForwarderEvent) :
    (e = .delivered ∧ ∃ signal rest, h.posted = signal :: rest ∧
      (h.act e).1 = { h with posted := rest }.slot signal ∧ (h.act e).2 = []) ∨
    (h.act e).1.mediaQueue = h.mediaQueue ∧ (h.act e).1.posted = h.posted ∧
      (h.act e).1.pendingBindings = h.pendingBindings := by
  have called : ∀ (h' : ForwarderHost) room call, (h'.inRoom room call).1.mediaQueue = h'.mediaQueue ∧
      (h'.inRoom room call).1.posted = h'.posted ∧
      (h'.inRoom room call).1.pendingBindings = h'.pendingBindings := by
    intro h' room call
    obtain missing | ⟨f, -, made⟩ := h'.inRoom_cases room call
    · rw [missing]
      exact ⟨rfl, rfl, rfl⟩
    · rw [made]
      exact ⟨rfl, rfl, rfl⟩
  cases e with
  | signal peer callId kind webrtc parses link =>
    refine .inr ?_
    rw [act]
    split
    · exact ⟨rfl, rfl, rfl⟩
    · dsimp only
      split
      · exact called _ _ _
      · split
        · exact called _ _ _
        · exact ⟨rfl, rfl, rfl⟩
  | padAdded room leaf tee link => exact .inr (called _ _ _)
  | answerCreated room leaf answer => exact .inr (called _ _ _)
  | iceCandidate room leaf candidate => exact .inr (called _ _ _)
  | negotiationNeeded room leaf =>
    refine .inr ?_
    rw [act]
    split
    · exact ⟨rfl, rfl, rfl⟩
    · split
      · exact ⟨rfl, rfl, rfl⟩
      · exact ⟨rfl, rfl, rfl⟩
  | offerCreated room leaf offer =>
    refine .inr ?_
    rw [act]
    split
    · exact ⟨rfl, rfl, rfl⟩
    · exact ⟨rfl, rfl, rfl⟩
  | delivered =>
    cases waiting : h.posted with
    | nil =>
      have idle : h.act .delivered = (h, []) := by rw [act, waiting]
      rw [idle]
      exact .inr ⟨rfl, waiting, rfl⟩
    | cons signal rest =>
      have served : h.act .delivered = ({ h with posted := rest }.slot signal, []) := by
        rw [act, waiting]
      rw [served]
      exact .inl ⟨rfl, signal, rest, rfl, rfl, rfl⟩
  | roster room members => exact .inr ⟨rfl, rfl, rfl⟩
  | elected room => exact .inr ⟨rfl, rfl, rfl⟩

theorem step_told (e : ForwarderEvent) (sub : Bytes) :
    (h.step e).told sub ++ (h.step e).untold sub =
      h.told sub ++ h.untold sub ++ bindingsFor sub (h.act e).2 := by
  obtain ⟨-, signal, rest, waiting, slotted, quiet⟩ | ⟨queue, posted, pending⟩ := h.act_queues e
  · have same : h.step e = { h with posted := rest }.slot signal := by
      rw [step, slotted, quiet, List.append_nil]
    have nothing : bindingsFor sub [] = [] := rfl
    rw [same, slot_told, quiet, nothing, List.append_nil, untold, waiting]
    exact List.append_assoc ..
  · have told' : (h.step e).told sub = h.told sub := by
      rw [told, told]
      exact congrArg (fun q : List PendingMediaSignal =>
        (q.filter fun s => s.peerPub = sub).flatMap PendingMediaSignal.trackBindings) queue
    have untold' : (h.step e).untold sub = h.untold sub ++ bindingsFor sub (h.act e).2 := by
      rw [untold, step, bindingsFor_append, posted, pending, ← List.append_assoc, ← untold]
    rw [told', untold', List.append_assoc]

theorem step_leaving (e : ForwarderEvent) :
    (h.step e).leaving = h.leaving ++ kinds (h.act e).2 := by
  obtain ⟨-, signal, rest, waiting, slotted, quiet⟩ | ⟨queue, posted, -⟩ := h.act_queues e
  · have same : h.step e = { h with posted := rest }.slot signal := by
      rw [step, slotted, quiet, List.append_nil]
    rw [same, slot_leaving, quiet, kinds, List.append_nil, leaving, waiting]
  · rw [leaving, step, kinds_append, posted, queue, ← List.append_assoc, ← leaving]

theorem run_told (events : List ForwarderEvent) (sub : Bytes) :
    (h.run events).told sub ++ (h.run events).untold sub =
      h.told sub ++ h.untold sub ++ bindingsFor sub (h.signals events) := by
  induction events generalizing h with
  | nil => rw [signals, bindingsFor, List.append_nil]; rfl
  | cons e rest ih =>
    calc ((h.step e).run rest).told sub ++ ((h.step e).run rest).untold sub
        = (h.step e).told sub ++ (h.step e).untold sub ++ bindingsFor sub ((h.step e).signals rest) := ih
      _ = h.told sub ++ h.untold sub ++ bindingsFor sub (h.signals (e :: rest)) := by
        rw [step_told, signals, bindingsFor_append, ← List.append_assoc]

/-- Every branch there is has been announced to who subscribes. -/
def Announced (h : ForwarderHost) : Prop :=
  ∀ (room : Bytes) (f : RoomForwarder) (e : ForwardEdge) (b : Branch), h.forwarders[room]? = some f →
    f.branches[e]? = some b → (b.payName, e.src) ∈ h.told e.sub ++ h.untold e.sub

theorem mem_bindingsFor {sub mid source : Bytes} {signals : List ForwarderSignal}
    (member : .trackBinding sub mid source ∈ signals) :
    (mid, source) ∈ bindingsFor sub signals := by
  induction signals with
  | nil => cases member
  | cons signal rest ih =>
    obtain rfl | later := List.mem_cons.mp member
    · rw [bindingsFor, if_pos rfl]
      exact List.mem_cons_self
    · cases signal with
      | trackBinding sub' mid' source' =>
        rw [bindingsFor]
        split
        · exact List.mem_cons_of_mem _ (ih later)
        · exact ih later
      | _ => exact ih later

theorem Announced.step (announced : h.Announced) (e : ForwarderEvent) : (h.step e).Announced := by
  intro room f edge b found present
  rw [step_told, List.mem_append]
  change (h.act e).1.forwarders[room]? = some f at found
  obtain ⟨same, -⟩ | ⟨room', started, -⟩ | ⟨room', f', call, known, -, changed, posted⟩ := h.acts e
  · rw [same] at found
    exact .inl (announced room f edge b found present)
  · rw [started, ExtTreeMap.getElem?_insertIfNew] at found
    split at found
    · cases found
      simp [RoomForwarder.new] at present
    · exact .inl (announced room f edge b found present)
  · rw [changed, ExtTreeMap.getElem?_insert] at found
    split at found
    · cases found
      obtain old | new := RoomForwarder.apply_announced present
      · exact .inl (announced room' f' edge b known old)
      · rw [posted]
        exact .inr (mem_bindingsFor new)
    · exact .inl (announced room f edge b found present)

theorem Announced.run (announced : h.Announced) (events : List ForwarderEvent) :
    (h.run events).Announced := by
  induction events generalizing h with
  | nil => exact announced
  | cons e rest ih => exact ih (announced.step e)

/-! ### The leaf's own offer comes first -/

/-- No offer goes to a leaf that has not been sent an answer before. -/
def AnswerFirst (leaving : List (Bytes × UInt32)) : Prop :=
  ∀ before leaf after, leaving = before ++ (leaf, SignalKind.offer.code) :: after →
    (leaf, SignalKind.answer.code) ∈ before

/-- Who has been answered, as far as the state tells. -/
structure Answered (h : ForwarderHost) : Prop where
  first : AnswerFirst h.leaving
  settled : ∀ (room key : Bytes) (f : RoomForwarder) (leaf : Leaf), h.forwarders[room]? = some f →
    f.leaves[key]? = some leaf → leaf.initialDone → (key, SignalKind.answer.code) ∈ h.leaving
  asked : ∀ room key, (room, key) ∈ h.creating → (key, SignalKind.answer.code) ∈ h.leaving

theorem AnswerFirst.append {leaving more : List (Bytes × UInt32)} (first : AnswerFirst leaving)
    (answered : ∀ leaf, (leaf, SignalKind.offer.code) ∈ more →
      (leaf, SignalKind.answer.code) ∈ leaving) : AnswerFirst (leaving ++ more) := by
  intro before leaf after whole
  obtain ⟨rest, rfl, new⟩ | ⟨rest, old, new⟩ := List.append_eq_append_iff.mp whole
  · refine List.mem_append_left _ (answered leaf ?_)
    rw [new]
    exact List.mem_append_right _ List.mem_cons_self
  · cases rest with
    | nil =>
      rw [List.append_nil] at old
      rw [← old]
      refine answered leaf ?_
      rw [List.nil_append] at new
      rw [← new]
      exact List.mem_cons_self
    | cons x rest =>
      obtain ⟨rfl, -⟩ := List.cons.inj new
      exact first before leaf rest old

theorem offer_mem_kinds {leaf : Bytes} {signals : List ForwarderSignal}
    (member : (leaf, SignalKind.offer.code) ∈ kinds signals) :
    ∃ sdp, .renegotiateOffer leaf sdp ∈ signals := by
  induction signals with
  | nil => cases member
  | cons signal rest ih =>
    have later : (leaf, SignalKind.offer.code) ∈ kinds rest →
        ∃ sdp, .renegotiateOffer leaf sdp ∈ signal :: rest := by
      intro behind
      obtain ⟨sdp, there⟩ := ih behind
      exact ⟨sdp, List.mem_cons_of_mem _ there⟩
    cases signal with
    | renegotiateOffer leaf' sdp =>
      obtain here | behind := List.mem_cons.mp member
      · cases here
        exact ⟨sdp, List.mem_cons_self⟩
      · exact later behind
    | answerReady leaf' sdp => exact later ((List.mem_cons.mp member).resolve_left (by simp [SignalKind.code]))
    | localIce leaf' candidate =>
      exact later ((List.mem_cons.mp member).resolve_left (by simp [SignalKind.code]))
    | trackBinding sub mid source => exact later member

theorem answer_mem_kinds {leaf sdp : Bytes} {signals : List ForwarderSignal}
    (member : .answerReady leaf sdp ∈ signals) : (leaf, SignalKind.answer.code) ∈ kinds signals := by
  induction signals with
  | nil => cases member
  | cons signal rest ih =>
    obtain rfl | behind := List.mem_cons.mp member
    · exact List.mem_cons_self
    · cases signal with
      | trackBinding sub mid source => exact ih behind
      | _ => exact List.mem_cons_of_mem _ (ih behind)

/-- A promise of an offer was there before, or the leaf has had its initial round. -/
theorem act_creating {e : ForwarderEvent} {room key : Bytes}
    (member : (room, key) ∈ (h.act e).1.creating) :
    (room, key) ∈ h.creating ∨ ∃ f, h.forwarders[room]? = some f ∧ f.wantsOffer key = true := by
  have called : ∀ (h' : ForwarderHost) room call, (h'.inRoom room call).1.creating = h'.creating := by
    intro h' room call
    obtain missing | ⟨f, -, made⟩ := h'.inRoom_cases room call
    · rw [missing]
    · rw [made]
  cases e with
  | negotiationNeeded room' leaf =>
    rw [act] at member
    split at member
    · exact .inl member
    next f found =>
      split at member
      next wanted =>
        obtain here | old := List.mem_cons.mp member
        · cases here
          exact .inr ⟨f, found, wanted⟩
        · exact .inl old
      · exact .inl member
  | offerCreated room' leaf offer =>
    rw [act] at member
    split at member
    · exact .inl (List.mem_of_mem_erase member)
    · exact .inl member
  | signal peer callId kind webrtc parses link =>
    refine .inl ?_
    rw [act] at member
    split at member
    · exact member
    · dsimp only at member
      split at member
      · rwa [called] at member
      · split at member
        · rwa [called] at member
        · exact member
  | padAdded room' leaf tee link =>
    rw [act, called] at member
    exact .inl member
  | answerCreated room' leaf answer =>
    rw [act, called] at member
    exact .inl member
  | iceCandidate room' leaf candidate =>
    rw [act, called] at member
    exact .inl member
  | delivered =>
    refine .inl ?_
    rw [act] at member
    split at member
    · exact member
    next signal rest waiting => cases signal <;> exact member
  | roster room' members => exact .inl member
  | elected room' => exact .inl member

theorem Answered.step (answered : h.Answered) (e : ForwarderEvent) : (h.step e).Answered := by
  refine ⟨?_, fun room key f leaf found present done => ?_, fun room key member => ?_⟩
  · rw [step_leaving]
    refine answered.first.append fun leaf offered => ?_
    obtain ⟨sdp, posted⟩ := offer_mem_kinds offered
    obtain ⟨-, asked⟩ | ⟨_, -, quiet⟩ | ⟨_, f, call, -, -, -, same⟩ := h.acts e
    · obtain ⟨room, promised⟩ := asked leaf sdp posted
      exact answered.asked room leaf promised
    · rw [quiet] at posted
      cases posted
    · rw [same] at posted
      exact absurd posted RoomForwarder.apply_no_offer
  · rw [step_leaving, List.mem_append]
    change (h.act e).1.forwarders[room]? = some f at found
    obtain ⟨same, -⟩ | ⟨room', started, -⟩ | ⟨room', f', call, known, -, changed, posted⟩ := h.acts e
    · rw [same] at found
      exact .inl (answered.settled room key f leaf found present done)
    · rw [started, ExtTreeMap.getElem?_insertIfNew] at found
      split at found
      · cases found
        simp [RoomForwarder.new] at present
      · exact .inl (answered.settled room key f leaf found present done)
    · rw [changed, ExtTreeMap.getElem?_insert] at found
      split at found
      · cases found
        obtain ⟨leaf', before, done'⟩ | ⟨sdp, now⟩ := RoomForwarder.apply_done present done
        · exact .inl (answered.settled room' key f' leaf' known before done')
        · rw [posted]
          exact .inr (answer_mem_kinds now)
      · exact .inl (answered.settled room key f leaf found present done)
  · rw [step_leaving]
    refine List.mem_append_left _ ?_
    obtain old | ⟨f, found, wanted⟩ := act_creating member
    · exact answered.asked room key old
    · rw [RoomForwarder.wantsOffer] at wanted
      split at wanted
      next leaf present => exact answered.settled room key f leaf found present wanted
      · cases wanted

theorem Answered.run (answered : h.Answered) (events : List ForwarderEvent) :
    (h.run events).Answered := by
  induction events generalizing h with
  | nil => exact answered
  | cons e rest ih => exact ih (answered.step e)

/-- In any run, the tracks that a subscriber has been told, with those it is still to be told, are the
ones that have been named to it, once each and in the order of the branches; each branch there is is
among them. And no leaf gets an offer before the answer to its own. -/
theorem tracks_told_in_order (events : List ForwarderEvent) :
    (∀ sub, (new.run events).told sub ++ (new.run events).untold sub =
      bindingsFor sub (new.signals events)) ∧
    (∀ (room : Bytes) (f : RoomForwarder) (e : ForwardEdge) (b : Branch), (new.run events).forwarders[room]? = some f →
      f.branches[e]? = some b → (b.payName, e.src) ∈ bindingsFor e.sub (new.signals events)) ∧
    ∀ before s after, (new.run events).mediaQueue = before ++ s :: after →
      s.kind = SignalKind.offer.code →
        ∃ a ∈ before, a.peerPub = s.peerPub ∧ a.kind = SignalKind.answer.code := by
  have all : ∀ sub, (new.run events).told sub ++ (new.run events).untold sub =
      bindingsFor sub (new.signals events) := by
    intro sub
    rw [run_told]
    simp [told, untold, new, bindingsFor]
  refine ⟨all, fun room f e b found present => ?_, fun before s after queue offer => ?_⟩
  · have start : new.Announced := by
      intro room f e b found
      simp [new] at found
    rw [← all]
    exact start.run events room f e b found present
  · have start : new.Answered := by
      refine ⟨fun before leaf after none => ?_, fun room key f leaf found => ?_, ?_⟩
      · simp [new, leaving, kinds] at none
      · simp [new] at found
      · exact fun room key member => absurd member List.not_mem_nil
    have whole : (new.run events).leaving = before.map (fun s => (s.peerPub, s.kind)) ++
        (s.peerPub, SignalKind.offer.code) ::
          (after.map (fun s => (s.peerPub, s.kind)) ++ kinds (new.run events).posted) := by
      rw [leaving, queue, ← offer]
      simp
    obtain ⟨a, member, same⟩ := List.mem_map.mp ((start.run events).first _ _ _ whole)
    exact ⟨a, member, (Prod.mk.inj same).1, (Prod.mk.inj same).2⟩

end ForwarderHost

end FinBit.Desktop
