import FinBit.Desktop.RoomBeacons
import FinBit.Lib.Runs

/-! # Rosters of two transports

The relay server sends the roster of a voice room, and the members announce themselves on the gossip
topic of the room. Of the announcements a client makes a roster of its own, and both kinds go
through `apply_room_roster`, which dials who is new to it and hangs up who is missing.

The rosters themselves are in `Rooms`. Here is what becomes of the calls.
-/

namespace FinBit.Desktop

open FinBit.Lib Std

namespace Rooms

variable (me : Bytes) (hasSession : Bytes → Bool) (exported : Option (UInt32 × Bytes))
  (rooms : Rooms) (rr : RoomRoster)

/-! ### Rosters and the mesh -/

@[simp]
theorem meshBootstrapOrDial_meshPeers (peer : Bytes) :
    (meshBootstrapOrDial hasSession rooms peer).meshPeers = rooms.meshPeers := by
  unfold meshBootstrapOrDial
  split <;> rfl

theorem dials_meshPeers (peers : List Bytes) :
    (peers.foldl (meshBootstrapOrDial hasSession) rooms).meshPeers = rooms.meshPeers := by
  induction peers generalizing rooms with
  | nil => rfl
  | cons peer rest ih => rw [List.foldl_cons, ih, meshBootstrapOrDial_meshPeers]

theorem mem_meshed {p : Bytes} (peers : List Bytes) (set : ExtTreeSet Bytes) :
    p ∈ peers.foldl (·.insert ·) set ↔ p ∈ peers ∨ p ∈ set := by
  induction peers generalizing set with
  | nil => simp
  | cons peer rest ih =>
    rw [List.foldl_cons, ih, ExtTreeSet.mem_insert, Std.compare_eq_iff_eq, List.mem_cons]
    grind

/-- After a roster the mesh is the roster. -/
theorem meshDial_meshPeers (roomId : Bytes) (roster : ExtTreeSet Bytes) :
    (meshDial me hasSession rooms roomId roster).meshPeers =
      Function.update rooms.meshPeers roomId roster := by
  unfold meshDial
  dsimp only
  rw [dials_meshPeers]
  refine congrArg (Function.update rooms.meshPeers roomId) (ExtTreeSet.ext_mem fun p => ?_)
  rw [mem_meshed]
  simp only [List.mem_filter, ExtTreeSet.mem_toList, Bool.not_eq_true', ExtTreeSet.mem_filter,
    ExtTreeSet.contains_iff_mem]
  grind

theorem forwarderPlan_meshPeers (roomId fwd : Bytes) :
    (forwarderPlan me hasSession rooms roomId fwd).meshPeers =
      if fwd = me then rooms.meshPeers
      else Function.update rooms.meshPeers roomId ((rooms.meshPeers roomId).insert fwd) := by
  unfold forwarderPlan
  split
  · rfl
  · dsimp only
    split
    · rfl
    · rw [meshBootstrapOrDial_meshPeers]

/-- What `apply_room_roster` notes down before it dials: the members, and the secret of an MLS
channel. -/
def noted : Rooms :=
  let rooms : Rooms := { rooms with
    members := Function.update rooms.members rr.roomId (rr.peerKeys me) }
  match exported with
  | none => rooms
  | some secret => { rooms with secrets := Function.update rooms.secrets rr.roomId secret }

@[simp]
theorem noted_meshPeers : (noted me exported rooms rr).meshPeers = rooms.meshPeers := by
  cases exported <;> rfl

@[simp]
theorem noted_pendingMeshDials :
    (noted me exported rooms rr).pendingMeshDials = rooms.pendingMeshDials := by
  cases exported <;> rfl

theorem applyRoomRoster_eq : applyRoomRoster me hasSession exported rooms rr =
    if rr.roomId.length ≠ 32 then rooms
    else if rooms.forwarderDial = true ∧ rr.forwarder ≠ [] then
      forwarderPlan me hasSession (noted me exported rooms rr) rr.roomId rr.forwarder
    else meshDial me hasSession (noted me exported rooms rr) rr.roomId (rr.peerKeys me) := by
  cases exported <;> rfl

/-- The mesh after `apply_room_roster`. -/
theorem applyRoomRoster_meshPeers :
    (applyRoomRoster me hasSession exported rooms rr).meshPeers =
      if rr.roomId.length ≠ 32 then rooms.meshPeers
      else if rooms.forwarderDial = true ∧ rr.forwarder ≠ [] then
        if rr.forwarder = me then rooms.meshPeers
        else Function.update rooms.meshPeers rr.roomId
          ((rooms.meshPeers rr.roomId).insert rr.forwarder)
      else Function.update rooms.meshPeers rr.roomId (rr.peerKeys me) := by
  rw [applyRoomRoster_eq]
  split
  · rfl
  split
  · rw [forwarderPlan_meshPeers, noted_meshPeers]
  · rw [meshDial_meshPeers, noted_meshPeers]

/-- The dials that wait afterwards depend on those that waited before, and on nothing else. -/
theorem dials_pendingMeshDials (peers : List Bytes) {rooms rooms' : Rooms}
    (same : rooms.pendingMeshDials = rooms'.pendingMeshDials) :
    (peers.foldl (meshBootstrapOrDial hasSession) rooms).pendingMeshDials =
      (peers.foldl (meshBootstrapOrDial hasSession) rooms').pendingMeshDials := by
  induction peers generalizing rooms rooms' with
  | nil => exact same
  | cons peer rest ih =>
    refine ih ?_
    unfold meshBootstrapOrDial
    split
    · exact same
    · exact congrArg (·.insert peer) same

/-- Dialling leaves everything else as it is. -/
structure Dialled (rooms rooms' : Rooms) : Prop where
  gossipKnown : rooms'.gossipKnown = rooms.gossipKnown
  activeVoiceRooms : rooms'.activeVoiceRooms = rooms.activeVoiceRooms
  forwarderDial : rooms'.forwarderDial = rooms.forwarderDial

theorem meshBootstrapOrDial_dialled (peer : Bytes) :
    Dialled rooms (meshBootstrapOrDial hasSession rooms peer) := by
  unfold meshBootstrapOrDial
  split <;> exact ⟨rfl, rfl, rfl⟩

theorem dials_dialled (peers : List Bytes) :
    Dialled rooms (peers.foldl (meshBootstrapOrDial hasSession) rooms) := by
  induction peers generalizing rooms with
  | nil => exact ⟨rfl, rfl, rfl⟩
  | cons peer rest ih =>
    have first := meshBootstrapOrDial_dialled hasSession rooms peer
    have others := ih (meshBootstrapOrDial hasSession rooms peer)
    exact ⟨others.gossipKnown.trans first.gossipKnown,
      others.activeVoiceRooms.trans first.activeVoiceRooms,
      others.forwarderDial.trans first.forwarderDial⟩

theorem applyRoomRoster_dialled :
    Dialled rooms (applyRoomRoster me hasSession exported rooms rr) := by
  have noted : Dialled rooms (noted me exported rooms rr) := by
    cases exported <;> exact ⟨rfl, rfl, rfl⟩
  rw [applyRoomRoster_eq]
  split
  · exact ⟨rfl, rfl, rfl⟩
  split
  · unfold forwarderPlan
    split
    · exact noted
    dsimp only
    split
    · exact ⟨noted.gossipKnown, noted.activeVoiceRooms, noted.forwarderDial⟩
    · have last := fun rooms => meshBootstrapOrDial_dialled hasSession rooms rr.forwarder
      exact ⟨(last _).gossipKnown.trans noted.gossipKnown,
        (last _).activeVoiceRooms.trans noted.activeVoiceRooms,
        (last _).forwarderDial.trans noted.forwarderDial⟩
  · have last := dials_dialled hasSession
    exact ⟨(last _ _).gossipKnown.trans noted.gossipKnown,
      (last _ _).activeVoiceRooms.trans noted.activeVoiceRooms,
      (last _ _).forwarderDial.trans noted.forwarderDial⟩

end Rooms

/-! ### Calls -/

/-- What one application of a roster does to calls: the peers it dials, if need be over a bootstrap
of the session first, and the peers it hangs up. -/
structure CallActions where
  dialled : List Bytes
  hungUp : List Bytes

structure VoiceClient where
  rooms : Rooms
  /-- `calls_by_peer`, with the room of each call, which is empty in a call of two. -/
  calls : Bytes → Option Bytes

namespace VoiceClient

section

variable (me : Bytes) (c : VoiceClient) (rr : RoomRoster)

/-- The calls of a mesh. -/
def meshActions (roomId : Bytes) (roster : ExtTreeSet Bytes) : CallActions :=
  let meshed := c.rooms.meshPeers roomId
  let toDrop := meshed.toList.filter fun peer => !roster.contains peer
  let fresh := roster.toList.filter fun peer => !meshed.contains peer
  { dialled := fresh.filter fun peer => peer < me
    hungUp := toDrop.filter fun peer => (c.calls peer).isSome }

/-- The one call of a leaf. -/
def forwarderActions (roomId fwd : Bytes) : CallActions :=
  if fwd = me ∨ (c.rooms.meshPeers roomId).contains fwd then ⟨[], []⟩ else ⟨[fwd], []⟩

/-- The calls that `apply_room_roster` makes and ends. -/
def rosterActions : CallActions :=
  if rr.roomId.length ≠ 32 then ⟨[], []⟩
  else if c.rooms.forwarderDial = true ∧ rr.forwarder ≠ [] then
    c.forwarderActions me rr.roomId rr.forwarder
  else c.meshActions me rr.roomId (rr.peerKeys me)

variable (hasSession : Bytes → Bool) (exported : Option (UInt32 × Bytes))

def applyRoomRoster : VoiceClient × CallActions :=
  ({ c with rooms := c.rooms.applyRoomRoster me hasSession exported rr }, c.rosterActions me rr)

/-- A beacon is merged and its roster applied. -/
def onBeacon : VoiceClient × CallActions :=
  if rr.roomId.length ≠ 32 then (c, ⟨[], []⟩)
  else
    let (rooms, roster) := c.rooms.mergeBeacon me rr
    { c with rooms := rooms }.applyRoomRoster me roster hasSession exported

/-- The actions are what the bookkeeping of the rooms records. -/
theorem applyRoomRoster_pendingMeshDials :
    (c.rooms.applyRoomRoster me hasSession exported rr).pendingMeshDials =
      ((c.rosterActions me rr).dialled.foldl (Rooms.meshBootstrapOrDial hasSession)
        c.rooms).pendingMeshDials := by
  rw [Rooms.applyRoomRoster_eq, rosterActions]
  split
  · rfl
  split
  · unfold Rooms.forwarderPlan forwarderActions
    by_cases mine : rr.forwarder = me
    · simp [mine]
    simp only [mine, if_false, false_or, Rooms.noted_meshPeers]
    split
    · simp
    · exact Rooms.dials_pendingMeshDials hasSession [rr.forwarder] (Rooms.noted_pendingMeshDials ..)
  · unfold Rooms.meshDial meshActions
    rw [Rooms.noted_meshPeers]
    have fresh : (rr.peerKeys me).toList.filter (fun peer =>
        !((c.rooms.meshPeers rr.roomId).filter ((rr.peerKeys me).contains ·)).contains peer) =
        (rr.peerKeys me).toList.filter fun peer => !(c.rooms.meshPeers rr.roomId).contains peer := by
      refine List.filter_congr fun peer listed => ?_
      rw [ExtTreeSet.mem_toList] at listed
      refine congrArg not (Bool.eq_iff_iff.mpr ?_)
      rw [ExtTreeSet.contains_iff_mem, ExtTreeSet.contains_iff_mem, ExtTreeSet.mem_filter]
      simp [ExtTreeSet.contains_iff_mem, listed]
    dsimp only
    rw [fresh]
    exact Rooms.dials_pendingMeshDials hasSession _ (Rooms.noted_pendingMeshDials ..)

/-! ### A roster that comes again -/

theorem rosterActions_again :
    (c.applyRoomRoster me rr hasSession exported).1.rosterActions me rr = ⟨[], []⟩ := by
  have dial := (c.rooms.applyRoomRoster_dialled me hasSession exported rr).forwarderDial
  have mesh := c.rooms.applyRoomRoster_meshPeers me hasSession exported rr
  unfold rosterActions
  split
  · rfl
  next size =>
  rw [if_neg size] at mesh
  split
  next route =>
    -- the forwarder has been dialled, or it is the client itself
    rw [if_pos ⟨dial ▸ route.1, route.2⟩] at mesh
    refine if_pos ?_
    by_cases mine : rr.forwarder = me
    · exact .inl mine
    · right
      rw [if_neg mine] at mesh
      simp [applyRoomRoster, mesh]
  next route =>
    -- the mesh is the roster
    rw [if_neg fun r => route ⟨dial.trans r.1, r.2⟩] at mesh
    simp only [meshActions, applyRoomRoster, mesh, Function.update_self]
    have none : (rr.peerKeys me).toList.filter (fun peer => !(rr.peerKeys me).contains peer) = [] := by
      simp [List.filter_eq_nil_iff, ExtTreeSet.contains_iff_mem]
    rw [none]
    rfl

theorem onBeacon_again (hasSession' : Bytes → Bool) (exported' : Option (UInt32 × Bytes)) :
    ((c.onBeacon me rr hasSession exported).1.onBeacon me rr hasSession' exported').2 =
      ⟨[], []⟩ := by
  unfold onBeacon
  split
  · rfl
  · -- the second roster is the first, and the rest of the merge is nothing to the calls
    obtain ⟨known, active, -⟩ := (c.rooms.mergeBeacon me rr).1.applyRoomRoster_dialled me hasSession
      exported (c.rooms.mergeBeacon me rr).2
    have roster := c.rooms.mergeBeacon_again me rr known active
    have again := VoiceClient.rosterActions_again me { c with rooms := (c.rooms.mergeBeacon me rr).1 }
      (c.rooms.mergeBeacon me rr).2 hasSession exported
    simp only [applyRoomRoster, roster]
    exact again

end

/-! ### Whom a beacon hangs up -/

/-- A beacon hangs up the peers of the mesh that are still not known after it. -/
theorem mem_hungUp_onBeacon {me : Bytes} {c : VoiceClient} {rr : RoomRoster}
    {hasSession : Bytes → Bool} {exported : Option (UInt32 × Bytes)} {p : Bytes}
    (room : rr.roomId.length = 32) (key : p.length = 32) (other : p ≠ me) :
    p ∈ (c.onBeacon me rr hasSession exported).2.hungUp ↔
      p ∈ c.rooms.meshPeers rr.roomId ∧ (c.calls p).isSome ∧
        p ∉ (c.rooms.mergeBeacon me rr).1.gossipKnown rr.roomId := by
  have size : ¬(c.rooms.mergeBeacon me rr).2.roomId.length ≠ 32 := not_not_intro room
  have mesh : ¬((c.rooms.mergeBeacon me rr).1.forwarderDial = true ∧
      (c.rooms.mergeBeacon me rr).2.forwarder ≠ []) :=
    fun r => r.2 (c.rooms.forwarder_mergeBeacon me rr)
  rw [onBeacon, if_neg (not_not_intro room)]
  simp only [applyRoomRoster, rosterActions, if_neg size, if_neg mesh, meshActions, List.mem_filter,
    ExtTreeSet.mem_toList, Bool.not_eq_true', ← Bool.not_eq_true, ExtTreeSet.contains_iff_mem,
    Rooms.mem_peerKeys_mergeBeacon, key, other, ne_eq, not_false_eq_true, true_and]
  exact ⟨fun ⟨⟨meshed, missing⟩, call⟩ => ⟨meshed, call, missing⟩,
    fun ⟨meshed, call, missing⟩ => ⟨⟨meshed, missing⟩, call⟩⟩

/-! ### Runs -/

/-- What happens to the rooms and the calls of a client. -/
inductive VoiceEvent
  /-- A `RoomRoster` frame of the relay server. -/
  | roster (rr : RoomRoster)
  | beacon (rr : RoomRoster)
  | joined (roomId : Bytes) (video : Bool)
  /-- `leave_channel_call`, then the worker's part of it. -/
  | hungUpRoom (roomId : Bytes)
  | left (roomId : Bytes)
  /-- A call is there, that was dialled or offered. -/
  | called (peer roomId : Bytes)
  | closed (peer : Bytes)
  | disconnected
  | roomKey (roomId : Bytes) (epoch : UInt32) (secret : Bytes)
  | usernameResp (found : Bool) (pubkey username : Bytes)
  | fetched (username : Bytes)

/-- A client that is in no room. -/
def new (forwarderDial : Bool) : VoiceClient :=
  ⟨{ noRooms with forwarderDial := forwarderDial }, fun _ => none⟩

/-- The end of a call takes the peer out of every mesh. -/
def closed (c : VoiceClient) (peer : Bytes) : VoiceClient where
  rooms := { c.rooms with meshPeers := fun roomId => (c.rooms.meshPeers roomId).erase peer }
  calls := Function.update c.calls peer none

/-- The worker's part of leaving a room. -/
def left (c : VoiceClient) (roomId : Bytes) : VoiceClient :=
  { c with rooms := { c.rooms with
      activeVoiceRooms := Function.update c.rooms.activeVoiceRooms roomId none
      gossipKnown := Function.update c.rooms.gossipKnown roomId ∅ } }

inductive VoiceStep (me : Bytes) : VoiceClient → VoiceEvent → VoiceClient → Prop
  | roster (c : VoiceClient) (rr : RoomRoster) (hasSession : Bytes → Bool)
      (exported : Option (UInt32 × Bytes)) :
      VoiceStep me c (.roster rr) (c.applyRoomRoster me rr hasSession exported).1
  | beacon (c : VoiceClient) (rr : RoomRoster) (hasSession : Bytes → Bool)
      (exported : Option (UInt32 × Bytes)) :
      VoiceStep me c (.beacon rr) (c.onBeacon me rr hasSession exported).1
  | joined (c : VoiceClient) (roomId : Bytes) (video : Bool) :
      VoiceStep me c (.joined roomId video) { c with rooms := { c.rooms with
        activeVoiceRooms := Function.update c.rooms.activeVoiceRooms roomId (some video) } }
  | hungUpRoom (c : VoiceClient) (roomId : Bytes) :
      VoiceStep me c (.hungUpRoom roomId) { c with rooms := { c.rooms with
        meshPeers := Function.update c.rooms.meshPeers roomId ∅ } }
  | left (c : VoiceClient) (roomId : Bytes) : VoiceStep me c (.left roomId) (c.left roomId)
  | called {c : VoiceClient} {peer : Bytes} (roomId : Bytes) (free : c.calls peer = none) :
      VoiceStep me c (.called peer roomId)
        { c with calls := Function.update c.calls peer (some roomId) }
  | closed (c : VoiceClient) (peer : Bytes) : VoiceStep me c (.closed peer) (c.closed peer)
  | disconnected (c : VoiceClient) : VoiceStep me c .disconnected
      ⟨{ c.rooms with meshPeers := fun _ => ∅ }, fun _ => none⟩
  | roomKey (c : VoiceClient) (roomId : Bytes) (epoch : UInt32) (secret : Bytes) :
      VoiceStep me c (.roomKey roomId epoch secret)
        { c with rooms := c.rooms.installSecret roomId epoch secret }
  | usernameResp (c : VoiceClient) (found : Bool) (pubkey username : Bytes) :
      VoiceStep me c (.usernameResp found pubkey username)
        { c with rooms := (c.rooms.usernameResp found pubkey username).1 }
  | fetched (c : VoiceClient) (username : Bytes) :
      VoiceStep me c (.fetched username) { c with rooms := c.rooms.fetched username }

/-- The peers in the latest roster that the server has sent for a room. -/
def latestRoster (me roomId : Bytes) (events : List VoiceEvent) : ExtTreeSet Bytes :=
  events.foldl (fun latest event =>
    match event with
    | .roster rr => if rr.roomId = roomId ∧ roomId.length = 32 then rr.peerKeys me else latest
    | _ => latest) ∅

/-- A beacon announces its participants. One without participants takes everything back, and so does
a client that leaves the room. -/
def announce (roomId : Bytes) (known : List Bytes) : VoiceEvent → List Bytes
  | .beacon rr =>
    if rr.roomId = roomId ∧ roomId.length = 32 then
      if rr.participants = [] then [] else known ++ rr.sized.map RoomMember.identityPubkey
    else known
  | .left left => if left = roomId then [] else known
  | _ => known

/-- Who has been announced in a room. -/
def announced (roomId : Bytes) (events : List VoiceEvent) : List Bytes :=
  events.foldl (announce roomId) []

theorem announced_concat (roomId : Bytes) (events : List VoiceEvent) (event : VoiceEvent) :
    announced roomId (events ++ [event]) = announce roomId (announced roomId events) event := by
  rw [announced, List.foldl_append]
  rfl

theorem latestRoster_sized {me roomId : Bytes} {events : List VoiceEvent} {p : Bytes}
    (member : p ∈ latestRoster me roomId events) : p.length = 32 ∧ p ≠ me ∧ roomId.length = 32 := by
  revert member
  unfold latestRoster
  induction events using List.reverseRecOn with
  | nil => simp
  | append_singleton events event ih =>
    rw [List.foldl_append, List.foldl_cons, List.foldl_nil]
    cases event with
    | roster rr =>
      dsimp only
      split
      next room =>
        intro member
        obtain ⟨size, other, -⟩ := RoomRoster.mem_peerKeys.mp member
        exact ⟨size, other, room.2⟩
      · exact ih
    | _ => exact ih

/-- Gossip knows who has been announced. -/
def Announces (history : List VoiceEvent) (c : VoiceClient) : Prop :=
  ∀ roomId p, roomId.length = 32 → (p ∈ c.rooms.gossipKnown roomId ↔ p ∈ announced roomId history)

theorem Announces.keep {history : List VoiceEvent} {c c' : VoiceClient} {event : VoiceEvent}
    (known : Announces history c) (same : c'.rooms.gossipKnown = c.rooms.gossipKnown)
    (quiet : ∀ roomId known, announce roomId known event = known) :
    Announces (history ++ [event]) c' := by
  intro roomId p room
  rw [same, announced_concat, quiet]
  exact known roomId p room

/-- What a beacon adds, gossip learns. -/
theorem Announces.beacon {history : List VoiceEvent} {c : VoiceClient} (known : Announces history c)
    (me : Bytes) (rr : RoomRoster) (hasSession : Bytes → Bool)
    (exported : Option (UInt32 × Bytes)) :
    Announces (history ++ [.beacon rr]) (c.onBeacon me rr hasSession exported).1 := by
  intro roomId p room
  rw [announced_concat]
  unfold onBeacon announce
  split
  next size =>
    have elsewhere : ¬(rr.roomId = roomId ∧ roomId.length = 32) :=
      fun ⟨here, room⟩ => size (here ▸ room)
    dsimp only
    rw [if_neg elsewhere]
    exact known roomId p room
  · have applied := (c.rooms.mergeBeacon me rr).1.applyRoomRoster_dialled me hasSession exported
      (c.rooms.mergeBeacon me rr).2
    simp only [applyRoomRoster, applied.gossipKnown]
    by_cases here : rr.roomId = roomId
    · subst here
      rw [if_pos ⟨rfl, room⟩, Rooms.mem_mergeBeacon, known rr.roomId p room]
      split
      next empty => simp [empty]
      next present =>
        simp only [present, ne_eq, not_false_eq_true, true_and, List.mem_append, RoomRoster.sized,
          List.mem_map, List.mem_filter, decide_eq_true_eq]
        grind
    · rw [if_neg fun same => here same.1]
      have elsewhere : (c.rooms.mergeBeacon me rr).1.gossipKnown roomId =
          c.rooms.gossipKnown roomId := Function.update_of_ne (Ne.symm here) _ _
      rw [elsewhere]
      exact known roomId p room

theorem Announces.step {me : Bytes} {history : List VoiceEvent} {c c' : VoiceClient}
    {event : VoiceEvent} (known : Announces history c) (step : VoiceStep me c event c') :
    Announces (history ++ [event]) c' := by
  cases step with
  | roster rr hasSession exported =>
    exact known.keep (c.rooms.applyRoomRoster_dialled me hasSession exported rr).gossipKnown
      fun _ _ => rfl
  | beacon rr hasSession exported => exact known.beacon me rr hasSession exported
  | left leaving =>
    intro roomId p room
    rw [announced_concat]
    simp only [VoiceClient.left, announce]
    by_cases here : leaving = roomId
    · subst here
      simp
    · rw [if_neg here, Function.update_of_ne (Ne.symm here)]
      exact known roomId p room
  | joined roomId video => exact known.keep rfl fun _ _ => rfl
  | hungUpRoom roomId => exact known.keep rfl fun _ _ => rfl
  | called roomId free => exact known.keep rfl fun _ _ => rfl
  | closed peer => exact known.keep rfl fun _ _ => rfl
  | disconnected => exact known.keep rfl fun _ _ => rfl
  | roomKey roomId epoch secret => exact known.keep rfl fun _ _ => rfl
  | usernameResp found pubkey username =>
    refine known.keep ?_ fun _ _ => rfl
    unfold Rooms.usernameResp
    split
    · split <;> rfl
    · split <;> rfl
  | fetched username =>
    refine known.keep ?_ fun _ _ => rfl
    unfold Rooms.fetched
    split <;> rfl

theorem announces {me : Bytes} {dial : Bool} {events : List VoiceEvent} {c : VoiceClient}
    (run : Run (VoiceStep me) (new dial) events c) : Announces events c :=
  run.invariant_history Announces (fun _ _ _ _ known step => known.step step) fun _ _ _ => by
    simp [announced, new, noRooms]

/-- The peers with whom a call of the mesh is up have been announced. -/
def InCallAnnounced (c : VoiceClient) (roomId : Bytes) (peers : ExtTreeSet Bytes)
    (history : List VoiceEvent) : Prop :=
  ∀ p ∈ peers, p ∈ c.rooms.meshPeers roomId → (c.calls p).isSome → p ∈ announced roomId history

/-- In every run a beacon spares the peers of the latest roster of the server exactly if those of
them that are in a call have been announced, by this beacon or before. A roster or a beacon that
comes again does nothing to the calls. -/
theorem rosters_get_along (me : Bytes) :
    (∀ (dial : Bool) (events : List VoiceEvent) (c : VoiceClient),
      Run (VoiceStep me) (new dial) events c →
      ∀ (rr : RoomRoster) (hasSession : Bytes → Bool) (exported : Option (UInt32 × Bytes)),
        (∀ p ∈ latestRoster me rr.roomId events,
          p ∉ (c.onBeacon me rr hasSession exported).2.hungUp) ↔
        c.InCallAnnounced rr.roomId (latestRoster me rr.roomId events) (events ++ [.beacon rr])) ∧
    (∀ (c : VoiceClient) (rr : RoomRoster) (hasSession hasSession' : Bytes → Bool)
      (exported exported' : Option (UInt32 × Bytes)),
      ((c.applyRoomRoster me rr hasSession exported).1.applyRoomRoster me rr hasSession'
        exported').2 = ⟨[], []⟩) ∧
    ∀ (c : VoiceClient) (rr : RoomRoster) (hasSession hasSession' : Bytes → Bool)
      (exported exported' : Option (UInt32 × Bytes)),
      ((c.onBeacon me rr hasSession exported).1.onBeacon me rr hasSession' exported').2 =
        ⟨[], []⟩ := by
  refine ⟨?_, fun c rr hasSession _ exported _ => c.rosterActions_again me rr hasSession exported,
    fun c rr hasSession hasSession' exported exported' =>
      c.onBeacon_again me rr hasSession exported hasSession' exported'⟩
  intro dial events c run rr hasSession exported
  refine forall₂_congr fun p latest => ?_
  obtain ⟨key, other, room⟩ := latestRoster_sized latest
  have known := (announces run).beacon me rr hasSession exported rr.roomId p room
  have merged : (c.onBeacon me rr hasSession exported).1.rooms.gossipKnown =
      (c.rooms.mergeBeacon me rr).1.gossipKnown := by
    rw [onBeacon, if_neg (not_not_intro room)]
    exact ((c.rooms.mergeBeacon me rr).1.applyRoomRoster_dialled me hasSession exported _).gossipKnown
  rw [merged] at known
  rw [mem_hungUp_onBeacon room key other, ← known]
  simp only [not_and, not_not]

end VoiceClient

/-! ### The worker -/

namespace Worker

variable {K G C J : Type} (P : Outside K G C J) (w : Worker K G J) (draws : Draws K)
  (calls : Bytes → Option Bytes)

theorem handle_roster_rooms {bytes : Bytes} {rr : RoomRoster}
    (decoded : P.frame.decode bytes = some (.roomRoster rr)) :
    ∃ w', w.handle P draws (.relay bytes) = .ok w' ∧ w'.rooms =
      ((⟨w.rooms, calls⟩ : VoiceClient).applyRoomRoster w.dm.publicKey rr
        (hasRatchetFor w.dm.sessions) (w.roomExport P rr.roomId)).1.rooms := by
  refine ⟨w.onRoster P rr, ?_, rfl⟩
  simp [handle, decoded, onFrame]

theorem handle_beacon_rooms {bytes : Bytes} {rr : RoomRoster}
    (decoded : P.frame.decode bytes = some (.roomRoster rr)) :
    ∃ w', w.handle P draws (.roomGossip bytes) = .ok w' ∧ w'.rooms =
      ((⟨w.rooms, calls⟩ : VoiceClient).onBeacon w.dm.publicKey rr
        (hasRatchetFor w.dm.sessions) (w.roomExport P rr.roomId)).1.rooms := by
  simp only [handle, decoded, VoiceClient.onBeacon]
  split
  · exact ⟨w, rfl, rfl⟩
  · exact ⟨_, rfl, rfl⟩

end Worker

namespace VoiceClient

/-! ### A room of three -/

private def lobby : Bytes := natPoint 9

private def onServer : RoomRoster :=
  ⟨lobby, [⟨natPoint 1, true, false, 1⟩, ⟨natPoint 2, true, false, 1⟩, ⟨natPoint 3, true, false, 1⟩]⟩

/-- One of the two others says that it is there. -/
private def heard : RoomRoster := ⟨lobby, [⟨natPoint 2, true, false, 1⟩]⟩

private def inLobby : List VoiceEvent :=
  [.joined lobby false, .roster onServer, .called (natPoint 2) lobby, .called (natPoint 3) lobby]

private theorem listed_inLobby : natPoint 3 ∈ latestRoster (natPoint 1) lobby inLobby := by
  have latest : latestRoster (natPoint 1) lobby inLobby = onServer.peerKeys (natPoint 1) := rfl
  rw [latest, RoomRoster.mem_peerKeys]
  decide

private theorem run_inLobby : ∃ c, Run (VoiceStep (natPoint 1)) (new false) inLobby c ∧
    natPoint 3 ∈ c.rooms.meshPeers lobby ∧ (c.calls (natPoint 3)).isSome := by
  refine ⟨_, .cons (.joined _ lobby false) (.cons (.roster _ onServer (fun _ => true) none)
    (.cons (.called lobby rfl) (.cons (.called lobby rfl) (.nil _)))), ?_, rfl⟩
  simp only [applyRoomRoster]
  rw [Rooms.applyRoomRoster_meshPeers, if_neg (by decide), if_neg (by decide)]
  rw [show lobby = onServer.roomId from rfl, Function.update_self, RoomRoster.mem_peerKeys]
  decide

/-- The client hangs up the third, who is in the roster of the server. -/
theorem beacon_hangs_up : ∃ (events : List VoiceEvent) (c : VoiceClient) (rr : RoomRoster) (p : Bytes),
    Run (VoiceStep (natPoint 1)) (new false) events c ∧
    p ∈ latestRoster (natPoint 1) rr.roomId events ∧
    p ∈ (c.onBeacon (natPoint 1) rr (fun _ => true) none).2.hungUp := by
  obtain ⟨c, run, meshed, call⟩ := run_inLobby
  refine ⟨inLobby, c, heard, natPoint 3, run, listed_inLobby, ?_⟩
  refine (mem_hungUp_onBeacon (by decide) (by decide) (by decide)).mpr ⟨meshed, call, ?_⟩
  have known := announces run lobby (natPoint 3) (by decide)
  rw [Rooms.mem_mergeBeacon, show heard.roomId = lobby from rfl, known]
  decide

/-- A beacon that announces both others leaves the calls alone. -/
theorem rosters_get_along_lobby : ∃ (events : List VoiceEvent) (c : VoiceClient),
    Run (VoiceStep (natPoint 1)) (new false) events c ∧
    natPoint 3 ∈ latestRoster (natPoint 1) lobby events ∧
    ∀ p ∈ latestRoster (natPoint 1) lobby events,
      p ∉ (c.onBeacon (natPoint 1) onServer (fun _ => true) none).2.hungUp := by
  obtain ⟨c, run, -, -⟩ := run_inLobby
  refine ⟨inLobby, c, run, listed_inLobby, ?_⟩
  refine ((rosters_get_along (natPoint 1)).1 false inLobby c run onServer (fun _ => true) none).mpr ?_
  intro p latest _ _
  have roster := (RoomRoster.mem_peerKeys.mp (show p ∈ onServer.peerKeys (natPoint 1) from latest)).2.2
  revert roster
  have everybody : announced lobby (inLobby ++ [.beacon onServer]) =
      onServer.participants.map RoomMember.identityPubkey := by decide
  exact fun roster => everybody ▸ roster

end VoiceClient

end FinBit.Desktop
