import FinBit.Desktop.VoiceRooms
import FinBit.Server.RelayServer

/-! # The forwarder of a room

Every member of a large room elects the forwarder on its own, from the uplink classes that the
members have given. Whether a member hears of the others over the relay server or by gossip, it is
to come to the same forwarder.
-/

namespace FinBit.Desktop

open FinBit.Lib Std VoiceClient

/-- A member of a room, with what its client says of it. -/
structure Caller where
  publicKey : Bytes
  video : Bool
  uplinkClass : UInt32

/-- `static_cast<int>`. -/
def classInt (uplinkClass : UInt32) : Int :=
  uplinkClass.toInt32.toInt

/-! ### Three ways to say who is there -/

/-- The roster of the relay server. -/
def serverRoster (roomId : Bytes) (members : List Caller) : RoomRoster :=
  ⟨roomId, members.map fun m => ⟨m.publicKey, true, false, classInt m.uplinkClass⟩⟩

/-- The beacon of a member that joins. -/
def joinBeacon (roomId : Bytes) (m : Caller) : RoomRoster :=
  ⟨roomId, [⟨m.publicKey, true, m.video, classInt m.uplinkClass⟩]⟩

/-- `republish_room_presence`; the class is left out. -/
def republishRoomPresence (roomId : Bytes) (m : Caller) : RoomRoster :=
  ⟨roomId, [⟨m.publicKey, true, m.video, 0⟩]⟩

/-- A participant in a frame of the server, as the desktop client reads it. -/
def ofServer (m : Server.RoomMember) : RoomMember :=
  ⟨m.identityPubkey, m.hasAudio, m.hasVideo, classInt m.uplinkClass⟩

/-- It is the roster that `broadcast_room_roster` sends. -/
theorem broadcast_serverRoster {B L : Type} (s : Server.RelayServer L) (roomId : Bytes)
    (members : List Caller)
    (joined : ((s.relay.roomMemberFds roomId).filterMap s.conns.lookup).map
      (fun c => (c.boundUserPub, c.roomUplinkClass)) =
        members.map fun m => (m.publicKey, m.uplinkClass)) :
    ∀ w ∈ (s.broadcastRoomRoster roomId : List (Server.Write B)), ∃ participants,
      w.frame = .roomRoster roomId 1 participants ∧
        ⟨roomId, participants.map ofServer⟩ = serverRoster roomId members := by
  intro w written
  obtain ⟨fd, -, rfl⟩ := List.mem_map.mp written
  refine ⟨_, rfl, congrArg (RoomRoster.mk roomId) ?_⟩
  have participants := congrArg (List.map fun k : Bytes × UInt32 =>
    (⟨k.1, true, false, classInt k.2⟩ : RoomMember)) joined
  rw [List.map_map, List.map_map] at participants
  rw [List.map_map]
  exact participants

/-! ### What a client has heard -/

/-- The beacons of a room are those of its members, and each of the others is heard at least once.
The client stays in the room. -/
structure Gossiped (me roomId : Bytes) (members : List Caller) (events : List VoiceEvent) : Prop where
  byMembers : ∀ rr, .beacon rr ∈ events → rr.roomId = roomId →
    ∃ m ∈ members, rr = joinBeacon roomId m ∨ rr = republishRoomPresence roomId m
  others : ∀ m ∈ members, m.publicKey ≠ me →
    .beacon (joinBeacon roomId m) ∈ events ∨ .beacon (republishRoomPresence roomId m) ∈ events
  stays : .left roomId ∉ events

/-- Without a leave signal everybody stays announced. -/
theorem mem_announced {roomId p : Bytes} {events : List VoiceEvent} (room : roomId.length = 32)
    (stays : .left roomId ∉ events)
    (present : ∀ rr, .beacon rr ∈ events → rr.roomId = roomId → rr.participants ≠ []) :
    p ∈ announced roomId events ↔ ∃ rr, .beacon rr ∈ events ∧ rr.roomId = roomId ∧
      p ∈ rr.sized.map RoomMember.identityPubkey := by
  induction events using List.reverseRecOn with
  | nil => simp [announced]
  | append_singleton events event ih =>
    have before := ih (fun left => stays (List.mem_append_left _ left))
      fun rr heard => present rr (List.mem_append_left _ heard)
    have unheard (silent : ∀ rr, event ≠ .beacon rr) (rr : RoomRoster) :
        .beacon rr ∈ events ++ [event] ↔ .beacon rr ∈ events := by
      simp only [List.mem_append, List.mem_singleton]
      exact or_iff_left (silent rr).symm
    rw [announced_concat]
    cases event with
    | beacon rr =>
      unfold announce
      dsimp only
      by_cases here : rr.roomId = roomId
      · rw [if_pos ⟨here, room⟩, if_neg (present rr (by simp) here), List.mem_append, before]
        simp only [List.mem_append, List.mem_singleton, VoiceEvent.beacon.injEq]
        grind
      · rw [if_neg fun same => here same.1, before]
        simp only [List.mem_append, List.mem_singleton, VoiceEvent.beacon.injEq]
        grind
    | left leaving =>
      have elsewhere : leaving ≠ roomId := by
        rintro rfl
        exact stays (by simp)
      simp only [announce, if_neg elsewhere, unheard (by simp)]
      exact before
    | _ =>
      simp only [announce, unheard (by simp)]
      exact before

theorem mem_serverRoster {me roomId p : Bytes} {members : List Caller}
    (keys : ∀ m ∈ members, m.publicKey.length = 32) :
    p ∈ (serverRoster roomId members).peerKeys me ↔ p ≠ me ∧ ∃ m ∈ members, m.publicKey = p := by
  rw [RoomRoster.mem_peerKeys]
  simp only [serverRoster, List.map_map, List.mem_map, Function.comp]
  constructor
  · rintro ⟨-, other, member⟩
    exact ⟨other, member⟩
  · rintro ⟨other, m, member, rfl⟩
    exact ⟨keys m member, other, m, member, rfl⟩

/-- A room stays a mesh on the word of the server if it is small or nobody in it can forward. -/
theorem serverRoster_forwarder {roomId : Bytes} {members : List Caller}
    (keys : ∀ m ∈ members, m.publicKey.length = 32) : (serverRoster roomId members).forwarder = [] ↔
      members.length < 6 ∨ ∀ m ∈ members, classInt m.uplinkClass ≤ 0 := by
  have all : (serverRoster roomId members).sized = (serverRoster roomId members).participants := by
    refine List.filter_eq_self.mpr fun p listed => ?_
    obtain ⟨m, member, rfl⟩ := List.mem_map.mp listed
    exact decide_eq_true (keys m member)
  rw [RoomRoster.forwarder_eq_nil, all]
  simp only [serverRoster, List.length_map, List.forall_mem_map]

/-- A client that has heard of everybody by gossip knows the same members. -/
theorem assembled_peerKeys {me roomId : Bytes} (room : roomId.length = 32) {members : List Caller}
    (keys : ∀ m ∈ members, m.publicKey.length = 32) {dial : Bool} {events : List VoiceEvent}
    {c : VoiceClient} (run : Run (VoiceStep me) (new dial) events c) {last : RoomRoster}
    (here : last.roomId = roomId) (heard : Gossiped me roomId members (events ++ [.beacon last])) :
    (c.rooms.mergeBeacon me last).2.peerKeys me = (serverRoster roomId members).peerKeys me := by
  subst here
  have beacons {rr : RoomRoster} (beacon : .beacon rr ∈ events ++ [.beacon last])
      (same : rr.roomId = last.roomId) : ∃ m ∈ members,
        rr.participants.map RoomMember.identityPubkey = [m.publicKey] := by
    obtain ⟨m, member, rfl | rfl⟩ := heard.byMembers rr beacon same
    · exact ⟨m, member, rfl⟩
    · exact ⟨m, member, rfl⟩
  have present : ∀ rr, .beacon rr ∈ events ++ [.beacon last] → rr.roomId = last.roomId →
      rr.participants ≠ [] := by
    intro rr beacon same empty
    obtain ⟨m, -, one⟩ := beacons beacon same
    simp [empty] at one
  refine ExtTreeSet.ext_mem fun p => ?_
  have known := (announces run).beacon me last (fun _ => true) none last.roomId p room
  rw [onBeacon, if_neg (not_not_intro room)] at known
  simp only [applyRoomRoster, ((c.rooms.mergeBeacon me last).1.applyRoomRoster_dialled me
    (fun _ => true) none _).gossipKnown] at known
  rw [Rooms.mem_peerKeys_mergeBeacon, known, mem_announced room heard.stays present,
    mem_serverRoster keys]
  constructor
  · rintro ⟨-, other, rr, beacon, same, listed⟩
    obtain ⟨m, member, one⟩ := beacons beacon same
    obtain ⟨q, sized, rfl⟩ := List.mem_map.mp listed
    have among : q.identityPubkey ∈ rr.participants.map RoomMember.identityPubkey :=
      List.mem_map_of_mem (List.mem_filter.mp sized).1
    rw [one, List.mem_singleton] at among
    exact ⟨other, m, member, among.symm⟩
  · rintro ⟨other, m, member, rfl⟩
    refine ⟨keys m member, other, ?_⟩
    rcases heard.others m member other with beacon | beacon
    · exact ⟨_, beacon, rfl, by simp [joinBeacon, RoomRoster.sized, keys m member]⟩
    · exact ⟨_, beacon, rfl, by simp [republishRoomPresence, RoomRoster.sized, keys m member]⟩

/-- A client that has heard of everybody by gossip knows the members that the server lists. It elects
the same forwarder exactly if there is none to elect. -/
theorem forwarders_agree_iff {me roomId : Bytes} (room : roomId.length = 32) {members : List Caller}
    (keys : ∀ m ∈ members, m.publicKey.length = 32) {dial : Bool} {events : List VoiceEvent}
    {c : VoiceClient} (run : Run (VoiceStep me) (new dial) events c) {last : RoomRoster}
    (here : last.roomId = roomId) (heard : Gossiped me roomId members (events ++ [.beacon last])) :
    (c.rooms.mergeBeacon me last).2.peerKeys me = (serverRoster roomId members).peerKeys me ∧
    ((serverRoster roomId members).forwarder = (c.rooms.mergeBeacon me last).2.forwarder ↔
      members.length < 6 ∨ ∀ m ∈ members, classInt m.uplinkClass ≤ 0) := by
  refine ⟨assembled_peerKeys room keys run here heard, ?_⟩
  rw [Rooms.forwarder_mergeBeacon]
  exact serverRoster_forwarder keys

/-! ### Six members -/

private def six : List Caller :=
  [⟨natPoint 1, false, 1⟩, ⟨natPoint 2, false, 1⟩, ⟨natPoint 3, false, 1⟩, ⟨natPoint 4, false, 1⟩,
    ⟨natPoint 5, false, 1⟩, ⟨natPoint 6, false, 1⟩]

/-- The first member joins and hears the join beacons of the others. -/
private def hearing (members : List Caller) : List VoiceEvent :=
  .joined (natPoint 9) false :: members.map fun m => .beacon (joinBeacon (natPoint 9) m)

private theorem run_hearing (members : List Caller) :
    ∃ c, Run (VoiceStep (natPoint 1)) (new false) (hearing members) c := by
  have beacons : ∀ (l : List Caller) (c : VoiceClient), ∃ c', Run (VoiceStep (natPoint 1)) c
      (l.map fun m => .beacon (joinBeacon (natPoint 9) m)) c' := by
    intro l
    induction l with
    | nil => exact fun c => ⟨c, .nil c⟩
    | cons m rest ih =>
      intro c
      obtain ⟨c', run⟩ := ih (c.onBeacon (natPoint 1) (joinBeacon (natPoint 9) m) (fun _ => true) none).1
      exact ⟨c', .cons (.beacon c _ _ _) run⟩
  obtain ⟨c, run⟩ := beacons members _
  exact ⟨c, .cons (.joined _ (natPoint 9) false) run⟩

private theorem gossiped_hearing (members : List Caller) (m : Caller) :
    Gossiped (natPoint 1) (natPoint 9) (members ++ [m])
      (hearing members ++ [.beacon (joinBeacon (natPoint 9) m)]) where
  byMembers rr beacon _ := by
    simp only [hearing, List.mem_append, List.mem_cons, List.mem_map] at beacon
    grind
  others k member _ := by
    simp only [hearing, List.mem_append, List.mem_cons, List.mem_map]
    grind
  stays := by
    simp [hearing]

/-- By the server the least key of six equal members is elected, by gossip nobody. -/
theorem forwarders_differ : ∃ (members : List Caller) (events : List VoiceEvent) (c : VoiceClient)
    (last : RoomRoster), (members.map Caller.publicKey).Nodup ∧
      (∀ m ∈ members, m.publicKey.length = 32) ∧ natPoint 1 ∈ members.map Caller.publicKey ∧
      Run (VoiceStep (natPoint 1)) (new false) events c ∧ last.roomId = natPoint 9 ∧
      Gossiped (natPoint 1) (natPoint 9) members (events ++ [.beacon last]) ∧
      (serverRoster (natPoint 9) members).forwarder = natPoint 1 ∧
      (c.rooms.mergeBeacon (natPoint 1) last).2.forwarder = [] := by
  obtain ⟨c, run⟩ := run_hearing six.dropLast
  exact ⟨six, _, c, _, by decide, by decide, by decide, run, rfl,
    gossiped_hearing six.dropLast ⟨natPoint 6, false, 1⟩, by decide, Rooms.forwarder_mergeBeacon ..⟩

/-- In a room of two nobody is elected. -/
theorem forwarders_agree_two : ∃ (members : List Caller) (events : List VoiceEvent) (c : VoiceClient)
    (last : RoomRoster), Run (VoiceStep (natPoint 1)) (new false) events c ∧
      Gossiped (natPoint 1) (natPoint 9) members (events ++ [.beacon last]) ∧
      (serverRoster (natPoint 9) members).forwarder =
        (c.rooms.mergeBeacon (natPoint 1) last).2.forwarder := by
  obtain ⟨c, run⟩ := run_hearing [⟨natPoint 1, false, 1⟩]
  have heard := gossiped_hearing [⟨natPoint 1, false, 1⟩] ⟨natPoint 2, false, 1⟩
  have keys : ∀ m ∈ ([⟨natPoint 1, false, 1⟩] ++ [⟨natPoint 2, false, 1⟩] : List Caller),
      m.publicKey.length = 32 := by decide
  have agree := forwarders_agree_iff (by simp [natPoint] : (natPoint 9).length = 32) keys run rfl heard
  exact ⟨_, _, c, _, run, heard, agree.2.mpr (.inl (by decide))⟩

end FinBit.Desktop
