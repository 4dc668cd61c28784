import FinBit.Desktop.FrameDispatch
import FinBit.Lib.MapEntries

/-! # Rosters and beacons

Who is in a voice room is said twice. The relay server sends a roster of all members. The members
announce themselves on the gossip topic of the room, and a client that hears them puts a roster
together, of everybody it has heard of and itself. Here the two are compared, and the forwarders
that are elected from them.
-/

namespace FinBit.Desktop

open FinBit.Lib Std

namespace RoomRoster

variable (me : Bytes) (rr : RoomRoster)

/-- The participants whose key has the right size. -/
def sized : List RoomMember :=
  rr.participants.filter (·.identityPubkey.length = 32)

/-- `roster_peer_keys`. -/
def peerKeys : ExtTreeSet Bytes :=
  .ofList ((rr.sized.map RoomMember.identityPubkey).filter (· ≠ me))

/-- `fwd`, empty in a mesh. -/
def forwarder : Bytes :=
  electForwarder (rr.sized.map fun p => (p.identityPubkey, p.uplinkClass)) 6

variable {me rr}

theorem mem_peerKeys {p : Bytes} : p ∈ rr.peerKeys me ↔
    p.length = 32 ∧ p ≠ me ∧ p ∈ rr.participants.map RoomMember.identityPubkey := by
  simp only [peerKeys, ExtTreeSet.mem_ofList, List.contains_iff_mem, List.mem_filter, sized,
    List.mem_map, decide_eq_true_eq]
  constructor
  · rintro ⟨⟨m, ⟨member, size⟩, rfl⟩, other⟩
    exact ⟨size, other, m, member, rfl⟩
  · rintro ⟨size, other, m, member, rfl⟩
    exact ⟨⟨m, ⟨member, size⟩, rfl⟩, other⟩

end RoomRoster

/-! ### The election -/

/-- The loop of `elect_forwarder`. -/
def better (best : Option (Bytes × Int)) (c : Bytes × Int) : Option (Bytes × Int) :=
  if c.2 ≤ 0 then best
  else
    match best with
    | none => some c
    | some b => if c.2 > b.2 ∨ c.2 = b.2 ∧ c.1 < b.1 then some c else some b

/-- Nobody is found among those who cannot forward. -/
theorem foldl_better_eq_none {best : Option (Bytes × Int)} {candidates : List (Bytes × Int)} :
    candidates.foldl better best = none ↔ best = none ∧ ∀ c ∈ candidates, c.2 ≤ 0 := by
  induction candidates generalizing best with
  | nil => simp
  | cons c rest ih =>
    rw [List.foldl_cons, ih, List.forall_mem_cons, ← and_assoc]
    refine and_congr_left fun _ => ?_
    unfold better
    by_cases leaf : c.2 ≤ 0
    · simp [leaf]
    · cases best with
      | none => simp [leaf]
      | some b =>
        rw [if_neg leaf]
        dsimp only
        split <;> simp [leaf]

theorem foldl_better_mem {best : Option (Bytes × Int)} {candidates : List (Bytes × Int)}
    {b : Bytes × Int} (found : candidates.foldl better best = some b) :
    best = some b ∨ b ∈ candidates := by
  induction candidates generalizing best with
  | nil => exact .inl found
  | cons c rest ih =>
    rcases ih found with here | later
    · unfold better at here
      split at here
      · exact .inl here
      split at here
      · exact .inr (by simp [Option.some.inj here])
      split at here
      · exact .inr (by simp [Option.some.inj here])
      · exact .inl here
    · exact .inr (List.mem_cons_of_mem c later)

/-- A room stays a mesh if it is small or nobody in it can forward. -/
theorem electForwarder_eq_nil {candidates : List (Bytes × Int)} {meshThreshold : Nat}
    (named : ∀ c ∈ candidates, c.1 ≠ []) : electForwarder candidates meshThreshold = [] ↔
      candidates.length < meshThreshold ∨ ∀ c ∈ candidates, c.2 ≤ 0 := by
  change (if candidates.length < meshThreshold then [] else
    match candidates.foldl better none with
    | none => []
    | some b => b.1) = [] ↔ _
  split
  next small => exact iff_of_true rfl (.inl small)
  next large =>
    rw [or_iff_right large]
    cases found : candidates.foldl better none with
    | none => exact iff_of_true rfl (foldl_better_eq_none.mp found).2
    | some b =>
      have member := (foldl_better_mem found).resolve_left nofun
      refine iff_of_false (named b member) fun leaves => ?_
      rw [foldl_better_eq_none.mpr ⟨rfl, leaves⟩] at found
      cases found

theorem RoomRoster.forwarder_eq_nil {rr : RoomRoster} : rr.forwarder = [] ↔
    rr.sized.length < 6 ∨ ∀ p ∈ rr.sized, p.uplinkClass ≤ 0 := by
  unfold forwarder
  rw [electForwarder_eq_nil, List.length_map, List.forall_mem_map]
  intro c candidate
  obtain ⟨p, listed, rfl⟩ := List.mem_map.mp candidate
  have key := (List.mem_filter.mp listed).2
  rintro (empty : p.identityPubkey = [])
  simp [empty] at key

namespace Rooms

variable (me : Bytes) (rooms : Rooms) (rr : RoomRoster)

/-! ### What beacons make known -/

/-- Who is known in the room after a beacon. -/
theorem mem_mergeBeacon {p : Bytes} : p ∈ (mergeBeacon me rooms rr).1.gossipKnown rr.roomId ↔
    rr.participants ≠ [] ∧ (p ∈ rooms.gossipKnown rr.roomId ∨
      p.length = 32 ∧ p ∈ rr.participants.map RoomMember.identityPubkey) := by
  simp only [mergeBeacon, Function.update_self]
  by_cases empty : rr.participants = []
  · simp [empty]
  · rw [if_neg empty, Lib.mem_inserts]
    simp only [List.mem_map, List.mem_filter, decide_eq_true_eq]
    grind

/-- The roster that the known participants make lists them. -/
theorem mem_peerKeys_mergeBeacon {p : Bytes} : p ∈ (mergeBeacon me rooms rr).2.peerKeys me ↔
    p.length = 32 ∧ p ≠ me ∧ p ∈ (mergeBeacon me rooms rr).1.gossipKnown rr.roomId := by
  rw [RoomRoster.mem_peerKeys]
  refine and_congr_right fun _ => and_congr_right fun other => ?_
  have others (known : ExtTreeMap Bytes (Bool × Bool)) :
      (known.toList.map fun entry => (⟨entry.1, entry.2.1, entry.2.2, 0⟩ : RoomMember)).map
        RoomMember.identityPubkey = known.keys := by
    rw [List.map_map, ← ExtTreeMap.map_fst_toList_eq_keys]
    rfl
  simp only [mergeBeacon, Function.update_self, List.map_append, others, List.mem_append,
    ExtTreeMap.mem_keys]
  refine or_iff_left fun self => ?_
  split at self
  · cases self
  · exact other (List.mem_singleton.mp self)

/-- A beacon that is heard again makes the same roster. -/
theorem mergeBeacon_again {rooms' : Rooms}
    (known : rooms'.gossipKnown = (mergeBeacon me rooms rr).1.gossipKnown)
    (active : rooms'.activeVoiceRooms = rooms.activeVoiceRooms) :
    (mergeBeacon me rooms' rr).2 = (mergeBeacon me rooms rr).2 := by
  simp only [mergeBeacon, known, active, Function.update_self]
  by_cases empty : rr.participants = []
  · simp only [if_pos empty]
  · simp only [if_neg empty, inserts_twice]

/-- Nobody is elected from beacons: the classes that they carry are not kept. -/
theorem forwarder_mergeBeacon : (mergeBeacon me rooms rr).2.forwarder = [] := by
  refine RoomRoster.forwarder_eq_nil.mpr (.inr fun m listed => ?_)
  have unclassed : m.uplinkClass = 0 := by
    have member := (List.mem_filter.mp listed).1
    simp only [mergeBeacon, List.mem_append, List.mem_map] at member
    obtain ⟨entry, -, rfl⟩ | self := member
    · rfl
    · split at self
      · cases self
      · rw [List.mem_singleton.mp self]
  exact unclassed.le

end Rooms

end FinBit.Desktop
