import Std.Data.ExtTreeMap
import Std.Data.ExtTreeSet
import Mathlib.Logic.Function.Basic
import FinBit.Lib.Bytes

/-! # Voice rooms

What a roster does to the desktop client, whether the relay sent it or it was put
together from the presence beacons of a room: the members, the room secret of an MLS
channel, and the peers that are to be dialled.

Nothing in here throws. Calls are handed to the user-interface thread, so all that
is left of dialling is the bookkeeping.
-/

namespace FinBit.Desktop

open FinBit.Lib Std

/-- `RoomMember`. -/
structure RoomMember where
  identityPubkey : Bytes
  hasAudio : Bool
  hasVideo : Bool
  uplinkClass : Int

structure RoomRoster where
  roomId : Bytes
  participants : List RoomMember

/-- `elect_forwarder`: the best usable uplink, and of those the least key. -/
def electForwarder (candidates : List (Bytes × Int)) (meshThreshold : Nat) : Bytes :=
  if candidates.length < meshThreshold then []
  else
    let best := candidates.foldl (fun best c =>
      if c.2 ≤ 0 then best
      else
        match best with
        | none => some c
        | some b => if c.2 > b.2 ∨ c.2 = b.2 ∧ c.1 < b.1 then some c else some b) none
    match best with
    | none => []
    | some b => b.1

structure Rooms where
  members : Bytes → ExtTreeSet Bytes
  meshPeers : Bytes → ExtTreeSet Bytes
  gossipKnown : Bytes → ExtTreeMap Bytes (Bool × Bool)
  /-- The rooms that this client is in, with its own video setting. -/
  activeVoiceRooms : Bytes → Option Bool
  leafForwarderOf : Bytes → Option Bytes
  /-- Epoch and secret of each room. -/
  secrets : Bytes → UInt32 × Bytes
  /-- The peers whose session is fetched before they are dialled. -/
  pendingMeshDials : ExtTreeSet Bytes
  meshBootstrapPending : Bytes → Option Bytes
  /-- `FB_FORWARDER_DIAL`. -/
  forwarderDial : Bool

namespace Rooms

/-- `mesh_bootstrap_or_dial`; a peer without a session is looked up first. -/
def meshBootstrapOrDial (hasSession : Bytes → Bool) (rooms : Rooms) (peer : Bytes) : Rooms :=
  if hasSession peer then rooms
  else { rooms with pendingMeshDials := rooms.pendingMeshDials.insert peer }

/-- The last part of `apply_room_roster`: everyone is dialled by the peer with the
greater key. -/
def meshDial (me : Bytes) (hasSession : Bytes → Bool) (rooms : Rooms) (roomId : Bytes)
    (roster : ExtTreeSet Bytes) : Rooms :=
  let meshed := (rooms.meshPeers roomId).filter (roster.contains ·)
  let fresh := roster.toList.filter fun peer => !meshed.contains peer
  let rooms : Rooms := { rooms with
    meshPeers := Function.update rooms.meshPeers roomId (fresh.foldl (·.insert ·) meshed) }
  (fresh.filter fun peer => peer < me).foldl (meshBootstrapOrDial hasSession) rooms

/-- The forwarder-dial plan. -/
def forwarderPlan (me : Bytes) (hasSession : Bytes → Bool) (rooms : Rooms) (roomId fwd : Bytes) :
    Rooms :=
  if fwd = me then rooms
  else
    let dialed := rooms.meshPeers roomId
    let known := dialed.contains fwd
    let rooms : Rooms := { rooms with
      leafForwarderOf := Function.update rooms.leafForwarderOf roomId (some fwd)
      meshPeers := Function.update rooms.meshPeers roomId (dialed.insert fwd) }
    if known then rooms else meshBootstrapOrDial hasSession rooms fwd

/-- `apply_room_roster`. `exported` is the epoch and the exported secret of the MLS
group of the room's channel, if it has one. -/
def applyRoomRoster (me : Bytes) (hasSession : Bytes → Bool) (exported : Option (UInt32 × Bytes))
    (rooms : Rooms) (rr : RoomRoster) : Rooms :=
  if rr.roomId.length ≠ 32 then rooms
  else
    let participants := rr.participants.filter (·.identityPubkey.length = 32)
    let roster : ExtTreeSet Bytes := .ofList
      ((participants.map RoomMember.identityPubkey).filter (· ≠ me))
    let fwd : Bytes := electForwarder (participants.map fun p => (p.identityPubkey, p.uplinkClass)) 6
    let rooms : Rooms := { rooms with
      members := Function.update rooms.members rr.roomId roster }
    let rooms : Rooms :=
      match exported with
      | none => rooms
      | some secret => { rooms with secrets := Function.update rooms.secrets rr.roomId secret }
    if rooms.forwarderDial = true ∧ fwd ≠ [] then forwarderPlan me hasSession rooms rr.roomId fwd
    else meshDial me hasSession rooms rr.roomId roster

/-- A presence beacon of the gossip topic: what it adds to the known participants, and
the roster that they make together. A beacon without participants clears the room. -/
def mergeBeacon (me : Bytes) (rooms : Rooms) (rr : RoomRoster) : Rooms × RoomRoster :=
  let known :=
    if rr.participants = [] then ∅
    else (rr.participants.filter (·.identityPubkey.length = 32)).foldl
      (fun known p => known.insert p.identityPubkey (p.hasAudio, p.hasVideo))
      (rooms.gossipKnown rr.roomId)
  let others := known.toList.map fun (pk, audio, video) => ⟨pk, audio, video, 0⟩
  let self :=
    match rooms.activeVoiceRooms rr.roomId with
    | none => []
    | some video => [⟨me, true, video, 0⟩]
  ({ rooms with gossipKnown := Function.update rooms.gossipKnown rr.roomId known },
    ⟨rr.roomId, others ++ self⟩)

/-- The `kRoomKey` payload. -/
def installSecret (rooms : Rooms) (roomId : Bytes) (epoch : UInt32) (secret : Bytes) : Rooms :=
  { rooms with secrets := Function.update rooms.secrets roomId (epoch, secret) }

/-- The handler of `kUsernameResp`, with the user whose bundle is fetched next. -/
def usernameResp (rooms : Rooms) (found : Bool) (pubkey username : Bytes) :
    Rooms × Option Bytes :=
  if found = true ∧ pubkey.length = 32 ∧ username ≠ [] then
    if rooms.pendingMeshDials.contains pubkey then
      ({ rooms with
        meshBootstrapPending := Function.update rooms.meshBootstrapPending username (some pubkey) },
        some username)
    else (rooms, none)
  else if pubkey.length = 32 then
    ({ rooms with pendingMeshDials := rooms.pendingMeshDials.erase pubkey }, none)
  else (rooms, none)

/-- What an answer to the fetch for a user ends: the dial that waited for it. -/
def fetched (rooms : Rooms) (username : Bytes) : Rooms :=
  match rooms.meshBootstrapPending username with
  | none => rooms
  | some pubkey =>
    { rooms with
      meshBootstrapPending := Function.update rooms.meshBootstrapPending username none
      pendingMeshDials := rooms.pendingMeshDials.erase pubkey }

end Rooms

end FinBit.Desktop
