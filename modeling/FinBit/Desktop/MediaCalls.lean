import FinBit.Desktop.ForwarderHost

/-! # Calls of the desktop client

A call is driven by the user, by the signals of the peer and by the callbacks of its pipeline. The
client has at most one for each peer, and takes signals by the peer they come from: an offer makes a
call, unless there is one, and everything else goes to the call that there is.
-/

namespace FinBit.Desktop

open FinBit.Lib Std

/-- `MediaCall::State`. -/
inductive CallState
  | idle | ringing | connecting | live | closed
  deriving DecidableEq

/-- What a `webrtcbin` is asked to do. -/
inductive WebrtcCall
  | setRemoteDescription (sdp : Bytes)
  | addIceCandidate (mline : Int) (candidate : Bytes)
  | createAnswer
  deriving DecidableEq

/-- `MediaCall`, apart from the keys of its frames. -/
structure MediaCall where
  state : CallState
  isCaller : Bool
  /-- `webrtc`, with all that it was asked. -/
  webrtc : Option (List WebrtcCall)
  pendingOffer : Bytes
  pendingIce : List Bytes

/-- The Qt signals of a call that the client has slots for. -/
inductive Emitted
  | sendSignal (kind : SignalKind) (payload : Bytes)
  | stateChanged (state : CallState)

/-- What a call uses of GStreamer and Qt. -/
structure CallPrimitives where
  /-- `gst_sdp_message_new_from_text` succeeds. -/
  sdpParses : Bytes → Bool
  /-- `sdpMLineIndex` and `candidate` of a JSON object. -/
  iceFields : Bytes → Option (Int × Bytes)

namespace MediaCall

def new : MediaCall := ⟨.idle, false, none, [], []⟩

section

variable (P : CallPrimitives) (c : MediaCall)

def setState (state : CallState) : MediaCall × List Emitted :=
  if c.state = state then (c, []) else ({ c with state }, [.stateChanged state])

/-- A request to `webrtc`, where there is one. -/
def ask (request : WebrtcCall) : MediaCall :=
  { c with webrtc := c.webrtc.map (· ++ [request]) }

/-- `start_outgoing`; `built` is whether the pipeline could be built. -/
def startOutgoing (built : Bool) : MediaCall × List Emitted :=
  if c.state ≠ .idle then (c, [])
  else
    let c := { c with isCaller := true }
    if !built then c.setState .closed else { c with webrtc := some [] }.setState .ringing

/-- `receive_ice`. -/
def receiveIce (json : Bytes) : MediaCall :=
  match c.webrtc with
  | none => { c with pendingIce := c.pendingIce ++ [json] }
  | some _ =>
    match P.iceFields json with
    | none => c
    | some (mline, candidate) => if candidate = [] then c else c.ask (.addIceCandidate mline candidate)

/-- The candidates that have waited. -/
def drain : MediaCall := { c.pendingIce.foldl (receiveIce P) c with pendingIce := [] }

/-- `accept_incoming`. -/
def acceptIncoming (built : Bool) : MediaCall × List Emitted :=
  if c.state ≠ .ringing ∨ c.isCaller then (c, [])
  else if !built then c.setState .closed
  else
    let c := { c with webrtc := some [] }
    if !P.sdpParses c.pendingOffer then c.setState .closed
    else (((c.ask (.setRemoteDescription c.pendingOffer)).drain P).ask .createAnswer).setState .connecting

/-- `receive_offer`. -/
def receiveOffer (sdp : Bytes) : MediaCall × List Emitted :=
  { c with pendingOffer := sdp }.setState .ringing

/-- `receive_answer`. -/
def receiveAnswer (sdp : Bytes) : MediaCall × List Emitted :=
  if c.webrtc = none then (c, [])
  else if !P.sdpParses sdp then (c, [])
  else ((c.ask (.setRemoteDescription sdp)).drain P).setState .connecting

/-- `hangup`. -/
def hangup (silent : Bool) : MediaCall × List Emitted :=
  if c.state = .closed then (c, [])
  else
    let (c, changed) := { c with webrtc := none }.setState .closed
    (c, (if silent then [] else [.sendSignal .hangup []]) ++ changed)

/-- `_on_connection_state`. -/
def onConnectionState (gstState : Nat) : MediaCall × List Emitted :=
  if c.state = .closed then (c, [])
  else if gstState = 2 then c.setState .live
  else if gstState = 4 then c.hangup false
  else (c, [])

/-- There is a remote description. -/
def described : Bool := c.webrtc.any fun asked => asked.any fun
  | .setRemoteDescription _ => true
  | _ => false

/-- An answer was asked for. -/
def answering : Bool := c.webrtc.any (·.contains .createAnswer)

/-- A signal that the callbacks of the pipeline can come with. -/
def creates : SignalKind → Bool
  | .offer => c.isCaller && c.webrtc.isSome
  | .answer => c.answering
  | .ice => c.webrtc.isSome
  | _ => false

end

end MediaCall

/-! ### The calls of a client -/

/-- `PendingMediaSignal`, as far as a call fills it in. -/
structure CallSignal where
  peerPub : Bytes
  callId : Bytes
  kind : UInt32
  payload : Bytes
  pqCt : Bytes

/-- `CallEntry`. -/
structure CallEntry where
  call : MediaCall
  callId : Bytes
  roomId : Bytes
  sframePqCt : Bytes

structure Calls where
  callsByPeer : ExtTreeMap Bytes CallEntry
  roomMeshPeers : ExtTreeMap Bytes (List Bytes)
  bootstrapDialQueue : List Bytes
  mediaQueue : List CallSignal
  /-- Calls that have been closed, as they were before, whose callbacks may still come. -/
  closing : List (Bytes × CallEntry)

inductive CallEvent
  /-- `start_call_to_pub`. -/
  | startCall (peer roomId callId pqCt : Bytes) (haveSession built : Bool)
  | acceptCall (built : Bool)
  | declineCall
  | leaveChannelCall (roomId : Bytes)
  /-- The members of a room that are dialled have changed. -/
  | roster (roomId : Bytes) (peers : List Bytes)
  | signal (peer callId : Bytes) (kind : UInt32) (payload : Bytes) (built : Bool)
  /-- The pipeline of a call has an offer, an answer or a candidate. -/
  | created (peer : Bytes) (kind : SignalKind) (payload : Bytes)
  /-- As `created`, of a call that has been closed. -/
  | createdLate (index : Nat) (kind : SignalKind) (payload : Bytes)
  /-- Qt deletes a call that has been closed. -/
  | deleted (index : Nat)
  | connectionState (peer : Bytes) (gstState : Nat)
  /-- The end of the stream, or a roster that the peer is missing from. -/
  | ended (peer : Bytes)
  /-- The worker takes the first signal of the queue. -/
  | drained

namespace Calls

def new : Calls := ⟨∅, ∅, [], [], []⟩

section

variable (P : CallPrimitives) (h : Calls)

/-- The slots of a call's signals. -/
def slot (peer : Bytes) (entry : CallEntry) : Emitted → Calls
  | .sendSignal kind payload =>
    if entry.call.isCaller ∧ kind = .offer then
      -- the ciphertext goes with the first offer, of whichever call the client has with the peer
      let pqCt := (h.callsByPeer[peer]?.map CallEntry.sframePqCt).getD []
      { h with
        callsByPeer := h.callsByPeer.modify peer fun e => { e with sframePqCt := [] }
        mediaQueue := h.mediaQueue ++ [⟨peer, entry.callId, kind.code, payload, pqCt⟩] }
    else { h with mediaQueue := h.mediaQueue ++ [⟨peer, entry.callId, kind.code, payload, []⟩] }
  | .stateChanged state =>
    if state ≠ .closed then h
    else { h with
      callsByPeer := h.callsByPeer.erase peer
      closing := h.closing ++ [(peer, entry)]
      roomMeshPeers := h.roomMeshPeers.map fun _ peers => peers.filter (· ≠ peer) }

/-- What a method of a call has done, and its signals. -/
def settle (peer : Bytes) (entry : CallEntry) (done : MediaCall × List Emitted) : Calls :=
  done.2.foldl (fun h e => h.slot peer { entry with call.isCaller := done.1.isCaller } e)
    { h with callsByPeer := h.callsByPeer.insert peer { entry with call := done.1 } }

/-- The first call that rings, whoever has dialled. -/
def firstRinging : Option (Bytes × CallEntry) :=
  h.callsByPeer.toList.find? fun e => e.2.call.state = .ringing

/-- The room that the peer is dialled in. -/
def matchedRoom (peer : Bytes) : Option Bytes :=
  h.roomMeshPeers.keys.find? fun room => (h.roomMeshPeers[room]?.getD []).contains peer

/-- An offer of a peer without a call. -/
def offered (peer callId payload : Bytes) (built : Bool) : Calls :=
  let fresh : CallEntry := ⟨.new, callId, [], []⟩
  let ringing := (fresh.call.receiveOffer payload).1
  match h.matchedRoom peer with
  | none => h.settle peer fresh (fresh.call.receiveOffer payload)
  | some roomId =>
    -- who is in a voice room accepts its members
    let entry := { fresh with call := ringing, roomId }
    h.settle peer entry (ringing.acceptIncoming P built)

/-- A signal for the call that there is. -/
def dispatched (peer : Bytes) (entry : CallEntry) (kind : UInt32) (payload : Bytes) : Calls :=
  if kind = SignalKind.answer.code then h.settle peer entry (entry.call.receiveAnswer P payload)
  else if kind = SignalKind.ice.code then h.settle peer entry (entry.call.receiveIce P payload, [])
  else if kind = SignalKind.hangup.code then h.settle peer entry (entry.call.hangup true)
  else h

/-- `leave_channel_call`, which collects the calls before it hangs up. -/
def leaveChannelCall (roomId : Bytes) : Calls :=
  let leaving := h.callsByPeer.toList.filter fun e => e.2.roomId = roomId
  let h := leaving.foldl (fun h e => h.settle e.1 e.2 (e.2.call.hangup false)) h
  { h with roomMeshPeers := h.roomMeshPeers.erase roomId }

/-- One event; `none` where it cannot happen. -/
def act : CallEvent → Option Calls
  | .startCall peer roomId callId pqCt haveSession built =>
    if h.callsByPeer.contains peer then some h
    else if !haveSession then some { h with bootstrapDialQueue := h.bootstrapDialQueue ++ [peer] }
    else
      let entry : CallEntry := ⟨.new, callId, roomId, pqCt⟩
      some (h.settle peer entry (entry.call.startOutgoing built))
  | .acceptCall built =>
    match h.firstRinging with
    | none => some h
    | some (peer, entry) => some (h.settle peer entry (entry.call.acceptIncoming P built))
  | .declineCall =>
    match h.firstRinging with
    | none => some h
    | some (peer, entry) => some (h.settle peer entry (entry.call.hangup false))
  | .leaveChannelCall roomId => some (h.leaveChannelCall roomId)
  | .roster roomId peers => some { h with roomMeshPeers := h.roomMeshPeers.insert roomId peers }
  | .signal peer callId kind payload built =>
    match h.callsByPeer[peer]? with
    | none => some (if kind = SignalKind.offer.code then h.offered P peer callId payload built else h)
    | some entry =>
      some (if kind = SignalKind.offer.code then h else h.dispatched P peer entry kind payload)
  | .created peer kind payload =>
    match h.callsByPeer[peer]? with
    | none => none
    | some entry => if entry.call.creates kind then some (h.slot peer entry (.sendSignal kind payload)) else none
  | .createdLate index kind payload =>
    match h.closing[index]? with
    | none => none
    | some (peer, entry) =>
      if entry.call.creates kind then some (h.slot peer entry (.sendSignal kind payload)) else none
  | .deleted index => some { h with closing := h.closing.eraseIdx index }
  | .connectionState peer gstState =>
    match h.callsByPeer[peer]? with
    | none => none
    | some entry =>
      -- nothing connects without the description of the peer
      if gstState = 2 ∧ !entry.call.described then none
      else some (h.settle peer entry (entry.call.onConnectionState gstState))
  | .ended peer =>
    match h.callsByPeer[peer]? with
    | none => none
    | some entry => some (h.settle peer entry (entry.call.hangup false))
  | .drained => some { h with mediaQueue := h.mediaQueue.tail }

/-- `hangup_call` calls `hangup` for each call outside of rooms from within its iteration over the map,
from which the slot erases the call; `none` is the behaviour that C++ leaves undefined. -/
def hangupCall : Option Calls :=
  if h.callsByPeer.toList.any fun e => e.2.roomId = [] ∧ e.2.call.state ≠ .closed then none else some h

end

end Calls

end FinBit.Desktop
