import FinBit.Lib.Runs
import FinBit.Media.MediaFrames

/-! # A call in the browser

A session is an object with one method that goes on (`startOutgoing` or `accept`), the handlers of the
peer's signals, which come one after the other, and the hang-ups. Each pauses at its awaits, where any
of the others can run. A session that has been torn down has no peer connection any more, but a method
that still waits goes on from where it stands.
-/

namespace FinBit.Web

open FinBit.Lib FinBit.Media

/-- `CallSession.state`. -/
inductive CallPhase
  | idle | ringing | connecting | live | closed
  deriving DecidableEq

inductive CallRole
  | caller | callee
  deriving DecidableEq

/-- `RTCPeerConnection.signalingState`, as far as a session gets. -/
inductive SignalingState
  | stable | haveLocalOffer | haveRemoteOffer
  deriving DecidableEq

/-- `RTCPeerConnection`. -/
structure PeerConnection where
  /-- There is a `remoteDescription`. -/
  remote : Bool
  signaling : SignalingState
  /-- What `addIceCandidate` was called with. -/
  given : List Bytes

/-- The `await` at which `startOutgoing` or `accept` pauses. -/
inductive CallStage
  | building (withVideo : Bool)
  | capturing (withVideo : Bool)
  | adding
  | derivingKey
  | creatingOffer
  | settingOffer (sdp : Bytes)
  | sendingOffer
  /-- `setRemoteDescription`; the browser may have done it before the method goes on. -/
  | settingRemote (applied : Bool)
  | draining (next : Nat)
  | creatingAnswer
  | settingAnswer (sdp : Bytes)
  | sendingAnswer
  deriving DecidableEq

/-- The `await` at which the handler of a signal pauses. -/
inductive SignalStage
  | settingRemote (applied : Bool)
  | draining (next : Nat)
  | giving
  deriving DecidableEq

/-- The transform of a sender, with what it has captured. -/
structure SendTransform where
  baseKey : Option Bytes
  epoch : UInt32
  counter : Nat
  errored : Bool

/-- `CallSession`. -/
structure CallSession where
  callId : Bytes
  sharedSecret : Bytes
  role : Option CallRole
  state : CallPhase
  pc : Option PeerConnection
  /-- `localStream`, and whether its tracks are live. -/
  localStream : Option Bool
  sframeBaseKey : Option Bytes
  sframeEpoch : UInt32
  pendingIce : List Bytes
  offerSdp : Bytes
  /-- The senders; one without a transform sends what the encoder gives. -/
  sending : List (Option SendTransform)
  /-- The base keys of the receivers; one without a transform plays what comes. -/
  receiving : List (Option (Option Bytes))
  /-- The page has called its method. -/
  begun : Bool
  method : Option CallStage
  handler : Option SignalStage
  /-- The calls of `hangup` that wait for their signal to be sent. -/
  hangingUp : Nat
  /-- The frames that have left. -/
  spoken : List Bytes

/-- What a session lets others know. -/
inductive SessionNews
  | statechange (state : CallPhase)
  /-- A call of `sendSignal`. -/
  | signal (kind : UInt32) (payload : Bytes)

inductive SessionEvent
  | startOutgoing (withVideo : Bool)
  | accept (withVideo : Bool)
  /-- What the method waits for is there; a description, where it is one. -/
  | resolved (sdp : Bytes)
  | rejected
  /-- The browser takes on the remote description. -/
  | applied
  | receiveOffer (sdp : Bytes)
  | receiveAnswer
  | receiveIce (json : Bytes)
  | hungUp
  /-- What the handler of a signal waits for is there, or fails. -/
  | handled (fulfilled : Bool)
  | hangup
  | hangupSent
  /-- `onconnectionstatechange`; `none` for a state that nothing depends on. -/
  | connection (connected : Option Bool)
  /-- `ontrack`. -/
  | track
  /-- The encoder of a sender has a frame. -/
  | frame (sender : Nat) (plaintext : Bytes)

/-- What a session uses of the browser. -/
structure Browser where
  hkdf : Hkdf
  aead : NonceAead
  /-- There is `createEncodedStreams`. -/
  encodedStreams : Bool
  /-- `JSON.parse`. -/
  parse : Bytes → Option Bytes

namespace CallSession

/-- The constructor. -/
def new (callId sharedSecret : Bytes) : CallSession :=
  ⟨callId, sharedSecret, none, .idle, none, none, none, 1, [], [], [], [], false, none, none, 0, []⟩

section

variable (B : Browser) (s : CallSession)

/-- `hkdf32` of the shared secret, for this call. -/
def callKey : Bytes :=
  let info := ascii "FinBit-SFrame-call-v1-" ++ lowerHex s.callId
  (B.hkdf.expand (B.hkdf.extract [] s.sharedSecret) info 32).take 32

/-- `_setState`. -/
def setState (state : CallPhase) : CallSession × List SessionNews :=
  ({ s with state }, [.statechange state])

/-- `_teardown`. -/
def teardown : CallSession × List SessionNews :=
  if s.state = .closed then (s, [])
  else { s with localStream := s.localStream.map fun _ => false, pc := none }.setState .closed

/-- The method ends, with an error or at its end. -/
def ends : CallSession × List SessionNews := ({ s with method := none }, [])

/-- `addIceCandidate`, where there is a connection. -/
def give (candidate : Bytes) : CallSession :=
  { s with pc := s.pc.map fun p => { p with given := p.given ++ [candidate] } }

/-- The loop over the candidates that have waited, from a place on, up to its next `await`; there is
one loop at a time. Without a connection each round throws before it waits, and the loop catches it. -/
def drain (next : Nat) : CallSession × Option Nat :=
  match s.pc, s.pendingIce[next]? with
  | some _, some candidate => (s.give candidate, some (next + 1))
  | _, _ => ({ s with pendingIce := [] }, none)

/-- `accept`, from a place in its loop on. -/
def acceptFrom (next : Nat) : CallSession × List SessionNews :=
  match s.drain next with
  | (s, some next) => ({ s with method := some (.draining next) }, [])
  | (s, none) =>
    match s.pc with
    | none => s.ends
    | some _ => ({ s with method := some .creatingAnswer }, [])

/-- `receiveAnswer`, from a place in its loop on. -/
def answerFrom (next : Nat) : CallSession × List SessionNews :=
  match s.drain next with
  | (s, some next) => ({ s with handler := some (.draining next) }, [])
  | (s, none) => { s with handler := none }.setState .connecting

/-- `_installSendTransform`, with the key that there is at that time. -/
def sendTransform : Option SendTransform :=
  if B.encodedStreams then some ⟨s.sframeBaseKey, s.sframeEpoch, 0, false⟩ else none

/-- The method goes on from its `await`. -/
def resume (sdp : Bytes) : CallStage → Option (CallSession × List SessionNews)
  | .building withVideo => some ({ s with method := some (.capturing withVideo) }, [])
  | .capturing withVideo =>
    let s := { s with localStream := some true }
    match s.pc with
    -- `addTrack` of no connection
    | none => some s.ends
    | some _ =>
      let tracks := if withVideo then 2 else 1
      some ({ s with sending := List.replicate tracks (s.sendTransform B), method := some .adding }, [])
  | .adding => some ({ s with method := some .derivingKey }, [])
  | .derivingKey =>
    let s := { s with sframeBaseKey := some (s.callKey B) }
    match s.pc, s.role with
    | some _, some .caller => some ({ s with method := some .creatingOffer }, [])
    | some _, some .callee => some ({ s with method := some (.settingRemote false) }, [])
    | _, _ => some s.ends
  | .creatingOffer =>
    match s.pc with
    | none => some s.ends
    | some _ => some ({ s with method := some (.settingOffer sdp) }, [])
  | .settingOffer offer =>
    let pc := s.pc.map fun p => { p with signaling := .haveLocalOffer }
    let (s, news) := { s with pc, method := some .sendingOffer }.setState .ringing
    some (s, news ++ [.signal 1 offer])
  | .sendingOffer => some s.ends
  | .settingRemote true => some (s.acceptFrom 0)
  | .settingRemote false => none
  | .draining next => some (s.acceptFrom next)
  | .creatingAnswer =>
    match s.pc with
    | none => some s.ends
    | some _ => some ({ s with method := some (.settingAnswer sdp) }, [])
  | .settingAnswer answer =>
    let pc := s.pc.map fun p => { p with signaling := .stable }
    some ({ s with pc, method := some .sendingAnswer }, [.signal 2 answer])
  | .sendingAnswer => some ({ s with method := none }.setState .connecting)

/-- The browser takes on the remote description that a method or a handler waits for. -/
def apply (p : PeerConnection) : Option CallSession :=
  match p.signaling, s.method, s.handler with
  | .stable, some (.settingRemote false), _ =>
    let pc := some { p with remote := true, signaling := .haveRemoteOffer }
    some { s with pc, method := some (.settingRemote true) }
  | .haveLocalOffer, _, some (.settingRemote false) =>
    let pc := some { p with remote := true, signaling := .stable }
    some { s with pc, handler := some (.settingRemote true) }
  | _, _, _ => none

/-- `receiveIce`. -/
def receiveIce (json : Bytes) : CallSession :=
  match B.parse json, s.pc with
  | none, _ => s
  | some candidate, some ⟨true, _, _⟩ => { s.give candidate with handler := some .giving }
  | some candidate, _ => { s with pendingIce := s.pendingIce ++ [candidate] }

/-- A frame of a sender, through its transform. -/
def speak (sender : Nat) (plaintext : Bytes) : Option CallSession :=
  match s.sending[sender]? with
  | none => none
  | some none => some { s with spoken := s.spoken ++ [plaintext] }
  | some (some t) =>
    if t.errored then some s
    else
      match t.baseKey with
      -- `importKey` of `null` throws, which is the end of the stream
      | none => some { s with sending := s.sending.set sender (some { t with errored := true }) }
      | some key =>
        some { s with
          sending := s.sending.set sender (some { t with counter := t.counter + 1 })
          spoken := s.spoken ++ [sframeSeal B.hkdf B.aead key t.epoch t.counter plaintext] }

/-- One event; `none` where it cannot happen. -/
def act : SessionEvent → Option (CallSession × List SessionNews)
  | .startOutgoing withVideo =>
    if s.begun ∨ s.state ≠ .idle then none
    else
      let pc := some ⟨false, .stable, []⟩
      some ({ s with role := some .caller, begun := true, pc, method := some (.building withVideo) }, [])
  | .accept withVideo =>
    -- the page asks `calls` for the session, which a closed one has left
    if s.begun ∨ s.state = .closed then none
    -- thrown at the caller
    else if s.role ≠ some .callee then some (s, [])
    else
      let pc := some ⟨false, .stable, []⟩
      some ({ s with begun := true, pc, method := some (.building withVideo) }, [])
  | .resolved sdp => s.method.bind (s.resume B sdp)
  | .rejected =>
    match s.method with
    | none => none
    | some (.settingRemote true) => none
    -- the loop catches it
    | some (.draining next) => some (s.acceptFrom next)
    | some _ => some s.ends
  | .applied => (s.pc.bind s.apply).map (·, [])
  | .receiveOffer offerSdp =>
    if s.begun ∨ s.state ≠ .idle then none
    else some ({ s with role := some .callee, offerSdp }.setState .ringing)
  | .receiveAnswer =>
    if s.handler.isSome then none
    else
      match s.pc with
      | none => some (s, [])
      | some _ => some ({ s with handler := some (.settingRemote false) }, [])
  | .receiveIce json => if s.handler.isSome then none else some (s.receiveIce B json, [])
  | .hungUp => if s.handler.isSome then none else some s.teardown
  | .handled fulfilled =>
    match s.handler with
    | none => none
    | some (.settingRemote applied) =>
      if applied ≠ fulfilled then none
      else if applied then some (s.answerFrom 0)
      else some ({ s with handler := none }, [])
    | some (.draining next) => some (s.answerFrom next)
    | some .giving => some ({ s with handler := none }, [])
  | .hangup =>
    if s.state = .closed then some (s, [])
    else some ({ s with hangingUp := s.hangingUp + 1 }, [.signal 4 []])
  | .hangupSent =>
    if s.hangingUp = 0 then none else some { s with hangingUp := s.hangingUp - 1 }.teardown
  | .connection connected =>
    match s.pc, connected with
    | none, _ => none
    | some _, some true => some (s.setState .live)
    | some _, some false => some s.teardown
    | some _, none => some (s, [])
  | .track =>
    match s.pc with
    | some ⟨true, _, _⟩ =>
      let transform := if B.encodedStreams then some s.sframeBaseKey else none
      some ({ s with receiving := s.receiving ++ [transform] }, [])
    | _ => none
  | .frame sender plaintext => s.pc.bind fun _ => (s.speak B sender plaintext).map (·, [])

/-- `act`, as a step. -/
def Step (s : CallSession) (e : SessionEvent) (t : CallSession) : Prop :=
  ∃ news, s.act B e = some (t, news)

/-- All the events, one after the other. -/
def follow : List SessionEvent → CallSession → Option CallSession
  | [], now => some now
  | e :: rest, now => (now.act B e).bind fun next => follow rest next.1

end

theorem run_of_follow {B : Browser} {events : List SessionEvent} {s t : CallSession}
    (followed : follow B events s = some t) : Run (Step B) s events t := by
  induction events generalizing s with
  | nil =>
    cases followed
    exact .nil _
  | cons e rest ih =>
    obtain ⟨⟨u, news⟩, taken, followed⟩ := Option.bind_eq_some_iff.mp followed
    exact .cons ⟨news, taken⟩ (ih followed)

/-- A hang-up that begins, a track and a frame leave alone what the methods and the handlers work on. -/
theorem act_beside {B : Browser} {s t : CallSession} {e : SessionEvent} {news : List SessionNews}
    (beside : e = .hangup ∨ e = .track ∨ ∃ sender plaintext, e = .frame sender plaintext)
    (taken : s.act B e = some (t, news)) :
    ∃ hangingUp receiving sending spoken, t = { s with hangingUp, receiving, sending, spoken } := by
  obtain rfl | rfl | ⟨sender, plaintext, rfl⟩ := beside
  · rw [act] at taken
    split at taken
    all_goals
      cases taken
      exact ⟨_, _, _, _, rfl⟩
  · rw [act] at taken
    split at taken
    · cases taken
      exact ⟨_, _, _, _, rfl⟩
    · cases taken
  · obtain ⟨p, -, speaks⟩ := Option.bind_eq_some_iff.mp taken
    obtain ⟨u, goes, same⟩ := Option.map_eq_some_iff.mp speaks
    cases same
    rw [speak] at goes
    split at goes
    · cases goes
    · cases goes
      exact ⟨_, _, _, _, rfl⟩
    · split at goes
      · cases goes
        exact ⟨_, _, _, _, rfl⟩
      · split at goes
        all_goals
          cases goes
          exact ⟨_, _, _, _, rfl⟩

end CallSession

/-- A browser with transforms, and a cipher that can be computed. -/
def openBrowser : Browser := ⟨MediaCall.joined, .plain, true, some⟩

end FinBit.Web
