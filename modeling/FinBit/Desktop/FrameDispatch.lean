import FinBit.Desktop.Channels
import FinBit.Desktop.DmExceptions
import FinBit.Desktop.MlsChannel
import FinBit.Desktop.Rooms
import FinBit.Identity.UsernameGossip
import FinBit.P2P.DhtNode
import FinBit.P2P.OfflineRelay

/-! # Frame dispatch

What the worker of the desktop client does with bytes that reach it: frames of the
relay, messages of direct peers, and payloads of the two gossip topics. An exception
that leaves a handler reaches the `catch` around the whole worker loop, which reports
it and ends the worker.

Most helpers that throw are guarded: sizes are checked before, or the call stands in a
`try` block. Three calls are not, all of them on the way to a direct message: the
handshake with a new sender, the decryption under a header key of low order, and the
handshake over a fetched bundle. `handle_fails_iff` says that these are all.
-/

namespace FinBit.Desktop

open FinBit.Lib FinBit.Crypto FinBit.Handshake FinBit.Identity FinBit.P2P Std

variable {K G C J : Type}

/-! ### Messages -/

/-- `PeerEnvelope::Kind`. -/
inductive PeerKind where
  | dht
  | gossip
  | dm
  | offlineDeposit
  | offlineFetch
  | offlineDelivery
  | other

structure PeerEnvelope where
  kind : PeerKind
  senderPubkey : Bytes
  recipientPubkey : Bytes
  payload : Bytes

/-- The bodies of a `Frame` that the worker looks at. -/
inductive Frame where
  | control (usernameTaken : Bool)
  | peer (pe : PeerEnvelope)
  | roomRoster (rr : RoomRoster)
  | usernameResp (found : Bool) (pubkey username : Bytes)
  | keyFetchResp (r : KeyFetchResp)
  | envelope (env : Envelope)
  | other

/-- Bytes as they reach the worker. PeerNet tags what it takes from a gossip topic. -/
inductive Inbound where
  | relay (bytes : Bytes)
  | peerNet (bytes : Bytes)
  | channelGossip (bytes : Bytes)
  | roomGossip (bytes : Bytes)

/-! ### The worker -/

/-- `MlsGroup` as the worker uses it. A group that cannot open a message throws inside
`application_decrypt`, which catches it. -/
structure WorkerMls (G C J : Type) extends Mlspp G C J Bytes where
  unprotect : G → Bytes → G × Except String Bytes
  exportRoomSecret : G → Bytes

/-- What the worker takes from outside. -/
structure Outside (K G C J : Type) where
  dm : DmCrypto K
  senderKeys : SenderKeys K
  mls : WorkerMls G C J
  dht : DhtCrypto
  gossip : GossipCrypto
  nodeId : Bytes → NodeId
  frame : Codec Frame
  envelope : Codec Envelope

/-- Clock and randomness of one step, and what the store says to the rows of an MLS
group. -/
structure Draws (K : Type) where
  now : UInt64
  ratchet : Bytes → KeyPair K
  initAlice : KeyPair K
  encap : Nat
  mls : Nat
  persisted : Persisted
  seedPersisted : Bool

structure Worker (K G J : Type) where
  dm : DmClient K
  channels : ChannelClient K
  /-- The channels whose cipher is MLS, and their groups. -/
  usesMls : Bytes → Bool
  mls : Bytes → MlsChannel G J
  dht : Option DhtNode
  usernameGossip : Option UsernameGossip
  offlineStore : Option OfflineRelayStore
  pendingFetchTargets : List Bytes
  /-- The peers that are pinned as capable of post-quantum handshakes. -/
  pqCapable : Bytes → Bool
  rooms : Rooms
  stopRequested : Bool

namespace Worker

section

variable (P : Outside K G C J)

/-! ### Envelopes for a channel -/

/-- `application_decrypt`. -/
def applicationDecrypt (g : G) (message : Bytes) : G × Option Bytes :=
  match P.mls.unprotect g message with
  | (g, .ok pt) => (g, some pt)
  | (g, .error _) => (g, none)

/-- The channel branch on a channel with a group. The distribution is installed and
the session saved as on any other channel. -/
def dispatchMlsChannel (w : Worker K G J) (name : Bytes) (g : G) (env : Envelope) (now : UInt64) :
    Worker K G J :=
  let cs := w.channels.channels name
  let cs := { cs with
    session := ChannelClient.lazyInstall P.senderKeys cs env.senderPubkey }
  -- the distribution stays installed even when the envelope is dropped here
  if env.aadConsistent = false then { w with channels := w.channels.setChannel name cs }
  else
    let (g, pt) := applicationDecrypt P g env.ciphertext
    let mls := { w.mls name with mls := some g }
    { w with
      channels := (w.channels.surface name cs env.senderPubkey now pt).1
      mls := Function.update w.mls name mls }

/-- The group of a channel that is marked as MLS. -/
def groupOf (w : Worker K G J) (name : Bytes) : Option G :=
  if w.usesMls name then (w.mls name).mls else none

def dispatchChannelEnvelope (w : Worker K G J) (gid : Bytes) (env : Envelope) (now : UInt64) :
    Worker K G J :=
  if env.senderPubkey.length ≠ 32 then w
  else if gid.length ≠ 32 then w
  else
    match w.channels.chanIdToName gid with
    | none => w
    | some name =>
      match w.groupOf name with
      | some g => w.dispatchMlsChannel P name g env now
      | none =>
        { w with channels := (w.channels.dispatchChannel P.senderKeys env now).1 }

/-! ### Payloads of a direct message -/

/-- The handshake message of a payload, with the name of its channel. Requests and
Welcomes bring the name, the others are looked up; an empty name counts as unknown. -/
def mlsMessage (w : Worker K G J) : DmBody → Option (Bytes × MlsMessage Bytes)
  | .mlsInviteRequest _ channelName => some (channelName, .inviteRequest)
  | .mlsWelcome _ channelName welcome => some (channelName, .welcome welcome)
  | .mlsKeyPackage channelId keyPackage => (named channelId).map (·, .keyPackage keyPackage)
  | .mlsCommit channelId commit => (named channelId).map (·, .commit commit)
  | .mlsProposal channelId proposal => (named channelId).map (·, .proposal proposal)
  | _ => none
where
  named (channelId : Bytes) : Option Bytes := (w.channels.chanIdToName channelId).filter (· ≠ [])

/-- An id whose first two octets are zero counts as not set. -/
def unset (id : Bytes) : Bool := id.getD 0 0 = 0 && id.getD 1 0 = 0

/-- What a request and a Welcome do to the channel and its index, apart from the group.
A Welcome is indexed once its seed is stored. -/
def indexMls (w : Worker K G J) (completed seedPersisted : Bool) : DmBody → Worker K G J
  | .mlsInviteRequest channelId channelName =>
    let cs := w.channels.channels channelName
    let w := { w with usesMls := Function.update w.usesMls channelName true }
    -- a channel that has an id already keeps it
    if unset cs.id then
      { w with channels := { w.channels.setChannel channelName { cs with id := channelId } with
        chanIdToName := Function.update w.channels.chanIdToName channelId (some channelName) } }
    else w
  | .mlsWelcome channelId channelName _ =>
    let w := if completed then { w with usesMls := Function.update w.usesMls channelName true } else w
    if completed && seedPersisted then
      { w with channels := { w.channels with
        chanIdToName := Function.update w.channels.chanIdToName channelId (some channelName) } }
    else w
  | _ => w

/-- The body of a payload that passed the check of its branch. Whatever an MLS call
throws is caught in its branch. -/
def handleBody (w : Worker K G J) (draws : Draws K) (sender : Bytes) (body : DmBody) :
    Worker K G J :=
  match body with
  | .roomKey roomId epoch secret => { w with rooms := w.rooms.installSecret roomId epoch secret }
  | .channelKey channelId channelName distribution =>
    { w with channels :=
      w.channels.acceptChannelKey P.senderKeys sender channelId channelName distribution }
  | body =>
    match w.mlsMessage body with
    | none => w
    | some (name, message) =>
      let hasSession := hasRatchetFor w.dm.sessions
      let (cs, _) := receiveMls P.mls.toMlspp w.dm.publicKey hasSession (w.mls name) sender
        draws.mls draws.persisted message
      -- a pending join that is gone has been completed by a Welcome
      let completed := (w.mls name).pendingJoin.isSome && cs.pendingJoin.isNone
      { w with mls := Function.update w.mls name cs }.indexMls completed draws.seedPersisted body

/-- `dispatch_envelope`. -/
def dispatchEnvelope (w : Worker K G J) (draws : Draws K) (env : Envelope) :
    Except String (Worker K G J) :=
  match env.recipient with
  | .channelGroupId gid => .ok (w.dispatchChannelEnvelope P gid env draws.now)
  | _ =>
    let (sessions, outcome) := dispatchDm P.dm w.dm env draws.ratchet
    let w := { w with dm := { w.dm with sessions := sessions } }
    match outcome with
    | .threw e => .error e
    | .dropped => .ok w
    | .surfaced sender body => .ok (w.handleBody P draws sender body)

/-! ### Frames -/

/-- The sender of a peer envelope; a key of the wrong size leaves it blank. -/
def peerInfo (pe : PeerEnvelope) : PeerInfo :=
  if pe.senderPubkey.length = 32 then ⟨P.nodeId pe.senderPubkey, [], pe.senderPubkey⟩
  else ⟨.zero, [], []⟩

def observePeer (w : Worker K G J) (pe : PeerEnvelope) : Worker K G J :=
  if pe.senderPubkey.length = 32 then { w with dht := w.dht.map (·.observe (peerInfo P pe)) }
  else w

/-- A payload that does not parse is dropped. -/
def dispatchWire (w : Worker K G J) (draws : Draws K) (payload : Bytes) :
    Except String (Worker K G J) :=
  match P.envelope.decode payload with
  | none => .ok w
  | some env => w.dispatchEnvelope P draws env

/-- The switch over the kinds of a peer envelope; it stands in the relay path and in
the PeerNet path. -/
def dispatchPeer (w : Worker K G J) (draws : Draws K) (pe : PeerEnvelope) :
    Except String (Worker K G J) :=
  let from_ := peerInfo P pe
  let w := w.observePeer P pe
  match pe.kind with
  | .dht =>
    match w.dht with
    | none => .ok w
    | some node =>
      (node.onMessage P.dht from_ pe.payload draws.now).map fun (node, _) =>
        { w with dht := some node }
  | .gossip =>
    match w.usernameGossip with
    | none => .ok w
    | some g =>
      (g.onMessage P.gossip pe.payload draws.now).map fun (g, _) =>
        { w with usernameGossip := some g }
  | .dm => w.dispatchWire P draws pe.payload
  | .offlineDeposit =>
    match w.offlineStore with
    | none => .ok w
    | some store =>
      if pe.recipientPubkey.length ≠ 32 then .ok w
      else .ok { w with
        offlineStore := some (store.deposit pe.recipientPubkey pe.payload draws.now).1 }
  | .offlineFetch =>
    match w.offlineStore with
    | none => .ok w
    | some store =>
      -- the sender is the one that the envelope names, on either path
      if from_.pubkey.length ≠ 32 then .ok w
      else .ok { w with offlineStore := some (store.fetchAndClear from_.pubkey draws.now).1 }
  | .offlineDelivery => w.dispatchWire P draws pe.payload
  | .other => .ok w

/-- `pq_tofu_admit`, with the pins it leaves. -/
def pqTofuAdmit (pqCapable : Bytes → Bool) (peer : Bytes) (nowAdvertisesPq : Bool) :
    (Bytes → Bool) × Bool :=
  -- a peer that has been capable before and no longer says so
  if pqCapable peer = true ∧ nowAdvertisesPq = false then (pqCapable, false)
  else if nowAdvertisesPq then (Function.update pqCapable peer true, true)
  else (pqCapable, true)

/-- Whether `pq_tofu_admit` lets a bundle pass. -/
def admits (w : Worker K G J) (bundle : PreKeyBundle) : Bool :=
  (pqTofuAdmit w.pqCapable bundle.identityPubkey (bundle.pqPubkey ≠ [])).2

/-- The handler of `kKeyFetchResp`: the answer belongs to the oldest fetch in flight. -/
def onKeyFetchResp (w : Worker K G J) (draws : Draws K) (r : KeyFetchResp) :
    Except String (Worker K G J) :=
  let fetchedFor := w.pendingFetchTargets.headD []
  let (sessions, outcome) := keyFetchResp P.dm w.dm fetchedFor r (w.admits r.bundle)
    draws.initAlice draws.encap
  let w := { w with pendingFetchTargets := w.pendingFetchTargets.tail }
  let pinned := (pqTofuAdmit w.pqCapable r.bundle.identityPubkey (r.bundle.pqPubkey ≠ [])).1
  match outcome with
  | .ignored => .ok w
  -- without a bundle the dial that waited for it ends all the same
  | .notFound => .ok { w with rooms := w.rooms.fetched fetchedFor }
  | .refused => .ok w
  | .threw e => .error e
  | .reused | .created =>
    .ok { w with
      dm := { w.dm with sessions := sessions }
      pqCapable := pinned
      rooms := w.rooms.fetched fetchedFor }

/-- The epoch and the secret of the group behind a room. -/
def roomExport (w : Worker K G J) (roomId : Bytes) : Option (UInt32 × Bytes) :=
  ((w.channels.chanIdToName roomId).filter (· ≠ [])).bind fun name =>
    (w.groupOf name).map fun g =>
      (UInt32.ofNat (P.mls.epoch (P.mls.core g)), P.mls.exportRoomSecret g)

def onRoster (w : Worker K G J) (rr : RoomRoster) : Worker K G J :=
  let rooms := w.rooms.applyRoomRoster w.dm.publicKey (hasRatchetFor w.dm.sessions)
    (w.roomExport P rr.roomId) rr
  { w with rooms := rooms }

/-- The frame dispatch of the worker loop. -/
def onFrame (w : Worker K G J) (draws : Draws K) : Frame → Except String (Worker K G J)
  | .control usernameTaken => .ok { w with stopRequested := w.stopRequested || usernameTaken }
  | .peer pe => w.dispatchPeer P draws pe
  | .roomRoster rr => .ok (w.onRoster P rr)
  | .usernameResp found pubkey username =>
    let (rooms, fetch) := w.rooms.usernameResp found pubkey username
    .ok { w with rooms := rooms, pendingFetchTargets := w.pendingFetchTargets ++ fetch.toList }
  | .keyFetchResp r => w.onKeyFetchResp P draws r
  | .envelope env => w.dispatchEnvelope P draws env
  | .other => .ok w

/-- A message as it reaches the worker. -/
def handle (w : Worker K G J) (draws : Draws K) : Inbound → Except String (Worker K G J)
  | .relay bytes =>
    match P.frame.decode bytes with
    | none => .ok w
    | some frame => w.onFrame P draws frame
  | .peerNet bytes =>
    match P.frame.decode bytes with
    | some (.peer pe) => w.dispatchPeer P draws pe
    -- a direct peer may send nothing but peer envelopes
    | _ => .ok w
  | .channelGossip bytes => w.dispatchWire P draws bytes
  | .roomGossip bytes =>
    match P.frame.decode bytes with
    | some (.roomRoster rr) =>
      if rr.roomId.length ≠ 32 then .ok w
      else
        let (rooms, roster) := w.rooms.mergeBeacon w.dm.publicKey rr
        .ok ({ w with rooms := rooms }.onRoster P roster)
    | _ => .ok w

/-! ### What envelopes leave alone -/

/-- Two workers with the same sessions, the same pins and the same offline queues. -/
structure Beside (w w' : Worker K G J) : Prop where
  dm : w'.dm = w.dm
  pqCapable : w'.pqCapable = w.pqCapable
  offlineStore : w'.offlineStore = w.offlineStore

theorem beside_indexMls (w : Worker K G J) (completed seedPersisted : Bool) (body : DmBody) :
    w.Beside (w.indexMls completed seedPersisted body) := by
  unfold indexMls
  split
  · dsimp only
    split <;> exact ⟨rfl, rfl, rfl⟩
  · dsimp only
    split <;> split <;> exact ⟨rfl, rfl, rfl⟩
  · exact ⟨rfl, rfl, rfl⟩

/-- Sessions are through with a payload when its body is handled. -/
theorem beside_handleBody (w : Worker K G J) (draws : Draws K) (sender : Bytes) (body : DmBody) :
    w.Beside (w.handleBody P draws sender body) := by
  unfold handleBody
  split
  · exact ⟨rfl, rfl, rfl⟩
  · exact ⟨rfl, rfl, rfl⟩
  · split
    · exact ⟨rfl, rfl, rfl⟩
    · -- the group changes, then the index
      have indexed := beside_indexMls (K := K) (G := G) (J := J)
      exact ⟨(indexed _ _ _ _).dm, (indexed _ _ _ _).pqCapable, (indexed _ _ _ _).offlineStore⟩

theorem beside_dispatchChannelEnvelope (w : Worker K G J) (gid : Bytes) (env : Envelope)
    (now : UInt64) : w.Beside (w.dispatchChannelEnvelope P gid env now) := by
  unfold dispatchChannelEnvelope
  split
  · exact ⟨rfl, rfl, rfl⟩
  split
  · exact ⟨rfl, rfl, rfl⟩
  split
  · exact ⟨rfl, rfl, rfl⟩
  split
  · unfold dispatchMlsChannel
    dsimp only
    split <;> exact ⟨rfl, rfl, rfl⟩
  · exact ⟨rfl, rfl, rfl⟩

end

/-! ### What throws -/

section

variable (P : Outside K G C J) (w : Worker K G J) (draws : Draws K)

/-- The envelopes over which `dispatch_envelope` throws. -/
def EnvelopeFatal (env : Envelope) : Prop :=
  (∀ gid, env.recipient ≠ .channelGroupId gid) ∧ DmFatal P.dm w.dm env draws.ratchet

/-- A serialized envelope of that kind. -/
def WireFatal (payload : Bytes) : Prop :=
  ∃ env, P.envelope.decode payload = some env ∧ w.EnvelopeFatal P draws env

/-- Peer envelopes throw only over the envelope they carry. -/
def PeerFatal (pe : PeerEnvelope) : Prop :=
  (pe.kind = .dm ∨ pe.kind = .offlineDelivery) ∧ w.WireFatal P draws pe.payload

/-- The frames over which the worker throws. -/
def FrameFatal : Frame → Prop
  | .peer pe => w.PeerFatal P draws pe
  | .keyFetchResp r =>
    FetchFatal P.dm w.dm (w.pendingFetchTargets.headD []) r (w.admits r.bundle) draws.initAlice
      draws.encap
  | .envelope env => w.EnvelopeFatal P draws env
  | _ => False

/-- The messages over which the worker throws. -/
def Fatal : Inbound → Prop
  | .relay bytes => ∃ frame, P.frame.decode bytes = some frame ∧ w.FrameFatal P draws frame
  | .peerNet bytes => ∃ pe, P.frame.decode bytes = some (.peer pe) ∧ w.PeerFatal P draws pe
  | .channelGossip bytes => w.WireFatal P draws bytes
  | .roomGossip _ => False

theorem dispatchEnvelope_fails_iff (env : Envelope) :
    Fails (w.dispatchEnvelope P draws env) ↔ w.EnvelopeFatal P draws env := by
  unfold dispatchEnvelope EnvelopeFatal
  split
  next gid addressed => simp [addressed]
  next other =>
    have direct : ∀ gid, env.recipient ≠ .channelGroupId gid := fun gid same => other gid same
    -- handling the body throws nothing, so the pass over the sessions decides
    rw [← dispatchDm_throws_iff]
    simp only [direct, ne_eq, not_false_eq_true, implies_true, true_and]
    cases (dispatchDm P.dm w.dm env draws.ratchet).2 <;> simp [DmOutcome.Throws]

theorem dispatchWire_fails_iff (payload : Bytes) :
    Fails (w.dispatchWire P draws payload) ↔ w.WireFatal P draws payload := by
  unfold dispatchWire WireFatal
  cases P.envelope.decode payload with
  | none => simp
  | some env => simp [dispatchEnvelope_fails_iff]

/-- Observing the sender does not matter to an envelope. -/
theorem wireFatal_observePeer (pe : PeerEnvelope) (payload : Bytes) :
    (w.observePeer P pe).WireFatal P draws payload ↔ w.WireFatal P draws payload := by
  unfold observePeer
  split <;> rfl

theorem dispatchPeer_fails_iff (pe : PeerEnvelope) :
    Fails (w.dispatchPeer P draws pe) ↔ w.PeerFatal P draws pe := by
  unfold dispatchPeer PeerFatal
  cases kind : pe.kind with
  | dht =>
    dsimp only
    split
    · simp
    · simp [DhtNode.not_fails_onMessage]
  | gossip =>
    dsimp only
    split
    · simp
    · simp [UsernameGossip.not_fails_onMessage]
  | dm => simp [dispatchWire_fails_iff, wireFatal_observePeer]
  | offlineDeposit | offlineFetch =>
    dsimp only
    split
    · simp
    · simp [fails_ite_ok]
  | offlineDelivery => simp [dispatchWire_fails_iff, wireFatal_observePeer]
  | other => simp

theorem onKeyFetchResp_fails_iff (r : KeyFetchResp) :
    Fails (w.onKeyFetchResp P draws r) ↔ w.FrameFatal P draws (.keyFetchResp r) := by
  simp only [onKeyFetchResp, FrameFatal, ← keyFetchResp_throws_iff]
  cases (keyFetchResp P.dm w.dm (w.pendingFetchTargets.headD []) r (w.admits r.bundle)
    draws.initAlice draws.encap).2 <;> simp [FetchOutcome.Throws]

theorem onFrame_fails_iff (frame : Frame) :
    Fails (w.onFrame P draws frame) ↔ w.FrameFatal P draws frame := by
  cases frame with
  | peer pe => exact dispatchPeer_fails_iff P w draws pe
  | keyFetchResp r => exact onKeyFetchResp_fails_iff P w draws r
  | envelope env => exact dispatchEnvelope_fails_iff P w draws env
  | control | roomRoster | usernameResp | other => simp [onFrame, FrameFatal]

/-- The worker throws over the messages of `Fatal` and over no others. -/
theorem handle_fails_iff (message : Inbound) :
    Fails (w.handle P draws message) ↔ w.Fatal P draws message := by
  cases message with
  | relay bytes =>
    simp only [handle, Fatal]
    cases decoded : P.frame.decode bytes with
    | none => simp
    | some frame => simp [onFrame_fails_iff]
  | peerNet bytes =>
    simp only [handle, Fatal]
    split
    next pe decoded => simp [decoded, dispatchPeer_fails_iff]
    next other =>
      simp only [not_fails_ok, false_iff, not_exists, not_and]
      intro pe decoded
      exact absurd decoded (other pe)
  | channelGossip bytes => exact dispatchWire_fails_iff P w draws bytes
  | roomGossip bytes =>
    simp only [handle, Fatal]
    split
    · simp [fails_ite_ok]
    · simp

end

end Worker

/-! ### Runs -/

/-- The worker loop as a whole: it runs, or an exception has ended it. -/
inductive WorkerStatus (K G J : Type) where
  | running (w : Worker K G J)
  | ended (what : String)

inductive WorkerEvent (K : Type) where
  | received (draws : Draws K) (message : Inbound)
  | between

def WorkerStatus.Running : WorkerStatus K G J → Prop
  | .running _ => True
  | .ended _ => False

/-- One message, or anything else that the worker does between two messages. -/
inductive WorkerStep (P : Outside K G C J) :
    WorkerStatus K G J → WorkerEvent K → WorkerStatus K G J → Prop
  | handled {w w' : Worker K G J} {draws : Draws K} {message : Inbound}
      (ok : w.handle P draws message = .ok w') :
      WorkerStep P (.running w) (.received draws message) (.running w')
  | thrown {w : Worker K G J} {draws : Draws K} {message : Inbound} {what : String}
      (error : w.handle P draws message = .error what) :
      WorkerStep P (.running w) (.received draws message) (.ended what)
  | between (w w' : Worker K G J) : WorkerStep P (.running w) .between (.running w')

/-- The steps that bring no fatal message. -/
def SafeEvent (P : Outside K G C J) : WorkerStatus K G J → WorkerEvent K → Prop
  | .running w, .received draws message => ¬w.Fatal P draws message
  | _, _ => True

/-- A fatal message always ends the worker, and a run without one never does. -/
theorem worker_keeps_running (P : Outside K G C J) (w : Worker K G J) :
    (∀ draws message, w.Fatal P draws message →
      ∀ t, WorkerStep P (.running w) (.received draws message) t → ¬t.Running) ∧
    ∀ events t, Run (Guarded (WorkerStep P) (SafeEvent P)) (.running w) events t → t.Running := by
  constructor
  · intro draws message fatal t step
    cases step with
    | handled ok =>
      have fails := (Worker.handle_fails_iff P w draws message).mpr fatal
      rw [ok] at fails
      exact absurd fails (not_fails_ok _)
    | thrown error => exact id
  · intro events t run
    apply run.invariant WorkerStatus.Running _ trivial
    rintro s event t running ⟨safe, step⟩
    cases step with
    | handled ok => trivial
    | @thrown w draws message what error =>
      refine absurd ?_ safe
      rw [← Worker.handle_fails_iff, error]
      exact fails_error what
    | between w w' => trivial

/-! ### A short KEM ciphertext -/

deriving instance Countable for Recipient, Envelope, PreKeyBundle, KeyFetchResp, RoomMember,
  RoomRoster, PeerKind, PeerEnvelope, Frame

/-- Direct messages over numbers as keys, and no MLS group. -/
noncomputable def Outside.nat : Outside Nat Unit Unit Unit where
  dm := .nat
  senderKeys := .nat
  mls := {
    core := id
    epoch _ := 0
    memberIdentities _ := []
    proposeAddMember _ _ := .error "no group"
    handleProposal _ _ := .error "no group"
    commitPending _ _ := .error "no group"
    applyCommit _ _ := .error "no group"
    startJoin _ _ := .ok ()
    keyPackage _ := []
    complete _ _ := .error "no group"
    unprotect g _ := (g, .error "no group")
    exportRoomSecret _ := [] }
  dht := ⟨fun key message sig => sig = natSign key message, .ofCountable _⟩
  gossip := ⟨fun key message sig => sig = natSign key message, .ofCountable _⟩
  nodeId key := Vector.replicate kNodeIdBytes (key.getLastD 0)
  frame := .ofCountable _
  envelope := .ofCountable _

def noRooms : Rooms where
  members _ := ∅
  meshPeers _ := ∅
  gossipKnown _ := ∅
  activeVoiceRooms _ := none
  leafForwarderOf _ := none
  secrets _ := (0, List.replicate 32 0)
  pendingMeshDials := ∅
  meshBootstrapPending _ := none
  forwarderDial := false

/-- A worker that has just connected, of a user without any contact. -/
noncomputable def connected : Worker Nat Unit Unit where
  dm := ⟨natPoint 1, ⟨natPoint 1, 1⟩, [], ∅⟩
  channels := .new
  usesMls _ := false
  mls _ := ⟨none, none⟩
  dht := some ⟨.new (Outside.nat.nodeId (natPoint 1)), ⟨∅, ∅⟩, ⟨∅, ∅⟩⟩
  usernameGossip := some ⟨[], 0⟩
  offlineStore := some fun _ => []
  pendingFetchTargets := []
  pqCapable _ := false
  rooms := noRooms
  stopRequested := false

def natDraws : Draws Nat :=
  ⟨0, fun _ => ⟨natPoint 3, 3⟩, ⟨natPoint 4, 4⟩, 0, 0, ⟨true, true⟩, true⟩

/-- An envelope of an unknown sender, with one octet in the place of a ciphertext. -/
private def shortKem : Envelope :=
  ⟨[], 0, [], .userPubkey (natPoint 1), natPoint 2, [], [0]⟩

private noncomputable def shortKemFrame : Inbound :=
  .relay (Outside.nat.frame.encode (.envelope shortKem))

private theorem shortKem_fatal : connected.Fatal Outside.nat natDraws shortKemFrame := by
  refine ⟨.envelope shortKem, Codec.decode_encode _ _, by simp [shortKem], ?_⟩
  have sized : (natPoint 2).length = 32 := by simp [natPoint]
  apply DmFatal.plain sized
  apply PlainFatal.handshake
  refine ⟨by simp [connected, Sessions.ratchetAt], natPoint 2, ?_, ?_⟩
  · simp [Outside.nat, DmCrypto.nat, shortKem, sized]
  · exact .size (by simp [shortKem]) (by simp [shortKem, kMlKem768CtBytes])

/-- One frame ends the worker. -/
theorem short_kem_ends_worker :
    ∃ t, Run (WorkerStep Outside.nat) (.running connected) [.received natDraws shortKemFrame] t ∧
      ¬t.Running := by
  obtain ⟨what, thrown⟩ :=
    (Worker.handle_fails_iff Outside.nat connected natDraws shortKemFrame).mpr shortKem_fatal
  exact ⟨.ended what, .cons (.thrown thrown) (.nil _), id⟩

/-- The same worker survives an empty frame. -/
theorem worker_keeps_running_connected :
    connected.Fatal Outside.nat natDraws shortKemFrame ∧
    (∀ t, WorkerStep Outside.nat (.running connected) (.received natDraws shortKemFrame) t →
      ¬t.Running) ∧
    ∃ t, Run (Guarded (WorkerStep Outside.nat) (SafeEvent Outside.nat)) (.running connected)
      [.received natDraws (.relay [])] t ∧ t.Running := by
  obtain ⟨ends, survives⟩ := worker_keeps_running Outside.nat connected
  have empty : Outside.nat.frame.decode [] = none := Codec.ofCountable_decode_nil _
  have run : Run (Guarded (WorkerStep Outside.nat) (SafeEvent Outside.nat)) (.running connected)
      [.received natDraws (.relay [])] (.running connected) := by
    refine .cons ⟨?_, .handled ?_⟩ (.nil _)
    · rintro ⟨frame, decoded, -⟩
      rw [empty] at decoded
      cases decoded
    · simp [Worker.handle, empty]
  exact ⟨shortKem_fatal, ends _ _ shortKem_fatal, _, run, survives _ _ run⟩

end FinBit.Desktop
