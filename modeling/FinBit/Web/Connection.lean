import FinBit.Handshake.Hybrid
import FinBit.Lib.Runs
import FinBit.Web.WebClient

/-! # The connection of the web client

`FinBitConnection` runs its methods on one thread. Between two `await`s a method has the thread to
itself, and at an `await` any other method may go on. What a method is suspended on is a `Task`
here; a step of the connection calls a method, hands in a frame of the server, or resumes a task.
-/

namespace FinBit.Web

open FinBit.Lib FinBit.Crypto FinBit.Handshake

/-! ### What goes over the wire -/

/-- A prekey bundle as `decodeKeyFetchResp` reads it. -/
structure DecodedBundle where
  identityPub : Bytes
  signedPrekey : Bytes
  pqPubkey : Bytes
  pqPubkeySig : Bytes

structure KeyFetchResp where
  found : Bool
  bundle : Option DecodedBundle
  requestId : Nat

/-- What a fetch resolves to; a property that the object does not have is `none`. -/
structure FetchedBundle where
  identityPub : Bytes
  signedPrekey : Bytes
  pqPubkey : Option Bytes

/-- An envelope as `decodeEnvelope` reads it. -/
structure InboundEnvelope where
  senderPubkey : Bytes
  ciphertext : Bytes
  pqCt : Bytes
  userPubkey : Option Bytes
  channelGroupId : Option Bytes

/-- An envelope of `encodeDmEnvelope`; an absent `pq_ct` is empty. -/
structure DmEnvelope where
  senderPubkey : Bytes
  recipientPubkey : Bytes
  ciphertext : Bytes
  pqCt : Bytes

inductive WebPayload
  | text (text : String)
  | channelKey (channelId : Bytes) (channelName : String) (distribution : Bytes)
  | mediaSignal (callId : Bytes) (kind : Nat) (payload : Bytes) (epoch : Nat)

/-- What the connection takes from the shim, from `finbit_pq.js` and from `finbit_proto.js`. -/
structure PageCrypto (K : Type) extends HybridCrypto K where
  /-- Whether an ML-KEM module has been vendored. -/
  pqEnabled : Bool
  encodePayload : WebPayload → Bytes
  /-- What `getExceptionMessage` makes of an exception of the shim. -/
  exceptionMessage : String → String

variable {K : Type}

namespace PageCrypto

variable (P : PageCrypto K)

/-- The ciphertext and the secret, where both may be empty. -/
def encapForPeer (peerPqPub : Bytes) (draw : Nat) : Except String (Bytes × Option K) :=
  if P.pqEnabled = false ∨ peerPqPub.length ≠ kMlKem768PubBytes then .ok ([], none)
  else
    match P.encap peerPqPub draw with
    | none => .error "encapsulate"
    | some (ct, ss) => .ok (ct, some ss)

def decapWithOwn (ct ownPqSec : Bytes) : Except String (Option K) :=
  if P.pqEnabled = false ∨ ct.length ≠ kMlKem768CtBytes ∨ ownPqSec.length ≠ 2400 then .ok none
  else
    match P.decap ownPqSec ct with
    | none => .error "decapsulate"
    | some ss => .ok (some ss)

def ed25519PubToX25519 (edPub : Bytes) : Except String Bytes :=
  if edPub.length ≠ 32 then .error "ed25519 pub must be 32B"
  else
    match P.edToCurve edPub with
    | none => .error "pk_to_curve25519 failed"
    | some out => .ok out

/-- `_tryWasm`. -/
def tryWasm (label e : String) : String :=
  label ++ ": " ++ P.exceptionMessage e

end PageCrypto

/-- `derive_shared_secret` of the shim. -/
def WebClient.deriveSharedSecret (P : PageCrypto K) (w : WebClient K) (peerX : Bytes) :
    Except String K :=
  if peerX.length ≠ 32 then .error "peer_x25519 must be 32B"
  else Handshake.deriveSharedSecret P.toHybridCrypto w.x25519 peerX

/-! ### Methods and tasks -/

/-- What a session is wanted for: `_sendDmDirect`, `_inviteToChannel` or `startCall`. -/
inductive Purpose
  | dm (text : String)
  | invite (channelId : Bytes) (name : String) (distribution : Bytes)
  | call

structure FetchEntry where
  username : String
  requestId : Nat

/-- What a method is suspended on. Nothing shared is touched between the `await`s inside the
derivation of a root, which is one suspension here. -/
inductive Task (K : Type)
  | fetching (purpose : Purpose) (requestId : Nat)
  | derivingSend (purpose : Purpose) (peer : FetchedBundle)
      (derived : Except String (K × Option Bytes))
  | derivingRecv (env : InboundEnvelope) (derived : Except String K)
  | ended

/-- What a step does to the outside, in order; `missed` is a `has_session` that says no before a
root is derived. -/
inductive Effect (K : Type)
  | requested (username : String) (requestId : Nat)
  | missed (peer : Bytes)
  | initialised (peer : Bytes) (root : K)
  | sent (envelope : DmEnvelope)
  | delivered (peer inner : Bytes)
  | invited (channelId peer : Bytes)
  | callStarted (peer : Bytes)
  | rejected (error : String)

structure Conn (K : Type) where
  client : WebClient K
  identityPubkey : Bytes
  /-- The secret of `_pqIdentity`. -/
  pqSec : Option Bytes
  connected : Bool
  /-- `pendingFetch` and `_pendingByReqId`, two indices into the same entries. -/
  pendingFetch : List FetchEntry
  nextFetchId : Nat
  /-- The fetches that have been answered, by their request. -/
  settled : List (Nat × Except String FetchedBundle)
  tasks : List (Task K)

inductive ConnEvent (K : Type)
  | sendDmDirect (peerUsername text : String)
  | inviteToChannel (channelId : Bytes) (name : String) (distribution : Bytes)
      (peerUsername : String)
  | startCall (peerUsername : String)
  /-- A signal of a `CallSession`, which sends them whenever it likes. -/
  | sendMediaSignal (peerPub callId : Bytes) (kind : Nat) (payload : Bytes) (epoch : Nat)
  | keyFetchResp (r : KeyFetchResp)
  | envelope (env : InboundEnvelope) (drawn : KeyPair K)
  | resume (task draw : Nat) (drawn : KeyPair K)

namespace Purpose

/-- What the session carries first; a call sends its signals later. -/
def payload : Purpose → Option WebPayload
  | dm text => some (.text text)
  | invite channelId name distribution => some (.channelKey channelId name distribution)
  | call => none

def finished (peerPub : Bytes) : Purpose → List (Effect K)
  | dm _ => []
  | invite channelId .. => [.invited channelId peerPub]
  | call => [.callStarted peerPub]

end Purpose

namespace Conn

variable (P : PageCrypto K) (c : Conn K)

/-- The connection before any method has been called. -/
def opened (client : WebClient K) (identityPubkey : Bytes) (pqSec : Option Bytes) : Conn K :=
  ⟨client, identityPubkey, pqSec, true, [], 1, [], []⟩

def spawn (t : Task K) : Conn K :=
  { c with tasks := c.tasks ++ [t] }

def setTask (i : Nat) (t : Task K) : Conn K :=
  { c with tasks := c.tasks.set i t }

/-- `_hybridSharedForSend`. -/
def hybridSharedForSend (peerX : Bytes) (peerBundle : FetchedBundle) (draw : Nat) :
    Except String (K × Option Bytes) := do
  let ssX ← c.client.deriveSharedSecret P peerX
  if P.pqEnabled = false ∨ peerBundle.pqPubkey.getD [] = [] then return (ssX, none)
  else
    match ← P.encapForPeer (peerBundle.pqPubkey.getD []) draw with
    | ([], _) | (_, none) => return (ssX, none)
    | (ct, some ss) => return (P.combine ssX ss, some ct)

/-- `_hybridSharedForRecv`. -/
def hybridSharedForRecv (peerX envelopePqCt : Bytes) : Except String K := do
  let ssX ← c.client.deriveSharedSecret P peerX
  if P.pqEnabled = false ∨ envelopePqCt = [] ∨ c.pqSec.getD [] = [] then return ssX
  else
    match ← P.decapWithOwn envelopePqCt (c.pqSec.getD []) with
    | none => return ssX
    | some ssPq => return P.combine ssX ssPq

/-- `_fetchKeyBundle`, for a method that goes on with the bundle. -/
def fetchKeyBundle (purpose : Purpose) (peerUsername : String) : Conn K × List (Effect K) :=
  match c.pendingFetch.find? (·.username = peerUsername) with
  | some existing => (c.spawn (.fetching purpose existing.requestId), [])
  | none =>
    ({ c with
        pendingFetch := c.pendingFetch ++ [⟨peerUsername, c.nextFetchId⟩]
        nextFetchId := c.nextFetchId + 1
        tasks := c.tasks ++ [.fetching purpose c.nextFetchId] },
      [.requested peerUsername c.nextFetchId])

/-- `_onMessage` on a `key_fetch_resp`. -/
def onKeyFetchResp (r : KeyFetchResp) : Conn K × List (Effect K) :=
  let entry :=
    if r.requestId ≠ 0 ∧ c.pendingFetch.any (·.requestId = r.requestId) then
      c.pendingFetch.find? (·.requestId = r.requestId)
    else c.pendingFetch.head?
  match entry with
  | none => (c, [])
  | some entry =>
    let c := { c with pendingFetch := c.pendingFetch.filter (·.requestId ≠ entry.requestId) }
    if r.found = false then
      ({ c with settled := (entry.requestId, .error "peer not registered") :: c.settled }, [])
    else
      match r.bundle with
      | none => (c, []) -- a `TypeError`, and the promise is never settled
      | some bundle =>
        let fetched : FetchedBundle := ⟨bundle.identityPub, bundle.signedPrekey, none⟩
        ({ c with settled := (entry.requestId, .ok fetched) :: c.settled }, [])

/-- A response settles one fetch at most, and never with a post-quantum key. -/
theorem onKeyFetchResp_cases (r : KeyFetchResp) :
    ∃ pending settled,
      c.onKeyFetchResp r = ({ c with pendingFetch := pending, settled := settled }, []) ∧
      ∀ answer ∈ settled, answer ∈ c.settled ∨ ∀ peer, answer.2 = .ok peer → peer.pqPubkey = none := by
  unfold onKeyFetchResp
  dsimp only
  split
  · exact ⟨_, _, rfl, fun _ => .inl⟩
  next entry _ =>
  split
  · refine ⟨_, _, rfl, fun answer member => ?_⟩
    rcases List.mem_cons.mp member with rfl | earlier
    · exact .inr fun peer refused => by cases refused
    · exact .inl earlier
  split
  · exact ⟨_, _, rfl, fun _ => .inl⟩
  · refine ⟨_, _, rfl, fun answer member => ?_⟩
    rcases List.mem_cons.mp member with rfl | earlier
    · refine .inr fun peer found => ?_
      cases found
      rfl
    · exact .inl earlier

/-- `ratchet_encrypt` and the envelope around it. -/
def sendPayload (peerPub : Bytes) (payload : WebPayload) (pqCt : Option Bytes)
    (finished : List (Effect K)) : Conn K × List (Effect K) :=
  match c.client.ratchetEncrypt P.toRatchetCrypto peerPub (P.encodePayload payload) with
  | (w, .error e) => ({ c with client := w }, [.rejected (P.tryWasm "ratchet_encrypt" e)])
  | (w, .ok message) =>
    ({ c with client := w },
      .sent ⟨c.identityPubkey, peerPub, message.getD [], pqCt.getD []⟩ :: finished)

/-- What follows in a method once there is a session. -/
def goOn (purpose : Purpose) (peerPub : Bytes) (pqCt : Option Bytes) : Conn K × List (Effect K) :=
  match purpose.payload with
  | none => (c, purpose.finished peerPub)
  | some payload => c.sendPayload P peerPub payload pqCt (purpose.finished peerPub)

/-- The bundle has come; without a session, the root is derived next. -/
def haveBundle (i : Nat) (purpose : Purpose) (peer : FetchedBundle) (draw : Nat) :
    Conn K × List (Effect K) :=
  if (c.client.sessions peer.identityPub).isSome then
    (c.setTask i .ended).goOn P purpose peer.identityPub none
  else
    (c.setTask i (.derivingSend purpose peer (c.hybridSharedForSend P peer.signedPrekey peer draw)),
      [.missed peer.identityPub])

/-- The root is there, and the session is made without looking again. -/
def haveRoot (purpose : Purpose) (peer : FetchedBundle) (drawn : KeyPair K) :
    Except String (K × Option Bytes) → Conn K × List (Effect K)
  | .error e => (c, [.rejected e])
  | .ok (shared, pqCt) =>
    match c.client.ratchetInitAlice P.toRatchetCrypto peer.identityPub shared peer.signedPrekey
      drawn with
    | (w, .error e) => ({ c with client := w }, [.rejected (P.tryWasm "ratchet_init_alice" e)])
    | (w, .ok _) =>
      let (c, effects) := { c with client := w }.goOn P purpose peer.identityPub pqCt
      (c, .initialised peer.identityPub shared :: effects)

def decryptInbound (env : InboundEnvelope) (drawn : KeyPair K) : Conn K × List (Effect K) :=
  match c.client.ratchetDecrypt P.toRatchetCrypto env.senderPubkey drawn env.ciphertext with
  | (w, .error e) => ({ c with client := w }, [.rejected e])
  | (w, .ok none) => ({ c with client := w }, [])
  | (w, .ok (some inner)) => ({ c with client := w }, [.delivered env.senderPubkey inner])

/-- `_handleInboundEnvelope`, up to the payload of a direct message. Channel messages go to the
sender keys and touch no session. -/
def handleInboundEnvelope (env : InboundEnvelope) (drawn : KeyPair K) :
    Conn K × List (Effect K) :=
  if env.channelGroupId.isSome ∨ env.userPubkey = none then (c, [])
  else if (c.client.sessions env.senderPubkey).isSome then c.decryptInbound P env drawn
  else
    match P.ed25519PubToX25519 env.senderPubkey with
    | .error e => (c, [.rejected e])
    | .ok peerX =>
      (c.spawn (.derivingRecv env (c.hybridSharedForRecv P peerX env.pqCt)),
        [.missed env.senderPubkey])

/-- The root of an inbound session is there. -/
def haveInboundRoot (env : InboundEnvelope) (drawn : KeyPair K) :
    Except String K → Conn K × List (Effect K)
  | .error e => (c, [.rejected e])
  | .ok shared =>
    match c.client.ratchetInitBob P.toRatchetCrypto env.senderPubkey shared with
    | (w, .error e) => ({ c with client := w }, [.rejected e])
    | (w, .ok _) =>
      let (c, effects) := { c with client := w }.decryptInbound P env drawn
      (c, .initialised env.senderPubkey shared :: effects)

/-- A task goes on when what it waits for has come. -/
def resume (i draw : Nat) (drawn : KeyPair K) : Conn K × List (Effect K) :=
  match c.tasks[i]? with
  | some (.fetching purpose requestId) =>
    match c.settled.lookup requestId with
    | none => (c, [])
    | some (.error e) => (c.setTask i .ended, [.rejected e])
    | some (.ok peer) => c.haveBundle P i purpose peer draw
  | some (.derivingSend purpose peer derived) =>
    (c.setTask i .ended).haveRoot P purpose peer drawn derived
  | some (.derivingRecv env derived) => (c.setTask i .ended).haveInboundRoot P env drawn derived
  | some .ended | none => (c, [])

def step : ConnEvent K → Conn K × List (Effect K)
  | .sendDmDirect peerUsername text => c.fetchKeyBundle (.dm text) peerUsername
  | .inviteToChannel channelId name distribution peerUsername =>
    c.fetchKeyBundle (.invite channelId name distribution) peerUsername
  | .startCall peerUsername =>
    if c.connected = false then (c, [.rejected "not connected"])
    else c.fetchKeyBundle .call peerUsername
  | .sendMediaSignal peerPub callId kind payload epoch =>
    c.sendPayload P peerPub (.mediaSignal callId kind payload epoch) none []
  | .keyFetchResp r => c.onKeyFetchResp r
  | .envelope env drawn => c.handleInboundEnvelope P env drawn
  | .resume task draw drawn => c.resume P task draw drawn

/-- A label of a run is an event with its effects. -/
def Steps (c : Conn K) (label : ConnEvent K × List (Effect K)) (c' : Conn K) : Prop :=
  c.step P label.1 = (c', label.2)

/-- A sequence of events. -/
def run (c : Conn K) : List (ConnEvent K) → Conn K × List (Effect K)
  | [] => (c, [])
  | e :: events =>
    let (next, effects) := c.step P e
    let (last, later) := next.run events
    (last, effects ++ later)

/-- The events one after another are a run of the transition system. -/
theorem run_steps (c : Conn K) (events : List (ConnEvent K)) :
    ∃ labels, Run (Steps P) c labels (c.run P events).1 ∧
      labels.flatMap (·.2) = (c.run P events).2 := by
  induction events generalizing c with
  | nil => exact ⟨[], .nil c, rfl⟩
  | cons e events ih =>
    obtain ⟨labels, rest, effects⟩ := ih (c.step P e).1
    refine ⟨(e, (c.step P e).2) :: labels, .cons rfl rest, ?_⟩
    rw [List.flatMap_cons, effects]
    rfl

end Conn

/-- The ratchet over numbers, with an ML-KEM key that carries its secret in its first octet. -/
noncomputable def PageCrypto.octets (pqEnabled : Bool) : PageCrypto Nat :=
  { Ratchet.octets with
    edToCurve := some
    x3dh := id
    encap := fun pub draw =>
      some (List.replicate kMlKem768CtBytes (UInt8.ofNat draw),
        (pub.headD 0).toNat + (UInt8.ofNat draw).toNat)
    decap := fun sec ct => some ((sec.headD 0).toNat + (ct.headD 0).toNat)
    combine := Nat.pair
    verify := fun _ _ _ => true
    verifyMlDsa := fun _ _ _ => true
    pqEnabled := pqEnabled
    encodePayload := fun _ => [42]
    exceptionMessage := id }

end FinBit.Web
