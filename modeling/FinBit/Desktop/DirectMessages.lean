import FinBit.Desktop.Envelope
import FinBit.Handshake.Hybrid

/-! # Direct messages

The part of `dispatch_envelope` that handles an envelope for the user: the
sealed-sender pre-pass over all sessions, the look-up or creation of the sender's
session, decryption, and the check of the payload.

Sessions are kept by name, in the order of `std::map`. Every call returns the
sessions as it leaves them, also where it drops the envelope or throws.
-/

namespace FinBit.Desktop

open FinBit.Lib FinBit.Crypto FinBit.Handshake Std

variable {K : Type}

/-! ### Payloads -/

/-- The `body` of a `DmPayload`. -/
inductive DmBody where
  | text (text : Bytes)
  | attachment (mimeType filename content : Bytes)
  | roomKey (roomId : Bytes) (epoch : UInt32) (secret : Bytes)
  | channelKey (channelId channelName distribution : Bytes)
  | shamirSharePush (setupId : UInt64) (share : Bytes) (threshold total : UInt32) (label : Bytes)
  | shamirShareRequest (setupId : UInt64) (reason : Bytes)
  | mlsInviteRequest (channelId channelName : Bytes)
  | mlsKeyPackage (channelId keyPackage : Bytes)
  | mlsWelcome (channelId channelName welcome : Bytes)
  | mlsCommit (channelId commit : Bytes)
  | mlsProposal (channelId proposal : Bytes)
  | mediaSignal (callId : Bytes) (kind : UInt32) (payload : Bytes)
  | notSet
  deriving Countable

structure DmPayload where
  body : DmBody
  sealedSenderPubkey : Bytes
  sealedSenderSig : Bytes
  ttlMs : UInt64
  deriving Countable

abbrev kMaxInlineAttachmentBytes : Nat := 256 * 1024

/-- The checks that stand at the head of each payload's branch; a body that fails
its check is dropped without a trace. -/
def DmBody.accepted : DmBody → Bool
  | .text _ => true
  | .attachment _ _ content => content.length ≤ kMaxInlineAttachmentBytes
  | .roomKey roomId _ secret => secret.length = 32 && roomId ≠ []
  | .channelKey channelId _ _ => channelId.length = 32
  | .shamirSharePush .. => true
  | .shamirShareRequest .. => true
  | .mlsInviteRequest channelId _ => channelId.length = 32
  | .mlsKeyPackage channelId _ => channelId.length = 32
  | .mlsWelcome channelId _ _ => channelId.length = 32
  | .mlsCommit channelId _ => channelId.length = 32
  | .mlsProposal channelId _ => channelId.length = 32
  | .mediaSignal callId _ _ => callId.length = 16
  | .notSet => false

/-! ### Sessions -/

/-- The fields of `Session` that the direct-message paths use. -/
structure Session (K : Type) where
  peerPub : Bytes
  peerX : Bytes
  rat : Option (Ratchet K)
  pqCt : Bytes
  pqAcked : Bool
  sealOutbound : Bool

/-- A default-constructed session. -/
def Session.blank : Session K :=
  ⟨List.replicate 32 0, List.replicate 32 0, none, [], false, false⟩

abbrev Sessions (K : Type) := ExtTreeMap Bytes (Session K)

/-- The peer and the ratchet of a session that has one. -/
def Sessions.ratchetAt (sessions : Sessions K) (name : Bytes) : Option (Bytes × Ratchet K) :=
  sessions[name]?.bind fun s => s.rat.map fun rat => (s.peerPub, rat)

section

variable {K : Type} {sessions : Sessions K} {k : Bytes}

theorem any_ratchetAt_eq_true_iff {peer : Bytes} :
    ((sessions.ratchetAt k).any fun entry => entry.1 = peer) = true ↔
      ∃ rat, sessions.ratchetAt k = some (peer, rat) := by
  cases sessions.ratchetAt k with
  | none => simp
  | some found => simp [Prod.ext_iff]

theorem mem_keys_of_ratchetAt {entry : Bytes × Ratchet K}
    (here : sessions.ratchetAt k = some entry) : k ∈ sessions.keys := by
  rw [ExtTreeMap.mem_keys]
  by_contra absent
  simp [Sessions.ratchetAt, ExtTreeMap.getElem?_eq_none absent] at here

end

structure DmCrypto (K : Type) extends HybridCrypto K where
  payload : Codec DmPayload

/-- What the client brings to direct messages. -/
structure DmClient (K : Type) where
  publicKey : Bytes
  x25519 : KeyPair K
  pqSec : Bytes
  sessions : Sessions K

inductive DmOutcome where
  | surfaced (sender : Bytes) (body : DmBody)
  | dropped
  | threw (what : String)

section

variable (P : DmCrypto K)

/-! ### Sealed-sender pre-pass -/

/-- The checks of `try_session` on a decrypted payload: it names the session's
peer, and that peer has signed the envelope for this recipient. -/
def senderVerified (client : DmClient K) (env : Envelope) (peerPub plaintext : Bytes) : Bool :=
  match P.payload.decode plaintext with
  | none => false
  | some dmp =>
    if dmp.sealedSenderPubkey.length ≠ 32 || dmp.sealedSenderSig.length ≠ 64 then false
    else if dmp.sealedSenderPubkey ≠ peerPub then false
    else verifySealedSender P.toHybridCrypto dmp.sealedSenderPubkey dmp.sealedSenderSig
      env.envelopeId env.timestampMs client.publicKey

inductive Tried where
  | failed
  | found (sender plaintext : Bytes)
  | threw (what : String)
  deriving DecidableEq

/-- `try_session`. A session whose message decrypts but fails the checks keeps the
state that `try_decrypt` left. -/
def trySession (client : DmClient K) (env : Envelope) (drawn : KeyPair K) (s : Session K)
    (rat : Ratchet K) : Session K × Tried :=
  match rat.tryDecrypt P.toRatchetCrypto drawn env.ciphertext env.aad with
  | (rat, .error e) => ({ s with rat := some rat }, .threw e)
  | (rat, .ok none) => ({ s with rat := some rat }, .failed)
  | (rat, .ok (some pt)) =>
    if senderVerified P client env s.peerPub pt then
      ({ s with rat := some rat, sealOutbound := true }, .found s.peerPub pt)
    else ({ s with rat := some rat }, .failed)

/-- One of the two loops over the sessions; `select` says which ratchets it tries,
and `drawn` which key pair a session draws if it ratchets. -/
def tryPass (client : DmClient K) (env : Envelope) (drawn : Bytes → KeyPair K)
    (select : Ratchet K → Bool) : List Bytes → Sessions K → Sessions K × Tried
  | [], sessions => (sessions, .failed)
  | name :: rest, sessions =>
    match sessions[name]? with
    | none => tryPass client env drawn select rest sessions
    | some s =>
      match s.rat with
      | none => tryPass client env drawn select rest sessions
      | some rat =>
        if select rat = false then tryPass client env drawn select rest sessions
        else
          match trySession P client env (drawn name) s rat with
          | (s, .failed) => tryPass client env drawn select rest (sessions.insert name s)
          | (s, result) => (sessions.insert name s, result)

def headerMatches (env : Envelope) (rat : Ratchet K) : Bool :=
  rat.headerMatchesRecvChain P.toRatchetCrypto env.ciphertext

/-- Pass 1 tries the sessions whose receiving chain the header names, pass 2 the
others. No session is added in between. -/
def sealedPrePass (client : DmClient K) (env : Envelope) (drawn : Bytes → KeyPair K) :
    Sessions K × Tried :=
  match tryPass P client env drawn (headerMatches P env) client.sessions.keys
      client.sessions with
  | (sessions, .failed) =>
    tryPass P client env drawn (fun rat => !headerMatches P env rat) client.sessions.keys sessions
  | stopped => stopped

/-! ### The sender's session -/

/-- The name under which a peer's first envelope is filed. -/
def peerName (sender : Bytes) : Bytes := ascii "peer:" ++ sender.take 8

/-- The first session with a ratchet for the sender. A session under the empty
name counts as not found. -/
def sessionName (sessions : Sessions K) (sender : Bytes) : Bytes :=
  match sessions.keys.find? fun name =>
      (sessions.ratchetAt name).any fun entry => entry.1 = sender with
  | none => peerName sender
  | some name => if name = [] then peerName sender else name

/-- The session's ratchet; a session without one becomes a responder's. -/
def respond (client : DmClient K) (env : Envelope) (sender : Bytes) (s : Session K) :
    Except DmOutcome (Session K × Ratchet K) :=
  match s.rat with
  | some rat => .ok (s, rat)
  | none =>
    match P.edToCurve sender with
    | none => .error .dropped
    | some peerX =>
      match deriveHybridRecv P.toHybridCrypto client.x25519 peerX client.pqSec env.pqCt with
      | .error e => .error (.threw e)
      | .ok shared =>
        let rat := Ratchet.initBob P.toRatchetCrypto shared client.x25519
        .ok ({ s with rat := some rat, peerPub := sender, peerX := peerX }, rat)

/-- What a successful decryption sets. -/
def Session.acknowledge (s : Session K) : Session K :=
  { s with
    pqCt := if s.pqAcked then s.pqCt else []
    pqAcked := true
    sealOutbound := true }

/-- The payload of a decrypted envelope. -/
def readPayload (sender plaintext : Bytes) : DmOutcome :=
  match P.payload.decode plaintext with
  | none => .dropped
  | some payload => if payload.body.accepted then .surfaced sender payload.body else .dropped

/-- Decrypt with the session's ratchet, which keeps whatever state `decrypt` leaves. -/
def receive (env : Envelope) (drawn : KeyPair K) (sender : Bytes) (s : Session K)
    (rat : Ratchet K) : Session K × DmOutcome :=
  match rat.decrypt P.toRatchetCrypto drawn env.ciphertext env.aad with
  | (rat, .error e) => ({ s with rat := some rat }, .threw e)
  | (rat, .ok none) => ({ s with rat := some rat }, .dropped)
  | (rat, .ok (some pt)) => ({ s with rat := some rat }.acknowledge, readPayload P sender pt)

/-- The rest of the direct-message path, once the sender is known. A sealed
envelope has been decrypted by then. -/
def deliver (client : DmClient K) (env : Envelope) (drawn : Bytes → KeyPair K) (sender : Bytes)
    (sealedPt : Option Bytes) : Sessions K × DmOutcome :=
  let name := sessionName client.sessions sender
  -- `operator[]` adds a blank session under a new name
  let sess := client.sessions[name]?.getD .blank
  match respond P client env sender sess with
  | .error outcome => (client.sessions.insert name sess, outcome)
  | .ok (sess, rat) =>
    if env.aadConsistent = false then (client.sessions.insert name sess, .dropped)
    else
      match sealedPt with
      | some pt => (client.sessions.insert name sess.acknowledge, readPayload P sender pt)
      | none =>
        let received := receive P env (drawn name) sender sess rat
        (client.sessions.insert name received.1, received.2)

/-- `dispatch_envelope` on an envelope that is not for a channel. -/
def dispatchDm (client : DmClient K) (env : Envelope) (drawn : Bytes → KeyPair K) :
    Sessions K × DmOutcome :=
  if env.senderPubkey = [] then
    match env.recipient with
    | .userPubkey _ =>
      match sealedPrePass P client env drawn with
      | (sessions, .failed) => (sessions, .dropped)
      | (sessions, .threw e) => (sessions, .threw e)
      | (sessions, .found sender pt) =>
        deliver P { client with sessions := sessions } env drawn sender (some pt)
    | _ => (client.sessions, .dropped)
  else if env.senderPubkey.length ≠ 32 then (client.sessions, .dropped)
  else deliver P client env drawn env.senderPubkey none

end

/-! ### An instance

Scalars act on the last octet of a point by an odd factor, so that honest points
are never of low order and the octet 0 always is. -/

def natPoint (scalar : Nat) : Bytes := List.replicate 31 0 ++ [UInt8.ofNat (2 * scalar + 1)]

def natSign (pub message : Bytes) : Bytes :=
  List.replicate 64 (pub.sum + message.sum)

/-- Direct messages over numbers as keys. -/
noncomputable def DmCrypto.nat : DmCrypto Nat where
  zero := 0
  x25519Dh scalar point :=
    let product := UInt8.ofNat (2 * scalar + 1) * point.getLastD 0
    if product = 0 then none else some product.toNat
  kdfRk rk dh := (Nat.pair rk dh, Nat.pair rk dh + 1)
  kdfCk := .nat
  aead := .ofCountable Nat
  message := .ofCountable _
  edToCurve key := if key.length = 32 then some key else none
  x3dh := id
  encap pub draw :=
    some (List.replicate kMlKem768CtBytes (UInt8.ofNat draw),
      (pub.headD 0).toNat + (UInt8.ofNat draw).toNat)
  decap sec ct := some ((sec.headD 0).toNat + (ct.headD 0).toNat)
  combine := Nat.pair
  verify pub message sig := sig = natSign pub message
  verifyMlDsa pub message sig := sig = natSign pub message
  payload := .ofCountable _

end FinBit.Desktop
