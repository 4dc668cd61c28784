import FinBit.Lib.Runs
import FinBit.Crypto.RatchetPair
import FinBit.Desktop.KnownPeers

/-! # First contact from both sides

Two clients that may each fetch the other's bundle, start a session as initiator
and send before they hear from the other. Envelopes arrive in order and unmodified.

A client that has an initiator's session decrypts everything from that peer with
it. If the peer has started a session of its own in the meantime, the two ratchets
descend from different roots and neither side reads the other. As long as a session
is started only while the other side has none, everything is read.
-/

namespace FinBit.Desktop

open FinBit.Lib FinBit.Crypto FinBit.Handshake Std

variable {K : Type}

/-! ### Two accounts -/

inductive Side where
  | left
  | right
  deriving DecidableEq

namespace Side

def other : Side → Side
  | left => right
  | right => left

@[simp] theorem other_other (side : Side) : side.other.other = side := by cases side <;> rfl

@[simp] theorem other_ne (side : Side) : side.other ≠ side := by cases side <;> decide

@[simp] theorem ne_other (side : Side) : side ≠ side.other := by cases side <;> decide

theorem eq_or_eq_other (side one : Side) : side = one ∨ side = one.other := by
  cases side <;> cases one <;> simp [other]

end Side

/-- The keys of a client, which it keeps for good. -/
structure Account (K : Type) where
  publicKey : Bytes
  x25519 : KeyPair K
  pqPub : Bytes
  pqSec : Bytes
  sign : Bytes → Bytes

def Account.client (account : Account K) (sessions : Sessions K) : DmClient K :=
  ⟨account.publicKey, account.x25519, account.pqSec, sessions⟩

section

variable (P : DmCrypto K) (pubOf : K → Bytes)

/-- The keys belong together: both halves of the X25519 key, its relation to the
identity, the signatures, and the KEM key. -/
structure Account.Honest (account : Account K) : Prop where
  length_publicKey : account.publicKey.length = 32
  curve : P.edToCurve account.publicKey = some account.x25519.pub
  pair : account.x25519.pub = pubOf account.x25519.priv
  length_sign : ∀ message, (account.sign message).length = 64
  verifies : ∀ message, P.verify account.publicKey message (account.sign message) = true
  length_pqPub : account.pqPub.length = kMlKem768PubBytes
  decapsulates : ∀ draw, ∃ ct ss, P.encap account.pqPub draw = some (ct, ss) ∧
    ct.length = kMlKem768CtBytes ∧ P.decap account.pqSec ct = some ss

/-- A bundle as the account publishes it, with or without the post-quantum fields. -/
structure Genuine (account : Account K) (bundle : PreKeyBundle) : Prop where
  identity : bundle.identityPubkey = account.publicKey
  prekey : bundle.signedPrekey = account.x25519.pub
  kem : bundle.pqPubkey = [] ∨
    bundle.pqPubkey = account.pqPub ∧ bundle.pqPubkeySig = account.sign account.pqPub
  pqSigs : verifyBundlePqSigs P.toHybridCrypto bundle = true

variable {P pubOf}

/-- What the initiator derives from a bundle, its owner derives from the ciphertext. -/
theorem secrets_agree (honest : HonestDh P.toRatchetCrypto pubOf) {account : Account K}
    (owner : account.Honest P pubOf) {bundle : PreKeyBundle}
    (genuine : Genuine P account bundle) {mine : KeyPair K} (pair : mine.pub = pubOf mine.priv)
    (draw : Nat) :
    ∃ shared pqCt,
      deriveHybridSendFromBundle P.toHybridCrypto mine bundle.signedPrekey bundle draw =
        .ok (shared, pqCt) ∧
      deriveHybridRecv P.toHybridCrypto account.x25519 mine.pub account.pqSec pqCt =
        .ok shared := by
  obtain ⟨dh, ours⟩ := honest.contributes mine.priv account.x25519.priv
  have theirs : P.x25519Dh account.x25519.priv mine.pub = some dh := by
    rw [pair, honest.comm, ours]
  rw [← owner.pair, ← genuine.prekey] at ours
  rcases genuine.kem with classical | ⟨hybrid, signed⟩
  · refine ⟨P.x3dh dh, [], ?_, ?_⟩
    · simp [deriveHybridSendFromBundle, bundlePqMessage, classical, genuine.pqSigs,
        deriveHybridSend, deriveSharedSecret, ours, bind, Except.bind]
    · simp [deriveHybridRecv, deriveSharedSecret, theirs, bind, Except.bind]
  · obtain ⟨ct, ss, encapsulated, sized, decapsulated⟩ := owner.decapsulates draw
    have present : account.pqPub ≠ [] := by
      intro empty
      simpa [empty] using owner.length_pqPub
    have present' : ct ≠ [] := by
      rintro rfl
      simp at sized
    refine ⟨P.combine (P.x3dh dh) ss, ct, ?_, ?_⟩
    · simp [deriveHybridSendFromBundle, bundlePqMessage, hybrid, present, signed,
        genuine.identity, owner.length_publicKey, owner.length_sign, owner.verifies,
        genuine.pqSigs, deriveHybridSend, deriveSharedSecret, ours, owner.length_pqPub,
        encapsulated, bind, Except.bind]
    · simp [deriveHybridRecv, deriveSharedSecret, theirs, present', sized, decapsulated, bind,
        Except.bind]

/-! ### Fetching the other's bundle -/

/-- A bundle that creates no session changes nothing. -/
theorem keyFetchResp_unchanged {client : DmClient K} {fetchedFor : Bytes} {r : KeyFetchResp}
    {admitted : Bool} {drawn : KeyPair K} {draw : Nat}
    (idle : fetchedFor ≠ [] → r.found = true → admitted = true →
      hasRatchetFor client.sessions r.bundle.identityPubkey = true) :
    (keyFetchResp P client fetchedFor r admitted drawn draw).1 = client.sessions := by
  unfold keyFetchResp
  split
  · rfl
  next named =>
    split
    · rfl
    next found =>
      split
      · rfl
      next kept =>
        have present : r.found = true := by simpa using fun missing => found (.inl missing)
        rw [if_pos (idle named present (by simpa using kept))]

/-- A genuine bundle of a peer without a session creates the initiator's. -/
theorem keyFetchResp_created (honest : HonestDh P.toRatchetCrypto pubOf)
    {mine account : Account K} (pair : mine.x25519.pub = pubOf mine.x25519.priv)
    (owner : account.Honest P pubOf) {sessions : Sessions K} {fetchedFor : Bytes}
    {r : KeyFetchResp} {drawn : KeyPair K} {draw : Nat} (named : fetchedFor ≠ [])
    (found : r.found = true) (genuine : Genuine P account r.bundle)
    (without : hasRatchetFor sessions account.publicKey = false) :
    ∃ s rat shared,
      (keyFetchResp P (mine.client sessions) fetchedFor r true drawn draw).1 =
        sessions.insert fetchedFor s ∧
      s.rat = some rat ∧ s.peerPub = account.publicKey ∧ s.sealOutbound = false ∧
      Ratchet.initAlice P.toRatchetCrypto drawn shared account.x25519.pub = .ok rat ∧
      deriveHybridRecv P.toHybridCrypto account.x25519 mine.x25519.pub account.pqSec s.pqCt =
        .ok shared := by
  obtain ⟨shared, pqCt, sent, received⟩ := secrets_agree honest owner genuine pair draw
  obtain ⟨dh, agreed⟩ := honest.contributes drawn.priv account.x25519.priv
  obtain ⟨rat, created⟩ : ∃ rat,
      Ratchet.initAlice P.toRatchetCrypto drawn shared account.x25519.pub = .ok rat := by
    simp [Ratchet.initAlice, owner.pair, agreed]
  have sized : account.x25519.pub.length = 32 := by rw [owner.pair, honest.length_pub]
  rw [genuine.prekey] at sent
  refine ⟨⟨account.publicKey, account.x25519.pub, some rat, pqCt, false, false⟩, rat, shared, ?_,
    rfl, rfl, rfl, created, received⟩
  simp [keyFetchResp, named, found, genuine.identity, owner.length_publicKey, genuine.prekey,
    sized, Account.client, without, sent, created]

end

/-! ### The two clients -/

/-- A direct message on its way, with the body it was sent with. -/
structure Packet where
  dest : Side
  env : Envelope
  body : DmBody

structure World (K : Type) where
  sessions : Side → Sessions K
  /-- Towards each side, the oldest first. -/
  inFlight : Side → List Packet

inductive WorldEvent where
  | fetched (side : Side) (r : KeyFetchResp) (admitted : Bool)
  | sent (side : Side) (body : DmBody)
  | delivered (side : Side) (body : DmBody) (outcome : DmOutcome)

section

variable (P : DmCrypto K) (pubOf : K → Bytes) (account : Side → Account K)

/-- A key pair that the client has not used: a random one. -/
structure FreshFor (sessions : Sessions K) (mine : KeyPair K) (drawn : KeyPair K) : Prop where
  honest : drawn.pub = pubOf drawn.priv
  new : drawn.pub ≠ mine.pub
  unused : ∀ name peer rat, sessions.ratchetAt name = some (peer, rat) → drawn.pub ≠ rat.dhsPub

/-- What can happen. A client sends on any session that it has for the other side,
and each delivery takes the oldest envelope. -/
inductive WorldStep : World K → WorldEvent → World K → Prop
  | fetch (w : World K) (side : Side) (fetchedFor : Bytes) (r : KeyFetchResp) (admitted : Bool)
      (drawn : KeyPair K) (draw : Nat)
      (genuine : r.found = true → Genuine P (account side.other) r.bundle)
      (fresh : drawn.pub = pubOf drawn.priv) :
      WorldStep w (.fetched side r admitted) { w with
        sessions := Function.update w.sessions side
          (keyFetchResp P ((account side).client (w.sessions side)) fetchedFor r admitted drawn
            draw).1 }
  | send (w : World K) (side : Side) (name : Bytes) (s s' : Session K) (rat : Ratchet K)
      (dm : DmPayload) (envelopeId : Bytes) (timestampMs : UInt64) (env : Envelope)
      (known : (w.sessions side)[name]? = some s) (has : s.rat = some rat)
      (peer : s.peerPub = (account side.other).publicKey) (accepted : dm.body.accepted = true)
      (encrypted : sendDm P (account side).publicKey (account side).sign s rat envelopeId
        timestampMs (P.payload.encode dm) = .ok (s', env)) :
      WorldStep w (.sent side dm.body) {
        sessions := Function.update w.sessions side ((w.sessions side).insert name s')
        inFlight := Function.update w.inFlight side.other
          (w.inFlight side.other ++ [⟨side.other, env, dm.body⟩]) }
  | deliver (w : World K) (side : Side) (packet : Packet) (rest : List Packet)
      (drawn : Bytes → KeyPair K) (next : w.inFlight side = packet :: rest)
      (fresh : ∀ name, FreshFor pubOf (w.sessions side) (account side).x25519 (drawn name)) :
      WorldStep w (.delivered side packet.body
          (dispatchDm P ((account side).client (w.sessions side)) packet.env drawn).2) {
        sessions := Function.update w.sessions side
          (dispatchDm P ((account side).client (w.sessions side)) packet.env drawn).1
        inFlight := Function.update w.inFlight side rest }

/-- No session for each other, and nothing on its way. The other side's first
envelope finds its slot free. -/
structure BeforeContact (w : World K) : Prop where
  lacks : ∀ side, Lacks (w.sessions side) (account side.other).publicKey
  quiet : ∀ side, w.inFlight side = []

/-- A bundle creates a session only while the other side has none. -/
def NoGlare (w : World K) : WorldEvent → Prop
  | .fetched side r admitted => r.found = true → admitted = true →
      hasRatchetFor (w.sessions side) (account side.other).publicKey = false →
      hasRatchetFor (w.sessions side.other) (account side).publicKey = false
  | _ => True

/-! ### What is on its way -/

/-- The packet carries a message with this header under this key, whose plaintext
names the sender one way or the other. -/
structure Carries (key : K) (h : Bytes) (pn n : UInt32) (packet : Packet) (read : DmPayload) :
    Prop where
  header : ∃ k, h = pubOf k
  consistent : packet.env.aadConsistent = true
  to_user : packet.env.recipient = .userPubkey (account packet.dest).publicKey
  body : read.body = packet.body
  accepted : packet.body.accepted = true
  encrypted : packet.env.ciphertext = P.message.encode ⟨h, pn, n,
    P.aead.encrypt key (Ratchet.composeAad h pn n packet.env.aad) (P.payload.encode read)⟩
  from_sender : packet.env.senderPubkey = (account packet.dest.other).publicKey ∨
    packet.env.senderPubkey = [] ∧
    read.sealedSenderPubkey = (account packet.dest.other).publicKey ∧
    read.sealedSenderSig = (account packet.dest.other).sign (sealedSenderSigInput
      packet.env.envelopeId packet.env.timestampMs (account packet.dest).publicKey)

def Carried (key : K) (h : Bytes) (pn n : UInt32) (packet : Packet) : Prop :=
  ∃ read, Carries P pubOf account key h pn n packet read

variable {P pubOf account} {key : K} {h : Bytes} {pn n : UInt32} {packet : Packet}
  {read : DmPayload}

theorem Carries.parse (carries : Carries P pubOf account key h pn n packet read)
    (honest : HonestDh P.toRatchetCrypto pubOf) :
    Ratchet.parseMessage P.toRatchetCrypto packet.env.ciphertext = some ⟨h, pn, n,
      P.aead.encrypt key (Ratchet.composeAad h pn n packet.env.aad) (P.payload.encode read)⟩ := by
  obtain ⟨k, rfl⟩ := carries.header
  simp [Ratchet.parseMessage, carries.encrypted, honest.length_pub]

/-- A ratchet that finds the key decrypts the payload. -/
theorem Carries.decrypt (carries : Carries P pubOf account key h pn n packet read)
    (honest : HonestDh P.toRatchetCrypto pubOf) {rat rat' : Ratchet K} {drawn : KeyPair K}
    (finds : ∀ ct aad, rat.decryptMessage P.toRatchetCrypto drawn ⟨h, pn, n, ct⟩ aad =
      (rat', .ok (P.aead.decrypt key (Ratchet.composeAad h pn n aad) ct))) :
    rat.decrypt P.toRatchetCrypto drawn packet.env.ciphertext packet.env.aad =
      (rat', .ok (some (P.payload.encode read))) := by
  simp [Ratchet.decrypt, carries.parse honest, finds]

/-- The session of somebody else passes on a sealed packet. If its ratchet opens it
at all, the payload names another sender. -/
theorem Carries.passes (carries : Carries P pubOf account key h pn n packet read)
    (honest : HonestDh P.toRatchetCrypto pubOf)
    (names : read.sealedSenderPubkey = (account packet.dest.other).publicKey)
    {client : DmClient K} {drawn : Bytes → KeyPair K} {name : Bytes}
    (else_whose : ∀ r,
      client.sessions.ratchetAt name ≠ some ((account packet.dest.other).publicKey, r)) :
    Passes P client packet.env drawn name := by
  intro peer rat known
  have different : peer ≠ (account packet.dest.other).publicKey := by
    rintro rfl
    exact else_whose rat known
  constructor
  · -- an honest header is never of low order
    rintro ⟨m, parsed, -, -, -, low⟩
    obtain rfl := Option.some.inj (parsed.symm.trans (carries.parse honest))
    obtain ⟨k, rfl⟩ := carries.header
    obtain ⟨dh, ours⟩ := honest.contributes rat.dhsPriv k
    obtain ⟨reply, theirs⟩ := honest.contributes (drawn name).priv k
    simp [ours, theirs] at low
  · rintro pt ⟨m, key', parsed, -, opened⟩
    obtain rfl := Option.some.inj (parsed.symm.trans (carries.parse honest))
    obtain ⟨-, -, rfl⟩ := P.aead.encrypt_inj (P.aead.decrypt_eq_some_iff.mp opened)
    simp [senderVerified, names, different.symm]

/-- An envelope that a client sends on a session for the other side. -/
theorem sendDm_carries {side : Side} {s s' : Session K} {rat : Ratchet K} {dm : DmPayload}
    {envelopeId : Bytes} {timestampMs : UInt64} {env : Envelope}
    (peer : s.peerPub = (account side.other).publicKey) (accepted : dm.body.accepted = true)
    (own : rat.dhsPub = pubOf rat.dhsPriv)
    (encrypted : sendDm P (account side).publicKey (account side).sign s rat envelopeId
      timestampMs (P.payload.encode dm) = .ok (s', env)) :
    ∃ rat' pt bytes,
      rat.encrypt P.toRatchetCrypto pt (envelopeAadBytes envelopeId timestampMs) =
        .ok (rat', bytes) ∧
      s' = { s with rat := some rat' } ∧ env.pqCt = s.pqCt ∧
      (s.sealOutbound = false → env.senderPubkey = (account side).publicKey) ∧
      Carried P pubOf account (P.kdfCk.messageKey rat.cks) rat.dhsPub rat.pn rat.ns
        ⟨side.other, env, dm.body⟩ := by
  unfold sendDm at encrypted
  dsimp only at encrypted
  split at encrypted
  · cases encrypted
  next rat' inner produced =>
    simp only [Except.ok.injEq, Prod.mk.injEq] at encrypted
    obtain ⟨rfl, rfl⟩ := encrypted
    refine ⟨rat', _, inner, produced, rfl, rfl, fun plain => by simp [plain], ?_⟩
    -- the ratchet message holds what the session made of the payload
    unfold Ratchet.encrypt at produced
    split at produced
    · cases produced
    simp only [Except.ok.injEq, Prod.mk.injEq] at produced
    obtain ⟨-, rfl⟩ := produced
    cases sealing : s.sealOutbound with
    | false =>
      exact ⟨dm, {
        header := ⟨_, own⟩
        consistent := by simp [Envelope.aadConsistent]
        to_user := by simp [peer]
        body := rfl
        accepted := accepted
        encrypted := by simp
        from_sender := .inl (by simp) }⟩
    | true =>
      exact ⟨{ dm with
          sealedSenderPubkey := (account side).publicKey
          sealedSenderSig := (account side).sign
            (sealedSenderSigInput envelopeId timestampMs s.peerPub) }, {
        header := ⟨_, own⟩
        consistent := by simp [Envelope.aadConsistent]
        to_user := by simp [peer]
        body := rfl
        accepted := accepted
        encrypted := by simp [sealDmPayload]
        from_sender := .inr (by simp [peer]) }⟩

/-! ### How far contact has come -/

variable (P pubOf account)

/-- One side has started a session, and the other has not heard of it yet. -/
structure Initiated (w : World K) (side : Side) (name : Bytes) (s : Session K) (rat : Ratchet K)
    (shared : K) : Prop where
  entry : (w.sessions side)[name]? = some s
  has : s.rat = some rat
  holds : Holds (w.sessions side) (account side.other).publicKey name rat
  plain : s.sealOutbound = false
  derived : deriveHybridRecv P.toHybridCrypto (account side.other).x25519
    (account side).x25519.pub (account side.other).pqSec s.pqCt = .ok shared
  lacks : Lacks (w.sessions side.other) (account side).publicKey
  quiet : w.inFlight side = []
  openers : ∀ packet ∈ w.inFlight side.other,
    packet.env.senderPubkey = (account side).publicKey ∧ packet.env.pqCt = s.pqCt
  linked : Linked P.toRatchetCrypto pubOf (Carried P pubOf account) rat
    (.initBob P.toRatchetCrypto shared (account side.other).x25519) (w.inFlight side.other) []

/-- Both sides have a session, and the two are in step. -/
structure Established (w : World K) (side : Side) (name name' : Bytes) (rat rat' : Ratchet K) :
    Prop where
  holds : Holds (w.sessions side) (account side.other).publicKey name rat
  other_holds : Holds (w.sessions side.other) (account side).publicKey name' rat'
  linked : Linked P.toRatchetCrypto pubOf (Carried P pubOf account) rat rat'
    (w.inFlight side.other) (w.inFlight side)

inductive Phase (w : World K) : Prop
  | before (silent : BeforeContact account w)
  | initiated (side : Side) (name : Bytes) (s : Session K) (rat : Ratchet K) (shared : K)
      (started : Initiated P pubOf account w side name s rat shared)
  | established (side : Side) (name name' : Bytes) (rat rat' : Ratchet K)
      (both : Established P pubOf account w side name name' rat rat')

/-- The invariant: packets are where they belong, and contact is in one of its phases. -/
structure InContact (w : World K) : Prop where
  addressed : ∀ side, ∀ packet ∈ w.inFlight side, packet.dest = side
  phase : Phase P pubOf account w

variable {P pubOf account}

theorem Established.symm {w : World K} {side : Side} {name name' : Bytes} {rat rat' : Ratchet K}
    (both : Established P pubOf account w side name name' rat rat') :
    Established P pubOf account w side.other name' name rat' rat := by
  constructor
  · simpa using both.other_holds
  · simpa using both.holds
  · simpa using both.linked.symm

/-- The same from either side. -/
theorem Established.seen_from {w : World K} {one : Side} {name name' : Bytes}
    {rat rat' : Ratchet K} (both : Established P pubOf account w one name name' rat rat')
    (side : Side) : ∃ name name' rat rat',
      Established P pubOf account w side name name' rat rat' := by
  rcases side.eq_or_eq_other one with rfl | rfl
  · exact ⟨_, _, _, _, both⟩
  · exact ⟨_, _, _, _, both.symm⟩

theorem Holds.hasRatchetFor {sessions : Sessions K} {peer name : Bytes} {rat : Ratchet K}
    (holds : Holds sessions peer name rat) : hasRatchetFor sessions peer = true :=
  hasRatchetFor_eq_true_iff.mpr ⟨name, rat, holds.entry⟩

/-- Where neither side has a ratchet, nothing has happened yet. -/
theorem Phase.silent {w : World K} (phase : Phase P pubOf account w) {side : Side}
    (mine : hasRatchetFor (w.sessions side) (account side.other).publicKey = false)
    (theirs : hasRatchetFor (w.sessions side.other) (account side).publicKey = false) :
    BeforeContact account w := by
  cases phase with
  | before silent => exact silent
  | initiated one name s rat shared started =>
    have has := started.holds.hasRatchetFor
    rcases side.eq_or_eq_other one with rfl | rfl
    · simp [has] at mine
    · simp [Side.other_other, has] at theirs
  | established one name name' rat rat' both =>
    have has := both.holds.hasRatchetFor
    rcases side.eq_or_eq_other one with rfl | rfl
    · simp [has] at mine
    · simp [Side.other_other, has] at theirs

/-! ### What each step keeps -/

variable (honest : HonestDh P.toRatchetCrypto pubOf)
  (accounts : ∀ side, (account side).Honest P pubOf)

include honest accounts in
theorem Phase.fetch {w : World K} (phase : Phase P pubOf account w) {side : Side}
    {fetchedFor : Bytes} {r : KeyFetchResp} {admitted : Bool} {drawn : KeyPair K} {draw : Nat}
    (genuine : r.found = true → Genuine P (account side.other) r.bundle)
    (fresh : drawn.pub = pubOf drawn.priv)
    (allowed : NoGlare account w (.fetched side r admitted)) :
    Phase P pubOf account { w with
      sessions := Function.update w.sessions side
        (keyFetchResp P ((account side).client (w.sessions side)) fetchedFor r admitted drawn
          draw).1 } := by
  by_cases creates : fetchedFor ≠ [] ∧ r.found = true ∧ admitted = true ∧
      hasRatchetFor (w.sessions side) (account side.other).publicKey = false
  · obtain ⟨named, found, rfl, without⟩ := creates
    have silent := phase.silent without (allowed found rfl without)
    obtain ⟨s, rat, shared, filed, has, peer, plain, created, derived⟩ :=
      keyFetchResp_created honest (accounts side).pair (accounts side.other) named found
        (genuine found) without
    rw [filed]
    refine .initiated side fetchedFor s rat shared ?_
    exact {
      entry := by simp
      has := has
      holds := by
        simp only [Function.update_self]
        exact .insert named (fun k r known => absurd known ((silent.lacks side).absent k r)) has peer
      plain := plain
      derived := derived
      lacks := by simpa using silent.lacks side.other
      quiet := silent.quiet side
      openers := by simp [silent.quiet]
      linked := by
        rw [silent.quiet]
        exact .initial honest fresh (accounts side.other).pair created }
  · rw [keyFetchResp_unchanged (P := P), Account.client, Function.update_eq_self]
    · exact phase
    · intro named found kept
      rw [(genuine found).identity]
      by_contra missing
      exact creates ⟨named, found, kept, Bool.eq_false_iff.mpr missing⟩

theorem Phase.send {w : World K} (phase : Phase P pubOf account w) {side : Side} {name : Bytes}
    {s s' : Session K} {rat : Ratchet K} {dm : DmPayload} {envelopeId : Bytes}
    {timestampMs : UInt64} {env : Envelope} (known : (w.sessions side)[name]? = some s)
    (has : s.rat = some rat) (peer : s.peerPub = (account side.other).publicKey)
    (accepted : dm.body.accepted = true)
    (encrypted : sendDm P (account side).publicKey (account side).sign s rat envelopeId
      timestampMs (P.payload.encode dm) = .ok (s', env)) :
    Phase P pubOf account {
      sessions := Function.update w.sessions side ((w.sessions side).insert name s')
      inFlight := Function.update w.inFlight side.other
        (w.inFlight side.other ++ [⟨side.other, env, dm.body⟩]) } := by
  have entry : (w.sessions side).ratchetAt name = some ((account side.other).publicKey, rat) := by
    simp [Sessions.ratchetAt, known, has, peer]
  cases phase with
  | before silent => exact absurd entry ((silent.lacks side).absent name rat)
  | initiated one name₁ s₁ rat₁ shared started =>
    rcases side.eq_or_eq_other one with rfl | rfl
    · -- the initiator goes on before it has an answer
      obtain rfl := started.holds.unique name rat entry
      obtain rfl := Option.some.inj (known.symm.trans started.entry)
      obtain rfl := Option.some.inj (has.symm.trans started.has)
      obtain ⟨rat', pt, bytes, produced, rfl, same_ct, plain, carried⟩ :=
        sendDm_carries peer accepted started.linked.honest encrypted
      refine .initiated side name { s with rat := some rat' } rat' shared ?_
      exact {
        entry := by simp
        has := rfl
        holds := by
          simp only [Function.update_self]
          exact .insert started.holds.named started.holds.unique rfl peer
        plain := started.plain
        derived := started.derived
        lacks := by simpa using started.lacks
        quiet := by simpa using started.quiet
        openers := by
          intro packet waiting
          simp only [Function.update_self, List.mem_append, List.mem_singleton] at waiting
          rcases waiting with earlier | rfl
          · exact started.openers packet earlier
          · exact ⟨plain started.plain, same_ct⟩
        linked := by
          simp only [Function.update_self]
          exact started.linked.send produced carried }
    · -- the other side has nothing to send with
      rw [Side.other_other] at entry
      exact absurd entry (started.lacks.absent name rat)
  | established one name₁ name₂ rat₁ rat₂ both =>
    obtain ⟨name₁, name₂, rat₁, rat₂, both⟩ := both.seen_from side
    obtain rfl := both.holds.unique name rat entry
    obtain ⟨-, rfl⟩ := Prod.mk.inj (Option.some.inj (entry.symm.trans both.holds.entry))
    obtain ⟨rat', pt, bytes, produced, rfl, -, -, carried⟩ :=
      sendDm_carries peer accepted both.linked.honest encrypted
    refine .established side name name₂ rat' rat₂ ?_
    constructor
    · simp only [Function.update_self]
      exact .insert both.holds.named both.holds.unique rfl peer
    · simpa using both.other_holds
    · simpa using both.linked.send produced carried

include honest accounts in
/-- A packet of the other side, at a client that has its ratchet. -/
theorem Carries.dispatch {side : Side} {sessions : Sessions K} {name : Bytes}
    {rat rat' : Ratchet K} {drawn : Bytes → KeyPair K}
    (carries : Carries P pubOf account key h pn n packet read) (addressed : packet.dest = side)
    (holds : Holds sessions (account side.other).publicKey name rat)
    (finds : ∀ ct aad, rat.decryptMessage P.toRatchetCrypto (drawn name) ⟨h, pn, n, ct⟩ aad =
      (rat', .ok (P.aead.decrypt key (Ratchet.composeAad h pn n aad) ct))) :
    (dispatchDm P ((account side).client sessions) packet.env drawn).2 =
        .surfaced (account side.other).publicKey packet.body ∧
      Holds (dispatchDm P ((account side).client sessions) packet.env drawn).1
        (account side.other).publicKey name rat' := by
  subst addressed
  have opened := carries.decrypt honest finds
  have parsed : P.payload.decode (P.payload.encode read) = some read := by simp
  have accepted : read.body.accepted = true := by rw [carries.body, carries.accepted]
  have length_sender := (accounts packet.dest.other).length_publicKey
  rw [← carries.body]
  rcases carries.from_sender with plain | ⟨hidden, names, signed⟩
  · exact dispatchDm_known P ((account packet.dest).client sessions) holds plain
      length_sender carries.consistent opened parsed accepted
  · apply dispatchDm_sealed P ((account packet.dest).client sessions) holds hidden
      carries.to_user carries.consistent opened
    · simp [senderVerified, names, signed, length_sender,
        (accounts packet.dest.other).length_sign, verifySealedSender, Account.client,
        (accounts packet.dest.other).verifies]
    · intro k elsewhere
      exact carries.passes honest names fun r known => elsewhere (holds.unique k r known)
    · exact parsed
    · exact accepted

include honest accounts in
theorem Phase.deliver {w : World K} (phase : Phase P pubOf account w) {side : Side}
    {rest : List Packet} {drawn : Bytes → KeyPair K} (addressed : packet.dest = side)
    (next : w.inFlight side = packet :: rest)
    (fresh : ∀ name, FreshFor pubOf (w.sessions side) (account side).x25519 (drawn name)) :
    (dispatchDm P ((account side).client (w.sessions side)) packet.env drawn).2 =
        .surfaced (account side.other).publicKey packet.body ∧
      Phase P pubOf account {
        sessions := Function.update w.sessions side
          (dispatchDm P ((account side).client (w.sessions side)) packet.env drawn).1
        inFlight := Function.update w.inFlight side rest } := by
  cases phase with
  | before silent => simp [silent.quiet] at next
  | initiated one name s rat shared started =>
    rcases side.eq_or_eq_other one with rfl | rfl
    · simp [started.quiet] at next
    · -- the first envelope makes this side the responder
      have linked := started.linked.symm
      rw [next] at linked
      have drawn_fresh := fresh (peerName (account one).publicKey)
      obtain ⟨key, h, pn, n, rat', ⟨read, carries⟩, finds, linked'⟩ :=
        linked.receive honest drawn_fresh.honest drawn_fresh.new
      obtain ⟨plain, same_ct⟩ := started.openers packet (by simp [next])
      have derived := started.derived
      rw [← same_ct] at derived
      obtain ⟨surfaced, holds⟩ := dispatchDm_first P
        ((account one.other).client (w.sessions one.other)) started.lacks plain
        (accounts one).length_publicKey carries.consistent (accounts one).curve derived
        (carries.decrypt honest finds) (P.payload.decode_encode read)
        (by rw [carries.body, carries.accepted])
      rw [carries.body] at surfaced
      refine ⟨by simpa using surfaced,
        .established one name (peerName (account one).publicKey) rat rat' ?_⟩
      constructor
      · simpa using started.holds
      · simpa using holds
      · simpa [started.quiet] using linked'.symm
  | established one name name' rat rat' both =>
    obtain ⟨name, name', rat, rat', both⟩ := both.seen_from side
    have linked := both.linked
    rw [next] at linked
    have unused := (fresh name).unused _ _ _ both.holds.entry
    obtain ⟨key, h, pn, n, rat₁, ⟨read, carries⟩, finds, linked'⟩ :=
      linked.receive honest (fresh name).honest unused
    obtain ⟨surfaced, holds⟩ := carries.dispatch honest accounts addressed both.holds finds
    refine ⟨surfaced, .established side name name' rat₁ rat' ?_⟩
    constructor
    · simpa using holds
    · simpa using both.other_holds
    · simpa using linked'

/-! ### Whole runs -/

theorem BeforeContact.inContact {w : World K} (silent : BeforeContact account w) :
    InContact P pubOf account w := by
  constructor
  · simp [silent.quiet]
  · exact .before silent

include honest accounts in
theorem InContact.step {w w' : World K} {event : WorldEvent} (sound : InContact P pubOf account w)
    (taken : Guarded (WorldStep P pubOf account) (NoGlare account) w event w') :
    InContact P pubOf account w' := by
  obtain ⟨allowed, step⟩ := taken
  cases step with
  | fetch side fetchedFor r admitted drawn draw genuine fresh =>
    exact ⟨sound.addressed, sound.phase.fetch honest accounts genuine fresh allowed⟩
  | send side name s s' rat dm envelopeId timestampMs env known has peer accepted encrypted =>
    refine ⟨fun one packet waiting => ?_, sound.phase.send known has peer accepted encrypted⟩
    rcases one.eq_or_eq_other side with rfl | rfl
    · exact sound.addressed _ packet (by simpa using waiting)
    · simp only [Function.update_self, List.mem_append, List.mem_singleton] at waiting
      rcases waiting with earlier | rfl
      · exact sound.addressed _ packet earlier
      · rfl
  | deliver side packet rest drawn next fresh =>
    have addressed := sound.addressed side packet (by simp [next])
    refine ⟨fun one packet' waiting => ?_,
      (sound.phase.deliver honest accounts addressed next fresh).2⟩
    rcases one.eq_or_eq_other side with rfl | rfl
    · simp only [Function.update_self] at waiting
      exact sound.addressed _ packet' (by simp [next, waiting])
    · exact sound.addressed _ packet' (by simpa using waiting)

/-- What an event sends towards a side. -/
def WorldEvent.sentTo (side : Side) : WorldEvent → List DmBody
  | .sent sender body => if sender = side.other then [body] else []
  | _ => []

variable (account) in
/-- What an event surfaces at a side as a message of the other. -/
def WorldEvent.surfacedAt (side : Side) : WorldEvent → List DmBody
  | .delivered receiver _ (.surfaced sender body) =>
    if receiver = side ∧ sender = (account side.other).publicKey then [body] else []
  | _ => []

include honest accounts in
/-- One step puts what it sends at the end of the queue and surfaces its head. -/
theorem InContact.moved {w w' : World K} {event : WorldEvent}
    (sound : InContact P pubOf account w)
    (taken : Guarded (WorldStep P pubOf account) (NoGlare account) w event w') (side : Side) :
    (w.inFlight side).map Packet.body ++ event.sentTo side =
      event.surfacedAt account side ++ (w'.inFlight side).map Packet.body := by
  obtain ⟨-, step⟩ := taken
  cases step with
  | fetch => simp [WorldEvent.sentTo, WorldEvent.surfacedAt]
  | send one name s s' rat dm envelopeId timestampMs env known has peer accepted encrypted =>
    rcases side.eq_or_eq_other one with rfl | rfl
    · simp [WorldEvent.sentTo, WorldEvent.surfacedAt]
    · simp [WorldEvent.sentTo, WorldEvent.surfacedAt]
  | deliver one packet rest drawn next fresh =>
    have addressed := sound.addressed one packet (by simp [next])
    rw [(sound.phase.deliver honest accounts addressed next fresh).1]
    rcases side.eq_or_eq_other one with rfl | rfl
    · simp [WorldEvent.sentTo, WorldEvent.surfacedAt, next]
    · simp [WorldEvent.sentTo, WorldEvent.surfacedAt]

include honest accounts in
/-- In every run in which no session is started against an existing one, what was
sent to a side is what it has surfaced, in order, and what is still on its way. -/
theorem dms_surfaced_in_order {w w' : World K} {events : List WorldEvent}
    (silent : BeforeContact account w)
    (run : Run (Guarded (WorldStep P pubOf account) (NoGlare account)) w events w')
    (side : Side) :
    events.flatMap (WorldEvent.sentTo side) =
      events.flatMap (WorldEvent.surfacedAt account side) ++
        (w'.inFlight side).map Packet.body := by
  have queue := run.fifo (InContact P pubOf account)
    (fun w => (w.inFlight side).map Packet.body) (WorldEvent.sentTo side)
    (WorldEvent.surfacedAt account side)
    (fun _ _ _ sound taken => sound.step honest accounts taken)
    (fun _ _ _ sound taken => sound.moved honest accounts taken side) silent.inContact
  simpa [silent.quiet] using queue

end

/-! ### Two strangers who write to each other -/

theorem nat_x25519Dh (a b : Nat) : DmCrypto.nat.x25519Dh a (natPoint b) =
    some ((2 * a + 1) * (2 * b + 1) % 256) := by
  have odd : (2 * a + 1) * (2 * b + 1) % 2 = 1 := by simp [Nat.mul_mod, Nat.add_mod]
  have product : (UInt8.ofNat (2 * a + 1) * UInt8.ofNat (2 * b + 1)).toNat =
      (2 * a + 1) * (2 * b + 1) % 256 := by
    rw [← UInt8.ofNat_mul, UInt8.toNat_ofNat']
  have nonzero : UInt8.ofNat (2 * a + 1) * UInt8.ofNat (2 * b + 1) ≠ 0 := by
    intro zero
    rw [zero, UInt8.toNat_zero] at product
    omega
  simp only [DmCrypto.nat, natPoint, List.getLastD_concat]
  rw [if_neg nonzero, product]

theorem natPoint_honest : HonestDh DmCrypto.nat.toRatchetCrypto natPoint where
  length_pub := by simp [natPoint]
  comm a b := by rw [nat_x25519Dh, nat_x25519Dh, Nat.mul_comm]
  contributes a b := ⟨_, nat_x25519Dh a b⟩

/-- Two accounts, over the scalars 1 and 2. -/
private def natAccount (side : Side) : Account Nat :=
  let scalar := match side with
    | .left => 1
    | .right => 2
  { publicKey := natPoint scalar
    x25519 := ⟨natPoint scalar, scalar⟩
    pqPub := List.replicate kMlKem768PubBytes 7
    pqSec := [7]
    sign := natSign (natPoint scalar) }

private theorem natAccount_honest (side : Side) :
    (natAccount side).Honest DmCrypto.nat natPoint := by
  constructor
  case decapsulates =>
    intro draw
    refine ⟨_, _, rfl, List.length_replicate, ?_⟩
    simp [DmCrypto.nat, natAccount, List.head?_replicate]
  all_goals cases side <;> simp [natAccount, natPoint, DmCrypto.nat, natSign]

/-- What a client fetches: the other's bundle, without the post-quantum fields. -/
private def natFetch (side : Side) : KeyFetchResp :=
  ⟨true, (natAccount side.other).publicKey, (natAccount side.other).x25519.pub, [], [], [], [],
    [], []⟩

private theorem natFetch_genuine (side : Side) :
    Genuine DmCrypto.nat (natAccount side.other) (natFetch side).bundle :=
  ⟨rfl, rfl, .inl rfl, by simp [verifyBundlePqSigs, natFetch]⟩

private def strangers : World Nat := ⟨fun _ => ∅, fun _ => []⟩

private theorem strangers_silent : BeforeContact natAccount strangers := by
  constructor
  · intro side
    constructor <;> simp [strangers, Sessions.ratchetAt]
  · exact fun _ => rfl

/-- The scalars 3 and 4 for the sessions that the two sides start. -/
private def natDrawn : Side → KeyPair Nat
  | .left => ⟨natPoint 3, 3⟩
  | .right => ⟨natPoint 4, 4⟩

/-- The DH result of a session's first key and the other side's. -/
private def natFirstDh : Side → Nat
  | .left => 35
  | .right => 27

/-- The ratchet of either initiator; both start from the secret 15. -/
private def natRatchet (side : Side) : Ratchet Nat where
  dhsPub := (natDrawn side).pub
  dhsPriv := (natDrawn side).priv
  dhrPub := (natAccount side.other).x25519.pub
  haveDhr := true
  rk := Nat.pair 15 (natFirstDh side)
  cks := Nat.pair 15 (natFirstDh side) + 1
  ckr := 0
  haveCks := true
  haveCkr := false
  ns := 0
  nr := 0
  pn := 0
  skipped := ∅

private def natSession (side : Side) : Session Nat :=
  ⟨(natAccount side.other).publicKey, (natAccount side.other).x25519.pub, some (natRatchet side),
    [], false, false⟩

private theorem nat_kdfRk (rk dh : Nat) :
    DmCrypto.nat.kdfRk rk dh = (Nat.pair rk dh, Nat.pair rk dh + 1) := rfl

private theorem nat_x3dh (dh : Nat) : DmCrypto.nat.x3dh dh = dh := rfl

private theorem nat_zero : DmCrypto.nat.zero = 0 := rfl

private theorem nat_fetched (side : Side) : (keyFetchResp DmCrypto.nat
    ((natAccount side).client ∅) [0] (natFetch side) true (natDrawn side) 0).1 =
      (∅ : Sessions Nat).insert [0] (natSession side) := by
  have shared : deriveHybridSendFromBundle DmCrypto.nat.toHybridCrypto (natAccount side).x25519
      (natAccount side.other).x25519.pub (natFetch side).bundle 0 = .ok (15, []) := by
    cases side <;>
      simp [deriveHybridSendFromBundle, bundlePqMessage, natFetch, verifyBundlePqSigs,
        deriveHybridSend, deriveSharedSecret, natAccount, Side.other, nat_x25519Dh, nat_x3dh, bind,
        Except.bind]
  have created : Ratchet.initAlice DmCrypto.nat.toRatchetCrypto (natDrawn side) 15
      (natAccount side.other).x25519.pub = .ok (natRatchet side) := by
    cases side <;>
      simp [Ratchet.initAlice, natDrawn, natAccount, Side.other, nat_x25519Dh, natRatchet,
        natFirstDh, Ratchet.blank, nat_kdfRk, nat_zero]
  have sizes : (natAccount side.other).publicKey.length = 32 ∧
      (natAccount side.other).x25519.pub.length = 32 := by
    simp [natAccount, natPoint]
  have without : hasRatchetFor (∅ : Sessions Nat) (natAccount side.other).publicKey = false := by
    simp [hasRatchetFor]
  simp only [keyFetchResp, natFetch, sizes, Account.client, without]
  simp only [natFetch] at shared
  simp [shared, created, natSession]

/-- The first envelope of an initiator, with an empty text. -/
private noncomputable def natEnvelope (side : Side) : Envelope where
  envelopeId := []
  timestampMs := 0
  aad := envelopeAadBytes [] 0
  recipient := .userPubkey (natAccount side.other).publicKey
  senderPubkey := (natAccount side).publicKey
  ciphertext := DmCrypto.nat.message.encode ⟨(natDrawn side).pub, 0, 0, DmCrypto.nat.aead.encrypt
    (DmCrypto.nat.kdfCk.messageKey (natRatchet side).cks)
    (Ratchet.composeAad (natDrawn side).pub 0 0 (envelopeAadBytes [] 0))
    (packTextPayload DmCrypto.nat [])⟩
  pqCt := []

private noncomputable def natSending (side : Side) : Session Nat :=
  { natSession side with
    rat := some { natRatchet side with
      cks := DmCrypto.nat.kdfCk.nextKey (natRatchet side).cks
      ns := 1 } }

private theorem nat_sent (side : Side) : sendDm DmCrypto.nat (natAccount side).publicKey
    (natAccount side).sign (natSession side) (natRatchet side) [] 0
    (DmCrypto.nat.payload.encode ⟨.text [], [], [], 0⟩) =
      .ok (natSending side, natEnvelope side) := by
  simp [sendDm, natSession, Ratchet.encrypt, natRatchet, natEnvelope, packTextPayload, natSending]

private def natFetched (w : World Nat) (side : Side) : World Nat :=
  { w with
    sessions := Function.update w.sessions side
      ((∅ : Sessions Nat).insert [0] (natSession side)) }

private theorem nat_fetches (w : World Nat) (side : Side) (none_yet : w.sessions side = ∅) :
    WorldStep DmCrypto.nat natPoint natAccount w (.fetched side (natFetch side) true)
      (natFetched w side) := by
  have step : WorldStep DmCrypto.nat natPoint natAccount w _ _ :=
    .fetch w side [0] (natFetch side) true (natDrawn side) 0 (fun _ => natFetch_genuine side)
      (by cases side <;> rfl)
  rwa [none_yet, nat_fetched] at step

/-- The left side has written, and the envelope is on its way. -/
private noncomputable def leftWrote (w : World Nat) : World Nat where
  sessions := Function.update w.sessions .left ((w.sessions .left).insert [0] (natSending .left))
  inFlight := Function.update w.inFlight .right
    (w.inFlight .right ++ [⟨.right, natEnvelope .left, .text []⟩])

private theorem left_writes {w : World Nat}
    (known : (w.sessions .left)[([0] : Bytes)]? = some (natSession .left)) :
    WorldStep DmCrypto.nat natPoint natAccount w (.sent .left (.text [])) (leftWrote w) :=
  .send w .left [0] (natSession .left) (natSending .left) (natRatchet .left)
    ⟨.text [], [], [], 0⟩ [] 0 (natEnvelope .left) known rfl rfl rfl (nat_sent .left)

private noncomputable def rightDispatched (sessions : Sessions Nat) : Sessions Nat × DmOutcome :=
  dispatchDm DmCrypto.nat ((natAccount .right).client sessions) (natEnvelope .left)
    fun _ => ⟨natPoint 5, 5⟩

private theorem right_reads {w : World Nat} (quiet : w.inFlight .right = [])
    (unused : ∀ k peer rat, (w.sessions .right).ratchetAt k = some (peer, rat) →
      natPoint 5 ≠ rat.dhsPub) :
    WorldStep DmCrypto.nat natPoint natAccount (leftWrote w)
      (.delivered .right (.text []) (rightDispatched (w.sessions .right)).2)
      { sessions := Function.update (leftWrote w).sessions .right
          (rightDispatched (w.sessions .right)).1
        inFlight := Function.update (leftWrote w).inFlight .right [] } := by
  have same : (leftWrote w).sessions .right = w.sessions .right := by simp [leftWrote]
  unfold rightDispatched
  rw [← same] at unused ⊢
  refine .deliver (leftWrote w) .right ⟨.right, natEnvelope .left, .text []⟩ [] _ ?_ ?_
  · simp [leftWrote, quiet]
  · exact fun _ => ⟨rfl, by decide, unused⟩

/-- The right side's own session does not open the left side's first envelope. -/
private theorem right_drops :
    (rightDispatched ((∅ : Sessions Nat).insert [0] (natSession .right))).2 = .dropped := by
  have holds : Holds ((∅ : Sessions Nat).insert [0] (natSession .right))
      (natAccount .left).publicKey [0] (natRatchet .right) :=
    .insert (by simp) (by simp [Sessions.ratchetAt]) rfl rfl
  have keys : DmCrypto.nat.kdfCk.messageKey (natRatchet .left).cks ≠
      DmCrypto.nat.kdfCk.messageKey (DmCrypto.nat.kdfRk (natRatchet .right).rk 63).2 := by
    decide
  have closed : DmCrypto.nat.aead.decrypt
      (DmCrypto.nat.kdfCk.messageKey (DmCrypto.nat.kdfRk (natRatchet .right).rk 63).2)
      (Ratchet.composeAad (natPoint 3) 0 0 (envelopeAadBytes [] 0))
      (DmCrypto.nat.aead.encrypt (DmCrypto.nat.kdfCk.messageKey (natRatchet .left).cks)
        (Ratchet.composeAad (natPoint 3) 0 0 (envelopeAadBytes [] 0))
        (packTextPayload DmCrypto.nat [])) = none := by
    by_contra opens
    obtain ⟨pt, opened⟩ := Option.ne_none_iff_exists'.mp opens
    have same := DmCrypto.nat.aead.encrypt_inj (DmCrypto.nat.aead.decrypt_eq_some_iff.mp opened)
    exact keys same.1.symm
  have unopened : ((natRatchet .right).decrypt DmCrypto.nat.toRatchetCrypto ⟨natPoint 5, 5⟩
      (natEnvelope .left).ciphertext (natEnvelope .left).aad).2 = .ok none := by
    have sized : (natPoint 3).length = 32 := by simp [natPoint]
    have new : (natRatchet .right).isNewDh (natPoint 3) = true := by decide
    have empty : (natRatchet .right).skipped = ∅ := rfl
    have whole : (0 : UInt32) = (natRatchet .right).nr := rfl
    have received : DmCrypto.nat.x25519Dh (natRatchet .right).dhsPriv (natPoint 3) = some 63 :=
      nat_x25519Dh 4 3
    have sent : DmCrypto.nat.x25519Dh (⟨natPoint 5, 5⟩ : KeyPair Nat).priv (natPoint 3) =
        some 77 := nat_x25519Dh 5 3
    simp only [Ratchet.decrypt, Ratchet.parseMessage, natEnvelope, natDrawn, Codec.decode_encode,
      Option.filter_some, sized, decide_true, if_true]
    rw [Ratchet.decryptMessage_first DmCrypto.nat.toRatchetCrypto empty new whole received sent,
      closed]
  have length_sender : (natAccount .left).publicKey.length = 32 := by simp [natAccount, natPoint]
  obtain ⟨s, -, dispatched⟩ := dispatchDm_plain DmCrypto.nat
    ((natAccount .right).client ((∅ : Sessions Nat).insert [0] (natSession .right)))
    (fun _ => ⟨natPoint 5, 5⟩) holds (rfl : (natEnvelope .left).senderPubkey = _) length_sender
    (by simp [Envelope.aadConsistent, natEnvelope])
  rw [rightDispatched, dispatched]
  unfold receive
  split
  next thrown => simp [thrown] at unopened
  · rfl
  next opened => simp [opened] at unopened

/-- Both sides fetch before either hears from the other; what the left side then
writes is dropped. -/
theorem glare_unread : ¬∀ (w w' : World Nat) (events : List WorldEvent),
    BeforeContact natAccount w → Run (WorldStep DmCrypto.nat natPoint natAccount) w events w' →
    (∀ side, w'.inFlight side = []) → ∀ side,
    events.flatMap (WorldEvent.sentTo side) =
      events.flatMap (WorldEvent.surfacedAt natAccount side) := by
  intro all
  have fetched := nat_fetches strangers .left rfl
  have fetched' := nat_fetches (natFetched strangers .left) .right rfl
  have wrote := left_writes (w := natFetched (natFetched strangers .left) .right)
    (by simp [natFetched])
  have dropped := right_reads (w := natFetched (natFetched strangers .left) .right) rfl (by
    intro k peer rat known
    have own : rat = natRatchet .right := by
      simp only [natFetched, Function.update_self, Sessions.ratchetAt_insert] at known
      split at known
      · exact (Prod.mk.inj (Option.some.inj known)).2.symm
      · simp [Sessions.ratchetAt] at known
    rw [own]
    decide)
  have same : (natFetched (natFetched strangers .left) .right).sessions .right =
      (∅ : Sessions Nat).insert [0] (natSession .right) := by simp [natFetched]
  rw [same, right_drops] at dropped
  have unread := all strangers _ _ strangers_silent
    (.cons fetched (.cons fetched' (.cons wrote (.cons dropped (.nil _))))) (by
      intro side
      cases side <;> simp [leftWrote, natFetched, strangers]) .right
  simp [WorldEvent.sentTo, WorldEvent.surfacedAt, Side.other] at unread

/-- The left side fetches and writes, the right side reads. -/
theorem dms_surfaced_in_order_strangers : ∃ events w',
    BeforeContact natAccount strangers ∧
    Run (Guarded (WorldStep DmCrypto.nat natPoint natAccount) (NoGlare natAccount)) strangers
      events w' ∧
    events.flatMap (WorldEvent.sentTo .right) = [.text []] ∧
    events.flatMap (WorldEvent.surfacedAt natAccount .right) = [.text []] := by
  have fetched := nat_fetches strangers .left rfl
  have wrote := left_writes (w := natFetched strangers .left) (by simp [natFetched])
  have read := right_reads (w := natFetched strangers .left) rfl
    (by simp [natFetched, strangers, Sessions.ratchetAt])
  have allowed : NoGlare natAccount strangers (.fetched .left (natFetch .left) true) := by
    intro _ _ _
    simp [strangers, hasRatchetFor]
  have run : Run (Guarded (WorldStep DmCrypto.nat natPoint natAccount) (NoGlare natAccount))
      strangers [.fetched .left (natFetch .left) true, .sent .left (.text []), .delivered .right
        (.text []) (rightDispatched ((natFetched strangers .left).sessions .right)).2] _ :=
    .cons ⟨allowed, fetched⟩ (.cons ⟨trivial, wrote⟩ (.cons ⟨trivial, read⟩ (.nil _)))
  have surfaced := dms_surfaced_in_order natPoint_honest natAccount_honest strangers_silent run .right
  refine ⟨_, _, strangers_silent, run, ?_, ?_⟩
  · simp [WorldEvent.sentTo, Side.other]
  · simpa [WorldEvent.sentTo, Side.other] using surfaced.symm

end FinBit.Desktop
