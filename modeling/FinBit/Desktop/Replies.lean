import FinBit.Desktop.Glare
import FinBit.Desktop.SendQueue

/-! # Replies to a first contact

Who is written to for the first time files the ratchet under a name made of the sender's key. A
reply is queued under the name of a user, for which the relay is asked for a bundle. The answer
finds that there is a ratchet for its key already and makes none, and where the loop then looks,
under the name of the user, there is still nothing.
-/

namespace FinBit.Desktop

open FinBit.Lib FinBit.Crypto FinBit.Identity FinBit.Handshake Std

variable {K : Type}

/-- The first envelope of an unknown peer files a session under the provisional name. -/
theorem dispatchDm_files (P : DmCrypto K) (client : DmClient K) (env : Envelope)
    (drawn : Bytes → KeyPair K) {sender pt : Bytes} {rat' : Ratchet K}
    (lacks : Lacks client.sessions sender) (plain : env.senderPubkey = sender)
    (sized : sender.length = 32) (consistent : env.aadConsistent = true) {peerX : Bytes} {shared : K}
    (curve : P.edToCurve sender = some peerX)
    (derived : deriveHybridRecv P.toHybridCrypto client.x25519 peerX client.pqSec env.pqCt =
      .ok shared)
    (opened : (Ratchet.initBob P.toRatchetCrypto shared client.x25519).decrypt P.toRatchetCrypto
      (drawn (peerName sender)) env.ciphertext env.aad = (rat', .ok (some pt))) :
    ∃ s, (dispatchDm P client env drawn).1 = client.sessions.insert (peerName sender) s ∧
      s.peerPub = sender ∧ s.rat = some rat' := by
  have present : sender ≠ [] := by
    rintro rfl
    simp at sized
  have unknown := lacks.free
  rw [← ratchetAt_getD, Option.map_eq_none_iff] at unknown
  simp only [dispatchDm, plain, present, sized, if_false, ne_eq, not_true_eq_false, deliver,
    sessionName_of_lacks lacks, respond, unknown, curve, derived, consistent,
    Bool.true_eq_false, receive, opened]
  exact ⟨_, rfl, rfl, rfl⟩

namespace SendQueue

section

variable (P : DmCrypto K) (fingerprint : Bytes → Bytes) (me : Account K) (q : SendQueue K)

/-- An envelope of a direct message comes in. -/
def inbound (env : Envelope) (drawn : Bytes → KeyPair K) : SendQueue K :=
  { q with around.sessions := (dispatchDm P (me.client q.around.sessions) env drawn).1 }

/-- The answer to a fetch comes in; it is for the front of `pending_fetch_targets`. An exception
ends the loop. -/
def answered (r : KeyFetchResp) (admitted : Bool) (drawn : KeyPair K) (draw : Nat) : SendQueue K :=
  let user := q.pendingFetchTargets.headD []
  let (sessions, outcome) := keyFetchResp P (me.client q.around.sessions) user r admitted drawn draw
  let q := { q with around.sessions := sessions, pendingFetchTargets := q.pendingFetchTargets.tail }
  match outcome with
  | .notFound => q.dropMissing user
  | .threw _ => { q with running := false }
  | _ => q

end

inductive ReplyEvent (K : Type) where
  | work (event : Event)
  | inbound (env : Envelope) (drawn : Bytes → KeyPair K)
  | answered (r : KeyFetchResp) (admitted : Bool) (drawn : KeyPair K) (draw : Nat)

/-- The queue with what the relay sends; nothing else changes the sessions. -/
inductive ReplyStep (P : DmCrypto K) (fingerprint : Bytes → Bytes) (me : Account K) :
    SendQueue K → ReplyEvent K → SendQueue K → Prop
  | work {q q' : SendQueue K} {event : Event} (own : event ≠ .elsewhere)
      (step : Step P fingerprint q event q') : ReplyStep P fingerprint me q (.work event) q'
  | inbound {q : SendQueue K} (running : q.running = true) (rest : q.AtRest) (env : Envelope)
      (drawn : Bytes → KeyPair K) :
      ReplyStep P fingerprint me q (.inbound env drawn) (q.inbound P me env drawn)
  | answered {q : SendQueue K} (running : q.running = true) (rest : q.AtRest) (r : KeyFetchResp)
      (admitted : Bool) (drawn : KeyPair K) (draw : Nat) :
      ReplyStep P fingerprint me q (.answered r admitted drawn draw)
        (q.answered P me r admitted drawn draw)

/-- The text is encrypted and sent, at once or after it has been put back under the name of its
session. -/
def GoesOut (fingerprint : Bytes → Bytes) (around : Surroundings K) (luck : Luck) (s : PendingSend) :
    Prop :=
  match sendOne fingerprint around luck s with
  | (_, .sent) => True
  | (s', .requeued) => (sendOne fingerprint around luck s').2 = .sent
  | _ => False

/-- Under this name there is a ratchet that can send. -/
def CanSend (sessions : Sessions K) (name : Bytes) : Prop :=
  ∃ peer rat, sessions.ratchetAt name = some (peer, rat) ∧ rat.haveCks = true

/-- The name that is written to, or the session whose fingerprint it is, has a ratchet that can
send; or it has none, and the username log leads from it to a key whose session has. -/
def Answerable (fingerprint : Bytes → Bytes) (around : Surroundings K) (s : PendingSend) : Prop :=
  let s := rebindFingerprint fingerprint around.sessions s
  CanSend around.sessions s.peer ∨
    around.sessions.ratchetAt s.peer = none ∧ ∃ pub, around.usernameLog.resolve s.peer = some pub ∧
      CanSend around.sessions (rebind around.sessions (· = pub) s).peer

section

variable {P : DmCrypto K} {fingerprint : Bytes → Bytes} {me : Account K} {q : SendQueue K}
  {around : Surroundings K} {luck : Luck} {s : PendingSend}

theorem rebindFingerprint_known (known : s.peer ∈ around.sessions) :
    rebindFingerprint fingerprint around.sessions s = s := by
  rw [rebindFingerprint, if_neg]
  rintro ⟨-, -, unknown⟩
  exact unknown known

theorem rebind_holds {sessions : Sessions K} {peer name : Bytes} {rat : Ratchet K}
    (holds : Holds sessions peer name rat) : (rebind sessions (· = peer) s).peer = name := by
  unfold rebind
  split
  next nothing =>
    have listed := mem_keys_of_ratchetAt holds.entry
    exact absurd (any_ratchetAt_eq_true_iff.mpr ⟨rat, holds.entry⟩)
      (List.find?_eq_none.mp nothing name listed)
  next k found =>
    have owner := List.find?_some found
    obtain ⟨r, here⟩ := any_ratchetAt_eq_true_iff.mp owner
    exact holds.unique k r here

/-- What one pass does, by where it finds a ratchet. -/
theorem sendOne_some {peer : Bytes} {rat : Ratchet K} (socket : luck.socket = true)
    (found : around.sessions.ratchetAt (rebindFingerprint fingerprint around.sessions s).peer =
      some (peer, rat)) :
    sendOne fingerprint around luck s = (rebindFingerprint fingerprint around.sessions s,
      if rat.haveCks = true then .sent else .threw) := by
  unfold sendOne
  dsimp only
  rw [found]
  dsimp only
  cases rat.haveCks with
  | false => rfl
  | true =>
    rw [if_neg (by decide), socket]
    split <;> rfl

theorem sendOne_known {peer : Bytes} {rat : Ratchet K} (socket : luck.socket = true)
    (found : around.sessions.ratchetAt s.peer = some (peer, rat)) :
    (sendOne fingerprint around luck s).2 = if rat.haveCks = true then .sent else .threw := by
  have known : s.peer ∈ around.sessions := by
    by_contra absent
    simp [Sessions.ratchetAt, ExtTreeMap.getElem?_eq_none absent] at found
  have same : rebindFingerprint fingerprint around.sessions s = s := rebindFingerprint_known known
  rw [sendOne_some socket (same.symm ▸ found)]

theorem sendOne_none (socket : luck.socket = true)
    (missing : around.sessions.ratchetAt (rebindFingerprint fingerprint around.sessions s).peer = none) :
    sendOne fingerprint around luck s =
      match around.usernameLog.resolve (rebindFingerprint fingerprint around.sessions s).peer with
      | none => (rebindFingerprint fingerprint around.sessions s, .fetching)
      | some pub =>
        let s' := rebind around.sessions (· = pub) (rebindFingerprint fingerprint around.sessions s)
        (s', if (around.sessions.ratchetAt s'.peer).isSome then .requeued
          else if around.overlay then .parked pub else .fetching) := by
  unfold sendOne
  dsimp only
  rw [missing, socket]
  dsimp only
  cases around.usernameLog.resolve (rebindFingerprint fingerprint around.sessions s).peer with
  | none => rfl
  | some pub =>
    dsimp only
    split
    · rfl
    · split <;> rfl

/-- When a text goes out, exactly. -/
theorem goesOut_iff (socket : luck.socket = true) :
    GoesOut fingerprint around luck s ↔ Answerable fingerprint around s := by
  unfold GoesOut Answerable CanSend
  dsimp only
  cases found : around.sessions.ratchetAt (rebindFingerprint fingerprint around.sessions s).peer with
  | some entry =>
    obtain ⟨peer, rat⟩ := entry
    rw [sendOne_some socket found]
    cases ready : rat.haveCks <;> simp [ready]
  | none =>
    rw [sendOne_none socket found]
    cases resolved :
        around.usernameLog.resolve (rebindFingerprint fingerprint around.sessions s).peer with
    | none => simp
    | some pub =>
      simp only [Option.some.injEq, exists_eq_left']
      generalize rebind around.sessions (· = pub) (rebindFingerprint fingerprint around.sessions s) = s'
      cases known : around.sessions.ratchetAt s'.peer with
      | none =>
        -- it is parked, or another fetch goes out
        rw [if_neg (by simp)]
        cases around.overlay <;> simp
      | some entry =>
        obtain ⟨peer, rat⟩ := entry
        rw [if_pos (by simp)]
        dsimp only
        rw [sendOne_known socket known]
        cases ready : rat.haveCks <;> simp [ready]

/-- A bundle of a key for which there is a ratchet leaves the sessions as they are. -/
theorem answered_known {r : KeyFetchResp} (found : r.found = true)
    (sized : r.bundle.identityPubkey.length = 32) (sized' : r.bundle.signedPrekey.length = 32)
    (known : hasRatchetFor q.around.sessions r.bundle.identityPubkey = true) (admitted : Bool)
    (drawn : KeyPair K) (draw : Nat) :
    q.answered P me r admitted drawn draw =
      { q with pendingFetchTargets := q.pendingFetchTargets.tail } := by
  obtain ⟨outcome, handled, idle⟩ : ∃ outcome, keyFetchResp P (me.client q.around.sessions)
      (q.pendingFetchTargets.headD []) r admitted drawn draw = (q.around.sessions, outcome) ∧
      (outcome = .ignored ∨ outcome = .refused ∨ outcome = .reused) := by
    have same : (me.client q.around.sessions).sessions = q.around.sessions := rfl
    simp only [keyFetchResp, same, found, sized, sized', known, Bool.true_eq_false, ne_eq,
      not_true_eq_false, or_self, if_false, if_true]
    split
    · exact ⟨_, rfl, .inl rfl⟩
    · split
      · exact ⟨_, rfl, .inr (.inl rfl)⟩
      · exact ⟨_, rfl, .inr (.inr rfl)⟩
  simp only [answered, handled]
  rcases idle with rfl | rfl | rfl <;> rfl

/-- Where the answer changes nothing, the loop asks again, and is where it was. -/
theorem fetch_cycle {r : KeyFetchResp} {t : Ticket PendingSend} (found : r.found = true)
    (sized : r.bundle.identityPubkey.length = 32) (sized' : r.bundle.signedPrekey.length = 32)
    (known : hasRatchetFor q.around.sessions r.bundle.identityPubkey = true) (admitted : Bool)
    (drawn : KeyPair K) (draw : Nat) (now : UInt64) (idle : q.toSend = []) (waits : q.queue = [t])
    (inFlight : q.pendingFetchTargets = [t.work.peer])
    (asks : sendOne fingerprint q.around luck t.work = (t.work, .fetching)) :
    (q.answered P me r admitted drawn draw).takeSends.send fingerprint luck now t [] = q := by
  rw [answered_known found sized sized' known]
  obtain ⟨around, queue, chanQueue, parking, toSend, chanOps, targets, executed, reported⟩ := q
  dsimp only at idle waits inFlight asks ⊢
  subst idle waits inFlight
  simp only [takeSends, send, asks, List.tail_cons, List.nil_append]

end

/-- The answer to a fetch for a user for whose key there is a ratchet already changes no session, so
what is then sent to the user goes out exactly if it could have gone out before. -/
theorem reply_goes_out_iff (P : DmCrypto K) (fingerprint : Bytes → Bytes) (me : Account K)
    (q : SendQueue K) (user : Bytes) (others : List Bytes) (inFlight : q.pendingFetchTargets = user :: others)
    (r : KeyFetchResp) (found : r.found = true) (sized : r.bundle.identityPubkey.length = 32)
    (sized' : r.bundle.signedPrekey.length = 32)
    (known : hasRatchetFor q.around.sessions r.bundle.identityPubkey = true) (admitted : Bool)
    (drawn : KeyPair K) (draw : Nat) (luck : Luck) (socket : luck.socket = true) (s : PendingSend) :
    (q.answered P me r admitted drawn draw).pendingFetchTargets = others ∧
      (GoesOut fingerprint (q.answered P me r admitted drawn draw).around luck
          { s with peer := user } ↔
        Answerable fingerprint q.around { s with peer := user }) := by
  rw [answered_known found sized sized' known, inFlight]
  exact ⟨rfl, goesOut_iff socket⟩

/-! ### A reply to somebody who has written first -/

def bob : Account Nat where
  publicKey := natPoint 2
  x25519 := ⟨natPoint 2, 2⟩
  pqPub := []
  pqSec := [7]
  sign := natSign (natPoint 2)

abbrev alicePub : Bytes := natPoint 1

/-- Nobody has written yet; the username log is what it is. -/
private def quiet (log : UsernameLog) : Surroundings Nat :=
  ⟨∅, log, false, fun _ => ⟨List.replicate 32 0, false, [], false⟩⟩

/-- The chain key after the first key of Alice, whose DH result with Bob's is 35. -/
noncomputable def aliceChain : Nat := (DmCrypto.nat.kdfRk 15 35).2

noncomputable def greeting : Envelope where
  envelopeId := []
  timestampMs := 0
  aad := envelopeAadBytes [] 0
  recipient := .userPubkey bob.publicKey
  senderPubkey := alicePub
  ciphertext := DmCrypto.nat.message.encode ⟨natPoint 3, 0, 0, DmCrypto.nat.aead.encrypt
    (DmCrypto.nat.kdfCk.messageKey aliceChain)
    (Ratchet.composeAad (natPoint 3) 0 0 (envelopeAadBytes [] 0)) (packTextPayload DmCrypto.nat [])⟩
  pqCt := []

/-- What Bob has after it: a ratchet that can send. -/
noncomputable def greetedRatchet : Ratchet Nat :=
  (Ratchet.initBob DmCrypto.nat.toRatchetCrypto 15 bob.x25519).turned DmCrypto.nat.toRatchetCrypto
    (natPoint 3) ⟨natPoint 5, 5⟩ 35 77

theorem greeted : ∃ s, (dispatchDm DmCrypto.nat (bob.client ∅) greeting
      fun _ => ⟨natPoint 5, 5⟩).1 = (∅ : Sessions Nat).insert (peerName alicePub) s ∧
    s.peerPub = alicePub ∧ s.rat = some greetedRatchet := by
  have lacks : Lacks (bob.client (∅ : Sessions Nat)).sessions alicePub := by
    constructor <;> simp [Account.client, Sessions.ratchetAt]
  have sized : alicePub.length = 32 := by simp [natPoint]
  have derived : deriveHybridRecv DmCrypto.nat.toHybridCrypto bob.x25519 alicePub bob.pqSec
      greeting.pqCt = .ok 15 := by
    have shared : DmCrypto.nat.x25519Dh bob.x25519.priv alicePub = some 15 := nat_x25519Dh 2 1
    rw [deriveHybridRecv, deriveSharedSecret, shared]
    rfl
  have received : DmCrypto.nat.x25519Dh bob.x25519.priv (natPoint 3) = some 35 := nat_x25519Dh 2 3
  have sent : DmCrypto.nat.x25519Dh (⟨natPoint 5, 5⟩ : KeyPair Nat).priv (natPoint 3) = some 77 :=
    nat_x25519Dh 5 3
  -- the message is the first one of a chain
  have opened : (Ratchet.initBob DmCrypto.nat.toRatchetCrypto 15 bob.x25519).decrypt
      DmCrypto.nat.toRatchetCrypto ⟨natPoint 5, 5⟩ greeting.ciphertext greeting.aad =
        (greetedRatchet, .ok (some (packTextPayload DmCrypto.nat []))) := by
    have length_header : (natPoint 3).length = 32 := by simp [natPoint]
    simp only [Ratchet.decrypt, Ratchet.parseMessage, greeting, Codec.decode_encode,
      Option.filter_some, length_header, decide_true, if_true]
    have new : (Ratchet.initBob DmCrypto.nat.toRatchetCrypto 15 bob.x25519).isNewDh (natPoint 3) =
        true := rfl
    have whole : (0 : UInt32) =
        (Ratchet.initBob DmCrypto.nat.toRatchetCrypto 15 bob.x25519).nr := rfl
    have key : (DmCrypto.nat.kdfRk (Ratchet.initBob DmCrypto.nat.toRatchetCrypto 15
        bob.x25519).rk 35).2 = aliceChain := rfl
    rw [Ratchet.decryptMessage_first DmCrypto.nat.toRatchetCrypto rfl new whole received sent, key,
      Aead.decrypt_encrypt]
    rfl
  have consistent : greeting.aadConsistent = true := by simp [Envelope.aadConsistent, greeting]
  have curve : DmCrypto.nat.edToCurve alicePub = some alicePub := by
    simp only [DmCrypto.nat]
    rw [if_pos sized]
  exact dispatchDm_files DmCrypto.nat (bob.client ∅) greeting (fun _ => ⟨natPoint 5, 5⟩) lacks rfl
    sized consistent curve derived opened

private def reply : PendingSend := ⟨ascii "alice", ascii "hi", [], []⟩

private def aliceBundle : KeyFetchResp := ⟨true, alicePub, alicePub, [], [], [], [], [], []⟩

private def connected : Luck := ⟨true, false, false⟩

/-- What is left after the greeting: one session, under the provisional name. -/
private theorem greeted_sessions (sessions : Sessions Nat) (s : Session Nat) (rat : Ratchet Nat)
    (filed : sessions = (∅ : Sessions Nat).insert (peerName alicePub) s) (owner : s.peerPub = alicePub)
    (has : s.rat = some rat) : sessions.ratchetAt (peerName alicePub) = some (alicePub, rat) ∧
      sessions.ratchetAt (ascii "alice") = none ∧ hasRatchetFor sessions alicePub = true := by
  have here : sessions.ratchetAt (peerName alicePub) = some (alicePub, rat) := by
    rw [filed, Sessions.ratchetAt_insert, if_pos rfl, has, owner]
    rfl
  refine ⟨here, ?_, hasRatchetFor_eq_true_iff.mpr ⟨_, rat, here⟩⟩
  have apart : peerName alicePub ≠ ascii "alice" := by decide
  rw [filed, Sessions.ratchetAt_insert, if_neg apart]
  simp [Sessions.ratchetAt]

/-- Bob has read what Alice has written, and replies: there is a ratchet that can send, and the fetch
for her bundle is answered and sent again, round after round. -/
theorem reply_never_sent :
    ∃ (me : Account Nat) (around : Surroundings Nat) (events round : List (ReplyEvent Nat))
      (q : SendQueue Nat) (r : KeyFetchResp) (rat : Ratchet Nat),
      Run (ReplyStep DmCrypto.nat id me) (.new around) events q ∧
      q.around.sessions.ratchetAt (peerName r.bundle.identityPubkey) =
        some (r.bundle.identityPubkey, rat) ∧ rat.haveCks = true ∧
      q.pendingFetchTargets = [ascii "alice"] ∧ r.found = true ∧
      (∀ admitted drawn draw, ¬GoesOut id (q.answered DmCrypto.nat me r admitted drawn draw).around
        connected reply) ∧
      ReplyEvent.answered r true ⟨natPoint 6, 6⟩ 0 ∈ round ∧
      Run (ReplyStep DmCrypto.nat id me) q round q := by
  obtain ⟨s, filed, owner, has⟩ := greeted
  have ready : greetedRatchet.haveCks = true := rfl
  let q₁ : SendQueue Nat := (SendQueue.new (quiet [])).inbound DmCrypto.nat bob greeting
    fun _ => ⟨natPoint 5, 5⟩
  obtain ⟨here, nowhere, known⟩ := greeted_sessions q₁.around.sessions s greetedRatchet filed owner has
  have plain (sessions : Sessions Nat) : rebindFingerprint id sessions reply = reply :=
    if_neg fun looks => absurd looks.1 (by decide)
  have asks : sendOne id q₁.around connected reply = (reply, .fetching) := by
    have unknown : q₁.around.usernameLog.resolve reply.peer = none := by
      simp [q₁, inbound, SendQueue.new, quiet, UsernameLog.resolve]
    rw [sendOne_none rfl ((plain _).symm ▸ nowhere), plain, unknown]
  let t : Ticket PendingSend := ⟨0, reply⟩
  let q : SendQueue Nat :=
    { q₁ with queue := [t], pendingFetchTargets := [ascii "alice"], issued := 1 }
  have sends : ((q₁.queueSend reply).takeSends).send id connected 0 t [] = q := by
    simp only [takeSends, queueSend, send, t, asks]
    rfl
  have sized : alicePub.length = 32 := by simp [natPoint]
  have cycle : (q.answered DmCrypto.nat bob aliceBundle true ⟨natPoint 6, 6⟩ 0).takeSends.send id
      connected 0 t [] = q := fetch_cycle rfl sized sized known true _ 0 0 rfl rfl rfl asks
  have answered_same (admitted : Bool) (drawn : KeyPair Nat) (draw : Nat) :
      (q.answered DmCrypto.nat bob aliceBundle admitted drawn draw).around = q₁.around := by
    rw [answered_known rfl sized sized known]
  refine ⟨bob, quiet [], [.inbound greeting fun _ => ⟨natPoint 5, 5⟩, .work (.queued reply),
    .work .tookSends, .work (.sent connected 0)],
    [.answered aliceBundle true ⟨natPoint 6, 6⟩ 0, .work .tookSends, .work (.sent connected 0)], q,
    aliceBundle, greetedRatchet, ?_, here, ready, rfl, rfl, fun admitted drawn draw => ?_, List.mem_cons_self, ?_⟩
  · refine .cons (.inbound rfl ⟨rfl, rfl⟩ greeting _) (.cons (.work (by simp) (.queued _ reply))
      (.cons (.work (by simp) (.tookSends rfl ⟨rfl, rfl⟩)) (.cons (.work (by simp) ?_) (.nil q))))
    rw [← sends]
    exact .sent rfl rfl connected 0
  · rw [answered_same, GoesOut, asks]
    exact id
  · have same : q.answered DmCrypto.nat bob aliceBundle true ⟨natPoint 6, 6⟩ 0 =
        { q with pendingFetchTargets := [] } := answered_known rfl sized sized known true _ 0
    have first : ReplyStep DmCrypto.nat id bob q (.answered aliceBundle true ⟨natPoint 6, 6⟩ 0)
        { q with pendingFetchTargets := [] } := same ▸ .answered rfl ⟨rfl, rfl⟩ aliceBundle true _ 0
    rw [same] at cycle
    have last : ReplyStep DmCrypto.nat id bob
        (SendQueue.takeSends { q with pendingFetchTargets := [] }) (.work (.sent connected 0))
        ((SendQueue.takeSends { q with pendingFetchTargets := [] }).send id connected 0 t []) :=
      .work (by simp) (.sent rfl rfl connected 0)
    rw [cycle] at last
    exact .cons first (.cons (.work (by simp) (.tookSends rfl ⟨rfl, rfl⟩)) (.cons last (.nil q)))

private def aliceClaim : UserClaim := ⟨ascii "alice", alicePub, 0, [], []⟩

/-- The username log knows Alice: the reply goes out. -/
theorem reply_goes_out_logged :
    ∃ (me : Account Nat) (q : SendQueue Nat) (r : KeyFetchResp),
      q.pendingFetchTargets = [ascii "alice"] ∧
      hasRatchetFor q.around.sessions r.bundle.identityPubkey = true ∧
      q.around.sessions.ratchetAt (ascii "alice") = none ∧
      GoesOut id (q.answered DmCrypto.nat me r true ⟨natPoint 6, 6⟩ 0).around connected reply := by
  obtain ⟨s, filed, owner, has⟩ := greeted
  have ready : greetedRatchet.haveCks = true := rfl
  let q₁ : SendQueue Nat := (SendQueue.new (quiet [aliceClaim])).inbound DmCrypto.nat bob greeting
    fun _ => ⟨natPoint 5, 5⟩
  obtain ⟨here, nowhere, known⟩ := greeted_sessions q₁.around.sessions s greetedRatchet filed owner has
  let q : SendQueue Nat := { q₁ with pendingFetchTargets := [ascii "alice"] }
  have sized : alicePub.length = 32 := by simp [natPoint]
  have resolved : q.around.usernameLog.resolve reply.peer = some alicePub := by
    have named : (cstr (ascii "alice")).val = ascii "alice" := by decide
    have log : q.around.usernameLog = [aliceClaim] := rfl
    simp [log, UsernameLog.resolve, aliceClaim, reply, named, sized]
  have holds : Holds q.around.sessions alicePub (peerName alicePub) greetedRatchet := by
    refine ⟨here, by decide, fun k r found => ?_⟩
    by_contra elsewhere
    rw [show q.around.sessions = (∅ : Sessions Nat).insert (peerName alicePub) s from filed,
      Sessions.ratchetAt_insert, if_neg (Ne.symm elsewhere)] at found
    simp [Sessions.ratchetAt] at found
  have answerable : Answerable id q.around reply := by
    have plain : rebindFingerprint id q.around.sessions reply = reply :=
      if_neg fun looks => absurd looks.1 (by decide)
    refine .inr ⟨plain.symm ▸ nowhere, alicePub, plain.symm ▸ resolved, ?_⟩
    rw [plain, rebind_holds holds]
    exact ⟨alicePub, greetedRatchet, here, ready⟩
  obtain ⟨-, goes⟩ := reply_goes_out_iff DmCrypto.nat id bob q (ascii "alice") [] rfl aliceBundle rfl
    sized sized known true ⟨natPoint 6, 6⟩ 0 connected rfl reply
  exact ⟨bob, q, aliceBundle, rfl, known, nowhere, goes.mpr answerable⟩

end SendQueue

end FinBit.Desktop
