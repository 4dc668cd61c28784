import FinBit.Lib.Guards
import FinBit.Web.Connection

/-! # The hybrid handshake of the web client

The two derivations of a root agree on a bundle with an ML-KEM key and on the ciphertext that was
made for it. A session of the connection never gets that far: the handler of `key_fetch_resp`
builds the bundle anew without the key, so every root is derived from X25519 alone and every
envelope goes out without a ciphertext.
-/

namespace FinBit.Web

open FinBit.Lib FinBit.Crypto FinBit.Handshake

variable {K : Type}

/-- What is relied on about a published key and the secret behind it: decapsulation inverts
encapsulation, and neither comes out empty. -/
def PageCrypto.KemPair (P : PageCrypto K) (pub sec : Bytes) : Prop :=
  ∀ draw, ∃ ct ss, P.encapForPeer pub draw = .ok (ct, some ss) ∧ ct ≠ [] ∧
    P.decapWithOwn ct sec = .ok (some ss)

namespace Conn

variable (P : PageCrypto K) (c : Conn K)

/-! ### The derivations -/

/-- On a bundle that still has its key both ends derive the same root. -/
theorem hybrid_roots_agree (receiver : Conn K) {pub sec : Bytes} (enabled : P.pqEnabled = true)
    (kem : P.KemPair pub sec) (published : pub ≠ []) (known : receiver.pqSec = some sec)
    (secret : sec ≠ []) {peerX ourX : Bytes} {ssX : K}
    (sent : c.client.deriveSharedSecret P peerX = .ok ssX)
    (received : receiver.client.deriveSharedSecret P ourX = .ok ssX) (identityPub : Bytes)
    (draw : Nat) :
    ∃ root ct, c.hybridSharedForSend P peerX ⟨identityPub, peerX, some pub⟩ draw =
        .ok (root, some ct) ∧ ct ≠ [] ∧ receiver.hybridSharedForRecv P ourX ct = .ok root := by
  obtain ⟨ct, ss, encapsulated, nonempty, decapsulated⟩ := kem draw
  refine ⟨P.combine ssX ss, ct, ?_, nonempty, ?_⟩
  · obtain ⟨first, others, rfl⟩ := List.exists_cons_of_ne_nil nonempty
    simp [hybridSharedForSend, sent, enabled, published, encapsulated, bind, Except.bind, pure,
      Except.pure]
  · simp [hybridSharedForRecv, received, enabled, nonempty, known, secret, decapsulated, bind,
      Except.bind, pure, Except.pure]

/-- Without the key the root is that of X25519, and there is no ciphertext. -/
theorem hybridSharedForSend_of_none (peerX : Bytes) {peer : FetchedBundle}
    (without : peer.pqPubkey = none) (draw : Nat) :
    c.hybridSharedForSend P peerX peer draw =
      (c.client.deriveSharedSecret P peerX).map fun ssX => (ssX, none) := by
  unfold hybridSharedForSend
  cases c.client.deriveSharedSecret P peerX with
  | error e => rfl
  | ok ssX => simp [without, bind, Except.bind, pure, Except.pure, Except.map]

/-! ### Runs -/

/-- No bundle at hand has a post-quantum key, and no task a ciphertext. -/
structure Plain : Prop where
  settled : ∀ answer ∈ c.settled, ∀ peer, answer.2 = .ok peer → peer.pqPubkey = none
  tasks : ∀ purpose peer root ct, .derivingSend purpose peer (.ok (root, ct)) ∈ c.tasks → ct = none

/-- What is sent has no ciphertext, and none is in sight afterwards. -/
def Plainly (r : Conn K × List (Effect K)) : Prop :=
  r.1.Plain ∧ ∀ envelope, .sent envelope ∈ r.2 → envelope.pqCt = []

variable {c}

theorem plain_opened (client : WebClient K) (identityPubkey : Bytes) (pqSec : Option Bytes) :
    (opened client identityPubkey pqSec).Plain :=
  ⟨by simp [opened], by simp [opened]⟩

theorem Plain.withClient (plain : c.Plain) (w : WebClient K) : Plain { c with client := w } :=
  ⟨plain.settled, plain.tasks⟩

theorem Plain.fetched (plain : c.Plain) {requestId : Nat} {peer : FetchedBundle}
    (answer : c.settled.lookup requestId = some (.ok peer)) : peer.pqPubkey = none := by
  obtain ⟨before, after, split, -⟩ := List.lookup_eq_some_iff.mp answer
  refine plain.settled (requestId, .ok peer) ?_ peer rfl
  rw [split]
  exact List.mem_append_right _ List.mem_cons_self

/-- A step that sends nothing. -/
theorem Plain.silently (plain : c.Plain) {effects : List (Effect K)}
    (silent : ∀ envelope, .sent envelope ∉ effects) : Plainly (c, effects) :=
  ⟨plain, fun envelope member => absurd member (silent envelope)⟩

theorem Plain.spawn (plain : c.Plain) {t : Task K}
    (without : ∀ purpose peer root ct, t = .derivingSend purpose peer (.ok (root, ct)) → ct = none) :
    (c.spawn t).Plain := by
  refine ⟨plain.settled, fun purpose peer root ct member => ?_⟩
  rcases List.mem_append.mp member with earlier | here
  · exact plain.tasks purpose peer root ct earlier
  · exact without purpose peer root ct (List.mem_singleton.mp here).symm

theorem Plain.setTask (plain : c.Plain) (i : Nat) {t : Task K}
    (without : ∀ purpose peer root ct, t = .derivingSend purpose peer (.ok (root, ct)) → ct = none) :
    (c.setTask i t).Plain := by
  refine ⟨plain.settled, fun purpose peer root ct member => ?_⟩
  rcases List.mem_or_eq_of_mem_set member with earlier | here
  · exact plain.tasks purpose peer root ct earlier
  · exact without purpose peer root ct here.symm

theorem sendPayload_plainly (plain : c.Plain) (peerPub : Bytes) (payload : WebPayload)
    {finished : List (Effect K)} (silent : ∀ envelope, .sent envelope ∉ finished) :
    Plainly (c.sendPayload P peerPub payload none finished) := by
  unfold sendPayload
  split
  · exact (plain.withClient _).silently (by simp)
  · refine ⟨plain.withClient _, fun envelope member => ?_⟩
    rcases List.mem_cons.mp member with same | later
    · cases same
      rfl
    · exact absurd later (silent envelope)

theorem sent_notMem_finished (purpose : Purpose) (peerPub : Bytes) (envelope : DmEnvelope) :
    .sent envelope ∉ (purpose.finished peerPub : List (Effect K)) := by
  cases purpose <;> simp [Purpose.finished]

theorem goOn_plainly (plain : c.Plain) (purpose : Purpose) (peerPub : Bytes) :
    Plainly (c.goOn P purpose peerPub none) := by
  unfold goOn
  split
  · exact plain.silently (sent_notMem_finished purpose peerPub)
  · exact sendPayload_plainly P plain peerPub _ (sent_notMem_finished purpose peerPub)

theorem Plainly.initialised {r : Conn K × List (Effect K)} (rest : Plainly r) (peer : Bytes)
    (root : K) : Plainly (r.1, .initialised peer root :: r.2) :=
  ⟨rest.1, fun envelope member => rest.2 envelope (by simpa using member)⟩

theorem haveRoot_plainly (plain : c.Plain) (purpose : Purpose) (peer : FetchedBundle)
    (drawn : KeyPair K) {derived : Except String (K × Option Bytes)}
    (without : ∀ root ct, derived = .ok (root, ct) → ct = none) :
    Plainly (c.haveRoot P purpose peer drawn derived) := by
  unfold haveRoot
  split
  · exact plain.silently (by simp)
  next shared pqCt =>
  obtain rfl := without shared pqCt rfl
  split
  · exact (plain.withClient _).silently (by simp)
  · exact (goOn_plainly P (plain.withClient _) purpose peer.identityPub).initialised _ shared

theorem decryptInbound_plainly (plain : c.Plain) (env : InboundEnvelope) (drawn : KeyPair K) :
    Plainly (c.decryptInbound P env drawn) := by
  unfold decryptInbound
  split <;> exact (plain.withClient _).silently (by simp)

theorem haveInboundRoot_plainly (plain : c.Plain) (env : InboundEnvelope) (drawn : KeyPair K)
    (derived : Except String K) : Plainly (c.haveInboundRoot P env drawn derived) := by
  unfold haveInboundRoot
  split
  · exact plain.silently (by simp)
  next shared =>
  split
  · exact (plain.withClient _).silently (by simp)
  · exact (decryptInbound_plainly P (plain.withClient _) env drawn).initialised _ shared

theorem haveBundle_plainly (plain : c.Plain) (i : Nat) (purpose : Purpose) {peer : FetchedBundle}
    (without : peer.pqPubkey = none) (draw : Nat) :
    Plainly (c.haveBundle P i purpose peer draw) := by
  unfold haveBundle
  split
  · exact goOn_plainly P (plain.setTask i (by simp)) purpose peer.identityPub
  · -- the task that goes off to derive a root takes no ciphertext along
    refine (plain.setTask i fun purpose' peer' root ct same => ?_).silently (by simp)
    injection same with _ _ derived
    rw [hybridSharedForSend_of_none P c peer.signedPrekey without, map_eq_ok] at derived
    obtain ⟨ssX, -, same⟩ := derived
    exact (Prod.mk.inj same).2.symm

theorem resume_plainly (plain : c.Plain) (i draw : Nat) (drawn : KeyPair K) :
    Plainly (c.resume P i draw drawn) := by
  unfold resume
  split
  · split
    · exact plain.silently (by simp)
    · exact (plain.setTask i (by simp)).silently (by simp)
    · next peer answer =>
      exact haveBundle_plainly P plain i _ (plain.fetched answer) draw
  · next purpose peer derived here =>
    have member := List.mem_of_getElem? here
    refine haveRoot_plainly P (plain.setTask i (by simp)) purpose peer drawn ?_
    rintro root ct rfl
    exact plain.tasks purpose peer root ct member
  · exact haveInboundRoot_plainly P (plain.setTask i (by simp)) _ drawn _
  · exact plain.silently (by simp)
  · exact plain.silently (by simp)

theorem fetchKeyBundle_plainly (plain : c.Plain) (purpose : Purpose) (peerUsername : String) :
    Plainly (c.fetchKeyBundle purpose peerUsername) := by
  unfold fetchKeyBundle
  split
  · exact (plain.spawn (by simp)).silently (by simp)
  · refine Plain.silently ?_ (by simp)
    exact ⟨plain.settled, (plain.spawn (t := .fetching purpose c.nextFetchId) (by simp)).tasks⟩

theorem onKeyFetchResp_plainly (plain : c.Plain) (r : KeyFetchResp) :
    Plainly (c.onKeyFetchResp r) := by
  obtain ⟨pending, settled, same, answers⟩ := c.onKeyFetchResp_cases r
  rw [same]
  refine Plain.silently ?_ (by simp)
  refine ⟨fun answer member peer found => ?_, plain.tasks⟩
  -- a bundle that has just come has lost its key in the handler
  rcases answers answer member with earlier | without
  · exact plain.settled answer earlier peer found
  · exact without peer found

theorem handleInboundEnvelope_plainly (plain : c.Plain) (env : InboundEnvelope)
    (drawn : KeyPair K) : Plainly (c.handleInboundEnvelope P env drawn) := by
  unfold handleInboundEnvelope
  split
  · exact plain.silently (by simp)
  split
  · exact decryptInbound_plainly P plain env drawn
  split
  · exact plain.silently (by simp)
  · exact (plain.spawn (by simp)).silently (by simp)

theorem step_plainly (plain : c.Plain) (e : ConnEvent K) : Plainly (c.step P e) := by
  cases e with
  | sendDmDirect peerUsername text => exact fetchKeyBundle_plainly plain _ peerUsername
  | inviteToChannel channelId name distribution peerUsername =>
    exact fetchKeyBundle_plainly plain _ peerUsername
  | startCall peerUsername =>
    simp only [step]
    split
    · exact plain.silently (by simp)
    · exact fetchKeyBundle_plainly plain _ peerUsername
  | sendMediaSignal peerPub callId kind payload epoch =>
    exact sendPayload_plainly P plain peerPub _ (by simp)
  | keyFetchResp r => exact onKeyFetchResp_plainly plain r
  | envelope env drawn => exact handleInboundEnvelope_plainly P plain env drawn
  | resume task draw drawn => exact resume_plainly P plain task draw drawn

/-- No envelope of a run carries a ciphertext, whatever the bundles have been. -/
theorem run_plainly (plain : c.Plain) (events : List (ConnEvent K)) :
    Plainly (c.run P events) := by
  -- on the events, for every connection that is plain
  induction events generalizing c with
  | nil => exact plain.silently (by simp)
  | cons e events ih =>
    have first := step_plainly P plain e
    have rest := ih first.1
    refine ⟨rest.1, fun envelope member => ?_⟩
    rcases List.mem_append.mp member with now | later
    · exact first.2 envelope now
    · exact rest.2 envelope later

/-! ### The first envelope of a session -/

/-- The first envelope to the peer. -/
def firstSent (peer : Bytes) : List (Effect K) → Option DmEnvelope
  | [] => none
  | .sent envelope :: effects =>
    if envelope.recipientPubkey = peer then some envelope else firstSent peer effects
  | _ :: effects => firstSent peer effects

theorem mem_of_firstSent {peer : Bytes} {effects : List (Effect K)} {envelope : DmEnvelope}
    (first : firstSent peer effects = some envelope) : .sent envelope ∈ effects := by
  induction effects with
  | nil => cases first
  | cons e effects ih =>
    cases e with
    | sent other =>
      by_cases same : other.recipientPubkey = peer
      · simp only [firstSent, same, if_true, Option.some.injEq] at first
        simp [first]
      · simp only [firstSent, same, if_false] at first
        exact .tail _ (ih first)
    | requested | missed | initialised | delivered | invited | callStarted | rejected =>
      exact .tail _ (ih first)

/-- A session has been started with a root, its first envelope has a ciphertext, and from that the
receiver derives the same root. -/
def HybridStart (receiver : Conn K) (peer : Bytes) (effects : List (Effect K)) : Prop :=
  ∃ before root after envelope peerX,
    effects = before ++ .initialised peer root :: after ∧
    firstSent peer after = some envelope ∧ envelope.pqCt ≠ [] ∧
    P.ed25519PubToX25519 envelope.senderPubkey = .ok peerX ∧
    receiver.hybridSharedForRecv P peerX envelope.pqCt = .ok root

theorem not_hybridStart_of_plainly {r : Conn K × List (Effect K)} (plainly : Plainly r)
    (receiver : Conn K) (peer : Bytes) : ¬HybridStart P receiver peer r.2 := by
  rintro ⟨before, root, after, envelope, peerX, split, first, nonempty, -⟩
  refine nonempty (plainly.2 envelope ?_)
  rw [split]
  exact List.mem_append_right _ (.tail _ (mem_of_firstSent first))

/-- No session is started by the hybrid handshake, in any run and whatever starts it. -/
theorem never_hybridStart (client : WebClient K) (identityPubkey : Bytes) (pqSec : Option Bytes)
    (events : List (ConnEvent K)) (receiver : Conn K) (peer : Bytes) :
    ¬HybridStart P receiver peer
      ((opened client identityPubkey pqSec).run P events).2 :=
  not_hybridStart_of_plainly P (run_plainly P (plain_opened client identityPubkey pqSec) events)
    receiver peer

/-! ### A peer with a key -/

open Ratchet (octetPair octetPoint)

/-- Number keys of the right lengths that begin alike are a pair. -/
theorem kemPair_octets {pub sec : Bytes} (pubSize : pub.length = kMlKem768PubBytes)
    (secSize : sec.length = 2400) (same : pub.headD 0 = sec.headD 0) :
    (PageCrypto.octets true).KemPair pub sec := by
  intro draw
  refine ⟨List.replicate kMlKem768CtBytes (UInt8.ofNat draw),
    (pub.headD 0).toNat + (UInt8.ofNat draw).toNat, ?_, ?_, ?_⟩
  · rw [PageCrypto.encapForPeer, if_neg (by rintro (off | wrong); cases off; exact wrong pubSize)]
    rfl
  · exact List.ne_nil_of_length_pos (by rw [List.length_replicate]; decide)
  · have whole : (List.replicate kMlKem768CtBytes (UInt8.ofNat draw)).length = kMlKem768CtBytes :=
      List.length_replicate
    rw [PageCrypto.decapWithOwn, if_neg (by
      rintro (off | wrong | wrong)
      · cases off
      · exact wrong whole
      · exact wrong secSize), same]
    rfl

private def hybridPub : Bytes := 7 :: List.replicate 1183 0

private def hybridSec : Bytes := 7 :: List.replicate 2399 0

private theorem hybridPair : (PageCrypto.octets true).KemPair hybridPub hybridSec :=
by
  have pubSize : hybridPub.length = kMlKem768PubBytes :=
    (List.length_cons ..).trans (congrArg (· + 1) List.length_replicate)
  have secSize : hybridSec.length = 2400 :=
    (List.length_cons ..).trans (congrArg (· + 1) List.length_replicate)
  have pubHead : hybridPub.headD 0 = 7 := rfl
  have secHead : hybridSec.headD 0 = 7 := rfl
  exact kemPair_octets pubSize secSize (pubHead.trans secHead.symm)

private def caller : Conn Nat :=
  .opened ⟨octetPair 1, fun _ => none⟩ (octetPoint 1) (some hybridSec)

private def callee : Conn Nat :=
  .opened ⟨octetPair 2, fun _ => none⟩ (octetPoint 2) (some hybridSec)

private def published : DecodedBundle :=
  ⟨octetPoint 2, octetPoint 2, hybridPub, []⟩

private def firstMessageTo : List (ConnEvent Nat) :=
  [.sendDmDirect "bob" "hello", .keyFetchResp ⟨true, some published, 1⟩,
    .resume 0 0 (octetPair 3), .resume 0 0 (octetPair 3)]

/-- The peer has published a key, and the message goes out without a ciphertext. -/
theorem not_hybridStart_first_message :
    ¬ ∀ (sender receiver : Conn Nat) (events : List (ConnEvent Nat)) (bundle : DecodedBundle)
      (sec : Bytes) (requestId : Nat),
      (PageCrypto.octets true).KemPair bundle.pqPubkey sec → bundle.pqPubkey ≠ [] →
      receiver.pqSec = some sec → sender.client.sessions bundle.identityPub = none →
      .keyFetchResp ⟨true, some bundle, requestId⟩ ∈ events →
      (∃ envelope, firstSent bundle.identityPub (sender.run (.octets true) events).2 =
        some envelope) →
      HybridStart (.octets true) receiver bundle.identityPub
        (sender.run (.octets true) events).2 := by
  intro always
  have start := always caller callee firstMessageTo published hybridSec 1 hybridPair
    (List.cons_ne_nil _ _) rfl rfl (by simp [firstMessageTo]) ⟨_, rfl⟩
  exact not_hybridStart_of_plainly _ (run_plainly _ (plain_opened _ _ _) firstMessageTo) callee _
    start

end Conn

end FinBit.Web
