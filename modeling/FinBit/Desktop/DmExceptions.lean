import FinBit.Desktop.DmAtomicity
import FinBit.Desktop.FirstContact

/-! # Exceptions on the direct-message paths

The helpers of the handshake throw, and so does a ratchet that meets a header key of
low order. Neither `dispatch_envelope` nor the handler of `kKeyFetchResp` catches any
of it. This module says for which envelopes and which bundles that happens, in terms
of the message and the state before it.
-/

namespace FinBit.Desktop

open FinBit.Lib FinBit.Crypto FinBit.Handshake Std

variable {K : Type}

def DmOutcome.Throws : DmOutcome → Prop
  | .threw _ => True
  | _ => False

def FetchOutcome.Throws : FetchOutcome → Prop
  | .threw _ => True
  | _ => False

section

variable (P : DmCrypto K)

/-! ### The handshake -/

/-- A first envelope whose KEM ciphertext or sender key the receiver cannot use. -/
inductive RecvFails (mine : KeyPair K) (peerX pqSec pqCt : Bytes) : Prop
  | lowOrder (low : P.x25519Dh mine.priv peerX = none)
  | size (present : pqCt ≠ []) (wrong : pqCt.length ≠ kMlKem768CtBytes)
  | decap (present : pqCt ≠ []) (refused : P.decap pqSec pqCt = none)

theorem fails_deriveHybridRecv_iff (mine : KeyPair K) (peerX pqSec pqCt : Bytes) :
    Fails (deriveHybridRecv P.toHybridCrypto mine peerX pqSec pqCt) ↔
      RecvFails P mine peerX pqSec pqCt := by
  unfold deriveHybridRecv deriveSharedSecret
  cases shared : P.x25519Dh mine.priv peerX with
  | none => exact ⟨fun _ => .lowOrder shared, fun _ => fails_error _⟩
  | some dh =>
    simp only [bind, Except.bind]
    by_cases present : pqCt = []
    · simp only [present, if_true, not_fails_ok, false_iff]
      rintro (low | ⟨absent, -⟩ | ⟨absent, -⟩)
      · simp [shared] at low
      · exact absent rfl
      · exact absent rfl
    · simp only [present, if_false, fails_ite_error]
      constructor
      · rintro (wrong | failed)
        · exact .size present wrong
        · cases refused : P.decap pqSec pqCt with
          | none => exact .decap present refused
          | some ss => simp [refused] at failed
      · rintro (low | ⟨-, wrong⟩ | ⟨-, refused⟩)
        · simp [shared] at low
        · exact .inl wrong
        · simp [refused]

/-- A bundle that the sender of a first envelope cannot use. -/
inductive SendFails (mine : KeyPair K) (peerX : Bytes) (bundle : PreKeyBundle) (draw : Nat) : Prop
  | unsigned (present : bundle.pqPubkey ≠ []) (missing : bundle.pqPubkeySig.length ≠ 64)
  | forged (present : bundle.pqPubkey ≠ [])
      (invalid : P.verify bundle.identityPubkey bundle.pqPubkey bundle.pqPubkeySig = false)
  | pqSigs (invalid : verifyBundlePqSigs P.toHybridCrypto bundle = false)
  | lowOrder (low : P.x25519Dh mine.priv peerX = none)
  | size (present : bundle.pqPubkey ≠ []) (wrong : bundle.pqPubkey.length ≠ kMlKem768PubBytes)
  | encap (present : bundle.pqPubkey ≠ []) (refused : P.encap bundle.pqPubkey draw = none)

theorem fails_deriveHybridSend_iff (mine : KeyPair K) (peerX pqPub : Bytes) (draw : Nat) :
    Fails (deriveHybridSend P.toHybridCrypto mine peerX pqPub draw) ↔
      P.x25519Dh mine.priv peerX = none ∨
        pqPub ≠ [] ∧ (pqPub.length ≠ kMlKem768PubBytes ∨ P.encap pqPub draw = none) := by
  unfold deriveHybridSend deriveSharedSecret
  cases shared : P.x25519Dh mine.priv peerX with
  | none => simp [bind, Except.bind]
  | some dh =>
    simp only [bind, Except.bind, reduceCtorEq, false_or]
    by_cases present : pqPub = []
    · simp [present]
    · simp only [present, if_false, fails_ite_error, ne_eq, not_false_eq_true, true_and]
      cases P.encap pqPub draw <;> simp

theorem fails_deriveHybridSendFromBundle_iff (mine : KeyPair K) (peerX : Bytes)
    {bundle : PreKeyBundle} (draw : Nat) (sized : bundle.identityPubkey.length = 32) :
    Fails (deriveHybridSendFromBundle P.toHybridCrypto mine peerX bundle draw) ↔
      SendFails P mine peerX bundle draw := by
  -- a flat disjunction first; the constructors only name its parts
  have flat : Fails (deriveHybridSendFromBundle P.toHybridCrypto mine peerX bundle draw) ↔
      bundle.pqPubkey ≠ [] ∧ (bundle.pqPubkeySig.length ≠ 64 ∨
        P.verify bundle.identityPubkey bundle.pqPubkey bundle.pqPubkeySig = false) ∨
      verifyBundlePqSigs P.toHybridCrypto bundle = false ∨
      Fails (deriveHybridSend P.toHybridCrypto mine peerX bundle.pqPubkey draw) := by
    unfold deriveHybridSendFromBundle bundlePqMessage
    by_cases present : bundle.pqPubkey = []
    · cases verifyBundlePqSigs P.toHybridCrypto bundle <;>
        simp [present, bind, Except.bind, throw, throwThe, MonadExceptOf.throw]
    · by_cases signed : bundle.pqPubkeySig.length = 64
      · cases genuine : P.verify bundle.identityPubkey bundle.pqPubkey bundle.pqPubkeySig <;>
          cases verifyBundlePqSigs P.toHybridCrypto bundle <;>
          simp [present, sized, signed, genuine, bind, Except.bind, throw, throwThe,
            MonadExceptOf.throw]
      · simp [present, sized, signed, bind, Except.bind]
  rw [flat, fails_deriveHybridSend_iff]
  constructor
  · rintro (⟨present, missing | invalid⟩ | invalid | low | ⟨present, wrong | refused⟩)
    · exact .unsigned present missing
    · exact .forged present invalid
    · exact .pqSigs invalid
    · exact .lowOrder low
    · exact .size present wrong
    · exact .encap present refused
  · rintro (⟨present, missing⟩ | ⟨present, invalid⟩ | invalid | low | ⟨present, wrong⟩ |
      ⟨present, refused⟩)
    · exact .inl ⟨present, .inl missing⟩
    · exact .inl ⟨present, .inr invalid⟩
    · exact .inr (.inl invalid)
    · exact .inr (.inr (.inl low))
    · exact .inr (.inr (.inr ⟨present, .inl wrong⟩))
    · exact .inr (.inr (.inr ⟨present, .inr refused⟩))

/-! ### Envelopes -/

variable (client : DmClient K) (env : Envelope) (drawn : Bytes → KeyPair K)

/-- The envelope is the first one of a key without a session, and the handshake
throws over it. -/
def HandshakeFails (sender : Bytes) : Prop :=
  client.sessions.ratchetAt (sessionName client.sessions sender) = none ∧
  ∃ peerX, P.edToCurve sender = some peerX ∧
    RecvFails P client.x25519 peerX client.pqSec env.pqCt

/-- The envelopes with a plain sender over which the dispatcher throws. -/
inductive PlainFatal (sender : Bytes) : Prop
  | handshake (fails : HandshakeFails P client env sender)
  | header {rat : Ratchet K} (meets : ratchetFor P client env sender = some rat)
      (consistent : env.aadConsistent = true)
      (low : rat.LowOrder P.toRatchetCrypto (drawn (sessionName client.sessions sender))
        env.ciphertext)

theorem DmOutcome.throws_iff (outcome : DmOutcome) :
    outcome.Throws ↔ ∃ e, outcome = .threw e := by
  cases outcome <;> simp [Throws]

theorem respond_threw_iff (sender : Bytes) {s : Session K}
    (entry : s.rat.map (fun rat => (s.peerPub, rat)) =
      client.sessions.ratchetAt (sessionName client.sessions sender)) :
    (∃ e, respond P client env sender s = .error (.threw e)) ↔
      HandshakeFails P client env sender := by
  cases has : s.rat with
  | some rat => simp [respond, HandshakeFails, ← entry, has]
  | none =>
    cases curve : P.edToCurve sender with
    | none => simp [respond, HandshakeFails, has, curve]
    | some peerX =>
      have fails := fails_deriveHybridRecv_iff P client.x25519 peerX client.pqSec env.pqCt
      rw [has] at entry
      simp only [respond, has, curve, HandshakeFails, ← entry, Option.map_none, true_and,
        Option.some.injEq, exists_eq_left', ← fails]
      cases deriveHybridRecv P.toHybridCrypto client.x25519 peerX client.pqSec env.pqCt <;> simp

theorem not_throws_readPayload (sender plaintext : Bytes) :
    ¬(readPayload P sender plaintext).Throws := by
  unfold readPayload
  split
  · exact id
  · split <;> exact id

theorem receive_throws_iff (drawn : KeyPair K) (sender : Bytes) (s : Session K) (rat : Ratchet K) :
    (receive P env drawn sender s rat).2.Throws ↔
      rat.LowOrder P.toRatchetCrypto drawn env.ciphertext := by
  rw [Ratchet.lowOrder_iff P.toRatchetCrypto rat drawn env.ciphertext env.aad, receive]
  rcases rat.decrypt P.toRatchetCrypto drawn env.ciphertext env.aad with ⟨t, e | none | pt⟩
  · simp [DmOutcome.Throws]
  · simp [DmOutcome.Throws]
  · simp [not_throws_readPayload]

theorem deliver_plain_throws_iff (sender : Bytes) :
    (deliver P client env drawn sender none).2.Throws ↔ PlainFatal P client env drawn sender := by
  have entry := ratchetAt_getD client (sessionName client.sessions sender)
  simp only [deliver]
  generalize client.sessions[sessionName client.sessions sender]?.getD .blank = s at entry ⊢
  have way := respond_spec P client env sender entry
  have threw := respond_threw_iff P client env sender entry
  generalize respond P client env sender s = responded at way threw ⊢
  -- with a ratchet at hand there is no handshake, so only the header can throw
  have met : ∀ {t : Session K} {rat : Ratchet K}, ¬HandshakeFails P client env sender →
      ratchetFor P client env sender = some rat →
      ((if env.aadConsistent = false then
          (client.sessions.insert (sessionName client.sessions sender) t, DmOutcome.dropped)
        else
          (client.sessions.insert (sessionName client.sessions sender)
            (receive P env (drawn (sessionName client.sessions sender)) sender t rat).1,
            (receive P env (drawn (sessionName client.sessions sender)) sender t rat).2)).2.Throws ↔
        PlainFatal P client env drawn sender) := by
    intro t rat settled meets
    cases consistent : env.aadConsistent with
    | false =>
      simp only [if_true, DmOutcome.Throws, false_iff]
      rintro (fails | ⟨-, same, -⟩)
      · exact settled fails
      · rw [consistent] at same
        cases same
    | true =>
      simp only [Bool.true_eq_false, if_false, receive_throws_iff]
      constructor
      · exact .header meets consistent
      · rintro (fails | ⟨here, -, low⟩)
        · exact absurd fails settled
        · obtain rfl : rat = _ := by simpa using meets.symm.trans here
          exact low
  cases way with
  | @failed outcome lacks quiet meets =>
    rw [DmOutcome.throws_iff]
    simp only [Except.error.injEq] at threw
    rw [threw]
    constructor
    · exact .handshake
    · rintro (fails | ⟨here, -, -⟩)
      · exact fails
      · rw [meets] at here
        cases here
  | found has meets => exact met (threw.not.mp (by simp)) meets
  | created lacks gets meets => exact met (threw.not.mp (by simp)) meets

theorem deliver_sealed_throws_iff (sender pt : Bytes) :
    (deliver P client env drawn sender (some pt)).2.Throws ↔
      HandshakeFails P client env sender := by
  have entry := ratchetAt_getD client (sessionName client.sessions sender)
  simp only [deliver]
  generalize client.sessions[sessionName client.sessions sender]?.getD .blank = s at entry ⊢
  rw [← respond_threw_iff P client env sender entry]
  rcases respond P client env sender s with outcome | ⟨t, rat⟩
  · simp [DmOutcome.throws_iff]
  · cases env.aadConsistent with
    | false => simp [DmOutcome.Throws]
    | true => simp [not_throws_readPayload]

/-- The sealed envelopes over which the dispatcher throws. Only the session that ends
the pre-pass matters. -/
inductive SealedFatal : Prop
  | header {earlier later : List Bytes} {name peer : Bytes} {rat : Ratchet K}
      (order : trialOrder P client env = earlier ++ name :: later)
      (passes : ∀ other ∈ earlier, Passes P client env drawn other)
      (known : client.sessions.ratchetAt name = some (peer, rat))
      (low : rat.LowOrder P.toRatchetCrypto (drawn name) env.ciphertext)
  /-- The session that matched is not the one that is looked up for its peer. -/
  | handshake {earlier later : List Bytes} {name peer pt : Bytes} {rat : Ratchet K}
      (order : trialOrder P client env = earlier ++ name :: later)
      (passes : ∀ other ∈ earlier, Passes P client env drawn other)
      (known : client.sessions.ratchetAt name = some (peer, rat))
      (opens : rat.Opens P.toRatchetCrypto (drawn name) env.ciphertext env.aad pt)
      (verified : senderVerified P client env peer pt = true)
      (fails : HandshakeFails P client env peer)

theorem verdict_threw_iff (name : Bytes) :
    (∃ e, verdict P client env drawn client.sessions name = .threw e) ↔
      ∃ peer rat, client.sessions.ratchetAt name = some (peer, rat) ∧
        rat.LowOrder P.toRatchetCrypto (drawn name) env.ciphertext := by
  cases entry : client.sessions.ratchetAt name with
  | none => simp [verdict, entry]
  | some found =>
    obtain ⟨peer, rat⟩ := found
    have threw := Ratchet.lowOrder_iff P.toRatchetCrypto rat (drawn name) env.ciphertext env.aad
    simp only [verdict, entry, Option.some.injEq, Prod.mk.injEq, and_assoc, exists_and_left,
      exists_eq_left', threw]
    rcases (rat.decrypt P.toRatchetCrypto (drawn name) env.ciphertext env.aad).2 with
      e | none | pt
    · simp
    · simp
    · cases verified : senderVerified P client env peer pt <;> simp [verified]

theorem handshakeFails_congr {sessions : Sessions K} (sender : Bytes)
    (keys : sessions.keys = client.sessions.keys)
    (peers : ∀ k,
      (sessions.ratchetAt k).map Prod.fst = (client.sessions.ratchetAt k).map Prod.fst) :
    HandshakeFails P { client with sessions := sessions } env sender ↔
      HandshakeFails P client env sender := by
  have same := peers (sessionName client.sessions sender)
  have absent : sessions.ratchetAt (sessionName client.sessions sender) = none ↔
      client.sessions.ratchetAt (sessionName client.sessions sender) = none := by
    rw [← Option.map_eq_none_iff (f := Prod.fst), same, Option.map_eq_none_iff]
  simp only [HandshakeFails, sessionName_congr sender keys peers, absent]

theorem sealed_throws_iff {key : Bytes} (sealed : env.senderPubkey = [])
    (to_user : env.recipient = .userPubkey key) :
    (dispatchDm P client env drawn).2.Throws ↔ SealedFatal P client env drawn := by
  obtain ⟨outcome, -, -, peers, keys⟩ := sealedPrePass_spec P client env drawn
  simp only [dispatchDm, sealed, to_user, if_true]
  generalize sealedPrePass P client env drawn = result at outcome peers keys ⊢
  obtain ⟨sessions, tried⟩ := result
  dsimp only at outcome peers keys
  -- the first session that is not passed over is the same in both readings
  have first : ∀ {earlier later : List Bytes} {name : Bytes},
      trialOrder P client env = earlier ++ name :: later →
      (∀ other ∈ earlier, Passes P client env drawn other) →
      verdict P client env drawn client.sessions name ≠ .failed →
      tried = verdict P client env drawn client.sessions name := by
    intro earlier later name order passes decided
    have decides : (trialOrder P client env).find? (fun name =>
        verdict P client env drawn client.sessions name ≠ .failed) = some name := by
      rw [List.find?_eq_some_iff_append]
      refine ⟨by simpa using decided, earlier, later, order, fun other member => ?_⟩
      simp [(verdict_eq_failed_iff P client env drawn other).mpr (passes other member)]
    rw [outcome, decides]
  constructor
  · intro throws
    cases decides : (trialOrder P client env).find? (fun name =>
        verdict P client env drawn client.sessions name ≠ .failed) with
    | none =>
      rw [decides] at outcome
      subst outcome
      exact absurd throws id
    | some name =>
      rw [decides] at outcome
      dsimp only at outcome
      obtain ⟨-, earlier, later, order, skipped⟩ := List.find?_eq_some_iff_append.mp decides
      have passes : ∀ other ∈ earlier, Passes P client env drawn other := by
        intro other member
        rw [← verdict_eq_failed_iff]
        simpa using skipped other member
      subst outcome
      cases judged : verdict P client env drawn client.sessions name with
      | failed =>
        rw [judged] at throws
        exact absurd throws id
      | threw e =>
        obtain ⟨peer, rat, known, low⟩ := (verdict_threw_iff P client env drawn name).mp ⟨e, judged⟩
        exact .header order passes known low
      | found peer pt =>
        rw [judged] at throws
        obtain ⟨rat, known, opens, verified⟩ := (verdict_eq_found_iff P client env drawn).mp judged
        rw [deliver_sealed_throws_iff, handshakeFails_congr P client env peer keys peers] at throws
        exact .handshake order passes known opens verified throws
  · rintro (⟨order, passes, known, low⟩ | ⟨order, passes, known, opens, verified, fails⟩)
    · obtain ⟨e, judged⟩ := (verdict_threw_iff P client env drawn _).mpr ⟨_, _, known, low⟩
      rw [first order passes (by simp [judged]), judged]
      trivial
    · have judged := (verdict_eq_found_iff P client env drawn).mpr ⟨_, known, opens, verified⟩
      rw [first order passes (by simp [judged]), judged]
      dsimp only
      rw [deliver_sealed_throws_iff, handshakeFails_congr P client env _ keys peers]
      exact fails

/-- The envelopes over which the dispatcher throws. -/
inductive DmFatal : Prop
  | plain (sized : env.senderPubkey.length = 32)
      (fatal : PlainFatal P client env drawn env.senderPubkey)
  | hidden {key : Bytes} (sealed : env.senderPubkey = []) (to_user : env.recipient = .userPubkey key)
      (fatal : SealedFatal P client env drawn)

theorem dispatchDm_throws_iff :
    (dispatchDm P client env drawn).2.Throws ↔ DmFatal P client env drawn := by
  by_cases sealed : env.senderPubkey = []
  · cases to_user : env.recipient with
    | userPubkey key =>
      rw [sealed_throws_iff P client env drawn sealed to_user]
      constructor
      · exact .hidden sealed to_user
      · rintro (⟨sized, -⟩ | ⟨-, -, fatal⟩)
        · simp [sealed] at sized
        · exact fatal
    | channelGroupId _ | notSet =>
      simp only [dispatchDm, sealed, to_user, if_true, DmOutcome.Throws, false_iff]
      rintro (⟨sized, -⟩ | ⟨-, same, -⟩)
      · simp [sealed] at sized
      · rw [to_user] at same
        cases same
  · by_cases sized : env.senderPubkey.length = 32
    · simp only [dispatchDm, sealed, if_false, sized, ne_eq, not_true_eq_false]
      rw [deliver_plain_throws_iff]
      constructor
      · exact .plain sized
      · rintro (⟨-, fatal⟩ | ⟨empty, -, -⟩)
        · exact fatal
        · exact absurd empty sealed
    · simp only [dispatchDm, sealed, if_false, sized, ne_eq, not_false_eq_true, if_true,
        DmOutcome.Throws, false_iff]
      rintro (⟨same, -⟩ | ⟨empty, -, -⟩)
      · exact sized same
      · exact sealed empty

/-! ### Bundles -/

/-- The fetched bundles over which the handler throws: the user is found, the sizes are
right, the peer has no session yet, and the bundle cannot be used. -/
structure FetchFatal (fetchedFor : Bytes) (r : KeyFetchResp) (admitted : Bool)
    (drawn : KeyPair K) (draw : Nat) : Prop where
  inFlight : fetchedFor ≠ []
  found : r.found = true
  identity : r.bundle.identityPubkey.length = 32
  prekey : r.bundle.signedPrekey.length = 32
  admitted : admitted = true
  fresh : hasRatchetFor client.sessions r.bundle.identityPubkey = false
  fails : SendFails P client.x25519 r.bundle.signedPrekey r.bundle draw ∨
    P.x25519Dh drawn.priv r.bundle.signedPrekey = none

theorem keyFetchResp_throws_iff (fetchedFor : Bytes) (r : KeyFetchResp) (admitted : Bool)
    (drawn : KeyPair K) (draw : Nat) :
    (keyFetchResp P client fetchedFor r admitted drawn draw).2.Throws ↔
      FetchFatal P client fetchedFor r admitted drawn draw := by
  unfold keyFetchResp
  by_cases inFlight : fetchedFor = []
  · simp only [inFlight, if_true, FetchOutcome.Throws, false_iff]
    exact fun fatal => fatal.inFlight rfl
  rw [if_neg inFlight]
  by_cases usable : r.found = false ∨ r.bundle.identityPubkey.length ≠ 32 ∨
      r.bundle.signedPrekey.length ≠ 32
  · simp only [usable, if_true, FetchOutcome.Throws, false_iff]
    intro fatal
    rcases usable with missing | wrong | wrong
    · simp [fatal.found] at missing
    · exact wrong fatal.identity
    · exact wrong fatal.prekey
  rw [if_neg usable]
  obtain ⟨found, identity, prekey⟩ : r.found = true ∧ r.bundle.identityPubkey.length = 32 ∧
      r.bundle.signedPrekey.length = 32 := by simpa using usable
  cases admitted with
  | false =>
    simp only [if_true, FetchOutcome.Throws, false_iff]
    exact fun fatal => Bool.false_ne_true fatal.admitted
  | true =>
    cases fresh : hasRatchetFor client.sessions r.bundle.identityPubkey with
    | true =>
      simp only [Bool.true_eq_false, if_false, if_true, FetchOutcome.Throws, false_iff]
      intro fatal
      have := fatal.fresh
      rw [fresh] at this
      cases this
    | false =>
      simp only [Bool.true_eq_false, Bool.false_eq_true, if_false]
      have fails := fails_deriveHybridSendFromBundle_iff P client.x25519 r.bundle.signedPrekey draw
        identity
      have fatal : FetchFatal P client fetchedFor r true drawn draw ↔
          SendFails P client.x25519 r.bundle.signedPrekey r.bundle draw ∨
            P.x25519Dh drawn.priv r.bundle.signedPrekey = none :=
        ⟨FetchFatal.fails, fun fails => ⟨inFlight, found, identity, prekey, rfl, fresh, fails⟩⟩
      rw [fatal, ← fails]
      cases deriveHybridSendFromBundle P.toHybridCrypto client.x25519 r.bundle.signedPrekey
          r.bundle draw with
      | error e => simp [FetchOutcome.Throws]
      | ok derived =>
        simp only [Ratchet.initAlice, not_fails_ok, false_or]
        cases P.x25519Dh drawn.priv r.bundle.signedPrekey <;> simp [FetchOutcome.Throws]

end

end FinBit.Desktop
