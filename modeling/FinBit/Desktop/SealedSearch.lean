import FinBit.Crypto.SessionSecrets
import FinBit.Desktop.DmAtomicity
import FinBit.Desktop.Glare

/-! # Finding the session of a sealed envelope

The pre-pass tries first the sessions whose receiving chain the header names, then the others, and
takes the first that opens the envelope and verifies. A message that has been encrypted for one
session is opened by no other, whichever chain or cached key its header leads to, so that neither the
order of the names nor the pass in which a session is tried matters.
-/

namespace FinBit.Desktop

open FinBit.Lib FinBit.Crypto FinBit.Handshake Std

variable {K : Type}

section

variable (P : DmCrypto K) (pubOf : K → Bytes)

/-- The sessions have been reached from secrets that no key derivation produces, each from its own. -/
structure Independent (sessions : Sessions K) (secret : Bytes → K) : Prop where
  reached : ∀ {name peer rat}, sessions.ratchetAt name = some (peer, rat) →
    Ratchet.Reached P.toRatchetCrypto pubOf (secret name) rat
  free : ∀ {name entry}, sessions.ratchetAt name = some entry →
    CollisionFree P.toRatchetCrypto (secret name)
  apart : ∀ {name name' entry entry'}, sessions.ratchetAt name = some entry →
    sessions.ratchetAt name' = some entry' → secret name = secret name' → name = name'

/-- Signatures of an identity have their size, and they verify. -/
structure Signs (identity : Account K) : Prop where
  length_publicKey : identity.publicKey.length = 32
  length_sign : ∀ message, (identity.sign message).length = 64
  verifies : ∀ message, P.verify identity.publicKey message (identity.sign message) = true

/-- A sealed envelope that the peer of a session sends to a recipient. -/
def SealedBy (sender : Account K) (recipient : Bytes) (shared : K) (env : Envelope) : Prop :=
  ∃ s s' rat dm, Ratchet.Reached P.toRatchetCrypto pubOf shared rat ∧ s.sealOutbound = true ∧
    s.peerPub = recipient ∧
    sendDm P sender.publicKey sender.sign s rat env.envelopeId env.timestampMs
      (P.payload.encode dm) = .ok (s', env)

end

variable {P : DmCrypto K} {pubOf : K → Bytes} {client : DmClient K} {env : Envelope}
  {drawn : Bytes → KeyPair K}

/-! ### Sessions that are only looked at -/

/-- A session that is not moved when it is tried is not moved by a pass. -/
theorem tryPass_unmoved (select : Ratchet K → Bool) (names : List Bytes) {sessions : Sessions K}
    {name : Bytes}
    (still : triedRatchet P env drawn sessions name = sessions.ratchetAt name) :
    (tryPass P client env drawn select names sessions).1.ratchetAt name =
      sessions.ratchetAt name := by
  induction names generalizing sessions with
  | nil => rfl
  | cons first rest ih =>
    obtain ⟨-, step⟩ | ⟨-, after, ratchets, -, step⟩ :=
      tryPass_cons P client env drawn select first rest sessions
    · rw [step]
      exact ih still
    · -- the session is the one that is tried, or it is passed over
      have same : after.ratchetAt name = sessions.ratchetAt name := by
        rw [ratchets]
        split
        next here => rw [here, still]
        next => rfl
      rw [step]
      split
      · rw [← same]
        exact ih ((triedRatchet_congr same).trans (still.trans same.symm))
      · exact same

theorem sealedPrePass_unmoved {name : Bytes}
    (still : triedRatchet P env drawn client.sessions name = client.sessions.ratchetAt name) :
    (sealedPrePass P client env drawn).1.ratchetAt name = client.sessions.ratchetAt name := by
  have first : (tryPass P client env drawn (headerMatches P env) client.sessions.keys
      client.sessions).1.ratchetAt name = client.sessions.ratchetAt name :=
    tryPass_unmoved _ _ still
  unfold sealedPrePass
  split
  next sessions failed =>
    rw [failed] at first
    have still' := (triedRatchet_congr first).trans (still.trans first.symm)
    exact (tryPass_unmoved _ _ still').trans first
  next => exact first

/-! ### The envelope -/

theorem SealedBy.encrypted {sender : Account K} {shared : K} {recipient : Bytes}
    (genuine : SealedBy P pubOf sender recipient shared env) :
    ∃ (rat rat' : Ratchet K) (dm : DmPayload), Ratchet.Reached P.toRatchetCrypto pubOf shared rat ∧
      rat.encrypt P.toRatchetCrypto (P.payload.encode
        { dm with
          sealedSenderPubkey := sender.publicKey
          sealedSenderSig := sender.sign
            (sealedSenderSigInput env.envelopeId env.timestampMs recipient) }) env.aad =
        .ok (rat', env.ciphertext) := by
  obtain ⟨s, s', rat, dm, reached, sealing, rfl, sent⟩ := genuine
  rw [sendDm, if_pos sealing, if_pos sealing, sealDmPayload, P.payload.decode_encode] at sent
  dsimp only at sent
  split at sent
  · cases sent
  next rat' inner done =>
    obtain ⟨-, same⟩ := Prod.mk.inj (Except.ok.inj sent)
    refine ⟨rat, rat', dm, reached, ?_⟩
    rw [← congrArg Envelope.aad same, ← congrArg Envelope.ciphertext same]
    exact done

/-- A session of another secret fails and is left as it was. -/
theorem SealedBy.fails_elsewhere (honest : HonestDh P.toRatchetCrypto pubOf)
    (zero : Ratchet.ZeroUnderived P.toRatchetCrypto) {sender : Account K} {shared : K}
    (genuine : SealedBy P pubOf sender client.publicKey shared env)
    (free : CollisionFree P.toRatchetCrypto shared) {secret : Bytes → K}
    (sessions : Independent P pubOf client.sessions secret) {other : Bytes}
    (apart : ∀ entry, client.sessions.ratchetAt other = some entry → shared ≠ secret other) :
    verdict P client env drawn client.sessions other = .failed ∧
      triedRatchet P env drawn client.sessions other = client.sessions.ratchetAt other := by
  cases entry : client.sessions.ratchetAt other with
  | none => simp [verdict, triedRatchet, entry]
  | some found =>
    obtain ⟨peer, rat⟩ := found
    obtain ⟨r, r', dm, reached, done⟩ := genuine.encrypted
    have nothing := reached.decrypt_other honest zero free (sessions.free entry)
      (apart _ entry) done (sessions.reached entry) (drawn other) env.aad
    have kept := (Ratchet.tryDecrypt_fst_eq_iff _ _ _ _ _).mpr nothing
    simp [verdict, triedRatchet, entry, nothing, kept]

/-- The session that opens the envelope verifies its sender. -/
theorem SealedBy.verdict_own {sender : Account K} (signs : Signs P sender) {shared : K}
    (genuine : SealedBy P pubOf sender client.publicKey shared env) {name : Bytes} {rat : Ratchet K}
    (here : client.sessions.ratchetAt name = some (sender.publicKey, rat)) {pt : Bytes}
    (accepts : (rat.tryDecrypt P.toRatchetCrypto (drawn name) env.ciphertext env.aad).2 =
      .ok (some pt)) :
    verdict P client env drawn client.sessions name = .found sender.publicKey pt := by
  rw [Ratchet.tryDecrypt_snd] at accepts
  obtain ⟨r, r', dm, -, done⟩ := genuine.encrypted
  have opens := (Ratchet.decrypt_snd_eq_some_iff _ _ _ _ _ _).mp accepts
  obtain ⟨text, -⟩ := opens.encrypted done
  have verified : senderVerified P client env sender.publicKey pt = true := by
    rw [text, senderVerified, P.payload.decode_encode]
    simp [signs.length_publicKey, signs.length_sign, verifySealedSender, signs.verifies]
  simp only [verdict, here, accepts, verified, if_true]

/-- The pre-pass finds the session that a sealed envelope is for, with what that session alone
makes of it, and moves no other. -/
theorem sealed_session_found (honest : HonestDh P.toRatchetCrypto pubOf)
    (zero : Ratchet.ZeroUnderived P.toRatchetCrypto) {secret : Bytes → K}
    (sessions : Independent P pubOf client.sessions secret) {sender : Account K}
    (signs : Signs P sender) {name : Bytes} {rat : Ratchet K}
    (here : client.sessions.ratchetAt name = some (sender.publicKey, rat))
    (genuine : SealedBy P pubOf sender client.publicKey (secret name) env) {pt : Bytes}
    (accepts : (rat.tryDecrypt P.toRatchetCrypto (drawn name) env.ciphertext env.aad).2 =
      .ok (some pt)) :
    (sealedPrePass P client env drawn).2 = .found sender.publicKey pt ∧
      (sealedPrePass P client env drawn).1.ratchetAt name = some (sender.publicKey,
        (rat.tryDecrypt P.toRatchetCrypto (drawn name) env.ciphertext env.aad).1) ∧
      ∀ other, other ≠ name →
        (sealedPrePass P client env drawn).1.ratchetAt other =
          client.sessions.ratchetAt other := by
  have elsewhere : ∀ other, other ≠ name →
      verdict P client env drawn client.sessions other = .failed ∧
        triedRatchet P env drawn client.sessions other = client.sessions.ratchetAt other := by
    intro other different
    refine genuine.fails_elsewhere honest zero (sessions.free here) sessions fun entry there same => ?_
    exact different (sessions.apart there here same.symm)
  have own := genuine.verdict_own signs here accepts
  have spec := sealedPrePass_spec P client env drawn
  have decides : (trialOrder P client env).find? (fun name =>
      verdict P client env drawn client.sessions name ≠ .failed) = some name := by
    have listed : name ∈ trialOrder P client env := by
      have key := mem_keys_of_ratchetAt here
      rw [trialOrder, List.mem_append, List.mem_filter, List.mem_filter]
      cases matched : selected (headerMatches P env) client.sessions name with
      | true => exact .inl ⟨key, rfl⟩
      | false => exact .inr ⟨key, rfl⟩
    cases first : (trialOrder P client env).find? (fun name =>
        verdict P client env drawn client.sessions name ≠ .failed) with
    | none =>
      have failed := List.find?_eq_none.mp first name listed
      rw [own] at failed
      exact absurd (decide_eq_true (by simp)) failed
    | some other =>
      have decisive := List.find?_some first
      rw [decide_eq_true_eq] at decisive
      exact congrArg some (Decidable.not_not.mp fun different =>
        decisive (elsewhere other different).1)
  refine ⟨?_, ?_, fun other different => sealedPrePass_unmoved (elsewhere other different).2⟩
  · rw [spec.outcome, decides]
    exact own
  · rw [spec.stopped name decides, triedRatchet, here]
    rfl

/-! ### Two sessions

The second of two sessions is the one that an envelope is for; neither has a receiving chain yet.
-/

/-- Root keys and chain keys are told apart, so that every odd number may be a secret. -/
private noncomputable def parity : DmCrypto Nat :=
  { DmCrypto.nat with
    kdfRk := fun rk dh => (2 * Nat.pair rk dh + 2, 2 * Nat.pair rk dh + 1) }

private theorem parity_honest : HonestDh parity.toRatchetCrypto natPoint :=
  ⟨natPoint_honest.length_pub, natPoint_honest.comm, natPoint_honest.contributes⟩

private theorem parity_zero : Ratchet.ZeroUnderived parity.toRatchetCrypto where
  seed k := by
    change 2 * k + 2 ≠ 0
    omega
  chain r d := by
    change 2 * Nat.pair r d + 1 ≠ 0
    omega

private theorem parity_free {shared : Nat} (odd : shared % 2 = 1) :
    CollisionFree parity.toRatchetCrypto shared where
  root_inj {r r' d d'} same := by
    have same : 2 * Nat.pair r d + 2 = 2 * Nat.pair r' d' + 2 := same
    exact Nat.pair_eq_pair.mp (by omega)
  chain_inj {r r' d d'} same := by
    have same : 2 * Nat.pair r d + 1 = 2 * Nat.pair r' d' + 1 := same
    exact Nat.pair_eq_pair.mp (by omega)
  chain_seed r d k := by
    change 2 * k + 2 ≠ 2 * Nat.pair r d + 1
    omega
  shared_root r d := by
    change 2 * Nat.pair r d + 2 ≠ shared
    omega

/-- The identity that seals, with its scalar 1. -/
private def sealer : Account Nat :=
  ⟨natPoint 1, ⟨natPoint 1, 1⟩, [], [], natSign (natPoint 1)⟩

private theorem sealer_signs : Signs parity sealer where
  length_publicKey := by simp [sealer, natPoint]
  length_sign message := by simp [sealer, natSign]
  verifies message := by simp [sealer, parity, DmCrypto.nat]

/-- A session of the recipient that has been created from a secret. -/
private noncomputable def pending (secret : Nat) : Ratchet Nat :=
  Ratchet.initBob parity.toRatchetCrypto secret ⟨natPoint 2, 2⟩

private noncomputable def recipient : DmClient Nat where
  publicKey := natPoint 2
  x25519 := ⟨natPoint 2, 2⟩
  pqSec := []
  sessions := ((∅ : Sessions Nat).insert [1] ⟨natPoint 5, [], some (pending 3), [], true, true⟩).insert
    [2] ⟨natPoint 1, [], some (pending 1), [], true, true⟩

private theorem recipient_ratchetAt (name : Bytes) : recipient.sessions.ratchetAt name =
    if [2] = name then some (natPoint 1, pending 1)
    else if [1] = name then some (natPoint 5, pending 3) else none := by
  rw [recipient, Sessions.ratchetAt_insert, Sessions.ratchetAt_insert]
  simp [Sessions.ratchetAt]

private theorem recipient_independent :
    Independent parity natPoint recipient.sessions fun name => if name = [2] then 1 else 3 where
  reached {name peer rat} entry := by
    rw [recipient_ratchetAt] at entry
    split at entry
    next here =>
      cases entry
      rw [if_pos here.symm]
      exact .bob _ rfl
    next elsewhere =>
      obtain ⟨-, same⟩ := Option.ite_none_right_eq_some.mp entry
      cases same
      rw [if_neg (Ne.symm elsewhere)]
      exact .bob _ rfl
  free _ := by
    split
    · exact parity_free rfl
    · exact parity_free rfl
  apart {name name' entry entry'} left right same := by
    rw [recipient_ratchetAt] at left right
    by_cases first : [2] = name <;> by_cases second : [2] = name'
    · exact first.symm.trans second
    · rw [if_pos first.symm, if_neg (Ne.symm second)] at same
      cases same
    · rw [if_neg (Ne.symm first), if_pos second.symm] at same
      cases same
    · rw [if_neg first] at left
      rw [if_neg second] at right
      exact (Option.ite_none_right_eq_some.mp left).1.symm.trans
        (Option.ite_none_right_eq_some.mp right).1

/-- The sealing side of the second session. -/
private noncomputable def opened : Ratchet Nat :=
  { Ratchet.blank parity.toRatchetCrypto with
    dhsPub := natPoint 1
    dhsPriv := 1
    dhrPub := natPoint 2
    haveDhr := true
    rk := (parity.kdfRk 1 15).1
    cks := (parity.kdfRk 1 15).2
    haveCks := true }

private theorem opened_created :
    Ratchet.initAlice parity.toRatchetCrypto ⟨natPoint 1, 1⟩ 1 (natPoint 2) = .ok opened := by
  have agreed : parity.x25519Dh 1 (natPoint 2) = some 15 := nat_x25519Dh 1 2
  simp only [Ratchet.initAlice, agreed]
  rfl

private noncomputable def sealedText : Bytes :=
  sealDmPayload parity sealer.publicKey sealer.sign (parity.payload.encode ⟨.text [], [], [], 0⟩)
    [] 0 recipient.publicKey

private noncomputable def inner : RatchetMessage :=
  ⟨natPoint 1, 0, 0, parity.aead.encrypt (parity.kdfCk.messageKey opened.cks)
    (Ratchet.composeAad (natPoint 1) 0 0 (envelopeAadBytes [] 0)) sealedText⟩

private noncomputable def letter : Envelope where
  envelopeId := []
  timestampMs := 0
  aad := envelopeAadBytes [] 0
  recipient := .userPubkey recipient.publicKey
  senderPubkey := []
  ciphertext := parity.message.encode inner
  pqCt := []

private theorem letter_sealed : SealedBy parity natPoint sealer recipient.publicKey 1 letter :=
  ⟨⟨recipient.publicKey, [], some opened, [], true, true⟩, _, opened, ⟨.text [], [], [], 0⟩,
    .alice rfl opened_created, rfl, rfl, rfl⟩

private theorem letter_accepted :
    ((pending 1).tryDecrypt parity.toRatchetCrypto ⟨natPoint 3, 3⟩ letter.ciphertext
      letter.aad).2 = .ok (some sealedText) := by
  rw [Ratchet.tryDecrypt_snd, Ratchet.decrypt_snd_eq_some_iff]
  refine ⟨inner, parity.kdfCk.messageKey opened.cks, ?_, ?_, parity.aead.decrypt_encrypt _ _ _⟩
  · rw [Ratchet.parseMessage, letter, parity.message.decode_encode]
    simp [Option.filter, inner, natPoint]
  · have received : parity.x25519Dh 2 (natPoint 1) = some 15 := nat_x25519Dh 2 1
    have replied : parity.x25519Dh 3 (natPoint 1) = some 21 := nat_x25519Dh 3 1
    simp [Ratchet.messageKeyFor, pending, Ratchet.initBob, Ratchet.blank, Ratchet.refuses,
      Ratchet.tooFar, Ratchet.isNewDh, received, replied, opened, inner]

/-- The first session is tried in vain, and the second is found. -/
theorem sealed_session_found_second :
    (sealedPrePass parity recipient letter fun _ => ⟨natPoint 3, 3⟩).2 =
        .found (natPoint 1) sealedText ∧
      (sealedPrePass parity recipient letter fun _ => ⟨natPoint 3, 3⟩).1.ratchetAt [2] =
        some (natPoint 1, ((pending 1).tryDecrypt parity.toRatchetCrypto ⟨natPoint 3, 3⟩
          letter.ciphertext letter.aad).1) ∧
      ∀ other, other ≠ [2] →
        (sealedPrePass parity recipient letter fun _ => ⟨natPoint 3, 3⟩).1.ratchetAt other =
          recipient.sessions.ratchetAt other :=
  sealed_session_found parity_honest parity_zero recipient_independent sealer_signs
    (recipient_ratchetAt [2]) letter_sealed letter_accepted

end FinBit.Desktop
