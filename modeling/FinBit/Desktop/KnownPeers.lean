import FinBit.Desktop.DmAtomicity
import FinBit.Desktop.FirstContact

/-! # Envelopes of known and unknown peers

Whether a client has a ratchet for a peer, and what one envelope does in either
case: a known peer's is decrypted with the one ratchet that the client has for it,
an unknown peer's makes the client a responder.
-/

namespace FinBit.Desktop

open FinBit.Lib FinBit.Crypto FinBit.Handshake Std

variable {K : Type}

/-! ### Whose ratchets a client has -/

/-- The client has one ratchet for the peer. -/
structure Holds (sessions : Sessions K) (peer name : Bytes) (rat : Ratchet K) : Prop where
  entry : sessions.ratchetAt name = some (peer, rat)
  named : name ≠ []
  unique : ∀ k r, sessions.ratchetAt k = some (peer, r) → k = name

/-- The client has no ratchet for the peer, and nobody else's where the peer's first
envelope would be filed. -/
structure Lacks (sessions : Sessions K) (peer : Bytes) : Prop where
  absent : ∀ k r, sessions.ratchetAt k ≠ some (peer, r)
  free : sessions.ratchetAt (peerName peer) = none

theorem sessionName_of_holds {sessions : Sessions K} {peer name : Bytes} {rat : Ratchet K}
    (holds : Holds sessions peer name rat) : sessionName sessions peer = name := by
  unfold sessionName
  split
  next nothing =>
    have := List.find?_eq_none.mp nothing name (mem_keys_of_ratchetAt holds.entry)
    rw [any_ratchetAt_eq_true_iff] at this
    exact absurd ⟨rat, holds.entry⟩ this
  next k found =>
    have owner := List.find?_some found
    obtain ⟨r, here⟩ := any_ratchetAt_eq_true_iff.mp owner
    obtain rfl := holds.unique k r here
    rw [if_neg holds.named]

theorem sessionName_of_lacks {sessions : Sessions K} {peer : Bytes} (lacks : Lacks sessions peer) :
    sessionName sessions peer = peerName peer := by
  unfold sessionName
  split
  · rfl
  next k found =>
    have owner := List.find?_some found
    obtain ⟨r, here⟩ := any_ratchetAt_eq_true_iff.mp owner
    exact absurd here (lacks.absent k r)

theorem hasRatchetFor_eq_true_iff {sessions : Sessions K} {peer : Bytes} :
    hasRatchetFor sessions peer = true ↔ ∃ k r, sessions.ratchetAt k = some (peer, r) := by
  simp only [hasRatchetFor, List.any_eq_true, any_ratchetAt_eq_true_iff]
  constructor
  · rintro ⟨k, -, r, here⟩
    exact ⟨k, r, here⟩
  · rintro ⟨k, r, here⟩
    exact ⟨k, mem_keys_of_ratchetAt here, r, here⟩

/-- Only the peer's own ratchet has changed, and nobody's owner. -/
theorem Holds.of_frame {before after : Sessions K} {peer name : Bytes} {rat : Ratchet K}
    (named : name ≠ [])
    (unique : ∀ k r, before.ratchetAt k = some (peer, r) → k = name)
    (here : after.ratchetAt name = some (peer, rat))
    (frame : ∀ k, k ≠ name →
      (after.ratchetAt k).map Prod.fst = (before.ratchetAt k).map Prod.fst) :
    Holds after peer name rat := by
  refine ⟨here, named, fun k r found => ?_⟩
  by_contra elsewhere
  have owner := frame k elsewhere
  rw [found, Option.map_some] at owner
  cases kept : before.ratchetAt k with
  | none => simp [kept] at owner
  | some entry =>
    obtain ⟨p, r'⟩ := entry
    obtain rfl : peer = p := by simpa [kept] using owner
    exact elsewhere (unique k r' kept)

theorem Holds.insert {sessions : Sessions K} {peer name : Bytes} {rat : Ratchet K} {s : Session K}
    (named : name ≠ []) (unique : ∀ k r, sessions.ratchetAt k = some (peer, r) → k = name)
    (has : s.rat = some rat) (owner : s.peerPub = peer) :
    Holds (sessions.insert name s) peer name rat := by
  apply Holds.of_frame named unique
  · simp [Sessions.ratchetAt_insert, has, owner]
  · intro k elsewhere
    rw [Sessions.ratchetAt_insert, if_neg elsewhere.symm]

/-! ### One envelope, at one client -/

section

variable (P : DmCrypto K) (client : DmClient K) {env : Envelope} {drawn : Bytes → KeyPair K}
  {sender name pt : Bytes} {payload : DmPayload} {rat rat' : Ratchet K}

/-- The payload parses, and its branch accepts it. -/
private theorem readPayload_eq (read : P.payload.decode pt = some payload)
    (accepted : payload.body.accepted = true) :
    readPayload P sender pt = .surfaced sender payload.body := by
  simp [readPayload, read, accepted]

/-- A plain envelope from a known peer is up to that peer's ratchet. -/
theorem dispatchDm_plain (drawn : Bytes → KeyPair K)
    (holds : Holds client.sessions sender name rat)
    (plain : env.senderPubkey = sender) (sized : sender.length = 32)
    (consistent : env.aadConsistent = true) :
    ∃ s : Session K, s.peerPub = sender ∧ dispatchDm P client env drawn =
      (client.sessions.insert name (receive P env (drawn name) sender s rat).1,
        (receive P env (drawn name) sender s rat).2) := by
  have present : sender ≠ [] := by
    rintro rfl
    simp at sized
  have known := holds.entry
  rw [← ratchetAt_getD] at known
  obtain ⟨t, has, pair⟩ := Option.map_eq_some_iff.mp known
  obtain ⟨owner, rfl⟩ := Prod.mk.inj pair
  refine ⟨client.sessions[name]?.getD .blank, owner, ?_⟩
  simp only [dispatchDm, plain, present, sized, if_false, ne_eq, not_true_eq_false, deliver,
    sessionName_of_holds holds, respond, has, consistent, Bool.true_eq_false]

theorem dispatchDm_known (holds : Holds client.sessions sender name rat)
    (plain : env.senderPubkey = sender) (sized : sender.length = 32)
    (consistent : env.aadConsistent = true)
    (opened : rat.decrypt P.toRatchetCrypto (drawn name) env.ciphertext env.aad =
      (rat', .ok (some pt)))
    (read : P.payload.decode pt = some payload) (accepted : payload.body.accepted = true) :
    (dispatchDm P client env drawn).2 = .surfaced sender payload.body ∧
      Holds (dispatchDm P client env drawn).1 sender name rat' := by
  obtain ⟨s, owner, dispatched⟩ := dispatchDm_plain P client drawn holds plain sized consistent
  simp only [dispatched, receive, opened, readPayload_eq P read accepted, true_and]
  exact Holds.insert holds.named holds.unique rfl owner

/-- The first envelope of an unknown peer. -/
theorem dispatchDm_first (lacks : Lacks client.sessions sender)
    (plain : env.senderPubkey = sender) (sized : sender.length = 32)
    (consistent : env.aadConsistent = true) {peerX : Bytes} {shared : K}
    (curve : P.edToCurve sender = some peerX)
    (derived : deriveHybridRecv P.toHybridCrypto client.x25519 peerX client.pqSec env.pqCt =
      .ok shared)
    (opened : (Ratchet.initBob P.toRatchetCrypto shared client.x25519).decrypt P.toRatchetCrypto
      (drawn (peerName sender)) env.ciphertext env.aad = (rat', .ok (some pt)))
    (read : P.payload.decode pt = some payload) (accepted : payload.body.accepted = true) :
    (dispatchDm P client env drawn).2 = .surfaced sender payload.body ∧
      Holds (dispatchDm P client env drawn).1 sender (peerName sender) rat' := by
  have present : sender ≠ [] := by
    rintro rfl
    simp at sized
  have unknown := lacks.free
  rw [← ratchetAt_getD, Option.map_eq_none_iff] at unknown
  simp only [dispatchDm, plain, present, sized, if_false, ne_eq, not_true_eq_false, deliver,
    sessionName_of_lacks lacks, respond, unknown, curve, derived, consistent,
    Bool.true_eq_false, receive, opened, readPayload_eq P read accepted, true_and]
  have named : peerName sender ≠ [] := by simp [peerName, ascii]
  exact Holds.insert named (fun k r here => absurd here (lacks.absent k r)) rfl rfl

/-- A sealed envelope from a known peer, where every other session passes it on. -/
theorem dispatchDm_sealed (holds : Holds client.sessions sender name rat)
    (sealed : env.senderPubkey = []) {key : Bytes} (to_user : env.recipient = .userPubkey key)
    (consistent : env.aadConsistent = true)
    (opened : rat.decrypt P.toRatchetCrypto (drawn name) env.ciphertext env.aad =
      (rat', .ok (some pt)))
    (verified : senderVerified P client env sender pt = true)
    (others : ∀ k, k ≠ name → Passes P client env drawn k)
    (read : P.payload.decode pt = some payload) (accepted : payload.body.accepted = true) :
    (dispatchDm P client env drawn).2 = .surfaced sender payload.body ∧
      Holds (dispatchDm P client env drawn).1 sender name rat' := by
  have opens := (Ratchet.decrypt_snd_eq_some_iff P.toRatchetCrypto rat (drawn name) env.ciphertext
    env.aad pt).mp (by rw [opened])
  have found := (verdict_eq_found_iff P client env drawn).mpr ⟨rat, holds.entry, opens, verified⟩
  have decides : (trialOrder P client env).find? (fun k =>
      verdict P client env drawn client.sessions k ≠ .failed) = some name := by
    have member : name ∈ trialOrder P client env := by
      have := mem_keys_of_ratchetAt holds.entry
      simp only [trialOrder, List.mem_append, List.mem_filter, this, true_and]
      cases selected (headerMatches P env) client.sessions name <;> simp
    cases first : (trialOrder P client env).find? (fun k =>
        verdict P client env drawn client.sessions k ≠ .failed) with
    | none => simpa [found] using List.find?_eq_none.mp first name member
    | some k =>
      have decided := List.find?_some first
      by_contra elsewhere
      have passed := (verdict_eq_failed_iff P client env drawn k).mpr
        (others k fun same => elsewhere (by rw [same]))
      simp [passed] at decided
  obtain ⟨outcome, -, stopped, peers, -⟩ := sealedPrePass_spec P client env drawn
  rw [decides] at outcome
  replace stopped := stopped name decides
  simp only [dispatchDm, sealed, to_user, if_true]
  generalize sealedPrePass P client env drawn = result at outcome stopped peers ⊢
  obtain ⟨sessions, tried⟩ := result
  obtain rfl : tried = .found sender pt := outcome.trans found
  have moved : sessions.ratchetAt name = some (sender, rat') := by
    have attempt : rat.tryDecrypt P.toRatchetCrypto (drawn name) env.ciphertext env.aad =
        (rat', .ok (some pt)) := by simp [Ratchet.tryDecrypt, opened]
    simpa [triedRatchet, holds.entry, attempt] using stopped
  have still := Holds.of_frame holds.named holds.unique moved fun k _ => peers k
  have known := moved
  rw [← ratchetAt_getD { client with sessions := sessions }] at known
  obtain ⟨t, has, pair⟩ := Option.map_eq_some_iff.mp known
  obtain ⟨owner, rfl⟩ := Prod.mk.inj pair
  simp only [deliver, sessionName_of_holds still, respond, has, consistent, Bool.true_eq_false,
    if_false, readPayload_eq P read accepted, true_and]
  exact Holds.insert still.named still.unique has owner

end

end FinBit.Desktop
