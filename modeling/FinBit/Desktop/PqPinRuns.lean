import FinBit.Desktop.PqPin

/-! # Runs with pins

Whole runs of a client with its store: fetches, first contacts over the DHT, envelopes
of anyone, sends, and restarts that keep nothing but the store. Every ratchet that such a
run leaves behind descends from a keying of the run, and the keyings for pinned peers are
hybrid as long as no stripped envelope comes.
-/

namespace FinBit.Desktop

open FinBit.Lib FinBit.Lib.Sql FinBit.Crypto FinBit.Handshake Std

variable {K G C J : Type}

/-! ### Where ratchets come from -/

section

variable {P : DmCrypto K}

/-- The ratchets that descend from one with this root, by whatever they send and
receive. -/
inductive Descends (P : RatchetCrypto K) (root : K) : Ratchet K → Prop
  | initAlice {drawn : KeyPair K} {peerX : Bytes} {rat : Ratchet K}
      (started : Ratchet.initAlice P drawn root peerX = .ok rat) : Descends P root rat
  | initBob (ours : KeyPair K) : Descends P root (Ratchet.initBob P root ours)
  | decrypt {rat : Ratchet K} (drawn : KeyPair K) (message aad : Bytes)
      (before : Descends P root rat) : Descends P root (rat.decrypt P drawn message aad).1
  | encrypt {rat rat' : Ratchet K} {pt aad message : Bytes} (before : Descends P root rat)
      (sent : rat.encrypt P pt aad = .ok (rat', message)) : Descends P root rat'

/-- Every ratchet of the sessions descends from one of the roots. -/
def Rooted (P : RatchetCrypto K) (roots : K → Prop) (sessions : Sessions K) : Prop :=
  ∀ name peer rat, sessions.ratchetAt name = some (peer, rat) →
    ∃ root, roots root ∧ Descends P root rat

theorem Descends.tryDecrypt {root : K} {rat : Ratchet K} (before : Descends P.toRatchetCrypto root rat)
    (drawn : KeyPair K) (message aad : Bytes) :
    Descends P.toRatchetCrypto root (rat.tryDecrypt P.toRatchetCrypto drawn message aad).1 := by
  unfold Ratchet.tryDecrypt
  split
  · exact before
  · exact before.decrypt drawn message aad

variable {roots : K → Prop} {sessions : Sessions K}

theorem Rooted.insert (rooted : Rooted P.toRatchetCrypto roots sessions) (name : Bytes)
    {s : Session K}
    (here : ∀ rat, s.rat = some rat → ∃ root, roots root ∧ Descends P.toRatchetCrypto root rat) :
    Rooted P.toRatchetCrypto roots (sessions.insert name s) := by
  intro k peer rat entry
  rw [Sessions.ratchetAt_insert] at entry
  split at entry
  · obtain ⟨r, has, pair⟩ := Option.map_eq_some_iff.mp entry
    obtain ⟨-, rfl⟩ := Prod.mk.inj pair
    exact here r has
  · exact rooted k peer rat entry

theorem Rooted.session (rooted : Rooted P.toRatchetCrypto roots sessions) {name : Bytes}
    {s : Session K} (present : sessions[name]? = some s) {rat : Ratchet K} (has : s.rat = some rat) :
    ∃ root, roots root ∧ Descends P.toRatchetCrypto root rat :=
  rooted name s.peerPub rat (by simp [Sessions.ratchetAt, present, has])

theorem Rooted.getD (rooted : Rooted P.toRatchetCrypto roots sessions) {name : Bytes}
    {rat : Ratchet K} (has : (sessions[name]?.getD .blank).rat = some rat) :
    ∃ root, roots root ∧ Descends P.toRatchetCrypto root rat := by
  cases present : sessions[name]? with
  | none => simp [present, Session.blank] at has
  | some s =>
    rw [present, Option.getD_some] at has
    exact rooted.session present has

/-- Trying a session moves its ratchet, whatever comes of it. -/
theorem Descends.trySession {root : K} {rat rat' : Ratchet K} {s : Session K}
    (before : Descends P.toRatchetCrypto root rat) (client : DmClient K) (env : Envelope)
    (drawn : KeyPair K) (after : (trySession P client env drawn s rat).1.rat = some rat') :
    Descends P.toRatchetCrypto root rat' := by
  have tried := before.tryDecrypt drawn env.ciphertext env.aad
  unfold Desktop.trySession at after
  split at after
  next attempt => simpa [attempt, ← Option.some.inj after] using tried
  next attempt => simpa [attempt, ← Option.some.inj after] using tried
  next attempt =>
    split at after <;> simpa [attempt, ← Option.some.inj after] using tried

/-- A pass over the sessions moves ratchets and creates none. -/
theorem Rooted.tryPass (rooted : Rooted P.toRatchetCrypto roots sessions) (client : DmClient K)
    (env : Envelope) (drawn : Bytes → KeyPair K) (select : Ratchet K → Bool) (names : List Bytes) :
    Rooted P.toRatchetCrypto roots (tryPass P client env drawn select names sessions).1 := by
  induction names generalizing sessions with
  | nil => exact rooted
  | cons name rest ih =>
    unfold Desktop.tryPass
    split
    · exact ih rooted
    next s present =>
      split
      · exact ih rooted
      next rat has =>
        split
        · exact ih rooted
        · obtain ⟨root, known, before⟩ := rooted.session present has
          have moved : Rooted P.toRatchetCrypto roots
              (sessions.insert name (trySession P client env (drawn name) s rat).1) := by
            apply rooted.insert
            exact fun rat' after => ⟨root, known, before.trySession client env (drawn name) after⟩
          -- the pass ends here, or it goes on with the moved ratchet
          split
          next outcome =>
            rw [outcome] at moved
            exact ih moved
          next outcome =>
            rw [outcome] at moved
            exact moved

/-- The ratchet that an envelope meets, old or new, has a root. -/
theorem Rooted.respond {client : DmClient K} {env : Envelope} {sender : Bytes} {pins : PqTable}
    (rooted : Rooted P.toRatchetCrypto roots client.sessions)
    (keyed : ∀ k, respondKeying P pins client env sender = some k → roots k.root)
    {s : Session K} {rat : Ratchet K}
    (responded : respond P client env sender
      (client.sessions[sessionName client.sessions sender]?.getD .blank) = .ok (s, rat)) :
    s.rat = some rat ∧ ∃ root, roots root ∧ Descends P.toRatchetCrypto root rat := by
  unfold Desktop.respond at responded
  split at responded
  next found has =>
    cases responded
    exact ⟨has, rooted.getD has⟩
  next lacks =>
    have nothing : client.sessions.ratchetAt (sessionName client.sessions sender) = none := by
      rw [← ratchetAt_getD, lacks, Option.map_none]
    split at responded
    · cases responded
    next peerX curve =>
      split at responded
      · cases responded
      next root derived =>
        cases responded
        have known := keyed ⟨sender, _, _, root⟩
          (by simp only [respondKeying, nothing, curve, derived]; rfl)
        exact ⟨rfl, root, known, .initBob client.x25519⟩

theorem Rooted.deliver {client : DmClient K} {env : Envelope} {drawn : Bytes → KeyPair K}
    {sender : Bytes} {sealedPt : Option Bytes} {pins : PqTable}
    (rooted : Rooted P.toRatchetCrypto roots client.sessions)
    (keyed : ∀ k, respondKeying P pins client env sender = some k → roots k.root) :
    Rooted P.toRatchetCrypto roots (deliver P client env drawn sender sealedPt).1 := by
  unfold Desktop.deliver
  dsimp only
  split
  · -- the session is touched even when the handshake throws
    exact rooted.insert _ fun rat has => rooted.getD has
  next s rat responded =>
    obtain ⟨has, root, known, before⟩ := rooted.respond keyed responded
    have still : ∀ rat', s.rat = some rat' →
        ∃ root, roots root ∧ Descends P.toRatchetCrypto root rat' := by
      intro rat' same
      rw [has] at same
      cases same
      exact ⟨root, known, before⟩
    split
    · exact rooted.insert _ still
    · split
      · exact rooted.insert _ still
      · apply rooted.insert
        intro rat' after
        have opened := before.decrypt (drawn (sessionName client.sessions sender)) env.ciphertext
          env.aad
        refine ⟨root, known, ?_⟩
        unfold receive at after
        split at after <;> next attempt =>
          simpa [attempt, Session.acknowledge, ← Option.some.inj after] using opened

theorem Rooted.dispatchDm {client : DmClient K} {env : Envelope} {drawn : Bytes → KeyPair K}
    {pins : PqTable} (rooted : Rooted P.toRatchetCrypto roots client.sessions)
    (keyed : ∀ k, dispatchKeying P pins client env drawn = some k → roots k.root) :
    Rooted P.toRatchetCrypto roots (dispatchDm P client env drawn).1 := by
  unfold Desktop.dispatchDm
  unfold dispatchKeying at keyed
  split
  next sealed =>
    simp only [sealed, if_true] at keyed
    split
    next key addressed =>
      simp only [addressed] at keyed
      have passed : Rooted P.toRatchetCrypto roots (sealedPrePass P client env drawn).1 := by
        have first := rooted.tryPass client env drawn (headerMatches P env) client.sessions.keys
        unfold sealedPrePass
        split
        next failed =>
          rw [failed] at first
          exact first.tryPass client env drawn _ _
        next => exact first
      split
      next failed => simpa [failed] using passed
      next threw => simpa [threw] using passed
      next found =>
        rw [found] at passed
        apply Rooted.deliver passed
        simpa only [found] using keyed
    · exact rooted
  next plain =>
    simp only [plain, if_false] at keyed
    split
    · exact rooted
    next sized =>
      apply rooted.deliver
      simpa only [sized, if_false] using keyed

/-- An initiator's ratchet has the root of its keying. -/
theorem Rooted.initiated {admitted : Bool} {derived : Except String (K × Bytes)}
    {result : Sessions K × FetchOutcome} {pins : PqTable} {peer peerPqPub : Bytes} {draw : Nat}
    (rooted : Rooted P.toRatchetCrypto roots sessions)
    (initiated : Initiation P sessions admitted derived result)
    (keyed : ∀ k, initiateKeying P pins result.2 peer peerPqPub draw derived = some k →
      roots k.root) : Rooted P.toRatchetCrypto roots result.1 := by
  cases initiated with
  | idle quiet => exact rooted
  | bound quiet same =>
    apply rooted.insert
    intro rat has
    rw [same] at has
    exact rooted.getD has
  | created admits secret started has =>
    -- the new ratchet starts with the root that was derived for its keying
    apply rooted.insert
    intro rat' same
    rw [has] at same
    cases same
    exact ⟨_, keyed ⟨peer, _, _, _⟩ (by rw [secret]; rfl), .initAlice started⟩

/-- One step creates no ratchet but the one it keys. -/
theorem PinStep.rooted {c c' : PinnedClient K} {label : PinEvent K × Option (Keying K)}
    (rooted : Rooted P.toRatchetCrypto roots c.dm.sessions) (stepped : PinStep P c label c')
    (keyed : ∀ k, label.2 = some k → roots k.root) :
    Rooted P.toRatchetCrypto roots c'.dm.sessions := by
  obtain ⟨event, keying⟩ := label
  simp only [PinStep] at stepped keyed
  cases event with
  | envelope env drawn =>
    simp only [PinnedClient.step] at stepped
    split at stepped
    · cases stepped
      exact rooted
    · cases stepped
      exact rooted.dispatchDm keyed
  | keyFetchResp fetchedFor r drawn draw now =>
    simp only [PinnedClient.step] at stepped
    cases stepped
    exact rooted.initiated (keyFetchResp_initiated c.dm fetchedFor r _ drawn draw) keyed
  | firstContact name peerPub record drawn draw now =>
    simp only [PinnedClient.step] at stepped
    cases stepped
    exact rooted.initiated
      (firstContactDirect_initiated c.dm name peerPub record _ drawn draw) keyed
  | send name sign envelopeId timestampMs pt =>
    simp only [PinnedClient.step] at stepped
    split at stepped
    · cases stepped
      exact rooted
    next s present =>
      split at stepped
      · cases stepped
        exact rooted
      next rat has =>
        obtain ⟨root, known, before⟩ := rooted.session present has
        split at stepped
        · cases stepped
          exact rooted
        next s' env sent =>
          cases stepped
          apply rooted.insert
          intro rat' after
          unfold sendDm at sent
          dsimp only at sent
          split at sent
          · cases sent
          next encrypted =>
            cases sent
            cases after
            exact ⟨root, known, before.encrypt encrypted⟩
  | touch name =>
    simp only [PinnedClient.step] at stepped
    cases stepped
    exact rooted.insert _ fun rat has => rooted.getD has
  | restart dm =>
    -- no ratchet is left
    simp only [PinnedClient.step] at stepped
    cases stepped
    intro name peer rat entry
    simp [Sessions.ratchetAt] at entry

end

/-- The keyings of a run. -/
def keyings (trace : List (PinEvent K × Option (Keying K))) : List (Keying K) :=
  trace.filterMap Prod.snd

/-- In every run no pin is ever cleared, and every ratchet descends from a keying of the
run. If no stripped envelope comes, every keying for a pinned peer has an ML-KEM secret
in its root. -/
theorem pinned_sessions_hybrid (P : DmCrypto K) (dm : DmClient K) (pins : PqTable) :
    (∀ trace c, Run (PinStep P) ⟨{ dm with sessions := ∅ }, pins⟩ trace c →
      (∀ peer, pins.peerPqCapable peer = true → c.pins.peerPqCapable peer = true) ∧
      Rooted P.toRatchetCrypto (fun root => ∃ k ∈ keyings trace, k.root = root) c.dm.sessions) ∧
    ∀ trace c, Run (Guarded (PinStep P) Unstripped) ⟨{ dm with sessions := ∅ }, pins⟩ trace c →
      ∀ k ∈ keyings trace, k.Honours P.toHybridCrypto := by
  constructor
  · intro trace c run
    constructor
    · intro peer pinned
      exact run.invariant (fun c => c.pins.peerPqCapable peer = true)
        (fun s e t before stepped => stepped.honours.2 peer before) pinned
    · -- the roots are those of the keyings so far; a step adds at most its own
      apply run.invariant_history (fun trace c =>
        Rooted P.toRatchetCrypto (fun root => ∃ k ∈ keyings trace, k.root = root) c.dm.sessions)
      · intro trace s label t rooted stepped
        refine stepped.rooted ?_ ?_
        · intro name peer rat entry
          obtain ⟨root, ⟨k, member, same⟩, descends⟩ := rooted name peer rat entry
          have still : k ∈ keyings (trace ++ [label]) := by
            rw [keyings, List.filterMap_append]
            exact List.mem_append_left _ member
          exact ⟨root, ⟨k, still, same⟩, descends⟩
        · intro k keyed
          exact ⟨k, by simp [keyings, keyed], rfl⟩
      · intro name peer rat entry
        simp [Sessions.ratchetAt] at entry
  · intro trace c run k member
    obtain ⟨label, inTrace, keyed⟩ := List.mem_filterMap.mp member
    have honoured := run.forall_label (fun _ => True) (P := fun label =>
        ∀ k, label.2 = some k → k.Honours P.toHybridCrypto)
      (fun s e t _ _ => trivial)
      (fun s e t _ taken => taken.2.honours.1 taken.1) trivial
    exact honoured label inTrace k keyed

/-! ### The worker -/

section

variable {P : Outside K G C J} {w w' : Worker K G J} {draws : Draws K} {pins : PqTable}

/-- A worker and the pins of its store end as some run of the client does. -/
def PinRun (P : Outside K G C J) (w : Worker K G J) (pins : PqTable) (w' : Worker K G J) : Prop :=
  ∃ trace c, Run (PinStep P.dm) ⟨w.dm, pins⟩ trace c ∧ c.dm = w'.dm ∧
    c.pins.peerPqCapable = w'.pqCapable

theorem pinRun_of_beside (same : pins.peerPqCapable = w.pqCapable) (beside : w.Beside w') :
    PinRun P w pins w' :=
  ⟨[], _, .nil _, beside.dm.symm, same.trans beside.pqCapable.symm⟩

theorem pinRun_dispatchEnvelope (same : pins.peerPqCapable = w.pqCapable) {env : Envelope}
    (done : w.dispatchEnvelope P draws env = .ok w') : PinRun P w pins w' := by
  unfold Worker.dispatchEnvelope at done
  split at done
  · cases done
    exact pinRun_of_beside same (Worker.beside_dispatchChannelEnvelope P w _ _ _)
  next direct =>
    -- one envelope of the run, and a payload that touches no session
    have stepped : PinStep P.dm ⟨w.dm, pins⟩
        (.envelope env draws.ratchet, dispatchKeying P.dm pins w.dm env draws.ratchet)
        (PinnedClient.setSessions ⟨w.dm, pins⟩ (dispatchDm P.dm w.dm env draws.ratchet).1) := by
      simp only [PinStep, PinnedClient.step]
    dsimp only at done
    split at done
    · cases done
    · cases done
      exact ⟨_, _, .cons stepped (.nil _), rfl, same⟩
    · cases done
      have beside := Worker.beside_handleBody P { w with dm := { w.dm with
        sessions := (dispatchDm P.dm w.dm env draws.ratchet).1 } } draws
      exact ⟨_, _, .cons stepped (.nil _), (beside _ _).dm.symm,
        same.trans (beside _ _).pqCapable.symm⟩

theorem pinRun_dispatchWire (same : pins.peerPqCapable = w.pqCapable) {payload : Bytes}
    (done : w.dispatchWire P draws payload = .ok w') : PinRun P w pins w' := by
  unfold Worker.dispatchWire at done
  split at done
  · cases done
    exact pinRun_of_beside same ⟨rfl, rfl, rfl⟩
  · exact pinRun_dispatchEnvelope same done

theorem pinRun_dispatchPeer (same : pins.peerPqCapable = w.pqCapable) {pe : PeerEnvelope}
    (done : w.dispatchPeer P draws pe = .ok w') : PinRun P w pins w' := by
  have observed : (w.observePeer P pe).dm = w.dm ∧ (w.observePeer P pe).pqCapable = w.pqCapable := by
    unfold Worker.observePeer
    split <;> exact ⟨rfl, rfl⟩
  -- a peer envelope reaches the sessions only through the envelope that it carries
  have carried : (w.observePeer P pe).dispatchWire P draws pe.payload = .ok w' →
      PinRun P w pins w' := by
    intro dispatched
    have run := pinRun_dispatchWire (same.trans observed.2.symm) dispatched
    simpa only [PinRun, observed.1] using run
  have apart : w'.dm = (w.observePeer P pe).dm → w'.pqCapable = (w.observePeer P pe).pqCapable →
      PinRun P w pins w' := by
    intro dm pqCapable
    exact ⟨[], _, .nil _, (dm.trans observed.1).symm,
      same.trans (pqCapable.trans observed.2).symm⟩
  unfold Worker.dispatchPeer at done
  dsimp only at done
  split at done
  · split at done
    · cases done
      exact apart rfl rfl
    · obtain ⟨result, -, rfl⟩ := map_eq_ok.mp done
      exact apart rfl rfl
  · split at done
    · cases done
      exact apart rfl rfl
    · obtain ⟨result, -, rfl⟩ := map_eq_ok.mp done
      exact apart rfl rfl
  · exact carried done
  · split at done
    · cases done
      exact apart rfl rfl
    · split at done <;> cases done <;> exact apart rfl rfl
  · split at done
    · cases done
      exact apart rfl rfl
    · split at done <;> cases done <;> exact apart rfl rfl
  · exact carried done
  · cases done
    exact apart rfl rfl

/-- An answer that reuses or creates a session has asked for the pin. -/
theorem asksPin_of_outcome {P : DmCrypto K} {client : DmClient K} {fetchedFor : Bytes}
    {r : KeyFetchResp} {admitted : Bool} {drawn : KeyPair K} {draw : Nat}
    (outcome : (keyFetchResp P client fetchedFor r admitted drawn draw).2 = .reused ∨
      (keyFetchResp P client fetchedFor r admitted drawn draw).2 = .created) :
    PinnedClient.asksPin fetchedFor r = true := by
  unfold keyFetchResp at outcome
  split at outcome
  · simp at outcome
  next inFlight =>
    split at outcome
    · simp at outcome
    next usable =>
      simp only [not_or, Bool.not_eq_false, ne_eq, not_not] at usable
      simp [PinnedClient.asksPin, inFlight, usable]

theorem pinRun_onKeyFetchResp (same : pins.peerPqCapable = w.pqCapable) {r : KeyFetchResp}
    (done : w.onKeyFetchResp P draws r = .ok w') : PinRun P w pins w' := by
  have refines := PqTable.pqTofuAdmit_refines pins r.bundle.identityPubkey (r.bundle.pqPubkey ≠ [])
    draws.now
  rw [same] at refines
  generalize asked : pins.pqTofuAdmit r.bundle.identityPubkey (r.bundle.pqPubkey ≠ []) draws.now =
    answer at refines
  obtain ⟨after, admitted⟩ := answer
  simp only [Worker.onKeyFetchResp, Worker.admits, refines] at done
  have stepped : PinnedClient.asksPin (w.pendingFetchTargets.headD []) r = true →
      (PinnedClient.step P.dm ⟨w.dm, pins⟩ (.keyFetchResp (w.pendingFetchTargets.headD []) r
        draws.initAlice draws.encap draws.now)).1 =
      ⟨{ w.dm with sessions := (keyFetchResp P.dm w.dm (w.pendingFetchTargets.headD []) r admitted
        draws.initAlice draws.encap).1 }, after⟩ := by
    intro asks
    simp only [PinnedClient.step, asks, if_true, asked, PinnedClient.setSessions]
  have one : ∀ c, (PinnedClient.step P.dm ⟨w.dm, pins⟩ (.keyFetchResp
      (w.pendingFetchTargets.headD []) r draws.initAlice draws.encap draws.now)).1 = c →
      c.dm = w'.dm → c.pins.peerPqCapable = w'.pqCapable → PinRun P w pins w' := by
    rintro c rfl dm pqCapable
    exact ⟨_, _, .cons (pinStep_step P.dm _ _) (.nil _), dm, pqCapable⟩
  split at done
  · cases done
    exact pinRun_of_beside same ⟨rfl, rfl, rfl⟩
  · cases done
    exact pinRun_of_beside same ⟨rfl, rfl, rfl⟩
  · cases done
    exact pinRun_of_beside same ⟨rfl, rfl, rfl⟩
  · cases done
  next outcome =>
    cases done
    exact one _ (stepped (asksPin_of_outcome (.inl outcome))) rfl rfl
  next outcome =>
    cases done
    exact one _ (stepped (asksPin_of_outcome (.inr outcome))) rfl rfl

/-- The messages of a worker are runs of its client. -/
theorem pinRun_handle (same : pins.peerPqCapable = w.pqCapable) {message : Inbound}
    (done : w.handle P draws message = .ok w') : PinRun P w pins w' := by
  cases message with
  | relay bytes =>
    simp only [Worker.handle] at done
    split at done
    · cases done
      exact pinRun_of_beside same ⟨rfl, rfl, rfl⟩
    next frame decoded =>
      cases frame with
      | peer pe => exact pinRun_dispatchPeer same done
      | keyFetchResp r => exact pinRun_onKeyFetchResp same done
      | envelope env => exact pinRun_dispatchEnvelope same done
      | control | roomRoster | usernameResp | other =>
        cases done
        exact pinRun_of_beside same ⟨rfl, rfl, rfl⟩
  | peerNet bytes =>
    simp only [Worker.handle] at done
    split at done
    · exact pinRun_dispatchPeer same done
    · cases done
      exact pinRun_of_beside same ⟨rfl, rfl, rfl⟩
  | channelGossip bytes => exact pinRun_dispatchWire same done
  | roomGossip bytes =>
    simp only [Worker.handle] at done
    split at done
    · split at done <;> cases done <;> exact pinRun_of_beside same ⟨rfl, rfl, rfl⟩
    · cases done
      exact pinRun_of_beside same ⟨rfl, rfl, rfl⟩

end

/-! ### A stripped envelope -/

/-- The bundle of a peer with an ML-KEM key. -/
private def natPqBundle : PreKeyBundle where
  identityPubkey := natPoint 2
  signedPrekey := natPoint 2
  pqPubkey := List.replicate kMlKem768PubBytes 0
  pqPubkeySig := natSign (natPoint 2) (List.replicate kMlKem768PubBytes 0)
  pqSigPubkey := []
  pqSigPubkeySig := []
  signedPrekeySigPq := []
  pqPubkeySigPq := []

private def natNewcomer : PinnedClient Nat :=
  ⟨{ publicKey := natPoint 1, x25519 := ⟨natPoint 1, 1⟩, pqSec := [7], sessions := ∅ }, .empty⟩

private def pinFetched : PinEvent Nat :=
  .keyFetchResp (ascii "bob") ⟨true, natPqBundle⟩ ⟨natPoint 4, 4⟩ 0 0

/-- The client has fetched the bundle, and starts again. -/
private noncomputable def natRestarted : PinnedClient Nat :=
  ⟨natNewcomer.dm, (natNewcomer.step DmCrypto.nat pinFetched).1.pins⟩

private theorem natRestarted_pinned : natRestarted.pins.peerPqCapable (natPoint 2) = true := by
  have sized : (natPoint 2).length = 32 := by simp [natPoint]
  have asks : PinnedClient.asksPin (ascii "bob") ⟨true, natPqBundle⟩ = true := by
    simp [PinnedClient.asksPin, natPqBundle, sized, ascii]
  have unknown : PqTable.peerPqCapable .empty (natPoint 2) = false := rfl
  simp only [natRestarted, natNewcomer, pinFetched, PinnedClient.step, asks, if_true]
  simp [PqTable.pqTofuAdmit, natPqBundle, unknown, PqTable.peerPqCapable_set]

/-- The run has keyed what its last event has. -/
private theorem mem_keyings_last {first second third : PinEvent Nat} {a b : Option (Keying Nat)}
    (k : Keying Nat) : k ∈ keyings [(first, a), (second, b), (third, some k)] := by
  rw [keyings, List.mem_filterMap]
  exact ⟨(third, some k), by simp, rfl⟩

/-- An envelope of the peer that was fetched. -/
private def pinOpening (pqCt : Bytes) : PinEvent Nat :=
  .envelope ⟨[], 0, [], .userPubkey (natPoint 1), natPoint 2, [], pqCt⟩ fun _ => ⟨natPoint 3, 3⟩

private theorem pinOpening_keyed {pqCt : Bytes} {root : Nat}
    (derived : deriveHybridRecv DmCrypto.nat.toHybridCrypto ⟨natPoint 1, 1⟩ (natPoint 2) [7] pqCt =
      .ok root) :
    (natRestarted.step DmCrypto.nat (pinOpening pqCt)).2 =
      some ⟨natPoint 2, true, kemReceived DmCrypto.nat.toHybridCrypto [7] pqCt, root⟩ := by
  have curve : DmCrypto.nat.edToCurve (natPoint 2) = some (natPoint 2) := by
    simp [DmCrypto.nat, natPoint]
  have sender : natPoint 2 ≠ [] ∧ (natPoint 2).length = 32 := by simp [natPoint]
  have pinned := natRestarted_pinned
  simp only [pinOpening, PinnedClient.step, dispatchKeying, sender, if_false, ne_eq,
    not_true_eq_false, respondKeying]
  simp [natRestarted, natNewcomer, Sessions.ratchetAt, curve, derived] at pinned ⊢
  exact pinned

private theorem natDh : deriveSharedSecret DmCrypto.nat.toHybridCrypto ⟨natPoint 1, 1⟩
    (natPoint 2) = .ok 15 := by
  have dh : DmCrypto.nat.x25519Dh 1 (natPoint 2) = some 15 := by simp [DmCrypto.nat, natPoint]
  rw [deriveSharedSecret, dh]
  rfl

/-- The first envelope after a restart comes without a ciphertext, and the session with a
pinned peer is keyed without ML-KEM. -/
theorem stripped_envelope_keys :
    ∃ trace c, Run (PinStep DmCrypto.nat) natNewcomer trace c ∧
      ∃ k ∈ keyings trace, ¬k.Honours DmCrypto.nat.toHybridCrypto := by
  have derived : deriveHybridRecv DmCrypto.nat.toHybridCrypto ⟨natPoint 1, 1⟩ (natPoint 2) [7] [] =
      .ok 15 := by
    simp [deriveHybridRecv, natDh, bind, Except.bind]
  refine ⟨_, _, .cons (pinStep_step _ _ pinFetched) (.cons (pinStep_step _ _ (.restart natNewcomer.dm))
    (.cons (pinStep_step _ natRestarted (pinOpening [])) (.nil _))), ?_⟩
  rw [pinOpening_keyed derived]
  refine ⟨_, mem_keyings_last _, fun honours => ?_⟩
  obtain ⟨shared, ss, kem, -⟩ := honours rfl
  simp [kemReceived] at kem

/-- With a ciphertext the same run honours the pin. -/
theorem pinned_sessions_hybrid_restart :
    ∃ trace c, Run (Guarded (PinStep DmCrypto.nat) Unstripped) natNewcomer trace c ∧
      (∀ k ∈ keyings trace, k.Honours DmCrypto.nat.toHybridCrypto) ∧
      ∃ k ∈ keyings trace, k.pinned = true := by
  have derived : deriveHybridRecv DmCrypto.nat.toHybridCrypto ⟨natPoint 1, 1⟩ (natPoint 2) [7]
      (List.replicate kMlKem768CtBytes 0) = .ok (Nat.pair 15 7) := by
    have present : List.replicate kMlKem768CtBytes (0 : UInt8) ≠ [] := by simp
    simp only [deriveHybridRecv, natDh, bind, Except.bind, present, if_false, List.length_replicate,
      ne_eq, not_true_eq_false]
    rfl
  have run : Run (Guarded (PinStep DmCrypto.nat) Unstripped) natNewcomer
      [(pinFetched, (natNewcomer.step DmCrypto.nat pinFetched).2),
        (.restart natNewcomer.dm, none),
        (pinOpening (List.replicate kMlKem768CtBytes 0),
          (natRestarted.step DmCrypto.nat (pinOpening (List.replicate kMlKem768CtBytes 0))).2)]
      (natRestarted.step DmCrypto.nat (pinOpening (List.replicate kMlKem768CtBytes 0))).1 := by
    refine .cons ⟨?_, pinStep_step _ _ pinFetched⟩ (.cons ⟨?_, pinStep_step _ _ (.restart _)⟩
      (.cons ⟨?_, pinStep_step _ natRestarted _⟩ (.nil _)))
    · rintro env drawn ⟨⟩
    · rintro env drawn ⟨⟩
    · rintro env drawn ⟨⟩ stripped
      exact absurd stripped.bare (by simp)
  refine ⟨_, _, run, (pinned_sessions_hybrid DmCrypto.nat natNewcomer.dm .empty).2 _ _ run, ?_⟩
  rw [pinOpening_keyed derived]
  exact ⟨_, mem_keyings_last _, rfl⟩

end FinBit.Desktop
