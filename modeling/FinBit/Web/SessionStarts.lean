import FinBit.Lib.LookThenMake
import FinBit.Web.Connection

/-! # Starting sessions

Every method that starts a session asks `has_session` before it derives the root and makes the
session after that, so its answer may be out of date. Seen from one peer the connection is a thing
that tasks look for before they make it; a session is made once as long as no task misses it while
another one is deriving a root for the same peer.
-/

namespace FinBit.Web

open FinBit.Lib FinBit.Crypto

variable {K : Type}

/-- The task has found no session with the peer and is deriving a root. -/
def Task.awaits (peer : Bytes) : Task K → Bool
  | .derivingSend _ bundle _ => bundle.identityPub = peer
  | .derivingRecv env _ => env.senderPubkey = peer
  | .fetching .. | .ended => false

namespace Effect

def initialises (peer : Bytes) : Effect K → Bool
  | .initialised p _ => p = peer
  | _ => false

/-- The effect is of a message encrypted or decrypted under the session with the peer. -/
def usesSession (peer : Bytes) : Effect K → Bool
  | .sent envelope => envelope.recipientPubkey = peer
  | .delivered p _ => p = peer
  | _ => false

/-- The effect as seen by someone who watches the session with one peer. -/
def about (peer : Bytes) : Effect K → ThingEvent
  | .missed p => if p = peer then .missed else .other
  | .initialised p _ => if p = peer then .made else .other
  | .sent envelope => if envelope.recipientPubkey = peer then .used else .other
  | .delivered p _ => if p = peer then .used else .other
  | .requested .. | .invited .. | .callStarted _ | .rejected _ => .other

theorem about_eq_made {peer : Bytes} {e : Effect K} :
    e.about peer = .made ↔ e.initialises peer = true := by
  cases e <;> simp only [about, initialises] <;> grind

theorem about_eq_used {peer : Bytes} {e : Effect K} :
    e.about peer = .used ↔ e.usesSession peer = true := by
  cases e <;> simp only [about, usesSession] <;> grind

end Effect

namespace Conn

variable (P : PageCrypto K) (c : Conn K) (peer : Bytes)

/-- The session with one peer, and the tasks that are off to make it. -/
def sessionWith : Thing :=
  ⟨(c.client.sessions peer).isSome, c.tasks.countP (·.awaits peer)⟩

/-- The peer whose session a step asks for before anything else. -/
def looksFor : ConnEvent K → Option Bytes
  | .resume task .. =>
    match c.tasks[task]? with
    | some (.fetching _ requestId) =>
      match c.settled.lookup requestId with
      | some (.ok bundle) => some bundle.identityPub
      | _ => none
    | _ => none
  | .envelope env _ =>
    if env.channelGroupId.isSome ∨ env.userPubkey = none then none else some env.senderPubkey
  | _ => none

/-- Where the step looks for a session that is not there, no task is deriving a root for it. -/
def Unhurried (e : ConnEvent K) : Prop :=
  ∀ peer, c.looksFor e = some peer → c.client.sessions peer = none →
    ∀ t ∈ c.tasks, t.awaits peer = false

/-! ### What the shim does to a session -/

section Shim

variable {P}

theorem ratchetEncrypt_cases (R : RatchetCrypto K) (w : WebClient K) (peer plaintext : Bytes) :
    (∃ e, w.ratchetEncrypt R peer plaintext = (w, .error e)) ∨
      (w.sessions peer).isSome = true ∧ ∃ t message,
        w.ratchetEncrypt R peer plaintext = (w.setSession peer (some t), .ok (some message)) := by
  unfold WebClient.ratchetEncrypt
  cases session : w.sessions peer with
  | none => exact .inl ⟨_, rfl⟩
  | some s =>
    cases encrypted : s.encrypt R plaintext [] with
    | error e => exact .inl ⟨e, by simp only [encrypted]⟩
    | ok sent => exact .inr ⟨rfl, sent.1, sent.2, by simp only [encrypted]⟩

theorem ratchetDecrypt_cases (R : RatchetCrypto K) (w : WebClient K) (peer : Bytes)
    (drawn : KeyPair K) (ciphertext : Bytes) :
    w.ratchetDecrypt R peer drawn ciphertext = (w, .ok none) ∨
      (w.sessions peer).isSome = true ∧ ∃ t result,
        w.ratchetDecrypt R peer drawn ciphertext = (w.setSession peer (some t), result) := by
  unfold WebClient.ratchetDecrypt
  cases session : w.sessions peer with
  | none => exact .inl rfl
  | some s => exact .inr ⟨rfl, _, _, rfl⟩

theorem ratchetInitAlice_cases (R : RatchetCrypto K) (w : WebClient K) (peer : Bytes)
    (shared : K) (peerDhPub : Bytes) (drawn : KeyPair K) :
    (∃ e, w.ratchetInitAlice R peer shared peerDhPub drawn = (w, .error e)) ∨
      (∃ e, w.ratchetInitAlice R peer shared peerDhPub drawn =
        (w.setSession peer none, .error e)) ∨
      ∃ s, w.ratchetInitAlice R peer shared peerDhPub drawn =
        (w.setSession peer (some s), .ok none) := by
  unfold WebClient.ratchetInitAlice
  split
  · exact .inl ⟨_, rfl⟩
  · cases made : Ratchet.initAlice R drawn shared peerDhPub with
    | error e => exact .inr (.inl ⟨e, rfl⟩)
    | ok s => exact .inr (.inr ⟨s, rfl⟩)

end Shim

/-! ### One step, seen from one peer -/

/-- What the call or step `r` does is a run of the session with the peer. -/
def Shows (before : Thing) (peer : Bytes) (r : Conn K × List (Effect K)) : Prop :=
  Run (Guarded Thing.Step Thing.Alone) before (r.2.map (Effect.about peer)) (r.1.sessionWith peer)

theorem sessionWith_setSession (q : Bytes) (s : Option (Ratchet K)) :
    { c with client := c.client.setSession q s }.sessionWith peer =
      ⟨if q = peer then s.isSome else (c.client.sessions peer).isSome,
        c.tasks.countP (·.awaits peer)⟩ := by
  by_cases same : q = peer
  · subst same
    simp [sessionWith, WebClient.setSession]
  · simp [sessionWith, WebClient.setSession, same, Ne.symm same]

/-- A session that is there is still there after a message. -/
theorem sessionWith_used {q : Bytes} (there : (c.client.sessions q).isSome = true)
    (t : Ratchet K) :
    { c with client := c.client.setSession q (some t) }.sessionWith peer = c.sessionWith peer := by
  rw [sessionWith_setSession]
  by_cases same : q = peer
  · subst same
    simp [sessionWith, there]
  · simp [sessionWith, same]

/-- A task that ends was off, or was after something else. -/
theorem sessionWith_ended {i : Nat} {old : Task K} (here : c.tasks[i]? = some old) :
    c.sessionWith peer = ⟨((c.setTask i .ended).sessionWith peer).present,
      ((c.setTask i .ended).sessionWith peer).awaiting + if old.awaits peer then 1 else 0⟩ := by
  obtain ⟨bound, found⟩ := List.getElem?_eq_some_iff.mp here
  -- the task is one of those counted, so that nothing is cut off below
  have counted : (if old.awaits peer then 1 else 0) ≤ c.tasks.countP (·.awaits peer) := by
    split
    · exact List.countP_pos_iff.mpr ⟨old, found ▸ List.getElem_mem bound, by assumption⟩
    · exact Nat.zero_le _
  have quiet : (Task.ended : Task K).awaits peer = false := rfl
  simp only [sessionWith, setTask, List.countP_set bound, quiet, found]
  congr 1
  simp
  omega

theorem sendPayload_shows (q : Bytes) (payload : WebPayload) (pqCt : Option Bytes)
    {finished : List (Effect K)} (quiet : ∀ e ∈ finished, e.about peer = .other) :
    Shows (c.sessionWith peer) peer (c.sendPayload P q payload pqCt finished) := by
  have others : ∀ e ∈ finished.map (Effect.about peer), e = .other := by simpa using quiet
  unfold sendPayload Shows
  rcases ratchetEncrypt_cases P.toRatchetCrypto c.client q (P.encodePayload payload) with
    ⟨e, same⟩ | ⟨there, t, message, sent⟩
  · rw [same]
    exact Thing.run_other _ (by simp [Effect.about])
  · rw [sent]
    simp only [List.map_cons, Effect.about, sessionWith_used c peer there]
    split
    · subst q
      have present : c.sessionWith peer = ⟨true, c.tasks.countP (·.awaits peer)⟩ := by
        rw [sessionWith, there]
      rw [present]
      exact Thing.run_used (Thing.run_other _ others)
    · exact Thing.run_other _ (by simpa using others)

theorem finished_quiet (purpose : Purpose) (q : Bytes) :
    ∀ e ∈ (purpose.finished q : List (Effect K)), e.about peer = .other := by
  cases purpose <;> simp [Purpose.finished, Effect.about]

theorem goOn_shows (purpose : Purpose) (q : Bytes) (pqCt : Option Bytes) :
    Shows (c.sessionWith peer) peer (c.goOn P purpose q pqCt) := by
  unfold goOn
  split
  · -- a call has nothing to send yet
    exact Thing.run_other _ (by simpa using finished_quiet peer purpose q)
  · exact sendPayload_shows P c peer q _ pqCt (finished_quiet peer purpose q)

theorem decryptInbound_shows (env : InboundEnvelope) (drawn : KeyPair K) :
    Shows (c.sessionWith peer) peer (c.decryptInbound P env drawn) := by
  unfold decryptInbound Shows
  rcases ratchetDecrypt_cases P.toRatchetCrypto c.client env.senderPubkey drawn env.ciphertext with
    same | ⟨there, t, result, decrypted⟩
  · rw [same]
    exact Thing.run_other _ (by simp)
  · rw [decrypted]
    cases result with
    | error e =>
      simp only [sessionWith_used c peer there]
      exact Thing.run_other _ (by simp [Effect.about])
    | ok inner? =>
      cases inner? with
      | none =>
        simp only [sessionWith_used c peer there]
        exact Thing.run_other _ (by simp)
      | some inner =>
        simp only [List.map_cons, Effect.about, sessionWith_used c peer there, List.map_nil]
        split
        · have present : c.sessionWith peer = ⟨true, c.tasks.countP (·.awaits peer)⟩ := by
            subst peer
            rw [sessionWith, there]
          rw [present]
          exact Thing.run_used (.nil _)
        · exact Thing.run_other _ (by simp)

/-- A task that was off makes the session with `q`, and goes on under it. -/
theorem made_shows {q : Bytes} (s : Ratchet K) (root : K) {r : Conn K × List (Effect K)}
    (rest : Shows ({ c with client := c.client.setSession q (some s) }.sessionWith peer) peer r) :
    Shows ⟨(c.client.sessions peer).isSome,
        c.tasks.countP (·.awaits peer) + if decide (q = peer) then 1 else 0⟩ peer
      (r.1, .initialised q root :: r.2) := by
  rw [sessionWith_setSession] at rest
  by_cases same : q = peer
  · simp only [same, if_true, Option.isSome_some] at rest
    simp only [Shows, List.map_cons, Effect.about, same, if_true, decide_true]
    exact Thing.run_made rest
  · simp only [same, if_false] at rest
    simp only [Shows, List.map_cons, Effect.about, same, if_false, decide_false]
    exact (Thing.run_gaveUp _ false _).append rest

theorem haveRoot_shows (purpose : Purpose) (bundle : FetchedBundle) (drawn : KeyPair K)
    (derived : Except String (K × Option Bytes)) :
    Shows ⟨(c.client.sessions peer).isSome,
        c.tasks.countP (·.awaits peer) + if decide (bundle.identityPub = peer) then 1 else 0⟩ peer
      (c.haveRoot P purpose bundle drawn derived) := by
  cases derived with
  | error e => exact Thing.run_gaveUp _ _ _
  | ok root =>
    unfold haveRoot
    rcases ratchetInitAlice_cases P.toRatchetCrypto c.client bundle.identityPub root.1
      bundle.signedPrekey drawn with ⟨e, kept⟩ | ⟨e, erased⟩ | ⟨s, made⟩
    · -- a key of the wrong size is refused before the session is touched
      simp only [kept]
      exact Thing.run_gaveUp _ _ _
    · -- the old session is erased before the new one fails
      simp only [erased, Shows, sessionWith_setSession]
      by_cases same : bundle.identityPub = peer
      · simp only [same, if_true, decide_true]
        exact Thing.run_lost _ _
      · simp only [same, if_false, decide_false]
        exact Thing.run_gaveUp _ false _
    · simp only [made]
      exact made_shows c peer s root.1 (goOn_shows P _ peer purpose _ root.2)

theorem haveInboundRoot_shows (env : InboundEnvelope) (drawn : KeyPair K)
    (derived : Except String K) :
    Shows ⟨(c.client.sessions peer).isSome,
        c.tasks.countP (·.awaits peer) + if decide (env.senderPubkey = peer) then 1 else 0⟩ peer
      (c.haveInboundRoot P env drawn derived) := by
  cases derived with
  | error e => exact Thing.run_gaveUp _ _ _
  | ok root => exact made_shows c peer _ root (decryptInbound_shows P _ peer env drawn)

/-- A task that misses the session goes off to derive a root. -/
theorem missed_shows {q : Bytes} {c' : Conn K} (absent : c.client.sessions q = none)
    (unhurried : ∀ t ∈ c.tasks, t.awaits q = false) (same_client : c'.client = c.client)
    (off : c'.tasks.countP (·.awaits peer) =
      c.tasks.countP (·.awaits peer) + if q = peer then 1 else 0) :
    Shows (c.sessionWith peer) peer (c', [.missed q]) := by
  simp only [Shows, List.map_cons, List.map_nil, Effect.about, sessionWith, same_client, off]
  by_cases same : q = peer
  · -- it is alone, which is what the guard is for
    subst same
    have nobody : c.tasks.countP (·.awaits q) = 0 := by
      rw [List.countP_eq_zero]
      exact fun t member => by simp [unhurried t member]
    simp only [nobody, absent, if_true]
    exact Thing.run_missed
  · simp only [same, if_false]
    exact Thing.run_other _ (by simp)

theorem haveBundle_shows {i : Nat} {purpose : Purpose} {requestId : Nat} (bundle : FetchedBundle)
    (draw : Nat) (here : c.tasks[i]? = some (.fetching purpose requestId))
    (unhurried : c.client.sessions bundle.identityPub = none →
      ∀ t ∈ c.tasks, t.awaits bundle.identityPub = false) :
    Shows (c.sessionWith peer) peer (c.haveBundle P i purpose bundle draw) := by
  unfold haveBundle
  split
  · rw [sessionWith_ended c peer here]
    exact goOn_shows P _ peer purpose bundle.identityPub none
  · next absent =>
    have absent : c.client.sessions bundle.identityPub = none := by simpa using absent
    refine missed_shows c peer absent (unhurried absent) rfl ?_
    obtain ⟨bound, found⟩ := List.getElem?_eq_some_iff.mp here
    simp [setTask, List.countP_set bound, found, Task.awaits]

theorem resume_shows (i draw : Nat) (drawn : KeyPair K)
    (unhurried : c.Unhurried (.resume i draw drawn)) :
    Shows (c.sessionWith peer) peer (c.resume P i draw drawn) := by
  unfold resume
  cases here : c.tasks[i]? with
  | none => exact .nil _
  | some t =>
    cases t with
    | fetching purpose requestId =>
      cases answer : c.settled.lookup requestId with
      | none => simp only [answer]; exact .nil _
      | some result =>
        cases result with
        | error e =>
          simp only [answer]
          rw [sessionWith_ended c peer here]
          exact Thing.run_gaveUp _ _ _
        | ok bundle =>
          simp only [answer]
          refine haveBundle_shows P c peer bundle draw here ?_
          exact unhurried bundle.identityPub (by simp [looksFor, here, answer])
    | derivingSend purpose bundle derived =>
      simp only
      rw [sessionWith_ended c peer here]
      exact haveRoot_shows P _ peer purpose bundle drawn derived
    | derivingRecv env derived =>
      simp only
      rw [sessionWith_ended c peer here]
      exact haveInboundRoot_shows P _ peer env drawn derived
    | ended => exact .nil _

theorem handleInboundEnvelope_shows (env : InboundEnvelope) (drawn : KeyPair K)
    (unhurried : c.Unhurried (.envelope env drawn)) :
    Shows (c.sessionWith peer) peer (c.handleInboundEnvelope P env drawn) := by
  unfold handleInboundEnvelope
  split
  · exact .nil _
  next direct =>
  split
  · exact decryptInbound_shows P c peer env drawn
  next absent =>
  have absent : c.client.sessions env.senderPubkey = none := by simpa using absent
  cases P.ed25519PubToX25519 env.senderPubkey with
  | error e => exact Thing.run_other _ (by simp [Effect.about])
  | ok peerX =>
    refine missed_shows c peer absent ?_ rfl ?_
    · exact unhurried env.senderPubkey (by simp [looksFor, direct]) absent
    · simp [spawn, Task.awaits]

theorem fetchKeyBundle_shows (purpose : Purpose) (peerUsername : String) :
    Shows (c.sessionWith peer) peer (c.fetchKeyBundle purpose peerUsername) := by
  unfold fetchKeyBundle Shows
  split <;> simp only [sessionWith, spawn, List.countP_append, List.countP_singleton, Task.awaits]
  · exact .nil _
  · exact Thing.run_other _ (by simp [Effect.about])

theorem onKeyFetchResp_shows (r : KeyFetchResp) :
    Shows (c.sessionWith peer) peer (c.onKeyFetchResp r) := by
  obtain ⟨pending, settled, same, -⟩ := c.onKeyFetchResp_cases r
  rw [same]
  exact .nil _

/-- By cases of what the connection can do. -/
theorem step_shows {e : ConnEvent K} (unhurried : c.Unhurried e) :
    Shows (c.sessionWith peer) peer (c.step P e) := by
  cases e with
  | sendDmDirect peerUsername text => exact fetchKeyBundle_shows c peer _ peerUsername
  | inviteToChannel channelId name distribution peerUsername =>
    exact fetchKeyBundle_shows c peer _ peerUsername
  | startCall peerUsername =>
    simp only [step]
    split
    · exact Thing.run_other _ (by simp [Effect.about])
    · exact fetchKeyBundle_shows c peer _ peerUsername
  | sendMediaSignal peerPub callId kind payload epoch =>
    exact sendPayload_shows P c peer peerPub _ none (by simp)
  | keyFetchResp r => exact onKeyFetchResp_shows c peer r
  | envelope env drawn => exact handleInboundEnvelope_shows P c peer env drawn unhurried
  | resume task draw drawn => exact resume_shows P c peer task draw drawn unhurried

/-- In every run in which no task looks for a session in vain while another one is deriving a root
for it, the session with a peer is initialised at most once, before anything is encrypted or
decrypted under it. -/
theorem initialised_once {c' : Conn K} {labels : List (ConnEvent K × List (Effect K))}
    (run : Run (Guarded (Steps P) fun c label => c.Unhurried label.1) c labels c')
    (idle : ∀ t ∈ c.tasks, t.awaits peer = false) :
    (labels.flatMap (·.2)).countP (Effect.initialises peer) ≤ 1 ∧
      (labels.flatMap (·.2)).Pairwise fun earlier later => later.initialises peer →
        ¬earlier.initialises peer ∧ ¬earlier.usesSession peer := by
  have seen := run.simulate_runs (fun c => c.sessionWith peer)
    (fun label => label.2.map (Effect.about peer)) fun c label c' ⟨unhurried, taken⟩ => by
      have shows := step_shows P c peer unhurried
      rw [taken] at shows
      exact shows
  have nobody : c.tasks.countP (·.awaits peer) = 0 := by
    rw [List.countP_eq_zero]
    exact fun t member => by simp [idle t member]
  rw [sessionWith, nobody, ← List.map_flatMap] at seen
  have once := Thing.madeOnce seen
  -- what is made and used in the abstract run is initialised and used in this one
  constructor
  · have count := once.count_le_one
    rwa [List.count_eq_countP, List.countP_map, List.countP_congr (q := Effect.initialises peer)]
      at count
    intro e _
    simp [← Effect.about_eq_made]
  · have pairs := List.pairwise_map.mp once
    refine pairs.imp fun {earlier later} order initialised => ?_
    obtain ⟨made, used⟩ := order (Effect.about_eq_made.mpr initialised)
    exact ⟨fun h => made (Effect.about_eq_made.mpr h), fun h => used (Effect.about_eq_used.mpr h)⟩

/-! ### Two messages at once -/

open Ratchet (octetPair octetPoint)

private def writer : Conn Nat :=
  .opened ⟨octetPair 1, fun _ => none⟩ (octetPoint 1) none

/-- The answer of the relay about a peer with the ratchet key `octetPoint 2`. -/
private def registered : KeyFetchResp :=
  ⟨true, some ⟨octetPoint 2, octetPoint 2, [], []⟩, 1⟩

private def twoMessages : List (ConnEvent Nat) :=
  [.sendDmDirect "bob" "one", .sendDmDirect "bob" "two", .keyFetchResp registered,
    .resume 0 0 (octetPair 3), .resume 1 0 (octetPair 4),
    .resume 0 0 (octetPair 3), .resume 1 0 (octetPair 4)]

/-- Both messages find no session, and the second one replaces the session that the first one was
encrypted under. -/
theorem not_initialised_once :
    ¬ ∀ (c c' : Conn Nat) (labels : List (ConnEvent Nat × List (Effect Nat))) (peer : Bytes),
      Run (Steps (.octets false)) c labels c' → c.client.sessions peer = none →
      (∀ t ∈ c.tasks, t.awaits peer = false) →
      (labels.flatMap (·.2)).countP (Effect.initialises peer) ≤ 1 := by
  intro once
  obtain ⟨labels, run, effects⟩ := writer.run_steps (.octets false) twoMessages
  -- both tasks have missed the session before the first of them makes it
  have count := once writer _ labels (octetPoint 2) run rfl (by simp [writer, opened])
  rw [effects] at count
  have twice : ((writer.run (.octets false) twoMessages).2).countP
      (Effect.initialises (octetPoint 2)) = 2 := rfl
  omega

private def oneMessage : List (ConnEvent Nat) :=
  [.sendDmDirect "bob" "one", .keyFetchResp registered, .resume 0 0 (octetPair 3),
    .resume 0 0 (octetPair 3)]

/-- A message whose task is the only one. -/
theorem initialised_once_one_message :
    ∃ labels : List (ConnEvent Nat × List (Effect Nat)), labels.map (·.1) = oneMessage ∧
      (labels.flatMap (·.2)).countP (Effect.initialises (octetPoint 2)) ≤ 1 ∧
      (labels.flatMap (·.2)).Pairwise fun earlier later =>
        later.initialises (octetPoint 2) →
          ¬earlier.initialises (octetPoint 2) ∧ ¬earlier.usesSession (octetPoint 2) := by
  refine ⟨[(_, _), (_, _), (_, _), (_, _)], rfl, initialised_once (.octets false) writer _
    (.cons ⟨fun peer looks => ?_, rfl⟩ (.cons ⟨fun peer looks => ?_, rfl⟩
      (.cons ⟨fun peer _ _ => ?_, rfl⟩ (.cons ⟨fun peer looks => ?_, rfl⟩ (.nil _)))))
    (by simp [writer, opened])⟩
  · cases looks
  · cases looks
  · intro t member
    obtain rfl := List.mem_singleton.mp member
    rfl
  · cases looks

end Conn

end FinBit.Web
