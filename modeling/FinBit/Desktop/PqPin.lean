import FinBit.Desktop.FrameDispatch
import FinBit.Desktop.KnownPeers
import FinBit.Lib.Sql
import FinBit.Handshake.BundleSignatures

/-! # The post-quantum pin

A peer that has once advertised an ML-KEM key is pinned in the store, and the pin is
sticky. `pq_tofu_admit` refuses a bundle or a prekey record of a pinned peer that comes
without such a key, so that the initiator's sessions with it are all hybrid.

The responder's are not: `dispatch_envelope` creates a session from whatever the envelope
brings and asks for no pin. This module follows what a client keys its sessions with,
step by step, and shows that such an envelope is the only way around a pin.
-/

namespace FinBit.Desktop

open FinBit.Lib FinBit.Lib.Sql FinBit.Crypto FinBit.Handshake Std

variable {K G C J : Type}

/-! ### The pins in the store -/

/-- The table `peer_pq_capable`: `first_seen_ms`, and `capable` as the value. -/
abbrev PqTable := Table (Option Bytes) Int64 Bool

namespace PqTable

/-- `set_peer_pq_capable`. -/
def setPeerPqCapable (pins : PqTable) (peerPub : Bytes) (capable : Bool) (firstSeenMs : UInt64) :
    PqTable :=
  pins.upsertWith ⟨some peerPub, firstSeenMs.toInt64, capable⟩ fun old excluded =>
    -- `MIN(first_seen_ms, …)` and `MAX(capable, …)`
    (min old.info excluded.info, old.value || excluded.value)

/-- `peer_pq_capable`. -/
def peerPqCapable (pins : PqTable) (peerPub : Bytes) : Bool :=
  (pins.find [bindBlob (.of peerPub)]).any (·.value)

/-- `pq_tofu_admit` with a store, and what it leaves there. -/
def pqTofuAdmit (pins : PqTable) (peerPub : Bytes) (nowAdvertisesPq : Bool) (now : UInt64) :
    PqTable × Bool :=
  let prev := pins.peerPqCapable peerPub
  -- `is_pq_capability_downgrade`
  if prev && !nowAdvertisesPq then (pins, false)
  else if nowAdvertisesPq && !prev then (pins.setPeerPqCapable peerPub true now, true)
  else (pins, true)

theorem peerPqCapable_iff {pins : PqTable} {peer : Bytes} :
    pins.peerPqCapable peer = true ↔ ∃ r ∈ pins.rows, r.key = some peer ∧ r.value = true := by
  simp only [peerPqCapable, Option.any_eq_true, Table.find_nullable_iff, Span.of]
  constructor
  · rintro ⟨r, ⟨member, key, -⟩, capable⟩
    exact ⟨r, member, key, capable⟩
  · rintro ⟨r, member, key, capable⟩
    exact ⟨r, ⟨member, key, trivial⟩, capable⟩

/-- Keys of peers clash when they are the same. -/
private theorem clash_peer {k : Option Bytes} {peer : Bytes} :
    clash k (some peer) = true ↔ k = some peer := by
  cases k <;> simp [clash, matchAll_eq_true_iff, columns]

/-- The pin is latched: a call adds its own peer and takes nobody's away, whatever flag
it comes with. -/
theorem peerPqCapable_set (pins : PqTable) (peer q : Bytes) (capable : Bool) (ms : UInt64) :
    (pins.setPeerPqCapable peer capable ms).peerPqCapable q = true ↔
      pins.peerPqCapable q = true ∨ q = peer ∧ capable = true := by
  simp only [peerPqCapable_iff, setPeerPqCapable]
  cases taken : pins.has (some peer) with
  | false =>
    -- a new row at the end
    rw [Table.rows_upsertWith_of_free taken]
    constructor
    · rintro ⟨r, member, key, value⟩
      rcases List.mem_append.mp member with old | new
      · exact .inl ⟨r, old, key, value⟩
      · rw [List.mem_singleton] at new
        subst new
        exact .inr ⟨(Option.some.inj key).symm, value⟩
    · rintro (⟨r, member, key, value⟩ | ⟨rfl, rfl⟩)
      · exact ⟨r, List.mem_append_left _ member, key, value⟩
      · exact ⟨_, List.mem_append_right _ (List.mem_singleton.mpr rfl), rfl, rfl⟩
  | true =>
    rw [Table.rows_upsertWith_of_has taken]
    simp only [List.mem_map, clash_peer]
    constructor
    · rintro ⟨r, ⟨old, member, rfl⟩, key, value⟩
      by_cases here : old.key = some peer
      · -- the row of the peer: an earlier flag or the one of this call
        simp only [here, if_true, Bool.or_eq_true] at key value
        rcases value with earlier | now
        · exact .inl ⟨old, member, here.trans key, earlier⟩
        · exact .inr ⟨(Option.some.inj key).symm, now⟩
      · rw [if_neg here] at key value
        exact .inl ⟨old, member, key, value⟩
    · rintro (⟨old, member, key, value⟩ | ⟨rfl, rfl⟩)
      · refine ⟨_, ⟨old, member, rfl⟩, ?_, ?_⟩
        · split <;> exact key
        · split
          · simp [value]
          · exact value
      · obtain ⟨old, member, same⟩ := List.any_eq_true.mp taken
        rw [clash_peer] at same
        exact ⟨_, ⟨old, member, rfl⟩, by simp [same], by simp [same]⟩

/-- The table does what the worker's pins say. -/
theorem pqTofuAdmit_refines (pins : PqTable) (peer : Bytes) (pq : Bool) (now : UInt64) :
    Worker.pqTofuAdmit pins.peerPqCapable peer pq =
      ((pins.pqTofuAdmit peer pq now).1.peerPqCapable, (pins.pqTofuAdmit peer pq now).2) := by
  -- the table writes only where the pin is missing, the function writes it again
  have pinned : (pins.setPeerPqCapable peer true now).peerPqCapable =
      Function.update pins.peerPqCapable peer true := by
    funext q
    rw [Bool.eq_iff_iff, peerPqCapable_set]
    by_cases same : q = peer <;> simp [same]
  have again : pins.peerPqCapable peer = true →
      Function.update pins.peerPqCapable peer true = pins.peerPqCapable := by
    intro already
    rw [← already, Function.update_eq_self]
  cases prev : pins.peerPqCapable peer <;> cases pq <;>
    simp [Worker.pqTofuAdmit, pqTofuAdmit, prev, pinned, again]

/-- A peer that is admitted without a KEM key is not pinned. -/
theorem pqTofuAdmit_spec {pins after : PqTable} {peer : Bytes} {pq admitted : Bool} {now : UInt64}
    (asked : pins.pqTofuAdmit peer pq now = (after, admitted)) :
    (∀ q, pins.peerPqCapable q = true → after.peerPqCapable q = true) ∧
      (admitted = true → after.peerPqCapable peer = true → pq = true) := by
  unfold pqTofuAdmit at asked
  cases prev : pins.peerPqCapable peer <;> cases pq <;> simp [prev] at asked <;>
    obtain ⟨rfl, rfl⟩ := asked <;> simp_all [peerPqCapable_set]

end PqTable

/-! ### What a session is keyed with -/

section

variable (P : HybridCrypto K)

/-- The ML-KEM secret of `derive_hybrid_send`, where there is a key to encapsulate to. -/
def kemSent (peerPqPub : Bytes) (draw : Nat) : Option K :=
  if peerPqPub = [] then none else (P.encap peerPqPub draw).map Prod.snd

/-- The ML-KEM secret of `derive_hybrid_recv`, where there is a ciphertext. -/
def kemReceived (myPqSec pqCt : Bytes) : Option K :=
  if pqCt = [] then none else P.decap myPqSec pqCt

/-- The root over an X25519 secret, with the ML-KEM secret where there is one. -/
def rootOver (shared : K) : Option K → K
  | none => shared
  | some ss => P.combine shared ss

theorem deriveHybridSend_root {mine : KeyPair K} {peerX peerPqPub pqCt : Bytes} {draw : Nat}
    {root : K} (derived : deriveHybridSend P mine peerX peerPqPub draw = .ok (root, pqCt)) :
    (∃ shared, deriveSharedSecret P mine peerX = .ok shared ∧
      root = rootOver P shared (kemSent P peerPqPub draw)) ∧
    (peerPqPub ≠ [] → (kemSent P peerPqPub draw).isSome) := by
  unfold deriveHybridSend at derived
  cases secret : deriveSharedSecret P mine peerX with
  | error e => simp [secret, bind, Except.bind] at derived
  | ok shared =>
    simp only [secret, bind, Except.bind] at derived
    by_cases absent : peerPqPub = []
    · simp only [absent, if_true, Except.ok.injEq, Prod.mk.injEq] at derived
      simp [kemSent, absent, rootOver, derived.1]
    · simp only [absent, if_false] at derived
      split at derived
      · cases derived
      · cases encapsulated : P.encap peerPqPub draw with
        | none => simp [encapsulated] at derived
        | some sent =>
          simp only [encapsulated, Except.ok.injEq, Prod.mk.injEq] at derived
          simp [kemSent, absent, encapsulated, rootOver, derived.1]

theorem deriveHybridRecv_root {mine : KeyPair K} {peerX myPqSec pqCt : Bytes} {root : K}
    (derived : deriveHybridRecv P mine peerX myPqSec pqCt = .ok root) :
    (∃ shared, deriveSharedSecret P mine peerX = .ok shared ∧
      root = rootOver P shared (kemReceived P myPqSec pqCt)) ∧
    (pqCt ≠ [] → (kemReceived P myPqSec pqCt).isSome) := by
  unfold deriveHybridRecv at derived
  cases secret : deriveSharedSecret P mine peerX with
  | error e => simp [secret, bind, Except.bind] at derived
  | ok shared =>
    simp only [secret, bind, Except.bind] at derived
    by_cases absent : pqCt = []
    · simp only [absent, if_true, Except.ok.injEq] at derived
      simp [kemReceived, absent, rootOver, derived]
    · simp only [absent, if_false] at derived
      split at derived
      · cases derived
      · cases decapsulated : P.decap myPqSec pqCt with
        | none => simp [decapsulated] at derived
        | some ss =>
          simp only [decapsulated, Except.ok.injEq] at derived
          simp [kemReceived, absent, decapsulated, rootOver, derived]

end

/-- One call of `init_alice` or `init_bob`: the peer, whether the store had it pinned at
that moment, the ML-KEM secret, and the root that the ratchet starts with. -/
structure Keying (K : Type) where
  peer : Bytes
  pinned : Bool
  kem : Option K
  root : K

/-- The root holds an ML-KEM secret if the peer was pinned. -/
def Keying.Honours (P : HybridCrypto K) (k : Keying K) : Prop :=
  k.pinned = true → ∃ shared ss, k.kem = some ss ∧ k.root = P.combine shared ss

section

variable (P : DmCrypto K)

/-- The keying of `respond`: the sender's envelope meets no ratchet. -/
def respondKeying (pins : PqTable) (client : DmClient K) (env : Envelope) (sender : Bytes) :
    Option (Keying K) :=
  match client.sessions.ratchetAt (sessionName client.sessions sender) with
  | some _ => none
  | none =>
    match P.edToCurve sender with
    | none => none
    | some peerX =>
      match deriveHybridRecv P.toHybridCrypto client.x25519 peerX client.pqSec env.pqCt with
      | .error _ => none
      | .ok root =>
        some ⟨sender, pins.peerPqCapable sender,
          kemReceived P.toHybridCrypto client.pqSec env.pqCt, root⟩

/-- The keying of `dispatch_envelope`. -/
def dispatchKeying (pins : PqTable) (client : DmClient K) (env : Envelope)
    (drawn : Bytes → KeyPair K) : Option (Keying K) :=
  if env.senderPubkey = [] then
    match env.recipient with
    | .userPubkey _ =>
      match sealedPrePass P client env drawn with
      | (sessions, .found sender _) =>
        respondKeying P pins { client with sessions := sessions } env sender
      | _ => none
    | _ => none
  else if env.senderPubkey.length ≠ 32 then none
  else respondKeying P pins client env env.senderPubkey

/-- The keying of an initiator, who has or has not created a session. -/
def initiateKeying (pins : PqTable) (outcome : FetchOutcome) (peer peerPqPub : Bytes) (draw : Nat)
    (derived : Except String (K × Bytes)) : Option (Keying K) :=
  match outcome, derived with
  | .created, .ok (root, _) =>
    some ⟨peer, pins.peerPqCapable peer, kemSent P.toHybridCrypto peerPqPub draw, root⟩
  | _, _ => none

end

/-! ### Runs of a client -/

/-- A client with its store, as far as sessions and pins go. -/
structure PinnedClient (K : Type) where
  dm : DmClient K
  pins : PqTable

/-- What the client meets, in any order. -/
inductive PinEvent (K : Type) where
  | envelope (env : Envelope) (drawn : Bytes → KeyPair K)
  | keyFetchResp (fetchedFor : Bytes) (r : KeyFetchResp) (drawn : KeyPair K) (draw : Nat)
      (now : UInt64)
  | firstContact (name peerPub : Bytes) (record : P2P.PrekeyRecord) (drawn : KeyPair K) (draw : Nat)
      (now : UInt64)
  | send (name : Bytes) (sign : Bytes → Bytes) (envelopeId : Bytes) (timestampMs : UInt64)
      (pt : Bytes)
  /-- `operator[]` on the sessions, as the send queue does it before it fetches a bundle. -/
  | touch (name : Bytes)
  /-- Sessions live in memory only; the store is opened again. -/
  | restart (dm : DmClient K)

namespace PinnedClient

variable (P : DmCrypto K)

def setSessions (c : PinnedClient K) (sessions : Sessions K) : PinnedClient K :=
  { c with dm := { c.dm with sessions := sessions } }

/-- Whether an answer gets as far as `pq_tofu_admit`. -/
def asksPin (fetchedFor : Bytes) (r : KeyFetchResp) : Bool :=
  fetchedFor ≠ [] && r.found && r.bundle.identityPubkey.length = 32 &&
    r.bundle.signedPrekey.length = 32

/-- One event, with the keying that it brings. An exception leaves the sessions as they
are at that point, and the pins too. -/
def step (c : PinnedClient K) : PinEvent K → PinnedClient K × Option (Keying K)
  | .envelope env drawn =>
    match env.recipient with
    -- channels have sender keys, no ratchets
    | .channelGroupId _ => (c, none)
    | _ =>
      (c.setSessions (dispatchDm P c.dm env drawn).1, dispatchKeying P c.pins c.dm env drawn)
  | .keyFetchResp fetchedFor r drawn draw now =>
    -- the pin is written before the secret is derived, and stays if that throws
    let (pins, admitted) :=
      if asksPin fetchedFor r then
        c.pins.pqTofuAdmit r.bundle.identityPubkey (r.bundle.pqPubkey ≠ []) now
      else (c.pins, true)
    let (sessions, outcome) := keyFetchResp P c.dm fetchedFor r admitted drawn draw
    ({ c.setSessions sessions with pins := pins },
      initiateKeying P pins outcome r.bundle.identityPubkey r.bundle.pqPubkey draw
        (deriveHybridSendFromBundle P.toHybridCrypto c.dm.x25519 r.bundle.signedPrekey r.bundle
          draw))
  | .firstContact name peerPub record drawn draw now =>
    let (pins, admitted) := c.pins.pqTofuAdmit peerPub (record.pqPubkey ≠ []) now
    let (sessions, outcome) := firstContactDirect P c.dm name peerPub record admitted drawn draw
    ({ c.setSessions sessions with pins := pins },
      initiateKeying P pins outcome peerPub record.pqPubkey draw
        (deriveHybridSend P.toHybridCrypto c.dm.x25519 record.signedPrekey record.pqPubkey draw))
  | .send name sign envelopeId timestampMs pt =>
    match c.dm.sessions[name]? with
    | none => (c, none)
    | some s =>
      match s.rat with
      | none => (c, none)
      | some rat =>
        match sendDm P c.dm.publicKey sign s rat envelopeId timestampMs pt with
        | .error _ => (c, none)
        | .ok (s, _) => (c.setSessions (c.dm.sessions.insert name s), none)
  | .touch name =>
    (c.setSessions (c.dm.sessions.insert name (c.dm.sessions[name]?.getD .blank)), none)
  | .restart dm => ({ c with dm := { dm with sessions := ∅ } }, none)

end PinnedClient

/-- The step as a relation, labelled with the event and its keying. -/
def PinStep (P : DmCrypto K) (c : PinnedClient K) (label : PinEvent K × Option (Keying K))
    (c' : PinnedClient K) : Prop :=
  c.step P label.1 = (c', label.2)

theorem pinStep_step (P : DmCrypto K) (c : PinnedClient K) (event : PinEvent K) :
    PinStep P c (event, (c.step P event).2) (c.step P event).1 := rfl

/-- The peers that an envelope may come from: the one it names, or for a sealed one any
peer that has a ratchet. -/
def MayComeFrom (sessions : Sessions K) (env : Envelope) (sender : Bytes) : Prop :=
  if env.senderPubkey = [] then ∃ name rat, sessions.ratchetAt name = some (sender, rat)
  else sender = env.senderPubkey

/-- An envelope without a KEM ciphertext, from a pinned peer whose envelopes meet no
ratchet. -/
structure Stripped (c : PinnedClient K) (env : Envelope) : Prop where
  direct : ∀ gid, env.recipient ≠ .channelGroupId gid
  bare : env.pqCt = []
  pinned : ∃ sender, MayComeFrom c.dm.sessions env sender ∧ c.pins.peerPqCapable sender = true ∧
    c.dm.sessions.ratchetAt (sessionName c.dm.sessions sender) = none

/-- The events that bring no such envelope. -/
def Unstripped (c : PinnedClient K) (label : PinEvent K × Option (Keying K)) : Prop :=
  ∀ env drawn, label.1 = .envelope env drawn → ¬Stripped c env

/-! ### Keyings and pins -/

section

variable {P : DmCrypto K}

/-- A root over a KEM secret honours any pin. -/
private theorem honours_of_rootOver {mine : KeyPair K} {peer peerX : Bytes} {pinned : Bool}
    {kem : Option K} {root : K}
    (derived : ∃ shared, deriveSharedSecret P.toHybridCrypto mine peerX = .ok shared ∧
      root = rootOver P.toHybridCrypto shared kem)
    (present : pinned = true → kem.isSome) :
    Keying.Honours P.toHybridCrypto ⟨peer, pinned, kem, root⟩ := by
  intro yes
  obtain ⟨shared, -, rfl⟩ := derived
  obtain ⟨ss, rfl⟩ := Option.isSome_iff_exists.mp (present yes)
  exact ⟨shared, ss, rfl, rfl⟩

theorem respondKeying_honours {pins : PqTable} {client : DmClient K} {env : Envelope}
    {sender : Bytes} {k : Keying K} (keyed : respondKeying P pins client env sender = some k)
    (kept : client.sessions.ratchetAt (sessionName client.sessions sender) = none →
      pins.peerPqCapable sender = true → env.pqCt ≠ []) : k.Honours P.toHybridCrypto := by
  unfold respondKeying at keyed
  split at keyed
  · cases keyed
  next lacks =>
    split at keyed
    · cases keyed
    next peerX curve =>
      split at keyed
      · cases keyed
      next root derived =>
        cases keyed
        obtain ⟨secret, present⟩ := deriveHybridRecv_root P.toHybridCrypto derived
        exact honours_of_rootOver secret fun pinned => present (kept lacks pinned)

theorem dispatchKeying_honours {c : PinnedClient K} {env : Envelope} {drawn : Bytes → KeyPair K}
    {k : Keying K} (direct : ∀ gid, env.recipient ≠ .channelGroupId gid)
    (unstripped : ¬Stripped c env)
    (keyed : dispatchKeying P c.pins c.dm env drawn = some k) : k.Honours P.toHybridCrypto := by
  have kept : ∀ sender, MayComeFrom c.dm.sessions env sender →
      c.dm.sessions.ratchetAt (sessionName c.dm.sessions sender) = none →
      c.pins.peerPqCapable sender = true → env.pqCt ≠ [] :=
    fun sender from_ lacks pinned bare => unstripped ⟨direct, bare, sender, from_, pinned, lacks⟩
  unfold dispatchKeying at keyed
  split at keyed
  next sealed =>
    split at keyed
    next key addressed =>
      split at keyed
      next sessions sender pt found =>
        -- the pre-pass has moved ratchets and changed no owner
        have spec := sealedPrePass_spec P c.dm env drawn
        rw [found] at spec
        have same := sessionName_congr sender spec.keys spec.peers
        obtain ⟨name, rat, entry⟩ : ∃ name rat,
            c.dm.sessions.ratchetAt name = some (sender, rat) := by
          have outcome := spec.outcome
          split at outcome
          · cases outcome
          next name decides =>
            obtain ⟨rat, entry, -⟩ := (verdict_eq_found_iff P c.dm env drawn).mp outcome.symm
            exact ⟨name, rat, entry⟩
        have from_ : MayComeFrom c.dm.sessions env sender := by
          rw [MayComeFrom, if_pos sealed]
          exact ⟨name, rat, entry⟩
        apply respondKeying_honours keyed
        intro lacks
        refine kept sender from_ ?_
        -- whether the sender's session has a ratchet is the same before the pre-pass
        have owner := spec.peers (sessionName c.dm.sessions sender)
        simp only [same] at lacks
        simpa [lacks] using owner.symm
      · cases keyed
    · cases keyed
  next plain =>
    split at keyed
    · cases keyed
    · exact respondKeying_honours keyed (kept _ (by simp [MayComeFrom, plain]))

/-- What an initiator does to the sessions: nothing, a binding that keeps the ratchet
under the name, or a new ratchet over the derived root. -/
inductive Initiation (P : DmCrypto K) (sessions : Sessions K) (admitted : Bool)
    (derived : Except String (K × Bytes)) : Sessions K × FetchOutcome → Prop
  | idle {outcome : FetchOutcome} (quiet : outcome ≠ .created) :
      Initiation P sessions admitted derived (sessions, outcome)
  | bound {name : Bytes} {s : Session K} {outcome : FetchOutcome} (quiet : outcome ≠ .created)
      (same : s.rat = (sessions[name]?.getD .blank).rat) :
      Initiation P sessions admitted derived (sessions.insert name s, outcome)
  | created {name peerX pqCt : Bytes} {s : Session K} {root : K} {drawn : KeyPair K}
      {rat : Ratchet K} (admits : admitted = true) (secret : derived = .ok (root, pqCt))
      (started : Ratchet.initAlice P.toRatchetCrypto drawn root peerX = .ok rat)
      (has : s.rat = some rat) :
      Initiation P sessions admitted derived (sessions.insert name s, .created)

theorem keyFetchResp_initiated (client : DmClient K) (fetchedFor : Bytes) (r : KeyFetchResp)
    (admitted : Bool) (drawn : KeyPair K) (draw : Nat) :
    Initiation P client.sessions (PinnedClient.asksPin fetchedFor r && admitted)
      (deriveHybridSendFromBundle P.toHybridCrypto client.x25519 r.bundle.signedPrekey r.bundle
        draw)
      (keyFetchResp P client fetchedFor r admitted drawn draw) := by
  unfold keyFetchResp
  split
  · exact .idle (by simp)
  next inFlight =>
    split
    · exact .idle (by simp)
    next usable =>
      split
      · exact .idle (by simp)
      next admits =>
        split
        · exact .idle (by simp)
        · split
          next derived => exact .bound (by simp) rfl
          next root pqCt derived =>
            split
            next failed => exact .bound (by simp) rfl
            next rat started =>
              refine .created ?_ derived started rfl
              simp only [not_or, Bool.not_eq_false, ne_eq, not_not] at usable admits
              simp [PinnedClient.asksPin, inFlight, usable, admits]

theorem firstContactDirect_initiated (client : DmClient K) (name peerPub : Bytes)
    (record : P2P.PrekeyRecord) (admitted : Bool) (drawn : KeyPair K) (draw : Nat) :
    Initiation P client.sessions admitted
      (deriveHybridSend P.toHybridCrypto client.x25519 record.signedPrekey record.pqPubkey draw)
      (firstContactDirect P client name peerPub record admitted drawn draw) := by
  unfold firstContactDirect
  split
  · exact .idle (by simp)
  next admits =>
    split
    · exact .idle (by simp)
    · split
      next derived => exact .idle (by simp)
      next root pqCt derived =>
        split
        next failed => exact .bound (by simp) rfl
        next rat started => exact .created (by simpa using admits) derived started rfl

/-- An initiator that was admitted to a pinned peer has encapsulated to it. -/
theorem initiateKeying_honours {sessions : Sessions K} {admitted : Bool} {mine : KeyPair K}
    {peer peerX peerPqPub : Bytes} {draw : Nat} {pins : PqTable} {k : Keying K}
    {derived : Except String (K × Bytes)} {result : Sessions K × FetchOutcome}
    (initiated : Initiation P sessions admitted derived result)
    (send : ∀ root pqCt, derived = .ok (root, pqCt) →
      deriveHybridSend P.toHybridCrypto mine peerX peerPqPub draw = .ok (root, pqCt))
    (kept : admitted = true → pins.peerPqCapable peer = true → peerPqPub ≠ [])
    (keyed : initiateKeying P pins result.2 peer peerPqPub draw derived = some k) :
    k.Honours P.toHybridCrypto := by
  unfold initiateKeying at keyed
  split at keyed
  next root pqCt outcome =>
    cases keyed
    obtain ⟨shared, present⟩ := deriveHybridSend_root P.toHybridCrypto (send root pqCt rfl)
    refine honours_of_rootOver shared fun pinned => present (kept ?_ pinned)
    -- of the three things that an initiator does only one creates a ratchet
    cases initiated with
    | idle quiet => exact absurd outcome quiet
    | bound quiet same => exact absurd outcome quiet
    | created admits => exact admits
  · cases keyed

/-- One step loses no pin, and what it keys honours the pins unless the event is a
stripped envelope. -/
theorem PinStep.honours {c c' : PinnedClient K} {label : PinEvent K × Option (Keying K)}
    (stepped : PinStep P c label c') :
    (Unstripped c label → ∀ k, label.2 = some k → k.Honours P.toHybridCrypto) ∧
      ∀ peer, c.pins.peerPqCapable peer = true → c'.pins.peerPqCapable peer = true := by
  obtain ⟨event, keying⟩ := label
  simp only [PinStep] at stepped ⊢
  cases event with
  | envelope env drawn =>
    simp only [PinnedClient.step] at stepped
    split at stepped
    · cases stepped
      simp
    next direct =>
      cases stepped
      refine ⟨fun unstripped k => ?_, fun peer pinned => pinned⟩
      exact dispatchKeying_honours (fun gid same => direct gid same) (unstripped env drawn rfl)
  | keyFetchResp fetchedFor r drawn draw now =>
    have initiated := keyFetchResp_initiated (P := P) c.dm fetchedFor r
    cases asks : PinnedClient.asksPin fetchedFor r with
    | false =>
      -- the answer is dropped before any session is created
      simp only [PinnedClient.step, asks, Bool.false_eq_true, if_false] at stepped
      cases stepped
      refine ⟨fun _ k => ?_, fun peer pinned => pinned⟩
      apply initiateKeying_honours (initiated true drawn draw)
      · intro root pqCt derived
        exact (deriveHybridSendFromBundle_eq_ok.mp derived).2.2
      · simp [asks]
    | true =>
      simp only [PinnedClient.step, asks, if_true] at stepped
      cases asked : c.pins.pqTofuAdmit r.bundle.identityPubkey (r.bundle.pqPubkey ≠ []) now with
      | mk pins admitted =>
        obtain ⟨sticky, kem⟩ := PqTable.pqTofuAdmit_spec asked
        simp only [asked] at stepped
        cases stepped
        refine ⟨fun _ k => ?_, sticky⟩
        apply initiateKeying_honours (initiated admitted drawn draw)
        · intro root pqCt derived
          exact (deriveHybridSendFromBundle_eq_ok.mp derived).2.2
        · simpa [asks] using kem
  | firstContact name peerPub record drawn draw now =>
    simp only [PinnedClient.step] at stepped
    cases asked : c.pins.pqTofuAdmit peerPub (record.pqPubkey ≠ []) now with
    | mk pins admitted =>
      obtain ⟨sticky, kem⟩ := PqTable.pqTofuAdmit_spec asked
      simp only [asked] at stepped
      cases stepped
      refine ⟨fun _ k => ?_, sticky⟩
      apply initiateKeying_honours (firstContactDirect_initiated (P := P) c.dm name peerPub record
        admitted drawn draw)
      · exact fun root pqCt derived => derived
      · simpa using kem
  | send name sign envelopeId timestampMs pt =>
    simp only [PinnedClient.step] at stepped
    split at stepped
    · cases stepped
      simp
    · split at stepped
      · cases stepped
        simp
      · split at stepped <;>
        · cases stepped
          simp [PinnedClient.setSessions]
  | touch name | restart dm =>
    simp only [PinnedClient.step] at stepped
    cases stepped
    simp [PinnedClient.setSessions]

end

end FinBit.Desktop
