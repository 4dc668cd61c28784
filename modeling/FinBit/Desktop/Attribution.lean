import FinBit.Desktop.Replies

/-! # Who a message is from

An envelope that names its sender is decrypted with the session of that key. A key without a session
is looked up under a provisional name that holds its first eight octets, and what is found there is
taken for the session of the sender, whoever it belongs to.
-/

namespace FinBit.Desktop

open FinBit.Lib FinBit.Crypto FinBit.Handshake Std

variable {K : Type}

/-! ### Attribution -/

section

variable (P : DmCrypto K) (client : DmClient K) (env : Envelope) (drawn : Bytes → KeyPair K)

/-- The ratchet with which the client answers the first envelope of a sender. -/
def Responds (sender : Bytes) (rat : Ratchet K) : Prop :=
  ∃ peerX shared, P.edToCurve sender = some peerX ∧
    deriveHybridRecv P.toHybridCrypto client.x25519 peerX client.pqSec env.pqCt = .ok shared ∧
    rat = Ratchet.initBob P.toRatchetCrypto shared client.x25519

/-- The message was decrypted with a ratchet of the sender, one that the sender had before or has
got under a name at which there was none; all other ratchets, and whose they are, are left alone. -/
def Attributed (sender : Bytes) (body : DmBody) : Prop :=
  ∃ name rat rat' pt,
    (client.sessions.ratchetAt name = some (sender, rat) ∨
      client.sessions.ratchetAt name = none ∧ Responds P client env sender rat) ∧
    rat.decrypt P.toRatchetCrypto (drawn name) env.ciphertext env.aad = (rat', .ok (some pt)) ∧
    (P.payload.decode pt).map DmPayload.body = some body ∧
    ∀ k, (dispatchDm P client env drawn).1.ratchetAt k =
      if name = k then some (sender, rat') else client.sessions.ratchetAt k

end

/-- Where a sender is looked up under the provisional name, that name is not another key's. -/
def Unclaimed (sessions : Sessions K) (sender : Bytes) : Prop :=
  sessionName sessions sender = peerName sender → ∀ owner rat,
    sessions.ratchetAt (peerName sender) = some (owner, rat) → owner = sender

section

variable {P : DmCrypto K} {client : DmClient K} {env : Envelope} {drawn : Bytes → KeyPair K}
  {sender : Bytes} {body : DmBody}

/-- A name that is not the provisional one has been found by the key of its session. -/
theorem sessionName_found {sessions : Sessions K}
    (found : sessionName sessions sender ≠ peerName sender) :
    ∃ rat, sessions.ratchetAt (sessionName sessions sender) = some (sender, rat) := by
  unfold sessionName at found ⊢
  cases hit : sessions.keys.find? fun name =>
      (sessions.ratchetAt name).any fun entry => entry.1 = sender with
  | none =>
    rw [hit] at found
    exact absurd rfl found
  | some name =>
    have owned := List.find?_some hit
    simp only [hit] at found ⊢
    split at found
    · exact absurd rfl found
    next named =>
      rw [if_neg named]
      cases entry : sessions.ratchetAt name with
      | none => simp [entry] at owned
      | some pair =>
        obtain ⟨owner, rat⟩ := pair
        exact ⟨rat, by simpa [entry] using owned⟩

theorem readPayload_surfaced {sender' pt : Bytes}
    (surfaced : readPayload P sender pt = .surfaced sender' body) :
    sender' = sender ∧ (P.payload.decode pt).map DmPayload.body = some body := by
  unfold readPayload at surfaced
  split at surfaced
  · cases surfaced
  next payload read =>
    split at surfaced
    · cases surfaced
      exact ⟨rfl, by rw [read, Option.map_some]⟩
    · cases surfaced

/-- The session under the name of the sender, as it is or with the ratchet of a responder. -/
theorem respond_ok {name : Bytes} {s s' : Session K} {rat : Ratchet K}
    (entry : s.rat.map (fun rat => (s.peerPub, rat)) = client.sessions.ratchetAt name)
    (responded : respond P client env sender s = .ok (s', rat)) :
    s'.rat = some rat ∧
      (client.sessions.ratchetAt name = some (s'.peerPub, rat) ∨
        client.sessions.ratchetAt name = none ∧ s'.peerPub = sender ∧ Responds P client env sender rat) := by
  unfold respond at responded
  cases has : s.rat with
  | some r =>
    rw [has] at responded entry
    cases responded
    exact ⟨has, .inl entry.symm⟩
  | none =>
    rw [has] at responded entry
    cases curve : P.edToCurve sender with
    | none =>
      rw [curve] at responded
      cases responded
    | some peerX =>
      simp only [curve] at responded
      cases derived : deriveHybridRecv P.toHybridCrypto client.x25519 peerX client.pqSec env.pqCt with
      | error e =>
        rw [derived] at responded
        cases responded
      | ok shared =>
        rw [derived] at responded
        cases responded
        exact ⟨rfl, .inr ⟨entry.symm, rfl, peerX, shared, curve, derived, rfl⟩⟩

theorem respond_error {s : Session K} {outcome : DmOutcome} {sender' : Bytes}
    (responded : respond P client env sender s = .error outcome) : outcome ≠ .surfaced sender' body := by
  unfold respond at responded
  rintro rfl
  repeat' split at responded
  all_goals cases responded

/-- What a surfaced message has met on its way. -/
theorem deliver_surfaced {sender' : Bytes}
    (surfaced : (deliver P client env drawn sender none).2 = .surfaced sender' body) :
    sender' = sender ∧ ∃ owner rat rat' pt,
      (client.sessions.ratchetAt (sessionName client.sessions sender) = some (owner, rat) ∨
        client.sessions.ratchetAt (sessionName client.sessions sender) = none ∧ owner = sender ∧
          Responds P client env sender rat) ∧
      rat.decrypt P.toRatchetCrypto (drawn (sessionName client.sessions sender)) env.ciphertext
        env.aad = (rat', .ok (some pt)) ∧
      (P.payload.decode pt).map DmPayload.body = some body ∧
      ∀ k, (deliver P client env drawn sender none).1.ratchetAt k =
        if sessionName client.sessions sender = k then some (owner, rat')
        else client.sessions.ratchetAt k := by
  have entry := ratchetAt_getD client (sessionName client.sessions sender)
  unfold deliver at surfaced ⊢
  dsimp only at surfaced ⊢
  generalize client.sessions[sessionName client.sessions sender]?.getD .blank = s at entry surfaced ⊢
  cases responded : respond P client env sender s with
  | error outcome =>
    rw [responded] at surfaced
    exact absurd surfaced (respond_error responded)
  | ok pair =>
  obtain ⟨s', rat⟩ := pair
  obtain ⟨has, origin⟩ := respond_ok entry responded
  rw [responded] at surfaced
  dsimp only at surfaced ⊢
  split at surfaced
  · cases surfaced
  next consistent =>
    rw [if_neg consistent]
    dsimp only at surfaced ⊢
    unfold receive at surfaced ⊢
    cases opened : rat.decrypt P.toRatchetCrypto (drawn (sessionName client.sessions sender))
        env.ciphertext env.aad with
    | mk rat' result =>
      rw [opened] at surfaced
      obtain e | none | pt := result
      · cases surfaced
      · cases surfaced
      · obtain ⟨rfl, read⟩ := readPayload_surfaced surfaced
        refine ⟨rfl, s'.peerPub, rat, rat', pt, origin, opened, read, fun k => ?_⟩
        rw [Sessions.ratchetAt_insert]
        rfl

/-- What is under the name of the sender decides whether a message is surfaced, whoever it is of. -/
theorem surfaces_of_entry (P : DmCrypto K) (client : DmClient K) (env : Envelope)
    (drawn : Bytes → KeyPair K) (sized : env.senderPubkey.length = 32) (consistent : env.aadConsistent = true)
    {owner pt : Bytes} {rat rat' : Ratchet K} {payload : DmPayload}
    (entry : client.sessions.ratchetAt (sessionName client.sessions env.senderPubkey) =
      some (owner, rat))
    (opened : rat.decrypt P.toRatchetCrypto (drawn (sessionName client.sessions env.senderPubkey))
      env.ciphertext env.aad = (rat', .ok (some pt)))
    (read : P.payload.decode pt = some payload) (accepted : payload.body.accepted = true) :
    (dispatchDm P client env drawn).2 = .surfaced env.senderPubkey payload.body := by
  have present : env.senderPubkey ≠ [] := by
    intro nothing
    simp [nothing] at sized
  have known := entry
  rw [← ratchetAt_getD] at known
  obtain ⟨r, has, pair⟩ := Option.map_eq_some_iff.mp known
  obtain ⟨-, rfl⟩ := Prod.mk.inj pair
  simp only [dispatchDm, present, sized, if_false, ne_eq, not_true_eq_false, deliver, respond, has,
    consistent, Bool.true_eq_false, receive, opened, readPayload, read, accepted, if_true]

/-- Of the envelopes that name their sender. -/
theorem dispatchDm_plain_eq (plain : env.senderPubkey ≠ [])
    (surfaced : (dispatchDm P client env drawn).2 = .surfaced sender body) :
    dispatchDm P client env drawn = deliver P client env drawn env.senderPubkey none := by
  unfold dispatchDm at surfaced ⊢
  rw [if_neg plain] at surfaced ⊢
  split at surfaced
  · cases surfaced
  next sized => rw [if_neg sized]

/-- A surfaced message is attributed to the owner of its ratchet exactly if the name under which the
sender was looked up is not another key's. -/
theorem attributed_iff (plain : env.senderPubkey ≠ [])
    (surfaced : (dispatchDm P client env drawn).2 = .surfaced sender body) :
    Attributed P client env drawn sender body ↔ Unclaimed client.sessions env.senderPubkey := by
  have delivered := dispatchDm_plain_eq plain surfaced
  rw [Attributed, delivered]
  rw [delivered] at surfaced
  obtain ⟨rfl, owner, rat, rat', pt, origin, opened, read, after⟩ := deliver_surfaced surfaced
  constructor
  · rintro ⟨name, rat₁, rat₁', pt₁, -, -, -, after₁⟩ provisional other r entry
    rw [provisional] at origin after opened
    rcases origin with there | ⟨free, -⟩
    · obtain ⟨rfl, rfl⟩ := Prod.mk.inj (Option.some.inj (there.symm.trans entry))
      by_contra stranger
      have here := (after (peerName env.senderPubkey)).symm.trans (after₁ (peerName env.senderPubkey))
      rw [if_pos rfl] at here
      split at here
      · exact stranger (Prod.mk.inj (Option.some.inj here)).1
      · -- the ratchet of the other key would not have moved
        rw [entry] at here
        obtain rfl := (Prod.mk.inj (Option.some.inj here)).2
        have nothing := Ratchet.decrypt_snd_of_unmoved P.toRatchetCrypto rat'
          (drawn (peerName env.senderPubkey)) env.ciphertext env.aad (by rw [opened])
        rw [opened] at nothing
        cases nothing
    · cases free.symm.trans entry
  · intro unclaimed
    have own : owner = env.senderPubkey := by
      rcases origin with there | ⟨-, own, -⟩
      · by_cases provisional : sessionName client.sessions env.senderPubkey =
            peerName env.senderPubkey
        · exact unclaimed provisional owner rat (provisional ▸ there)
        · obtain ⟨r, own⟩ := sessionName_found provisional
          exact (Prod.mk.inj (Option.some.inj (there.symm.trans own))).1
      · exact own
    subst own
    refine ⟨sessionName client.sessions env.senderPubkey, rat, rat', pt, ?_, opened, read, after⟩
    rcases origin with there | ⟨free, -, responds⟩
    · exact .inl there
    · exact .inr ⟨free, responds⟩

end

/-! ### Runs -/

inductive ClientEvent (K : Type) where
  | fetched (fetchedFor : Bytes) (r : KeyFetchResp)
  | contacted (name peerPub : Bytes)
  | sent (name : Bytes)
  | looked (name : Bytes)
  | envelope (env : Envelope) (drawn : Bytes → KeyPair K)

/-- All that makes or changes a session. -/
inductive ClientStep (P : DmCrypto K) (me : Account K) : Sessions K → ClientEvent K → Sessions K → Prop
  | fetched (sessions : Sessions K) (fetchedFor : Bytes) (r : KeyFetchResp) (admitted : Bool)
      (drawn : KeyPair K) (draw : Nat) :
      ClientStep P me sessions (.fetched fetchedFor r)
        (keyFetchResp P (me.client sessions) fetchedFor r admitted drawn draw).1
  | contacted (sessions : Sessions K) (name peerPub : Bytes) (record : P2P.PrekeyRecord)
      (admitted : Bool) (drawn : KeyPair K) (draw : Nat) :
      ClientStep P me sessions (.contacted name peerPub)
        (firstContactDirect P (me.client sessions) name peerPub record admitted drawn draw).1
  | sent {sessions : Sessions K} {name envelopeId pt : Bytes} {timestampMs : UInt64} {s s' : Session K}
      {rat : Ratchet K} {env : Envelope} (known : sessions[name]? = some s) (has : s.rat = some rat)
      (built : sendDm P me.publicKey me.sign s rat envelopeId timestampMs pt = .ok (s', env)) :
      ClientStep P me sessions (.sent name) (sessions.insert name s')
  /-- `operator[]` on a name that is not there. -/
  | looked {sessions : Sessions K} {name : Bytes} (absent : sessions[name]? = none) :
      ClientStep P me sessions (.looked name) (sessions.insert name .blank)
  | envelope (sessions : Sessions K) (env : Envelope) (drawn : Bytes → KeyPair K) :
      ClientStep P me sessions (.envelope env drawn) (dispatchDm P (me.client sessions) env drawn).1

/-- Of an envelope that names its sender. -/
def Unclaims (sessions : Sessions K) : ClientEvent K → Prop
  | .envelope env _ => env.senderPubkey ≠ [] → Unclaimed sessions env.senderPubkey
  | _ => True

/-- A surfaced message of a named sender is attributed to the owner of the ratchet that has
decrypted it, exactly if the provisional name of the sender is not another key's; and in a run in
which it never is, this holds of every message. -/
theorem surfaced_dm_attributed (P : DmCrypto K) (me : Account K) :
    (∀ (sessions : Sessions K) (env : Envelope) (drawn : Bytes → KeyPair K) (sender : Bytes)
      (body : DmBody), env.senderPubkey ≠ [] →
      (dispatchDm P (me.client sessions) env drawn).2 = .surfaced sender body →
      (Attributed P (me.client sessions) env drawn sender body ↔
        Unclaimed sessions env.senderPubkey)) ∧
    ∀ (start sessions : Sessions K) (before after : List (ClientEvent K)) (env : Envelope)
      (drawn : Bytes → KeyPair K),
      Run (Guarded (ClientStep P me) Unclaims) start (before ++ .envelope env drawn :: after)
        sessions →
      env.senderPubkey ≠ [] → ∃ reached, Run (Guarded (ClientStep P me) Unclaims) start before reached ∧
        ∀ sender body, (dispatchDm P (me.client reached) env drawn).2 = .surfaced sender body →
          sender = env.senderPubkey ∧ Attributed P (me.client reached) env drawn sender body := by
  constructor
  · intro sessions env drawn sender body plain surfaced
    exact attributed_iff plain surfaced
  · intro start sessions before after env drawn run plain
    obtain ⟨reached, next, first, ⟨unclaimed, -⟩, -⟩ := run.split
    refine ⟨reached, first, fun sender body surfaced => ⟨?_, ?_⟩⟩
    · have delivered := dispatchDm_plain_eq plain surfaced
      rw [delivered] at surfaced
      exact (deliver_surfaced surfaced).1
    · exact (attributed_iff plain surfaced).mpr (unclaimed plain)

/-! ### Keys with different prefixes -/

/-- A name that an envelope may file a session under. -/
def Provisional (name : Bytes) : Prop := ascii "peer:" <+: name

/-- The sessions are those of some keys, and a provisional name is one of its key. -/
def Filed (keys : Set Bytes) (sessions : Sessions K) : Prop :=
  ∀ name owner rat, sessions.ratchetAt name = some (owner, rat) →
    owner ∈ keys ∧ (Provisional name → name = peerName owner)

/-- What is written and fetched is of these keys, and no user has a provisional name. -/
def Among (keys : Set Bytes) : ClientEvent K → Prop
  | .fetched fetchedFor r => r.bundle.identityPubkey ∈ keys ∧ ¬Provisional fetchedFor
  | .contacted name peerPub => peerPub ∈ keys ∧ ¬Provisional name
  | .envelope env _ => env.senderPubkey ≠ [] → env.senderPubkey ∈ keys
  | _ => True

section

variable {P : DmCrypto K} {me : Account K} {keys : Set Bytes} {sessions : Sessions K}

theorem Filed.insert (filed : Filed keys sessions) {name : Bytes} {s : Session K}
    (new : ∀ rat, s.rat = some rat → s.peerPub ∈ keys ∧ (Provisional name → name = peerName s.peerPub)) :
    Filed keys (sessions.insert name s) := by
  intro k owner rat entry
  rw [Sessions.ratchetAt_insert] at entry
  split at entry
  next same =>
    subst same
    obtain ⟨rat', has, pair⟩ := Option.map_eq_some_iff.mp entry
    obtain ⟨rfl, rfl⟩ := Prod.mk.inj pair
    exact new rat' has
  · exact filed k owner rat entry

/-- The owners of the ratchets are what counts. -/
theorem Filed.congr (filed : Filed keys sessions) {after : Sessions K}
    (owners : ∀ k, (after.ratchetAt k).map Prod.fst = (sessions.ratchetAt k).map Prod.fst) :
    Filed keys after := by
  intro k owner rat entry
  have same := owners k
  rw [entry, Option.map_some, eq_comm, Option.map_eq_some_iff] at same
  obtain ⟨⟨owner', rat'⟩, entry', rfl⟩ := same
  exact filed k owner' rat' entry'

/-- With different prefixes no name is another key's. -/
theorem Filed.unclaimed (filed : Filed keys sessions) (apart : keys.InjOn (List.take 8)) {sender : Bytes}
    (known : sender ∈ keys) : Unclaimed sessions sender := by
  intro _ owner rat entry
  obtain ⟨owned, named⟩ := filed _ owner rat entry
  have same : peerName sender = peerName owner := named (List.prefix_append _ _)
  exact (apart known owned (List.append_cancel_left same)).symm

theorem keyFetchResp_inserts (P : DmCrypto K) (client : DmClient K) (fetchedFor : Bytes) (r : KeyFetchResp)
    (admitted : Bool) (drawn : KeyPair K) (draw : Nat) :
    (keyFetchResp P client fetchedFor r admitted drawn draw).1 = client.sessions ∨
      ∃ s, s.peerPub = r.bundle.identityPubkey ∧
        (keyFetchResp P client fetchedFor r admitted drawn draw).1 =
          client.sessions.insert fetchedFor s := by
  unfold keyFetchResp
  repeat' split
  all_goals first
    | exact .inl rfl
    | exact .inr ⟨_, rfl, rfl⟩

theorem firstContactDirect_inserts (P : DmCrypto K) (client : DmClient K) (name peerPub : Bytes)
    (record : P2P.PrekeyRecord) (admitted : Bool) (drawn : KeyPair K) (draw : Nat) :
    (firstContactDirect P client name peerPub record admitted drawn draw).1 = client.sessions ∨
      ∃ s, s.peerPub = peerPub ∧
        (firstContactDirect P client name peerPub record admitted drawn draw).1 =
          client.sessions.insert name s := by
  unfold firstContactDirect
  repeat' split
  all_goals first
    | exact .inl rfl
    | exact .inr ⟨_, rfl, rfl⟩

/-- A delivery keeps the owner of the session it finds, or makes one of the sender's. -/
theorem deliver_inserts (P : DmCrypto K) (client : DmClient K) (env : Envelope) (drawn : Bytes → KeyPair K)
    (sender : Bytes) (sealedPt : Option Bytes) :
    ∃ s, (deliver P client env drawn sender sealedPt).1 =
        client.sessions.insert (sessionName client.sessions sender) s ∧
      ∀ rat, s.rat = some rat →
        (∃ r, client.sessions.ratchetAt (sessionName client.sessions sender) = some (s.peerPub, r)) ∨
        (client.sessions.ratchetAt (sessionName client.sessions sender) = none ∧ s.peerPub = sender) := by
  have entry := ratchetAt_getD client (sessionName client.sessions sender)
  unfold deliver
  dsimp only
  generalize client.sessions[sessionName client.sessions sender]?.getD .blank = s at entry ⊢
  cases responded : respond P client env sender s with
  | error outcome =>
    refine ⟨s, rfl, fun rat has => .inl ⟨rat, ?_⟩⟩
    rw [← entry, has, Option.map_some]
  | ok pair =>
    obtain ⟨s', rat⟩ := pair
    obtain ⟨has, origin⟩ := respond_ok entry responded
    have whose : (∃ r, client.sessions.ratchetAt (sessionName client.sessions sender) =
        some (s'.peerPub, r)) ∨
        (client.sessions.ratchetAt (sessionName client.sessions sender) = none ∧
          s'.peerPub = sender) := by
      rcases origin with there | ⟨free, own, -⟩
      · exact .inl ⟨rat, there⟩
      · exact .inr ⟨free, own⟩
    dsimp only
    split
    · exact ⟨s', rfl, fun _ _ => whose⟩
    · cases sealedPt with
      | some pt => exact ⟨s'.acknowledge, rfl, fun _ _ => whose⟩
      | none =>
        have same : (receive P env (drawn (sessionName client.sessions sender)) sender s' rat).1.peerPub =
            s'.peerPub := by
          unfold receive
          split <;> rfl
        exact ⟨_, rfl, fun _ _ => same.symm ▸ whose⟩

theorem Filed.deliver (filed : Filed keys sessions) {env : Envelope} {drawn : Bytes → KeyPair K}
    {sender : Bytes} {sealedPt : Option Bytes} (known : sender ∈ keys) :
    Filed keys (deliver P (me.client sessions) env drawn sender sealedPt).1 := by
  obtain ⟨s, inserted, whose⟩ := deliver_inserts P (me.client sessions) env drawn sender sealedPt
  rw [inserted]
  apply filed.insert
  intro rat has
  rcases whose rat has with ⟨r, there⟩ | ⟨free, own⟩
  · exact filed _ _ r there
  · refine ⟨own ▸ known, fun _ => ?_⟩
    -- a name without a ratchet is the provisional one
    by_contra other
    obtain ⟨r, there⟩ := sessionName_found (own ▸ other)
    cases free.symm.trans there

theorem Filed.dispatchDm (filed : Filed keys sessions) {env : Envelope} {drawn : Bytes → KeyPair K}
    (known : env.senderPubkey ≠ [] → env.senderPubkey ∈ keys) :
    Filed keys (dispatchDm P (me.client sessions) env drawn).1 := by
  unfold Desktop.dispatchDm
  split
  · split
    · obtain ⟨outcome, -, -, peers, -⟩ := sealedPrePass_spec P (me.client sessions) env drawn
      have moved := filed.congr peers
      split
      next same => exact (congrArg Prod.fst same ▸ moved :)
      next same => exact (congrArg Prod.fst same ▸ moved :)
      next sender pt same =>
        rw [same] at outcome moved
        have sealed_of : sender ∈ keys := by
          split at outcome
          · cases outcome
          next name _ =>
            obtain ⟨rat, entry, -⟩ := (verdict_eq_found_iff P (me.client sessions) env drawn).mp
              outcome.symm
            exact (filed name sender rat entry).1
        exact moved.deliver sealed_of
    · exact filed
  next plain =>
    split
    · exact filed
    · exact filed.deliver (known plain)

theorem Filed.step (filed : Filed keys sessions) {e : ClientEvent K} {after : Sessions K}
    (step : ClientStep P me sessions e after) (among : Among keys e) : Filed keys after := by
  cases step with
  | fetched fetchedFor r admitted drawn draw =>
    obtain ⟨known, typed⟩ := among
    rcases keyFetchResp_inserts P (me.client sessions) fetchedFor r admitted drawn draw with
      same | ⟨s, owner, inserted⟩
    · rw [same]
      exact filed
    · rw [inserted]
      exact filed.insert fun _ _ => ⟨owner ▸ known, fun looks => absurd looks typed⟩
  | contacted name peerPub record admitted drawn draw =>
    obtain ⟨known, typed⟩ := among
    rcases firstContactDirect_inserts P (me.client sessions) name peerPub record admitted drawn
      draw with same | ⟨s, owner, inserted⟩
    · rw [same]
      exact filed
    · rw [inserted]
      exact filed.insert fun _ _ => ⟨owner ▸ known, fun looks => absurd looks typed⟩
  | @sent name envelopeId pt timestampMs s s' rat env there has built =>
    apply filed.insert
    intro _ _
    have entry : sessions.ratchetAt name = some (s.peerPub, rat) := by
      rw [Sessions.ratchetAt, there, Option.bind_some, has]
      rfl
    have same : s'.peerPub = s.peerPub := by
      unfold sendDm at built
      dsimp only at built
      split at built
      · cases built
      · cases built
        rfl
    rw [same]
    exact filed name s.peerPub rat entry
  | looked absent =>
    apply filed.insert
    intro _ has
    cases has
  | envelope env drawn => exact filed.dispatchDm among

/-- In a run in which no two keys share their first eight octets, every message is attributed to the
key that has encrypted it. -/
theorem attributed_of_prefixes (apart : keys.InjOn (List.take 8)) {events : List (ClientEvent K)}
    (run : Run (Guarded (ClientStep P me) fun _ => Among keys) (∅ : Sessions K) events sessions)
    {env : Envelope} {drawn : Bytes → KeyPair K} (plain : env.senderPubkey ≠ [])
    (known : env.senderPubkey ∈ keys) {sender : Bytes} {body : DmBody}
    (surfaced : (dispatchDm P (me.client sessions) env drawn).2 = .surfaced sender body) :
    Attributed P (me.client sessions) env drawn sender body := by
  have filed : Filed keys sessions := by
    refine run.invariant (Filed keys) (fun _ _ _ filed step => filed.step step.2 step.1) ?_
    intro name owner rat entry
    simp [Sessions.ratchetAt] at entry
  exact (attributed_iff plain surfaced).mpr (filed.unclaimed apart known)

end

/-! ### Two keys with one prefix -/

section

open SendQueue

/-- After her greeting Alice writes again, in any name. -/
private noncomputable def second (sender : Bytes) : Envelope where
  envelopeId := []
  timestampMs := 0
  aad := envelopeAadBytes [] 0
  recipient := .userPubkey bob.publicKey
  senderPubkey := sender
  ciphertext := DmCrypto.nat.message.encode ⟨natPoint 3, 0, 1, DmCrypto.nat.aead.encrypt
    (DmCrypto.nat.kdfCk.messageKey greetedRatchet.ckr)
    (Ratchet.composeAad (natPoint 3) 0 1 (envelopeAadBytes [] 0))
    (packTextPayload DmCrypto.nat (ascii "hi"))⟩
  pqCt := []

private abbrev drawing : Bytes → KeyPair Nat := fun _ => ⟨natPoint 5, 5⟩

/-- Bob has one session after it. -/
private theorem greeted_entries : ∃ sessions : Sessions Nat,
    ClientStep DmCrypto.nat bob ∅ (.envelope greeting drawing) sessions ∧
    ∀ k, sessions.ratchetAt k =
      if peerName alicePub = k then some (alicePub, greetedRatchet) else none := by
  obtain ⟨s, filed, owner, has⟩ := greeted
  refine ⟨_, .envelope ∅ greeting drawing, fun k => ?_⟩
  have after := congrArg (fun sessions : Sessions Nat => sessions.ratchetAt k) filed
  refine after.trans ?_
  rw [Sessions.ratchetAt_insert, has, owner]
  simp [Sessions.ratchetAt]

/-- Where her session is found, the message is surfaced. -/
private theorem second_surfaced {sessions : Sessions Nat} {sender : Bytes}
    (entry : sessions.ratchetAt (sessionName sessions sender) = some (alicePub, greetedRatchet))
    (sized : sender.length = 32) : ∃ body,
      (dispatchDm DmCrypto.nat (bob.client sessions) (second sender) drawing).2 =
        .surfaced sender body := by
  have opened : greetedRatchet.decrypt DmCrypto.nat.toRatchetCrypto ⟨natPoint 5, 5⟩
      (second sender).ciphertext (second sender).aad =
        ({ greetedRatchet with
            ckr := DmCrypto.nat.kdfCk.nextKey greetedRatchet.ckr, nr := greetedRatchet.nr + 1 },
          .ok (some (packTextPayload DmCrypto.nat (ascii "hi")))) := by
    have length_header : (natPoint 3).length = 32 := by simp [natPoint]
    simp only [Ratchet.decrypt, Ratchet.parseMessage, second, Codec.decode_encode,
      Option.filter_some, length_header, decide_true, if_true]
    have known : greetedRatchet.isNewDh (natPoint 3) = false := by
      simp [Ratchet.isNewDh, greetedRatchet, Ratchet.turned]
    have next : (1 : UInt32) = greetedRatchet.nr := rfl
    rw [Ratchet.decryptMessage_next DmCrypto.nat.toRatchetCrypto rfl known next, Aead.decrypt_encrypt]
  have consistent : (second sender).aadConsistent = true := by simp [Envelope.aadConsistent, second]
  exact ⟨_, surfaces_of_entry DmCrypto.nat (bob.client sessions) (second sender) drawing sized
    consistent entry opened (by rw [packTextPayload, Codec.decode_encode]) rfl⟩

/-- Bob takes her session for that of another key, in whose name she writes. -/
theorem attributed_to_another_key :
    ∃ (sessions : Sessions Nat) (env : Envelope) (drawn : Bytes → KeyPair Nat) (body : DmBody)
      (name : Bytes) (rat : Ratchet Nat),
      Run (ClientStep DmCrypto.nat bob) ∅ [.envelope greeting drawn] sessions ∧
      sessions.ratchetAt name = some (alicePub, rat) ∧ natPoint 9 ≠ alicePub ∧
      env.senderPubkey = natPoint 9 ∧
      (dispatchDm DmCrypto.nat (bob.client sessions) env drawn).2 = .surfaced (natPoint 9) body ∧
      ¬Attributed DmCrypto.nat (bob.client sessions) env drawn (natPoint 9) body := by
  obtain ⟨sessions, step, entries⟩ := greeted_entries
  have other : natPoint 9 ≠ alicePub := by decide
  have prefixes : peerName (natPoint 9) = peerName alicePub := by decide
  have present : natPoint 9 ≠ [] := by decide
  have provisional : sessionName sessions (natPoint 9) = peerName (natPoint 9) := by
    by_contra found
    obtain ⟨rat, entry⟩ := sessionName_found found
    rw [entries] at entry
    split at entry
    · exact other (Prod.mk.inj (Option.some.inj entry)).1.symm
    · cases entry
  have here : sessions.ratchetAt (peerName (natPoint 9)) = some (alicePub, greetedRatchet) := by
    rw [prefixes, entries, if_pos rfl]
  obtain ⟨body, surfaced⟩ := second_surfaced (provisional.symm ▸ here) (by decide)
  refine ⟨sessions, second (natPoint 9), drawing, body, _, _, .cons step (.nil _), here, other, rfl,
    surfaced, fun attributed => ?_⟩
  have unclaimed := (attributed_iff present surfaced).mp attributed
  exact other (unclaimed provisional alicePub greetedRatchet here).symm

/-- In her own name the message is attributed to her. -/
theorem surfaced_dm_attributed_alice :
    ∃ (sessions : Sessions Nat) (env : Envelope) (drawn : Bytes → KeyPair Nat) (body : DmBody),
      Run (ClientStep DmCrypto.nat bob) ∅ [.envelope greeting drawn] sessions ∧
      (dispatchDm DmCrypto.nat (bob.client sessions) env drawn).2 = .surfaced alicePub body ∧
      Attributed DmCrypto.nat (bob.client sessions) env drawn alicePub body ∧
      ∃ reached, Run (Guarded (ClientStep DmCrypto.nat bob) Unclaims) ∅ [.envelope greeting drawn]
        reached ∧ ∀ sender body,
          (dispatchDm DmCrypto.nat (bob.client reached) env drawn).2 = .surfaced sender body →
            sender = env.senderPubkey ∧
              Attributed DmCrypto.nat (bob.client reached) env drawn sender body := by
  obtain ⟨sessions, step, entries⟩ := greeted_entries
  have present : alicePub ≠ [] := by decide
  have own {sessions : Sessions Nat} (only : ∀ k owner rat, sessions.ratchetAt k = some (owner, rat) →
      owner = alicePub) : Unclaimed sessions alicePub :=
    fun _ owner rat entry => only (peerName alicePub) owner rat entry
  have unclaimed : Unclaimed sessions alicePub := by
    refine own fun k owner rat entry => ?_
    rw [entries] at entry
    split at entry
    · exact (Prod.mk.inj (Option.some.inj entry)).1.symm
    · cases entry
  have named : sessionName sessions alicePub = peerName alicePub := by
    by_contra found
    obtain ⟨rat, entry⟩ := sessionName_found found
    rw [entries, if_neg (Ne.symm found)] at entry
    cases entry
  have here : sessions.ratchetAt (peerName alicePub) = some (alicePub, greetedRatchet) := by
    rw [entries, if_pos rfl]
  obtain ⟨body, surfaced⟩ := second_surfaced (named.symm ▸ here) (by decide)
  obtain ⟨each, runs⟩ := surfaced_dm_attributed DmCrypto.nat bob
  have first : Unclaims (∅ : Sessions Nat) (.envelope greeting drawing) := by
    intro _
    refine own fun k owner rat entry => ?_
    simp [Sessions.ratchetAt] at entry
  have run : Run (Guarded (ClientStep DmCrypto.nat bob) Unclaims) (∅ : Sessions Nat)
      ([.envelope greeting drawing] ++ [.envelope (second alicePub) drawing])
      (dispatchDm DmCrypto.nat (bob.client sessions) (second alicePub) drawing).1 :=
    .cons ⟨first, step⟩ (.cons ⟨fun _ => unclaimed, .envelope sessions (second alicePub) drawing⟩
      (.nil _))
  exact ⟨sessions, second alicePub, drawing, body, .cons step (.nil _), surfaced,
    (each sessions (second alicePub) drawing alicePub body present surfaced).mpr unclaimed,
    runs ∅ _ _ [] _ _ run present⟩

end

end FinBit.Desktop
