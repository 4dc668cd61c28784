import FinBit.Server.Routing
import FinBit.Server.TokenBucket

/-! # How much a key can send

The relay charges an envelope to the key its connection has signed in with, by the size of
the ciphertext, before it looks for a recipient. The buckets belong to keys and not to
connections, so signing in again does not fill them.

A run is watched together with a ledger of what was passed on for one key.
-/

namespace FinBit.Server

open FinBit.Lib

variable {B L : Type} (O : RelayOutside B L)

/-- What an envelope is charged for. -/
def Frame.ciphertextBytes : Frame B → Nat
  | .envelope env => env.ciphertext.length
  | _ => 0

/-- The bytes in the fields of a frame that is passed on; on the wire it is larger. -/
def Frame.carriedBytes : Frame B → Nat
  | .envelope env => env.envelopeId.length + env.ciphertext.length + env.aad.length +
      env.signature.length + env.pqCt.length
  | .peer pe => pe.payload.length
  | _ => 0

/-- Something was relayed to a connection, or the offline queue has changed. -/
def Forwards (s s' : RelayServer L) (writes : List (Write B)) : Prop :=
  (∃ x ∈ writes, x.cause = .channel ∨ x.cause = .peer ∨ ∃ user, x.cause = .direct user) ∨
    s'.relay.offline ≠ s.relay.offline ∨ s'.relay.persistent ≠ s.relay.persistent

open Classical in
/-- What a step passes on of a frame of the key, and when. -/
noncomputable def passedOn (size : Frame B → Nat) (key : Bytes) (s : RelayServer L)
    (event : RelayEvent) (s' : RelayServer L) (writes : List (Write B)) : Ledger :=
  match event with
  | .frame fd bytes draws =>
    match s.conns.lookup fd, O.frame.decode bytes with
    | some c, some f =>
      if c.authenticated = true ∧ c.boundUserPub = key ∧ Forwards s s' writes then
        [(draws.clock.toNat, size f)]
      else []
    | _, _ => []
  | _ => []

/-- A server, the last reading of its clock, and what it has passed on for one key. -/
structure MeteredRelay (L : Type) where
  server : RelayServer L
  now : Nat
  sent : Ledger

def RelayEvent.clockAfter (event : RelayEvent) (now : Nat) : Nat :=
  match event with
  | .frame _ _ draws => draws.clock.toNat
  | _ => now

def MeteredRelay.Step (size : Frame B → Nat) (key : Bytes) (m : MeteredRelay L)
    (label : RelayEvent × List (Write B)) (m' : MeteredRelay L) : Prop :=
  m.server.step O label.1 = .ok (m'.server, label.2) ∧ m'.now = label.1.clockAfter m.now ∧
    m'.sent = m.sent ++ passedOn O size key m.server label.1 m'.server label.2

/-- `steady_clock` does not go back. -/
def MeteredRelay.Steady (m : MeteredRelay L) (label : RelayEvent × List (Write B)) : Prop :=
  m.now ≤ label.1.clockAfter m.now

/-- `run_relay` with the limiter it makes. -/
def MeteredRelay.boot (db : Option (SrvOffline × SrvDirectory × Map Bytes Bytes)) :
    MeteredRelay KeyedLimiter :=
  ⟨RelayServer.boot db (.new kDefaultSustainedBytesPerSec kDefaultBurstBytes), 0, []⟩

/-! ### Charges -/

/-- What a frame does to the limiter: nothing, and then no envelope of a key is passed on; or
it is charged, and passed on only if it is let through. -/
inductive Charge (s t : RelayServer L) (c : Conn) (clock : UInt64) (f : Option (Frame B))
    (writes : List (Write B)) : Prop
  | free (limiter : t.limiter = s.limiter)
      (quiet : ∀ env, f = some (.envelope env) → c.boundUserPub ≠ [] → ¬Forwards s t writes)
  | charged (env : Envelope) (envelope : f = some (.envelope env))
      (limiter : t.limiter =
        (O.tryConsume s.limiter clock c.boundUserPub env.ciphertext.length).1)
      (refused : (O.tryConsume s.limiter clock c.boundUserPub env.ciphertext.length).2 = false →
        ¬Forwards s t writes)

variable {O}

section Charges

variable {s s' : RelayServer L} {fd : Fd} {c : Conn} {draws : RelayDraws} {f : Frame B}
  {writes : List (Write B)}

theorem not_forwards_nil (relay : s'.relay = s.relay) :
    ¬Forwards s s' ([] : List (Write B)) := by
  simp [Forwards, relay]

theorem not_forwards_reply (relay : s'.relay = s.relay) (frame : Frame B) :
    ¬Forwards s s' [⟨fd, .reply, frame⟩] := by
  simp [Forwards, relay]

/-- A connection that stands for a key is charged for it. -/
theorem consume_of_bound (bound : c.boundUserPub ≠ []) (clock : UInt64) (env : Envelope) :
    s.consume O c clock env =
      ({ s with limiter := (O.tryConsume s.limiter clock c.boundUserPub env.ciphertext.length).1 },
        (O.tryConsume s.limiter clock c.boundUserPub env.ciphertext.length).2) := by
  simp only [RelayServer.consume, bound, ne_eq, not_false_eq_true, if_true]

theorem channelEnvelope_charge (clock : UInt64) (env : Envelope) (groupId : Bytes) :
    Charge O s (s.onChannelEnvelope O fd c clock env groupId).1 c clock (some (.envelope env))
      (s.onChannelEnvelope O fd c clock env groupId).2 := by
  by_cases bound : c.boundUserPub = []
  · -- nobody to charge, and nobody's envelope
    refine .free ?_ fun _ _ named => absurd bound named
    simp only [RelayServer.onChannelEnvelope, RelayServer.consume, bound, ne_eq, not_true,
      if_false, Bool.true_eq_false]
    split <;> rfl
  refine .charged env rfl ?_ fun short => ?_
  · simp only [RelayServer.onChannelEnvelope, consume_of_bound bound]
    split
    · rfl
    split <;> rfl
  · simp only [RelayServer.onChannelEnvelope, consume_of_bound bound, short, if_true]
    exact not_forwards_nil rfl

theorem directEnvelope_charge {env : Envelope} {recipient : Bytes}
    (done : s.onDirectEnvelope O fd c draws env recipient = .ok (s', writes)) :
    Charge O s s' c draws.clock (some (.envelope env)) writes := by
  -- whatever becomes of the envelope, the limiter is as `consume` leaves it
  have limiter : s'.limiter = (s.consume O c draws.clock env).1.limiter := by
    unfold RelayServer.onDirectEnvelope at done
    dsimp only at done
    split at done
    · cases done
      rfl
    split at done
    · split at done <;> cases done <;> rfl
    · split at done
      · cases done
      · cases done
        rfl
  by_cases bound : c.boundUserPub = []
  · refine .free ?_ fun _ _ named => absurd bound named
    rw [limiter]
    simp only [RelayServer.consume, bound, ne_eq, not_true, if_false]
  rw [consume_of_bound bound] at limiter
  refine .charged env rfl limiter fun short => ?_
  simp only [RelayServer.onDirectEnvelope, consume_of_bound bound, short, if_true] at done
  cases done
  exact not_forwards_reply rfl _

theorem hello_limiter (challenge pubkey username : Bytes) :
    (s.onHello (B := B) fd c challenge pubkey username).1.limiter = s.limiter := by
  unfold RelayServer.onHello
  split
  · rfl
  split
  · rfl
  · dsimp only
    split <;> rfl

theorem helloAck_limiter (signature : Bytes) :
    (s.onHelloAck O fd c signature).1.limiter = s.limiter := by
  unfold RelayServer.onHelloAck
  split
  · rfl
  split
  · rfl
  split
  · rfl
  split
  · dsimp only
    split <;> rfl
  · rfl

theorem dispatch_charge (done : s.dispatch O fd c draws f = .ok (s', writes)) :
    Charge O s s' c draws.clock (some f) writes := by
  have other (limiter : s'.limiter = s.limiter) (plain : ∀ env, f ≠ .envelope env) :
      Charge O s s' c draws.clock (some f) writes :=
    .free limiter fun env envelope _ => absurd (Option.some.inj envelope) (plain env)
  cases f with
  | envelope env =>
    simp only [RelayServer.dispatch] at done
    split at done
    next groupId _ =>
      obtain ⟨rfl, rfl⟩ := Prod.mk.inj (Except.ok.inj done)
      exact channelEnvelope_charge draws.clock env groupId
    · exact directEnvelope_charge done
    · cases done
      exact .free rfl fun _ _ _ => not_forwards_nil rfl
  | hello pubkey username =>
    obtain ⟨rfl, -⟩ := Prod.ext_iff.mp (Except.ok.inj done)
    exact other (hello_limiter _ _ _) (by simp)
  | helloAck signature =>
    obtain ⟨rfl, -⟩ := Prod.ext_iff.mp (Except.ok.inj done)
    exact other (helloAck_limiter signature) (by simp)
  | keyFetch username requestId =>
    obtain ⟨rfl, -⟩ := Prod.ext_iff.mp (Except.ok.inj done)
    refine other ?_ (by simp)
    dsimp only [RelayServer.onKeyFetch]
    split <;> rfl
  | usernameLookup pubkey =>
    obtain ⟨rfl, -⟩ := Prod.ext_iff.mp (Except.ok.inj done)
    refine other ?_ (by simp)
    dsimp only [RelayServer.onUsernameLookup]
    split <;> rfl
  | registerReq claimPubkey claimUsername =>
    obtain ⟨rfl, -⟩ := Prod.ext_iff.mp (Except.ok.inj done)
    refine other ?_ (by simp)
    dsimp only [RelayServer.onRegisterReq]
    split <;> rfl
  | chanSubscribe groupId | chanUnsubscribe groupId | roomJoin roomId uplink | roomLeave roomId =>
    simp only [RelayServer.dispatch] at done
    split at done <;> cases done <;> exact other rfl (by simp)
  | _ =>
    cases done
    exact other rfl (by simp)

theorem handleFrame_charge {bytes : Bytes}
    (done : s.handleFrame O fd c draws bytes = .ok (s', writes)) :
    Charge O s s' c draws.clock (O.frame.decode bytes) writes := by
  cases handledFrame done with
  | malformed undecoded => exact .free rfl fun _ _ _ => not_forwards_nil rfl
  | early => exact .free rfl fun _ _ _ => not_forwards_nil rfl
  | dispatched decoded _ dispatched =>
    rw [decoded]
    cases dispatch_charge dispatched with
    | free limiter quiet => exact .free limiter quiet
    | charged env envelope limiter refused => exact .charged env envelope limiter refused

/-- A connection that is closed after its frame passes nothing more on. -/
theorem Charge.close {t : RelayServer L} {clock : UInt64} {g : Option (Frame B)}
    {goodbyes : List (Write B)} (charge : Charge O s t c clock g writes)
    (done : t.closeConn O fd = .ok (s', goodbyes)) :
    Charge O s s' c clock g (writes ++ goodbyes) := by
  obtain ⟨⟨bufs, rfl⟩, rosters⟩ := closeConn_ok done
  have queues : (t.relay.unbind fd).offline = t.relay.offline ∧
      (t.relay.unbind fd).persistent = t.relay.persistent := by
    unfold Relay.unbind
    split <;> exact ⟨rfl, rfl⟩
  have before (forwards : Forwards s { t with
      relay := ((t.relay.unbind fd).unbindAllChannels fd).unbindAllRooms fd
      registered := t.registered.filter (· ≠ fd)
      conns := t.conns.erase fd
      writeBufs := bufs } (writes ++ goodbyes)) : Forwards s t writes := by
    rcases forwards with ⟨x, member, cause⟩ | changed | changed
    · rcases List.mem_append.mp member with early | late
      · exact .inl ⟨x, early, cause⟩
      · obtain ⟨u, roomId, roster⟩ := rosters x late
        obtain ⟨_, -, rfl⟩ := List.mem_map.mp roster
        simp at cause
    · exact .inr (.inl fun same => changed (queues.1.trans same))
    · exact .inr (.inr fun same => changed (queues.2.trans same))
  cases charge with
  | free limiter quiet =>
    exact .free limiter fun env envelope bound forwards =>
      quiet env envelope bound (before forwards)
  | charged env envelope limiter refused =>
    exact .charged env envelope limiter fun short forwards => refused short (before forwards)

/-- A step of a connection's frame is a charge; nothing else touches the limiter. -/
theorem step_charge {event : RelayEvent} (done : s.step O event = .ok (s', writes)) :
    (∃ fd bytes draws c, event = .frame fd bytes draws ∧ s.conns.lookup fd = some c ∧
      Charge O s s' c draws.clock (O.frame.decode bytes) writes) ∨
    s'.limiter = s.limiter ∧ ∀ fd bytes draws, event = .frame fd bytes draws →
      s.conns.lookup fd = none := by
  cases stepTaken done with
  | @frame fd bytes draws c _ _ at_fd handled =>
    exact .inl ⟨fd, bytes, draws, c, rfl, at_fd, handleFrame_charge handled⟩
  | @frameClosed fd bytes draws c _ _ _ _ at_fd handled closed =>
    exact .inl ⟨fd, bytes, draws, c, rfl, at_fd, (handleFrame_charge handled).close closed⟩
  | frameUnknown bytes draws absent =>
    refine .inr ⟨rfl, ?_⟩
    rintro _ _ _ same
    obtain ⟨rfl, -⟩ := RelayEvent.frame.inj same
    exact absent
  | closed closed =>
    obtain ⟨⟨bufs, rfl⟩, -⟩ := closeConn_ok closed
    exact .inr ⟨rfl, nofun⟩
  | accepted | closedUnknown | flushed => exact .inr ⟨rfl, nofun⟩

end Charges

/-! ### Runs -/

/-- All that was passed on for the key went through its bucket. -/
def MeteredRelay.Inv (key : Bytes) (m : MeteredRelay KeyedLimiter) : Prop :=
  ∃ ledger, m.server.limiter.Meters key ledger m.now ∧
    ∀ start stop, m.sent.within start stop ≤ ledger.within start stop

theorem MeteredRelay.boot_inv (db : Option (SrvOffline × SrvDirectory × Map Bytes Bytes))
    (key : Bytes) : (MeteredRelay.boot db).Inv key :=
  ⟨[], .new key, fun _ _ => Nat.le_refl _⟩

section Runs

variable {O : RelayOutside B KeyedLimiter} {key : Bytes} {m m' : MeteredRelay KeyedLimiter}
  {label : RelayEvent × List (Write B)}

theorem passedOn_cases {L : Type} {O : RelayOutside B L} (size : Frame B → Nat) (key : Bytes)
    (s : RelayServer L) {fd : Fd} {c : Conn} {bytes : Bytes} (at_fd : s.conns.lookup fd = some c)
    (draws : RelayDraws) (s' : RelayServer L) (writes : List (Write B)) :
    passedOn O size key s (.frame fd bytes draws) s' writes = [] ∨
      ∃ f, O.frame.decode bytes = some f ∧ c.boundUserPub = key ∧ Forwards s s' writes ∧
        passedOn O size key s (.frame fd bytes draws) s' writes =
          [(draws.clock.toNat, size f)] := by
  cases decoded : O.frame.decode bytes with
  | none => exact .inl (by simp [passedOn, at_fd, decoded])
  | some f =>
    by_cases counts : c.authenticated = true ∧ c.boundUserPub = key ∧ Forwards s s' writes
    · exact .inr ⟨f, rfl, counts.2.1, counts.2.2, by simp only [passedOn, at_fd, decoded, if_pos counts]⟩
    · exact .inl (by simp only [passedOn, at_fd, decoded, if_neg counts])

/-- A frame that is charged, to whomever, and passed on for nobody. -/
theorem charged_silent {s s' : RelayServer KeyedLimiter} {now : Nat} {ledger sent : Ledger}
    {c : Conn} {clock : UInt64} {f : Option (Frame B)} {writes : List (Write B)}
    (meters : s.limiter.Meters key ledger now)
    (covered : ∀ start stop, sent.within start stop ≤ ledger.within start stop)
    (limits : O.tryConsume = KeyedLimiter.tryConsume) (later : now ≤ clock.toNat)
    (charge : Charge O s s' c clock f writes) :
    ∃ ledger, s'.limiter.Meters key ledger clock.toNat ∧
      ∀ start stop, sent.within start stop ≤ ledger.within start stop := by
  cases charge with
  | free limiter => exact ⟨ledger, limiter ▸ meters.later later, covered⟩
  | charged env _ limiter =>
    rw [limits] at limiter
    by_cases own : key = c.boundUserPub
    · subst own
      refine ⟨_, limiter ▸ meters.tryConsume later env.ciphertext.length, fun start stop => ?_⟩
      split
      · rw [Ledger.within_append]
        exact (covered start stop).trans (Nat.le_add_right _ _)
      · exact covered start stop
    · exact ⟨ledger, limiter ▸ (meters.tryConsume_other own clock _).later later, covered⟩

theorem MeteredRelay.Inv.step (inv : m.Inv key) (limits : O.tryConsume = KeyedLimiter.tryConsume)
    (size : key.length = 32) (steady : m.Steady label)
    (step : m.Step O Frame.ciphertextBytes key label m') : m'.Inv key := by
  obtain ⟨ledger, meters, covered⟩ := inv
  obtain ⟨event, writes⟩ := label
  obtain ⟨taken, now, sent⟩ := step
  dsimp only at taken now sent
  have later : m.now ≤ m'.now := by rw [now]; exact steady
  have named : key ≠ [] := by
    rintro rfl
    cases size
  rcases step_charge taken with ⟨fd, bytes, draws, c, rfl, at_fd, charge⟩ | ⟨limiter, unknown⟩
  · change m'.now = draws.clock.toNat at now
    rw [Inv, sent, now]
    rcases passedOn_cases (O := O) Frame.ciphertextBytes key m.server at_fd draws m'.server writes
      with nothing | ⟨f, decoded, bound, forwards, entry⟩
    · rw [nothing, List.append_nil]
      exact charged_silent meters covered limits (now ▸ later) charge
    · subst bound
      rw [entry]
      cases charge with
      | free limiter quiet =>
        -- what is free is not an envelope, and counts nothing
        have empty : f.ciphertextBytes = 0 := by
          cases f with
          | envelope env => exact absurd forwards (quiet env decoded named)
          | _ => rfl
        refine ⟨ledger, limiter ▸ meters.later (now ▸ later), fun start stop => ?_⟩
        rw [Ledger.within_append, empty, ite_self, Nat.add_zero]
        exact covered start stop
      | charged env envelope limiter refused =>
        obtain rfl := Option.some.inj (decoded.symm.trans envelope)
        rw [limits] at limiter refused
        have spent := meters.tryConsume (now ▸ later) env.ciphertext.length
        have through : (m.server.limiter.tryConsume draws.clock c.boundUserPub
            env.ciphertext.length).2 = true := by
          rw [← Bool.not_eq_false]
          exact fun short => refused short forwards
        rw [through, if_pos rfl, ← limiter] at spent
        refine ⟨_, spent, fun start stop => ?_⟩
        rw [Ledger.within_append, Ledger.within_append]
        exact Nat.add_le_add_right (covered start stop) _
  · -- no frame of a connection
    have nothing : passedOn O Frame.ciphertextBytes key m.server event m'.server writes = [] := by
      cases event with
      | frame fd bytes draws => simp [passedOn, unknown fd bytes draws rfl]
      | accept | closed | flushed => rfl
    refine ⟨ledger, limiter ▸ meters.later later, fun start stop => ?_⟩
    rw [sent, nothing, List.append_nil]
    exact covered start stop

end Runs

/-- In every run of the relay, whatever it is sent and by whichever connections, the
ciphertext of the envelopes that are relayed or queued for a key in a window of `length`
nanoseconds is at most the burst and what comes in meanwhile. -/
theorem ciphertext_within_rate {O : RelayOutside B KeyedLimiter}
    (limits : O.tryConsume = KeyedLimiter.tryConsume)
    {db : Option (SrvOffline × SrvDirectory × Map Bytes Bytes)} {key : Bytes}
    (size : key.length = 32) {labels : List (RelayEvent × List (Write B))}
    {m : MeteredRelay KeyedLimiter}
    (run : Run (Guarded (MeteredRelay.Step O Frame.ciphertextBytes key) MeteredRelay.Steady)
      (MeteredRelay.boot db) labels m) (start length : Nat) :
    (m.sent.within start (start + length) : ℚ) ≤
      kDefaultBurstBytes + kDefaultSustainedBytesPerSec * length / 10 ^ 9 := by
  obtain ⟨ledger, meters, covered⟩ : m.Inv key := by
    apply run.invariant (MeteredRelay.Inv key) _ (MeteredRelay.boot_inv db key)
    rintro m label m' inv ⟨steady, step⟩
    exact inv.step limits size steady step
  have bounded := meters.within_le start length
  have fewer : (m.sent.within start (start + length) : ℚ) ≤ ledger.within start (start + length) := by
    exact_mod_cast covered start (start + length)
  exact fewer.trans bounded

/-! ### Bytes that are not charged -/

/-- The relay of the examples, with its limiter. -/
noncomputable def limitedRelay : RelayOutside Unit KeyedLimiter where
  frame := .ofCountable _
  envelope := .ofCountable _
  bundle := .ofCountable _
  verify pubkey message signature := signature = pubkey ++ message
  tryConsume := KeyedLimiter.tryConsume
  names := .entries
  walk := AList.entries
  walk_perm := plainRelay.walk_perm

abbrev LimitedSteps (size : Frame Unit → Nat) :
    MeteredRelay KeyedLimiter → RelayEvent × List (Write Unit) → MeteredRelay KeyedLimiter → Prop :=
  Guarded (MeteredRelay.Step limitedRelay size owner) MeteredRelay.Steady

/-- A connection that has signed in as a user. -/
def Conn.of (user : Bytes) : Conn :=
  { Conn.accepted .tcp with
    claimedUserPub := user
    boundUserPub := user
    challenge := nonce
    challengeIssued := true
    authenticated := true }

section Login

variable (size : Frame Unit → Nat) {m : MeteredRelay KeyedLimiter} {fd : Fd} {user : Bytes}

/-- A frame at the time 0 that stays in its connection. -/
theorem exists_limitedStep {c : Conn} {f : Frame Unit} {s' : RelayServer KeyedLimiter}
    {writes : List (Write Unit)} (now : m.now = 0) (at_fd : m.server.conns.lookup fd = some c)
    (allowed : c.authenticated = true ∨ f.beforeAuth = true)
    (dispatched : m.server.dispatch limitedRelay fd c ⟨nonce, 0, 0⟩ f = .ok (s', writes))
    (watched : ∀ x ∈ writes, x.fd ∈ s'.registered)
    (stays : (s'.conns.lookup fd).map (·.wantsClose) = some false) :
    ∃ bufs, LimitedSteps size m (.frame fd (limitedRelay.frame.encode f) ⟨nonce, 0, 0⟩, writes)
      ⟨{ s' with writeBufs := bufs }, 0, m.sent ++ passedOn limitedRelay size owner m.server
        (.frame fd (limitedRelay.frame.encode f) ⟨nonce, 0, 0⟩) { s' with writeBufs := bufs }
        writes⟩ := by
  obtain ⟨bufs, taken⟩ := step_frame_bufs at_fd allowed dispatched watched stays
  refine ⟨bufs, ?_, taken, rfl, rfl⟩
  rw [MeteredRelay.Steady, now]
  exact Nat.zero_le _

/-- At the time 0, all connections are watched and nothing waits in memory. -/
structure MeteredRelay.Ready (m : MeteredRelay KeyedLimiter) : Prop where
  now : m.now = 0
  watched : ∀ fd, (m.server.conns.lookup fd).isSome = true → fd ∈ m.server.registered
  memory : m.server.relay.persistent = none
  empty : m.server.relay.offline = ∅

theorem MeteredRelay.boot_ready : (MeteredRelay.boot none).Ready where
  now := rfl
  watched fd present := by
    change (AList.lookup fd (∅ : Map Fd Conn)).isSome = true at present
    rw [AList.lookup_empty] at present
    cases present
  memory := rfl
  empty := rfl

/-- Nothing is passed on before the signature. -/
theorem passedOn_unauthenticated {s s' : RelayServer KeyedLimiter} {c : Conn}
    (at_fd : s.conns.lookup fd = some c) (unknown : c.authenticated = false) (bytes : Bytes)
    (draws : RelayDraws) (writes : List (Write Unit)) :
    passedOn limitedRelay size owner s (.frame fd bytes draws) s' writes = [] := by
  cases decoded : limitedRelay.frame.decode bytes with
  | none => simp [passedOn, at_fd, decoded]
  | some f => simp [passedOn, at_fd, decoded, unknown]

theorem MeteredRelay.Ready.accept (ready : m.Ready) (free : m.server.conns.lookup fd = none) :
    ∃ m', LimitedSteps size m (.accept fd .tcp, []) m' ∧ m'.Ready ∧
      m'.server.conns.lookup = Function.update m.server.conns.lookup fd (Conn.accepted .tcp) ∧
      m'.server.relay = m.server.relay ∧ m'.server.limiter = m.server.limiter ∧
      m'.sent = m.sent := by
  let conns := m.server.conns.insert fd (Conn.accepted .tcp)
  let s' : RelayServer KeyedLimiter :=
    { m.server with conns := conns, registered := Membership.note fd m.server.registered }
  have lookup : conns.lookup =
      Function.update m.server.conns.lookup fd (some (Conn.accepted .tcp)) :=
    m.server.lookup_setConn fd _
  refine ⟨⟨s', m.now, m.sent⟩, ⟨Nat.le_refl _, ?_, rfl, ?_⟩, ⟨ready.now, ?_, ready.memory,
    ready.empty⟩, lookup, rfl, rfl, rfl⟩
  · simp only [RelayServer.step, free, Option.isSome_none, Bool.false_eq_true, if_false]
    rfl
  · exact (List.append_nil _).symm
  · intro fd' present
    rw [Membership.mem_note]
    by_cases here : fd' = fd
    · exact .inr here
    · have same := congrFun lookup fd'
      rw [Function.update_of_ne here] at same
      exact .inl (ready.watched fd' (same ▸ present))

/-- A frame of one connection that leaves the queues alone. -/
theorem MeteredRelay.Ready.frame {c c' : Conn} {f : Frame Unit}
    {s' : RelayServer KeyedLimiter} {writes : List (Write Unit)} (ready : m.Ready)
    (at_fd : m.server.conns.lookup fd = some c)
    (allowed : c.authenticated = true ∨ f.beforeAuth = true)
    (dispatched : m.server.dispatch limitedRelay fd c ⟨nonce, 0, 0⟩ f = .ok (s', writes))
    (conns : s'.conns.lookup = Function.update m.server.conns.lookup fd (some c'))
    (stays : c'.wantsClose = false) (registered : s'.registered = m.server.registered)
    (persistent : s'.relay.persistent = m.server.relay.persistent)
    (offline : s'.relay.offline = m.server.relay.offline)
    (known : ∀ x ∈ writes, (m.server.conns.lookup x.fd).isSome = true) :
    ∃ bufs, LimitedSteps size m (.frame fd (limitedRelay.frame.encode f) ⟨nonce, 0, 0⟩, writes)
      ⟨{ s' with writeBufs := bufs }, 0, m.sent ++ passedOn limitedRelay size owner m.server
        (.frame fd (limitedRelay.frame.encode f) ⟨nonce, 0, 0⟩) { s' with writeBufs := bufs }
        writes⟩ ∧
      ∀ sent, MeteredRelay.Ready ⟨{ s' with writeBufs := bufs }, 0, sent⟩ := by
  obtain ⟨bufs, step⟩ := exists_limitedStep size ready.now at_fd allowed dispatched
    (fun x member => registered ▸ ready.watched x.fd (known x member))
    (by rw [Outcome.lookup_self conns]; exact congrArg some stays)
  refine ⟨bufs, step, fun sent => ⟨rfl, fun fd' present => ?_, persistent.trans ready.memory,
    offline.trans ready.empty⟩⟩
  change fd' ∈ s'.registered
  rw [registered]
  by_cases here : fd' = fd
  · subst here
    exact ready.watched fd' (by rw [at_fd]; rfl)
  · have same := congrFun conns fd'
    rw [Function.update_of_ne here] at same
    exact ready.watched fd' (same ▸ present)

/-- A user signs in at a descriptor that is not in use. -/
theorem MeteredRelay.Ready.login (ready : m.Ready) (fd : Fd)
    (free : m.server.conns.lookup fd = none) (user : Bytes) (length : user.length = 32) :
    ∃ labels m', Run (LimitedSteps size) m labels m' ∧ m'.Ready ∧
      m'.server.conns.lookup = Function.update m.server.conns.lookup fd (some (Conn.of user)) ∧
      m'.server.relay = m.server.relay.bind fd user ∧ m'.server.limiter = m.server.limiter ∧
      m'.sent = m.sent := by
  obtain ⟨m₁, step₁, ready₁, conns₁, relay₁, limiter₁, sent₁⟩ := ready.accept size free
  have at₁ : m₁.server.conns.lookup fd = some (Conn.accepted .tcp) := Outcome.lookup_self conns₁
  -- the claim
  let claim : Conn :=
    { Conn.accepted .tcp with claimedUserPub := user, challenge := nonce, challengeIssued := true }
  have greeted : m₁.server.dispatch limitedRelay fd (Conn.accepted .tcp) ⟨nonce, 0, 0⟩
      (.hello user []) = .ok (m₁.server.setConn fd claim,
        [⟨fd, .reply, .serverHello true (ascii "challenge") nonce⟩]) := by
    simp [RelayServer.dispatch, RelayServer.onHello, Conn.accepted, length, claim]
  obtain ⟨bufs₂, step₂, ready₂⟩ := ready₁.frame size at₁ (.inr rfl) greeted
    (m₁.server.lookup_setConn fd claim) rfl rfl rfl rfl (by simp [at₁])
  rw [passedOn_unauthenticated size at₁ rfl, List.append_nil] at step₂
  -- its signature
  let s₂ : RelayServer KeyedLimiter := { m₁.server.setConn fd claim with writeBufs := bufs₂ }
  have at₂ : s₂.conns.lookup fd = some claim :=
    Outcome.lookup_self (m₁.server.lookup_setConn fd claim)
  let s₃ : RelayServer KeyedLimiter :=
    { s₂.setConn fd (Conn.of user) with relay := s₂.relay.bind fd user }
  have signed : s₂.dispatch limitedRelay fd claim ⟨nonce, 0, 0⟩ (.helloAck (user ++ nonce)) =
      .ok (s₃, []) := by
    have verified : limitedRelay.verify claim.claimedUserPub claim.challenge (user ++ nonce) =
        true := by
      simp [limitedRelay, claim]
    have drained : (s₂.relay.bind fd user).drainOffline user = (s₂.relay.bind fd user, []) := by
      have memory : (s₂.relay.bind fd user).persistent = none := ready₁.memory
      have empty : (s₂.relay.bind fd user).offline = ∅ := ready₁.empty
      simp [Relay.drainOffline, memory, empty]
    have admitted : s₂.onHelloAck limitedRelay fd claim (user ++ nonce) =
        s₂.signIn limitedRelay fd claim := by
      have issued : claim.challengeIssued = true := rfl
      have claimed : claim.claimedUserPub.length = 32 := length
      have unnamed : claim.claimedUsername = [] := rfl
      have signature : (user ++ nonce).length = kIdentitySigBytes := by
        rw [List.length_append, length]
        rfl
      simp [RelayServer.onHelloAck, verified, issued, claimed, unnamed, signature]
    rw [RelayServer.dispatch, admitted]
    simp only [RelayServer.signIn, claim, drained]
    rfl
  obtain ⟨bufs₃, step₃, ready₃⟩ := (ready₂ m₁.sent).frame size at₂ (.inr rfl) signed
    (s₂.lookup_setConn fd (Conn.of user)) rfl rfl rfl rfl (List.forall_mem_nil _)
  rw [passedOn_unauthenticated size at₂ rfl, List.append_nil] at step₃
  refine ⟨_, _, .cons step₁ (.cons step₂ (.cons step₃ (.nil _))), ready₃ _, ?_, ?_, limiter₁,
    sent₁⟩
  · have replaced := (s₂.lookup_setConn fd (Conn.of user)).trans
      (congrArg (Function.update · fd (some (Conn.of user)))
        ((m₁.server.lookup_setConn fd claim).trans
          (congrArg (Function.update · fd (some claim)) conns₁)))
    rw [Function.update_idem, Function.update_idem] at replaced
    exact replaced
  · exact congrArg (·.bind fd user) relay₁

/-- What the owner passes on at the time 0 is booked in full. -/
theorem passedOn_owner {s s' : RelayServer KeyedLimiter} {f : Frame Unit}
    {writes : List (Write Unit)} (at_fd : s.conns.lookup fd = some (Conn.of owner))
    (forwards : Forwards s s' writes) :
    passedOn limitedRelay size owner s (.frame fd (limitedRelay.frame.encode f) ⟨nonce, 0, 0⟩) s'
      writes = [(0, size f)] := by
  have counts : (Conn.of owner).authenticated = true ∧ (Conn.of owner).boundUserPub = owner ∧
      Forwards s s' writes := ⟨rfl, rfl, forwards⟩
  simp only [passedOn, at_fd, Codec.decode_encode, if_pos counts]
  rfl

/-- A peer frame without a recipient goes to the others, at no charge. -/
theorem MeteredRelay.Ready.peer {other : Fd} (ready : m.Ready)
    (at_fd : m.server.conns.lookup fd = some (Conn.of owner)) (pe : PeerEnvelope)
    (toAll : pe.recipientPubkey = [])
    (away : other ≠ fd) (there : m.server.conns.lookup other = some (Conn.of user)) :
    ∃ label bufs, LimitedSteps size m label
        ⟨{ m.server with writeBufs := bufs }, 0, m.sent ++ [(0, size (.peer pe))]⟩ ∧
      ∀ sent, MeteredRelay.Ready ⟨{ m.server with writeBufs := bufs }, 0, sent⟩ := by
  let writes : List (Write Unit) := m.server.onPeer limitedRelay fd (Conn.of owner) pe
  have sent : writes = (m.server.conns.entries.filter fun entry =>
      entry.1 ≠ fd && entry.2.authenticated).map fun entry =>
        ⟨entry.1, .peer, .peer { pe with senderPubkey := owner }⟩ := by
    simp only [writes, RelayServer.onPeer, toAll, if_true]
    rfl
  have known : ∀ x ∈ writes, (m.server.conns.lookup x.fd).isSome = true := by
    intro x member
    rw [sent] at member
    obtain ⟨entry, listed, rfl⟩ := List.mem_map.mp member
    have present := AList.mem_lookup_iff.mpr (List.mem_of_mem_filter listed)
    exact Option.isSome_iff_exists.mpr ⟨entry.2, present⟩
  have forwards (s' : RelayServer KeyedLimiter) : Forwards m.server s' writes := by
    refine .inl ⟨⟨other, .peer, .peer { pe with senderPubkey := owner }⟩, ?_, .inr (.inl rfl)⟩
    rw [sent]
    refine List.mem_map.mpr ⟨⟨other, Conn.of user⟩, List.mem_filter.mpr ⟨?_, ?_⟩, rfl⟩
    · exact AList.mem_lookup_iff.mp there
    · simp [away, Conn.of]
  obtain ⟨bufs, step, ready'⟩ := ready.frame (f := .peer pe) size at_fd (.inl rfl) rfl
    (Function.update_eq_self_iff.mpr at_fd.symm).symm rfl rfl rfl rfl known
  rw [passedOn_owner size at_fd (forwards _)] at step
  exact ⟨_, bufs, step, ready'⟩

/-- The first envelope, to somebody who is not here, is queued if the bucket holds it. -/
theorem MeteredRelay.Ready.queue {recipient : Bytes} (ready : m.Ready)
    (at_fd : m.server.conns.lookup fd = some (Conn.of owner))
    (absent : m.server.relay.lookup recipient = none) (env : Envelope)
    (addressed : env.recipient = .userPubkey recipient)
    (fresh : m.server.limiter = .new kDefaultSustainedBytesPerSec kDefaultBurstBytes)
    (small : env.ciphertext.length ≤ kDefaultBurstBytes) :
    ∃ label server, LimitedSteps size m label ⟨server, 0, m.sent ++ [(0, size (.envelope env))]⟩ := by
  have enough : (m.server.limiter.tryConsume 0 owner env.ciphertext.length).2 = true := by
    have short : ¬((kDefaultBurstBytes : ℚ) + 1 / 10 ^ 9 < env.ciphertext.length) := by
      have small : (env.ciphertext.length : ℚ) ≤ kDefaultBurstBytes := by exact_mod_cast small
      rw [not_lt]
      linarith
    have refilled : (TokenBucket.new kDefaultSustainedBytesPerSec kDefaultBurstBytes 0).refill 0 =
        TokenBucket.new kDefaultSustainedBytesPerSec kDefaultBurstBytes 0 := rfl
    rw [fresh]
    simp only [KeyedLimiter.tryConsume, KeyedLimiter.new, AList.lookup_empty, Option.getD_none,
      TokenBucket.tryConsume, refilled]
    rw [if_neg (by exact short)]
  let paid : RelayServer KeyedLimiter := { m.server with
    limiter := (m.server.limiter.tryConsume 0 owner env.ciphertext.length).1 }
  let bytes := limitedRelay.envelope.encode (RelayServer.stamped (Conn.of owner) env)
  let queued : RelayServer KeyedLimiter := { paid with
    relay := { m.server.relay with offline := m.server.relay.offline.insert recipient [bytes] } }
  have admitted : m.server.consume limitedRelay (Conn.of owner) 0 env = (paid, true) := by
    rw [consume_of_bound (by simp [Conn.of, owner])]
    exact Prod.ext rfl enough
  have stored : m.server.relay.enqueueOffline (Span.ofVector recipient) bytes 0 =
      .ok { m.server.relay with offline := m.server.relay.offline.insert recipient [bytes] } := by
    have room : ¬([] : List Bytes).length ≥ Relay.kMaxQueued := by decide
    simp only [Relay.enqueueOffline, ready.memory, ready.empty, AList.lookup_empty,
      Option.getD_none, if_neg room, List.nil_append]
    rfl
  have dispatched : m.server.dispatch limitedRelay fd (Conn.of owner) ⟨nonce, 0, 0⟩
      (.envelope env) = .ok (queued, []) := by
    have away : paid.relay.lookup recipient = none := absent
    have stored : paid.relay.enqueueOffline (Span.ofVector recipient)
        (limitedRelay.envelope.encode (RelayServer.stamped (Conn.of owner) env)) 0 = _ := stored
    simp only [RelayServer.dispatch, addressed, RelayServer.onDirectEnvelope, admitted, away,
      stored, Bool.true_eq_false, if_false]
    rfl
  obtain ⟨bufs, step⟩ := exists_limitedStep size ready.now at_fd (.inl rfl) dispatched (List.forall_mem_nil _)
    (by change (m.server.conns.lookup fd).map (·.wantsClose) = some false; rw [at_fd]; rfl)
  have forwards : Forwards m.server { queued with writeBufs := bufs } ([] : List (Write Unit)) := by
    refine .inr (.inl fun same => ?_)
    have waiting : m.server.relay.offline.lookup recipient = some [bytes] := by
      rw [← same]
      exact AList.lookup_insert _
    rw [ready.empty, AList.lookup_empty] at waiting
    cases waiting
  rw [passedOn_owner size at_fd forwards] at step
  exact ⟨_, _, step⟩

end Login

private def stranger : Bytes := List.replicate 32 3

/-- A peer frame is not charged, and of an envelope only the ciphertext: the owner passes on
more than twice the burst at once, in a frame to another user and a letter to somebody who
is away. -/
theorem uncharged_bytes_exceed_rate : ∃ labels m,
    Run (LimitedSteps Frame.carriedBytes) (MeteredRelay.boot none) labels m ∧
    m.sent = [(0, kDefaultBurstBytes + 1), (0, kDefaultBurstBytes + 1)] ∧
    ¬((m.sent.within 0 (0 + 0) : ℚ) ≤
      kDefaultBurstBytes + kDefaultSustainedBytesPerSec * (0 : Nat) / 10 ^ 9) := by
  -- the owner at 5 and another user at 6
  obtain ⟨first, m₁, run₁, ready₁, conns₁, relay₁, limiter₁, sent₁⟩ :=
    MeteredRelay.boot_ready.login Frame.carriedBytes 5 rfl owner rfl
  have free : m₁.server.conns.lookup 6 = none := by
    refine (congrFun conns₁ 6).trans ?_
    rw [Function.update_of_ne (by decide)]
    rfl
  obtain ⟨second, m₂, run₂, ready₂, conns₂, relay₂, limiter₂, sent₂⟩ :=
    ready₁.login Frame.carriedBytes 6 free stranger rfl
  have at₅ : m₂.server.conns.lookup 5 = some (Conn.of owner) := by
    refine (congrFun conns₂ 5).trans ?_
    rw [Function.update_of_ne (by decide)]
    exact Outcome.lookup_self conns₁
  have at₆ : m₂.server.conns.lookup 6 = some (Conn.of stranger) := Outcome.lookup_self conns₂
  let long : Bytes := List.replicate (kDefaultBurstBytes + 1) 0
  let pe : PeerEnvelope := ⟨0, [], long, []⟩
  let env : Envelope := ⟨[], 0, [], [], long, 0, 0, [], [], .userPubkey nonce⟩
  obtain ⟨_, bufs, step₃, ready₃⟩ := ready₂.peer Frame.carriedBytes at₅ pe rfl (by decide) at₆
  have absent : m₂.server.relay.lookup nonce = none := by
    rw [Relay.lookup, relay₂, Relay.lookup_bind, relay₁, Relay.lookup_bind]
    rfl
  obtain ⟨_, server, step₄⟩ := (ready₃ _).queue Frame.carriedBytes at₅ absent env rfl
    (limiter₂.trans limiter₁) (Nat.zero_le _)
  have size : long.length = kDefaultBurstBytes + 1 := List.length_replicate ..
  let relayed := (Frame.peer pe : Frame Unit).carriedBytes
  let queued := (Frame.envelope env : Frame Unit).carriedBytes
  let m : MeteredRelay KeyedLimiter := ⟨server, 0, m₂.sent ++ [(0, relayed)] ++ [(0, queued)]⟩
  have sent : m.sent = [(0, kDefaultBurstBytes + 1), (0, kDefaultBurstBytes + 1)] := by
    simp only [m, relayed, queued, pe, env, sent₂.trans sent₁, Frame.carriedBytes, size, List.length_nil, Nat.zero_add,
      Nat.add_zero]
    rfl
  refine ⟨_, m, run₁.append (run₂.append (.cons step₃ (.cons step₄ (.nil _)))), sent, ?_⟩
  have both : m.sent.within 0 0 = (kDefaultBurstBytes + 1) + (kDefaultBurstBytes + 1) := by
    rw [sent]
    rfl
  rw [both]
  norm_num [kDefaultBurstBytes]

/-- Three bytes of ciphertext, for somebody who is away. -/
theorem ciphertext_within_rate_letter : ∃ labels m,
    Run (LimitedSteps Frame.ciphertextBytes) (MeteredRelay.boot none) labels m ∧
    owner.length = 32 ∧ m.sent = [(0, 3)] ∧
    (m.sent.within 0 (0 + 5) : ℚ) ≤
      kDefaultBurstBytes + kDefaultSustainedBytesPerSec * (5 : Nat) / 10 ^ 9 := by
  obtain ⟨login, m₁, run₁, ready₁, conns₁, relay₁, limiter₁, sent₁⟩ :=
    MeteredRelay.boot_ready.login Frame.ciphertextBytes 5 rfl owner rfl
  have absent : m₁.server.relay.lookup nonce = none := by
    rw [Relay.lookup, relay₁, Relay.lookup_bind]
    rfl
  obtain ⟨_, server, step₂⟩ := ready₁.queue Frame.ciphertextBytes (Outcome.lookup_self conns₁) absent
    ⟨[], 0, [], [1, 2, 3], [], 0, 0, [], [], .userPubkey nonce⟩ rfl limiter₁ (by decide)
  have run := run₁.append (.cons step₂ (.nil _))
  refine ⟨_, _, run, rfl, ?_, ciphertext_within_rate rfl rfl run 0 5⟩
  dsimp only
  rw [sent₁]
  rfl

end FinBit.Server
