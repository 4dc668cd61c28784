import FinBit.Server.Routing

/-! # When a frame ends the relay

The event loop has no handler around its callbacks, so what a frame throws ends the
relay for everyone. One frame can: a direct envelope whose recipient is set but empty,
on a relay with a database. Nobody is signed in under the empty key, so the envelope
goes to the table `srv_offline`; the span of an empty vector is bound as `NULL`, and
the column rejects it. The branches for channels, rooms and lookups all check the
length of what they are given.
-/

namespace FinBit.Server

open FinBit.Lib

variable {B L : Type} (O : RelayOutside B L)

/-- The event loop goes on after an event that throws nothing. -/
def RelayServer.Steps (s : RelayServer L) (event : RelayEvent) (s' : RelayServer L) : Prop :=
  ∃ writes, s.step O event = .ok (s', writes)

/-- An authenticated client sends an envelope to the empty key, within its rate limit,
and the offline queue is a table. -/
def RelayServer.ToNobody (s : RelayServer L) (c : Conn) (draws : RelayDraws) (bytes : Bytes) :
    Prop :=
  s.relay.persistent.isSome = true ∧ c.authenticated = true ∧
    ∃ env, O.frame.decode bytes = some (.envelope env) ∧ env.recipient = .userPubkey [] ∧
      (s.consume O c draws.clock env).2 = true

/-- Open connections are watched by the event loop, and nobody has the empty key. -/
structure RelayServer.Sound (s : RelayServer L) : Prop where
  watched : ∀ fd, (s.conns.lookup fd).isSome = true → fd ∈ s.registered
  keyed : ∀ fd, s.relay.userToFd.lookup [] ≠ some fd

variable {O}

theorem RelayServer.boot_sound (db : Option (SrvOffline × SrvDirectory × Map Bytes Bytes))
    (limiter : L) : (RelayServer.boot db limiter).Sound where
  watched _ present := by cases present
  keyed _ := nofun

/-! ### What is watched stays watched -/

section Registered

variable {s s' : RelayServer L} {fd : Fd} {c : Conn} {draws : RelayDraws}
  {writes : List (Write B)}

theorem onHello_registered (challenge identityPubkey username : Bytes) :
    (s.onHello (B := B) fd c challenge identityPubkey username).1.registered = s.registered := by
  unfold RelayServer.onHello
  split
  · rfl
  · split
    · rfl
    · simp only
      split <;> rfl

theorem onHelloAck_registered (signature : Bytes) :
    (s.onHelloAck O fd c signature).1.registered = s.registered := by
  unfold RelayServer.onHelloAck
  split
  · rfl
  split
  · rfl
  split
  · rfl
  split
  · simp only
    split <;> rfl
  · rfl

theorem onKeyFetch_registered (username : Bytes) (requestId : UInt64) :
    (s.onKeyFetch O fd username requestId).1.registered = s.registered := by
  unfold RelayServer.onKeyFetch
  simp only
  split <;> rfl

theorem onChannelEnvelope_registered (clock : UInt64) (env : Envelope) (groupId : Bytes) :
    (s.onChannelEnvelope O fd c clock env groupId).1.registered = s.registered := by
  obtain ⟨-, -, registered⟩ := consume_frame (O := O) s c clock env
  unfold RelayServer.onChannelEnvelope
  simp only
  split
  · exact registered
  · split <;> exact registered

theorem onDirectEnvelope_registered {env : Envelope} {recipient : Bytes}
    (done : s.onDirectEnvelope O fd c draws env recipient = .ok (s', writes)) :
    s'.registered = s.registered := by
  obtain ⟨-, -, registered⟩ := consume_frame (O := O) s c draws.clock env
  unfold RelayServer.onDirectEnvelope at done
  simp only at done
  split at done
  · cases done
    exact registered
  · split at done
    · split at done <;> cases done <;> exact registered
    · split at done
      · cases done
      · cases done
        exact registered

theorem onUsernameLookup_registered (pubkey : Bytes) :
    (s.onUsernameLookup O fd pubkey).1.registered = s.registered := by
  unfold RelayServer.onUsernameLookup
  split <;> rfl

theorem onRegisterReq_registered (claimPubkey claimUsername : Bytes) :
    (s.onRegisterReq (B := B) fd c claimPubkey claimUsername).1.registered = s.registered := by
  unfold RelayServer.onRegisterReq
  split <;> rfl

theorem dispatch_registered {f : Frame B} (done : s.dispatch O fd c draws f = .ok (s', writes)) :
    s'.registered = s.registered := by
  cases f with
  | hello identityPubkey username =>
    obtain ⟨rfl, -⟩ := Prod.ext_iff.mp (Except.ok.inj done)
    exact onHello_registered _ _ _
  | helloAck signature =>
    obtain ⟨rfl, -⟩ := Prod.ext_iff.mp (Except.ok.inj done)
    exact onHelloAck_registered signature
  | keyFetch username requestId =>
    obtain ⟨rfl, -⟩ := Prod.ext_iff.mp (Except.ok.inj done)
    exact onKeyFetch_registered _ _
  | usernameLookup pubkey =>
    obtain ⟨rfl, -⟩ := Prod.ext_iff.mp (Except.ok.inj done)
    exact onUsernameLookup_registered pubkey
  | registerReq claimPubkey claimUsername =>
    obtain ⟨rfl, -⟩ := Prod.ext_iff.mp (Except.ok.inj done)
    exact onRegisterReq_registered _ _
  | envelope env =>
    simp only [RelayServer.dispatch] at done
    split at done
    · obtain ⟨rfl, -⟩ := Prod.ext_iff.mp (Except.ok.inj done)
      exact onChannelEnvelope_registered _ _ _
    · exact onDirectEnvelope_registered done
    · cases done
      rfl
  | chanSubscribe groupId =>
    simp only [RelayServer.dispatch] at done
    split at done <;> cases done <;> rfl
  | chanUnsubscribe groupId =>
    simp only [RelayServer.dispatch] at done
    split at done <;> cases done <;> rfl
  | roomJoin roomId uplinkClass =>
    simp only [RelayServer.dispatch] at done
    split at done <;> cases done <;> rfl
  | roomLeave roomId =>
    simp only [RelayServer.dispatch] at done
    split at done <;> cases done <;> rfl
  | _ =>
    cases done
    rfl

theorem handleFrame_registered {bytes : Bytes}
    (done : s.handleFrame O fd c draws bytes = .ok (s', writes)) :
    s'.registered = s.registered := by
  cases handledFrame done with
  | malformed | early => rfl
  | dispatched _ _ dispatched =>
    have same := dispatch_registered dispatched
    exact same

end Registered

/-! ### Every step keeps the server sound -/

section Steps

variable {s s' : RelayServer L} {fd : Fd} {c : Conn} {draws : RelayDraws} {bytes : Bytes}
  {writes : List (Write B)}

theorem Relay.lookup_of_unbind {r : Relay} {user : Bytes} {fd' : Fd}
    (here : (r.unbind fd).userToFd.lookup user = some fd') : r.userToFd.lookup user = some fd' := by
  unfold Relay.unbind at here
  split at here
  · exact here
  next bound _ =>
    by_cases mutual_ : r.userToFd.lookup bound = some fd
    · simp only [mutual_, if_true] at here
      by_cases same : user = bound
      · rw [same, AList.lookup_erase] at here
        cases here
      · rwa [AList.lookup_erase_ne same] at here
    · simpa only [mutual_, if_false] using here

theorem Outcome.exists_conn {f : Frame B} (outcome : Outcome O s fd c draws f s' writes) :
    ∃ c', s'.conns.lookup = Function.update s.conns.lookup fd (some c') := by
  cases outcome with
  | kept c' _ conns => exact ⟨c', conns⟩
  | refused c' _ conns => exact ⟨c', conns⟩
  | challenged c' _ _ _ _ conns => exact ⟨c', conns⟩
  | admitted c' _ _ _ _ _ _ conns => exact ⟨c', conns⟩

theorem Outcome.keyed {f : Frame B} (outcome : Outcome O s fd c draws f s' writes)
    (before : ∀ fd', s.relay.userToFd.lookup [] ≠ some fd') (fd' : Fd) :
    s'.relay.userToFd.lookup [] ≠ some fd' := by
  cases outcome with
  | kept _ _ _ book => exact book.1 ▸ before fd'
  | refused _ _ _ book => exact book.1 ▸ before fd'
  | challenged _ _ _ _ _ _ book => exact book.1 ▸ before fd'
  | admitted _ _ _ _ size _ _ _ book =>
    -- a key that signs in has 32 bytes
    have other : [] ≠ c.claimedUserPub := by
      rintro empty
      rw [← empty] at size
      cases size
    rw [book.1, Relay.lookup_bind, if_neg other]
    exact before fd'

theorem RelayServer.Sound.ofUpdate (sound : s.Sound) (at_fd : s.conns.lookup fd = some c) {c' : Conn}
    (conns : s'.conns.lookup = Function.update s.conns.lookup fd (some c'))
    (registered : s'.registered = s.registered)
    (keyed : ∀ fd', s'.relay.userToFd.lookup [] ≠ some fd') : s'.Sound where
  watched fd' present := by
    rw [registered]
    apply sound.watched
    by_cases same : fd' = fd
    · rw [same, at_fd]
      rfl
    · have other := congrFun conns fd'
      rw [Function.update_of_ne same] at other
      rwa [other] at present
  keyed := keyed

theorem RelayServer.Sound.handleFrame (sound : s.Sound) (at_fd : s.conns.lookup fd = some c)
    (done : s.handleFrame O fd c draws bytes = .ok (s', writes)) : s'.Sound := by
  have registered := handleFrame_registered done
  rcases handleFrame_cases at_fd done with ⟨-, rfl, -⟩ | ⟨f, -, outcome⟩
  · exact sound.ofUpdate at_fd (s.lookup_setConn fd _) registered sound.keyed
  · obtain ⟨c', conns⟩ := outcome.exists_conn
    exact sound.ofUpdate at_fd conns registered (outcome.keyed sound.keyed)

theorem RelayServer.Sound.closeConn (sound : s.Sound)
    (done : s.closeConn O fd = .ok (s', writes)) : s'.Sound := by
  obtain ⟨conns, book, registered, -, -⟩ := closeConn_cases done
  constructor
  · intro fd' present
    rw [conns] at present
    by_cases same : fd' = fd
    · rw [same, AList.lookup_erase] at present
      cases present
    · rw [AList.lookup_erase_ne same] at present
      rw [registered, List.mem_filter]
      exact ⟨sound.watched fd' present, decide_eq_true same⟩
  · intro fd' here
    rw [book.1] at here
    exact sound.keyed fd' (Relay.lookup_of_unbind here)

theorem RelayServer.Sound.step {event : RelayEvent} (sound : s.Sound)
    (done : s.Steps O event s') : s'.Sound := by
  obtain ⟨writes, done⟩ := done
  cases stepTaken done with
  | accepted fd transport =>
    constructor
    · intro fd' present
      change fd' ∈ Membership.note fd s.registered
      have kept : fd' ∈ s.registered ∨ fd' = fd := by
        by_cases same : fd' = fd
        · exact .inr same
        · left
          apply sound.watched
          simp only at present
          split at present
          · exact present
          · rwa [AList.lookup_insert_ne same] at present
      exact Membership.mem_note.mpr kept
    · exact sound.keyed
  | frame at_fd handled => exact sound.handleFrame at_fd handled
  | frameClosed at_fd handled closed => exact (sound.handleFrame at_fd handled).closeConn closed
  | closed done => exact sound.closeConn done
  | frameUnknown | closedUnknown => exact sound
  | flushed => exact ⟨sound.watched, sound.keyed⟩

end Steps

/-! ### Which frames are handled -/

section Handled

variable {s : RelayServer L} {fd : Fd} {c : Conn} {draws : RelayDraws} {bytes : Bytes}

theorem enqueueOffline_returns_iff (r : Relay) (recipient envelope : Bytes) (nowMs : UInt64)
    (written : envelope ≠ []) :
    (∃ r', r.enqueueOffline (Span.ofVector recipient) envelope nowMs = .ok r') ↔
      ¬(r.persistent.isSome = true ∧ recipient = []) := by
  unfold Relay.enqueueOffline
  cases table : r.persistent with
  | none => simp
  | some db =>
    have bound : (Span.ofVector envelope).isNull = false := by
      simpa [Span.ofVector] using written
    cases recipient with
    | nil => simp [srvOfflineEnqueue, Span.ofVector]
    | cons b rest =>
      have present : (Span.ofVector (b :: rest)).isNull = false := rfl
      simp [srvOfflineEnqueue, bound, present]

/-- An envelope to a user throws exactly where the queue does. -/
theorem onDirectEnvelope_returns_iff (sound : s.Sound) (env : Envelope) (recipient : Bytes)
    (written : O.envelope.encode (RelayServer.stamped c env) ≠ []) :
    (∃ result, s.onDirectEnvelope O fd c draws env recipient = .ok result) ↔
      ¬(s.relay.persistent.isSome = true ∧ recipient = [] ∧
        (s.consume O c draws.clock env).2 = true) := by
  obtain ⟨-, relay, -⟩ := consume_frame (O := O) s c draws.clock env
  unfold RelayServer.onDirectEnvelope
  generalize s.consume O c draws.clock env = consumed at relay
  obtain ⟨t, ok⟩ := consumed
  simp only at relay ⊢
  cases ok with
  | false => simp
  | true =>
    simp only [Bool.true_eq_false, if_false, and_true]
    split
    next dst here =>
      -- a recipient who is here is not the empty key
      have known : recipient ≠ [] := by
        rintro rfl
        rw [relay] at here
        exact sound.keyed dst here
      refine ⟨fun _ fatal => known fatal.2, fun _ => ?_⟩
      split <;> exact ⟨_, rfl⟩
    next away =>
      rw [← relay, ← enqueueOffline_returns_iff t.relay recipient _ draws.nowMs written]
      cases t.relay.enqueueOffline (Span.ofVector recipient) _ draws.nowMs with
      | error e => simp
      | ok r => simp

/-- Only a direct envelope can make the `switch` throw. -/
theorem dispatch_returns_iff (sound : s.Sound)
    (written : ∀ env key, env.recipient = .userPubkey key → O.envelope.encode env ≠ [])
    (f : Frame B) :
    (∃ result, s.dispatch O fd c draws f = .ok result) ↔
      ¬(s.relay.persistent.isSome = true ∧ ∃ env, f = .envelope env ∧
        env.recipient = .userPubkey [] ∧ (s.consume O c draws.clock env).2 = true) := by
  have other (not_envelope : f.isEnvelope = false)
      (returns : ∃ result, s.dispatch O fd c draws f = .ok result) :
      (∃ result, s.dispatch O fd c draws f = .ok result) ↔
        ¬(s.relay.persistent.isSome = true ∧ ∃ env, f = .envelope env ∧
          env.recipient = .userPubkey [] ∧ (s.consume O c draws.clock env).2 = true) := by
    refine ⟨?_, fun _ => returns⟩
    rintro - ⟨-, env, rfl, -⟩
    cases not_envelope
  cases f with
  | envelope env =>
    simp only [RelayServer.dispatch]
    cases at_recipient : env.recipient with
    | userPubkey recipient =>
      have sized := written (RelayServer.stamped c env) recipient
        ((stamped_recipient c env).trans at_recipient)
      simp only
      rw [onDirectEnvelope_returns_iff sound env recipient sized]
      constructor
      · rintro fine ⟨table, env', same, empty, within⟩
        obtain rfl := Frame.envelope.inj same
        rw [at_recipient] at empty
        exact fine ⟨table, Recipient.userPubkey.inj empty, within⟩
      · rintro fine ⟨table, rfl, within⟩
        exact fine ⟨table, env, rfl, at_recipient, within⟩
    | _ =>
      refine ⟨?_, fun _ => ⟨_, rfl⟩⟩
      rintro - ⟨-, env', same, empty, -⟩
      obtain rfl := Frame.envelope.inj same
      cases at_recipient.symm.trans empty
  | chanSubscribe groupId =>
    apply other rfl
    simp only [RelayServer.dispatch]
    split <;> exact ⟨_, rfl⟩
  | chanUnsubscribe groupId =>
    apply other rfl
    simp only [RelayServer.dispatch]
    split <;> exact ⟨_, rfl⟩
  | roomJoin roomId uplinkClass =>
    apply other rfl
    simp only [RelayServer.dispatch]
    split <;> exact ⟨_, rfl⟩
  | roomLeave roomId =>
    apply other rfl
    simp only [RelayServer.dispatch]
    split <;> exact ⟨_, rfl⟩
  | _ => exact other rfl ⟨_, rfl⟩

/-- What a frame has the server write, it can write. -/
theorem exists_written (sound : s.Sound) (at_fd : s.conns.lookup fd = some c) {f : Frame B}
    {t : RelayServer L} {writes : List (Write B)}
    (dispatched : s.dispatch O fd c draws f = .ok (t, writes)) :
    ∃ u, writes.foldlM (RelayServer.enqueueWrite O) t = .ok u := by
  have outcome := dispatch_outcome at_fd dispatched
  obtain ⟨c', conns⟩ := outcome.exists_conn
  have after := sound.ofUpdate at_fd conns (dispatch_registered dispatched)
    (outcome.keyed sound.keyed)
  exact exists_foldlM_enqueueWrite writes fun x _ => after.watched x.fd

/-- A frame that is looked at is handled if its case of the `switch` is. -/
theorem handleFrame_dispatches (sound : s.Sound) (at_fd : s.conns.lookup fd = some c) {f : Frame B}
    (decoded : O.frame.decode bytes = some f)
    (heard : ¬(c.authenticated = false ∧ f.beforeAuth = false)) :
    (∃ result, s.handleFrame O fd c draws bytes = .ok result) ↔
      ∃ result, s.dispatch O fd c draws f = .ok result := by
  cases dispatched : s.dispatch O fd c draws f with
  | error e =>
    simp only [RelayServer.handleFrame, decoded, heard, if_false, dispatched]
  | ok result =>
    obtain ⟨t, writes⟩ := result
    obtain ⟨u, wrote⟩ := exists_written sound at_fd dispatched
    have handled : s.handleFrame O fd c draws bytes = .ok (u, writes) := by
      simp only [RelayServer.handleFrame, decoded, heard, if_false, dispatched, wrote]
    exact ⟨fun _ => ⟨_, rfl⟩, fun _ => ⟨_, handled⟩⟩

theorem RelayServer.Sound.handleFrame_returns_iff (sound : s.Sound)
    (written : ∀ env key, env.recipient = .userPubkey key → O.envelope.encode env ≠ [])
    (at_fd : s.conns.lookup fd = some c) :
    (∃ result, s.handleFrame O fd c draws bytes = .ok result) ↔ ¬s.ToNobody O c draws bytes := by
  cases decoded : O.frame.decode bytes with
  | none => simp [RelayServer.handleFrame, RelayServer.ToNobody, decoded]
  | some f =>
    by_cases dropped : c.authenticated = false ∧ f.beforeAuth = false
    · simp [RelayServer.handleFrame, RelayServer.ToNobody, decoded, dropped]
    · rw [handleFrame_dispatches sound at_fd decoded dropped, dispatch_returns_iff sound written]
      constructor
      · rintro fine ⟨table, -, env, same, rest⟩
        exact fine ⟨table, env, Option.some.inj (decoded.symm.trans same), rest⟩
      · rintro fine ⟨table, env, rfl, rest⟩
        -- before it is trusted, a connection cannot send envelopes
        have trusted : c.authenticated = true := by
          by_contra untrusted
          exact dropped ⟨by simpa using untrusted, rfl⟩
        exact fine ⟨table, trusted, env, decoded, rest⟩

end Handled

/-! ### Runs -/

/-- From every state that the relay reaches, a frame of a connected client is handled
exactly when it is not an envelope to nobody. -/
theorem frame_handled_iff {db : Option (SrvOffline × SrvDirectory × Map Bytes Bytes)} {limiter : L}
    (written : ∀ env key, env.recipient = .userPubkey key → O.envelope.encode env ≠ [])
    {events : List RelayEvent} {s : RelayServer L}
    (run : Run (RelayServer.Steps O) (RelayServer.boot db limiter) events s)
    {fd : Fd} {c : Conn} (at_fd : s.conns.lookup fd = some c) (draws : RelayDraws) (bytes : Bytes) :
    (∃ result, s.handleFrame O fd c draws bytes = .ok result) ↔ ¬s.ToNobody O c draws bytes := by
  have sound : s.Sound := by
    apply run.invariant RelayServer.Sound _ (RelayServer.boot_sound db limiter)
    intro s event s' sound step
    exact sound.step step
  exact sound.handleFrame_returns_iff written at_fd

/-! ### An envelope to nobody -/

/-- The run of a login, without what an observer has heard. -/
theorem exists_signedIn (tables : Option (SrvDirectory × Map Bytes Bytes)) : ∃ events s,
    Run (RelayServer.Steps plainRelay)
      (RelayServer.boot (tables.map fun t => (⟨[], 0⟩, t)) ()) events s ∧
    s.conns.lookup 5 = some signedIn ∧
    s.relay = (Relay.fresh (tables.map fun _ => ⟨[], 0⟩)).bind 5 owner := by
  obtain ⟨labels, w, run, at_fd, -, relay⟩ := exists_login tables
  refine ⟨_, w.server, run.simulate Watched.server Prod.fst ?_, at_fd, relay⟩
  rintro w label w' ⟨-, taken, -⟩
  exact ⟨_, taken⟩

private def toNobody : Envelope := ⟨[], 0, [], [42], [], 0, 0, [], [], .userPubkey []⟩

/-- With a database, the envelope throws; the relay has no catch around it. -/
theorem empty_recipient_throws : ∃ events s e,
    Run (RelayServer.Steps plainRelay) (RelayServer.boot (some (⟨[], 0⟩, SrvDirectory.empty, ∅)) ())
      events s ∧
    s.conns.lookup 5 = some signedIn ∧
    s.handleFrame plainRelay 5 signedIn ⟨nonce, 0, 0⟩ (plainRelay.frame.encode (.envelope toNobody)) =
      .error e := by
  obtain ⟨events, s, run, at_fd, relay⟩ := exists_signedIn (some (SrvDirectory.empty, ∅))
  refine ⟨events, s, "srv_offline_enqueue: NOT NULL constraint failed: srv_offline.recipient_pub",
    run, at_fd, ?_⟩
  have dispatched : s.dispatch plainRelay 5 signedIn ⟨nonce, 0, 0⟩ (.envelope toNobody) =
      .error "srv_offline_enqueue: NOT NULL constraint failed: srv_offline.recipient_pub" := by
    have admitted : s.consume plainRelay signedIn 0 toNobody = (s, true) := rfl
    simp only [RelayServer.dispatch, toNobody, RelayServer.onDirectEnvelope]
    simp only [toNobody] at admitted
    simp only [admitted, relay]
    rfl
  have heard : ¬(signedIn.authenticated = false ∧ (Frame.envelope toNobody :
      Frame Unit).beforeAuth = false) := by
    simp [signedIn]
  simp only [RelayServer.handleFrame, Codec.decode_encode, heard, if_false, dispatched]

/-- In memory, the same envelope is queued. -/
theorem frame_handled_in_memory : ∃ events s,
    Run (RelayServer.Steps plainRelay) (RelayServer.boot none ()) events s ∧
    ∃ result, s.handleFrame plainRelay 5 signedIn ⟨nonce, 0, 0⟩
      (plainRelay.frame.encode (.envelope toNobody)) = .ok result := by
  obtain ⟨events, s, run, at_fd, relay⟩ := exists_signedIn none
  refine ⟨events, s, run, ?_⟩
  apply (frame_handled_iff (fun env _ _ => Codec.ofCountable_encode_ne _ env) run at_fd _ _).mpr
  rintro ⟨table, -⟩
  rw [relay] at table
  cases table

end FinBit.Server
