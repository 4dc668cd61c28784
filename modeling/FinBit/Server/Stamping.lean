import FinBit.Server.Routing

/-! # Senders are stamped

An envelope goes through the relay in four ways: to the subscribers of a channel, to a user
who is here, into the queue of a user who is away and from there to the user's next
connection, and, as a peer envelope, to other peers. Wherever it comes out, the sender it
names is empty or the key that the sending connection has proved, and nothing else about it
has changed. A peer envelope always names that key.

The queue outlives the server if there is a database, so runs go on over restarts.
-/

namespace FinBit.Server

open FinBit.Lib

variable {B L : Type} (O : RelayOutside B L)

/-! ### Envelopes that were sent -/

/-- An envelope that came in on an authenticated connection, with what had been heard of
it. -/
structure Sent where
  key : Bytes
  heard : Handshake
  env : Envelope

/-- What an event sends. -/
def Watched.sends (w : Watched L) : RelayEvent → List Sent
  | .frame fd bytes _ =>
    match w.server.conns.lookup fd, O.frame.decode bytes with
    | some c, some (.envelope env) =>
      if c.authenticated then [⟨c.boundUserPub, w.heard fd, env⟩] else []
    | _, _ => []
  | _ => []

/-- The tables that a server leaves behind. -/
def RelayServer.tables (s : RelayServer L) :
    Option (SrvOffline × SrvDirectory × Map Bytes Bytes) :=
  match s.relay.persistent, s.dir.store, s.bundles.store with
  | some offline, some names, some bundles => some (offline, names, bundles)
  | _, _, _ => none

/-- A server and everything that was ever sent through it. -/
structure Posted (L : Type) where
  watched : Watched L
  sent : List Sent

def Posted.boot (db : Option (SrvOffline × SrvDirectory × Map Bytes Bytes)) (limiter : L) :
    Posted L :=
  ⟨.boot db limiter, []⟩

/-- A step of the server, or a restart on the tables it has left. -/
inductive PostedStep : Posted L → Option RelayEvent × List (Write B) → Posted L → Prop
  | served {w w' : Watched L} {sent : List Sent} {event : RelayEvent} {writes : List (Write B)}
      (taken : Guarded (Watched.Step O) Watched.FdUnused w (event, writes) w') :
      PostedStep ⟨w, sent⟩ (some event, writes) ⟨w', sent ++ w.sends O event⟩
  | restarted {w : Watched L} {sent : List Sent} (limiter : L) :
      PostedStep ⟨w, sent⟩ (none, []) ⟨.boot w.server.tables limiter, sent⟩

/-- The envelope is one that was sent, and names nobody or the one who sent it. -/
def Forwarded (sent : List Sent) (env : Envelope) : Prop :=
  ∃ e ∈ sent, e.heard.Proves O e.key ∧ (env.senderPubkey = [] ∨ env.senderPubkey = e.key) ∧
    env = { e.env with senderPubkey := env.senderPubkey }

/-- Bytes that wait for a user. -/
def Relay.Queued (r : Relay) (bytes : Bytes) : Prop :=
  (∃ user q, r.offline.lookup user = some q ∧ bytes ∈ q) ∨
    ∃ db, r.persistent = some db ∧ ∃ row ∈ db.rows, row.envelope = bytes

/-! ### Where the bytes in the queue come from -/

variable {O}

section Queue

variable {r r' : Relay} {bytes : Bytes}

/-- Only the queue and the table count. -/
theorem Relay.Queued.of_eq (queued : r'.Queued bytes) (offline : r'.offline = r.offline)
    (persistent : r'.persistent = r.persistent) : r.Queued bytes := by
  unfold Relay.Queued at *
  rwa [← offline, ← persistent]

theorem queued_drainOffline {user : Bytes} (queued : (r.drainOffline user).1.Queued bytes) :
    r.Queued bytes := by
  unfold Relay.drainOffline at queued
  -- with a table the rows of the user go, without one the queue in memory
  cases table : r.persistent with
  | some db =>
    rw [table] at queued
    rcases queued with ⟨owner, q, found, member⟩ | ⟨db', there, row, member, rfl⟩
    · exact .inl ⟨owner, q, found, member⟩
    · cases there
      exact .inr ⟨db, table, row, (List.mem_filter.mp member).1, rfl⟩
  | none =>
    rw [table] at queued
    cases waiting : r.offline.lookup user with
    | none =>
      rw [waiting] at queued
      exact queued
    | some q =>
      rw [waiting] at queued
      rcases queued with ⟨owner, q', found, member⟩ | ⟨db, there, -⟩
      · have other : owner ≠ user := by
          rintro rfl
          simp at found
        rw [AList.lookup_erase_ne other] at found
        exact .inl ⟨owner, q', found, member⟩
      · cases there

/-- What is drained was in the queue. -/
theorem queued_of_drained {user : Bytes} (drained : bytes ∈ (r.drainOffline user).2) :
    r.Queued bytes := by
  unfold Relay.drainOffline at drained
  cases table : r.persistent with
  | some db =>
    rw [table] at drained
    obtain ⟨row, member, rfl⟩ := List.mem_map.mp drained
    exact .inr ⟨db, table, row, (List.mem_filter.mp member).1, rfl⟩
  | none =>
    rw [table] at drained
    cases waiting : r.offline.lookup user with
    | none =>
      rw [waiting] at drained
      cases drained
    | some q =>
      rw [waiting] at drained
      exact .inl ⟨user, q, waiting, drained⟩

theorem queued_enqueueOffline {user : Span} {envelope : Bytes} {nowMs : UInt64}
    (enqueued : r.enqueueOffline user envelope nowMs = .ok r') (queued : r'.Queued bytes) :
    r.Queued bytes ∨ bytes = envelope := by
  unfold Relay.enqueueOffline at enqueued
  cases table : r.persistent with
  | some db =>
    simp only [table, srvOfflineEnqueue] at enqueued
    split at enqueued
    · cases enqueued
    next db' inserted =>
      cases enqueued
      -- a row that binds `NULL` is refused, and the server throws
      split at inserted
      · cases inserted
      · split at inserted
        · cases inserted
        · cases inserted
          rcases queued with ⟨owner, q, found, member⟩ | ⟨db'', there, row, member, rfl⟩
          · exact .inl (.inl ⟨owner, q, found, member⟩)
          · cases there
            rcases List.mem_append.mp member with before | last
            · exact .inl (.inr ⟨db, table, row, before, rfl⟩)
            · rw [List.mem_singleton.mp last]
              exact .inr (by simp [Span.ofVector])
  | none =>
    simp only [table] at enqueued
    cases enqueued
    rcases queued with ⟨owner, q, found, member⟩ | ⟨db, there, -⟩
    · by_cases same : owner = user.bytes
      · subst same
        rw [AList.lookup_insert] at found
        cases found
        rcases List.mem_append.mp member with before | last
        · -- what was there is still there, less the oldest entry
          have earlier : bytes ∈ (r.offline.lookup user.bytes).getD [] := by
            split at before
            · exact List.mem_of_mem_drop before
            · exact before
          cases waiting : r.offline.lookup user.bytes with
          | none =>
            rw [waiting] at earlier
            cases earlier
          | some q =>
            rw [waiting] at earlier
            exact .inl (.inl ⟨user.bytes, q, waiting, earlier⟩)
        · exact .inr (List.mem_singleton.mp last)
      · rw [AList.lookup_insert_ne same] at found
        exact .inl (.inl ⟨owner, q, found, member⟩)
    · cases there

end Queue

/-! ### What a frame forwards -/

/-- Frames that carry something of another connection. -/
def Frame.forwards : Frame B → Bool
  | .envelope _ => true
  | .peer _ => true
  | _ => false

/-- What a frame adds to the queue is the stamped envelope that it carries. What it writes
is that envelope, one that has waited, or the peer envelope that it carries under the key of
the connection. -/
structure Traced (O : RelayOutside B L) (s : RelayServer L) (c : Conn) (f : Frame B)
    (s' : RelayServer L) (writes : List (Write B)) : Prop where
  queue : ∀ bytes, s'.relay.Queued bytes → s.relay.Queued bytes ∨
    ∃ env, f = .envelope env ∧ bytes = O.envelope.encode (RelayServer.stamped c env)
  envelopes : ∀ x ∈ writes, ∀ env, x.frame = .envelope env →
    (∃ original, f = .envelope original ∧ env = RelayServer.stamped c original) ∨
      ∃ bytes, s.relay.Queued bytes ∧ O.envelope.decode bytes = some env
  peers : ∀ x ∈ writes, ∀ pe, x.frame = .peer pe →
    ∃ original, f = .peer original ∧ pe = { original with senderPubkey := c.boundUserPub }

section Frames

variable {s s' : RelayServer L} {fd : Fd} {c : Conn} {draws : RelayDraws} {f : Frame B}
  {writes : List (Write B)}

/-- A frame that leaves the queue and forwards nothing. -/
theorem Traced.ofPlain (offline : s'.relay.offline = s.relay.offline)
    (persistent : s'.relay.persistent = s.relay.persistent)
    (plain : ∀ x ∈ writes, x.frame.forwards = false) : Traced O s c f s' writes where
  queue _ queued := .inl (queued.of_eq offline persistent)
  envelopes x member env frame := by
    have none := plain x member
    rw [frame] at none
    cases none
  peers x member pe frame := by
    have none := plain x member
    rw [frame] at none
    cases none

theorem plain_nil : ∀ x ∈ ([] : List (Write B)), x.frame.forwards = false := List.forall_mem_nil _

theorem plain_one {x : Write B} (plain : x.frame.forwards = false) :
    ∀ y ∈ [x], y.frame.forwards = false := by
  intro y member
  rw [List.mem_singleton.mp member]
  exact plain

theorem plain_roster (s : RelayServer L) (roomId : Bytes) :
    ∀ x ∈ (s.broadcastRoomRoster roomId : List (Write B)), x.frame.forwards = false := by
  intro x member
  obtain ⟨member_fd, -, rfl⟩ := List.mem_map.mp member
  rfl

theorem traced_hello (challenge pubkey username : Bytes) :
    Traced O s c f (s.onHello (B := B) fd c challenge pubkey username).1
      (s.onHello fd c challenge pubkey username).2 := by
  unfold RelayServer.onHello
  split
  · exact .ofPlain rfl rfl plain_nil
  · split
    · exact .ofPlain rfl rfl (plain_one rfl)
    · simp only
      split <;> exact .ofPlain rfl rfl (plain_one rfl)

theorem traced_signIn : Traced O s c f (s.signIn O fd c).1 (s.signIn O fd c).2 where
  queue bytes queued :=
    -- the book is not the queue
    .inl ((queued_drainOffline queued).of_eq rfl rfl)
  envelopes x member env frame := by
    obtain ⟨env', inside, rfl⟩ := List.mem_map.mp member
    obtain rfl := Frame.envelope.inj frame
    obtain ⟨bytes, drained, decoded⟩ := List.mem_filterMap.mp inside
    exact .inr ⟨bytes, (queued_of_drained drained).of_eq rfl rfl, decoded⟩
  peers x member pe frame := by
    obtain ⟨env', -, rfl⟩ := List.mem_map.mp member
    cases frame

theorem traced_helloAck (signature : Bytes) :
    Traced O s c f (s.onHelloAck O fd c signature).1 (s.onHelloAck O fd c signature).2 := by
  unfold RelayServer.onHelloAck
  split
  · exact .ofPlain rfl rfl plain_nil
  split
  · exact .ofPlain rfl rfl plain_nil
  split
  · exact .ofPlain rfl rfl plain_nil
  split
  · simp only
    split
    · -- registering the name has not touched the queue
      exact ⟨traced_signIn.queue, traced_signIn.envelopes, traced_signIn.peers⟩
    · exact .ofPlain rfl rfl (plain_one rfl)
  · exact traced_signIn

theorem traced_channel (clock : UInt64) (env : Envelope) (groupId : Bytes) :
    Traced O s c (.envelope env) (s.onChannelEnvelope O fd c clock env groupId).1
      (s.onChannelEnvelope O fd c clock env groupId).2 := by
  obtain ⟨-, relay, -⟩ := onChannelEnvelope_quiet O s fd c clock env groupId
  refine ⟨?_, ?_, ?_⟩
  · intro bytes queued
    rw [relay] at queued
    exact .inl queued
  · unfold RelayServer.onChannelEnvelope
    simp only
    intro x member env' frame
    split at member
    · cases member
    · split at member
      · cases member
      · obtain ⟨sfd, -, rfl⟩ := List.mem_map.mp member
        exact .inl ⟨env, rfl, (Frame.envelope.inj frame).symm⟩
  · unfold RelayServer.onChannelEnvelope
    simp only
    intro x member pe frame
    split at member
    · cases member
    · split at member
      · cases member
      · obtain ⟨sfd, -, rfl⟩ := List.mem_map.mp member
        cases frame

theorem traced_direct {env : Envelope} {recipient : Bytes}
    (done : s.onDirectEnvelope O fd c draws env recipient = .ok (s', writes)) :
    Traced O s c (.envelope env) s' writes := by
  obtain ⟨-, relay, -⟩ := consume_frame (O := O) s c draws.clock env
  unfold RelayServer.onDirectEnvelope at done
  simp only at done
  split at done
  · cases done
    exact .ofPlain (congrArg Relay.offline relay) (congrArg Relay.persistent relay) (plain_one rfl)
  · split at done
    · split at done
      · cases done
        refine ⟨?_, ?_, ?_⟩
        · intro bytes queued
          rw [relay] at queued
          exact .inl queued
        · intro x member env' frame
          rw [List.mem_singleton.mp member] at frame
          exact .inl ⟨env, rfl, (Frame.envelope.inj frame).symm⟩
        · intro x member pe frame
          rw [List.mem_singleton.mp member] at frame
          cases frame
      · cases done
        exact .ofPlain (congrArg Relay.offline relay) (congrArg Relay.persistent relay) plain_nil
    · split at done
      · cases done
      next enqueued =>
        cases done
        -- the recipient is away: the stamped envelope waits
        refine ⟨?_, by simp, by simp⟩
        intro bytes queued
        rcases queued_enqueueOffline enqueued queued with before | rfl
        · rw [relay] at before
          exact .inl before
        · exact .inr ⟨env, rfl, rfl⟩

theorem frame_onPeer {pe : PeerEnvelope} {x : Write B} (written : x ∈ s.onPeer O fd c pe) :
    x.frame = .peer { pe with senderPubkey := c.boundUserPub } := by
  unfold RelayServer.onPeer at written
  simp only at written
  split at written
  · obtain ⟨entry, -, rfl⟩ := List.mem_map.mp written
    rfl
  · split at written
    · split at written
      · rw [List.mem_singleton.mp written]
      · cases written
    · cases written

theorem traced_peer (pe : PeerEnvelope) : Traced O s c (.peer pe) s (s.onPeer O fd c pe) where
  queue _ queued := .inl queued
  envelopes x member env frame := by
    rw [frame_onPeer member] at frame
    cases frame
  peers x member pe' frame := by
    rw [frame_onPeer member] at frame
    exact ⟨pe, rfl, (Frame.peer.inj frame).symm⟩

theorem traced_dispatch (done : s.dispatch O fd c draws f = .ok (s', writes)) :
    Traced O s c f s' writes := by
  cases f with
  | hello pubkey username =>
    obtain ⟨rfl, rfl⟩ := Prod.ext_iff.mp (Except.ok.inj done)
    exact traced_hello draws.challenge pubkey username
  | helloAck signature =>
    obtain ⟨rfl, rfl⟩ := Prod.ext_iff.mp (Except.ok.inj done)
    exact traced_helloAck signature
  | keyFetch username requestId =>
    obtain ⟨rfl, rfl⟩ := Prod.ext_iff.mp (Except.ok.inj done)
    obtain ⟨-, relay, -⟩ := onKeyFetch_quiet O s fd username requestId
    refine .ofPlain (congrArg Relay.offline relay) (congrArg Relay.persistent relay) ?_
    unfold RelayServer.onKeyFetch
    simp only
    split <;> exact plain_one rfl
  | roomJoin roomId uplinkClass =>
    simp only [RelayServer.dispatch] at done
    split at done <;> cases done
    · exact .ofPlain rfl rfl plain_nil
    · exact .ofPlain rfl rfl (plain_roster _ _)
  | roomLeave roomId =>
    simp only [RelayServer.dispatch] at done
    split at done <;> cases done
    · exact .ofPlain rfl rfl plain_nil
    · exact .ofPlain rfl rfl (plain_roster _ _)
  | envelope env =>
    simp only [RelayServer.dispatch] at done
    split at done
    next groupId recipient =>
      obtain ⟨rfl, rfl⟩ := Prod.ext_iff.mp (Except.ok.inj done)
      exact traced_channel draws.clock env groupId
    · exact traced_direct done
    · cases done
      exact .ofPlain rfl rfl plain_nil
  | peer pe =>
    cases done
    exact traced_peer pe
  | usernameLookup pubkey =>
    obtain ⟨rfl, rfl⟩ := Prod.ext_iff.mp (Except.ok.inj done)
    obtain ⟨-, relay, -⟩ := onUsernameLookup_quiet O s fd pubkey
    refine .ofPlain (congrArg Relay.offline relay) (congrArg Relay.persistent relay) ?_
    unfold RelayServer.onUsernameLookup
    split <;> exact plain_one rfl
  | registerReq claimPubkey claimUsername =>
    obtain ⟨rfl, rfl⟩ := Prod.ext_iff.mp (Except.ok.inj done)
    obtain ⟨-, relay, -⟩ := onRegisterReq_quiet (B := B) s fd c claimPubkey claimUsername
    refine .ofPlain (congrArg Relay.offline relay) (congrArg Relay.persistent relay) ?_
    unfold RelayServer.onRegisterReq
    split <;> exact plain_one rfl
  | chanSubscribe groupId =>
    simp only [RelayServer.dispatch] at done
    split at done <;> cases done <;> exact .ofPlain rfl rfl plain_nil
  | chanUnsubscribe groupId =>
    simp only [RelayServer.dispatch] at done
    split at done <;> cases done <;> exact .ofPlain rfl rfl plain_nil
  | _ =>
    cases done
    exact .ofPlain rfl rfl plain_nil

/-- A connection that is closed leaves the queue, and its rooms get new rosters. -/
theorem closeConn_plain (done : s.closeConn O fd = .ok (s', writes)) :
    s'.relay.offline = s.relay.offline ∧ s'.relay.persistent = s.relay.persistent ∧
      ∀ x ∈ writes, x.frame.forwards = false := by
  obtain ⟨⟨bufs, rfl⟩, rosters⟩ := closeConn_ok done
  have unbound : (s.relay.unbind fd).offline = s.relay.offline ∧
      (s.relay.unbind fd).persistent = s.relay.persistent := by
    unfold Relay.unbind
    split <;> exact ⟨rfl, rfl⟩
  refine ⟨unbound.1, unbound.2, ?_⟩
  intro x member
  obtain ⟨t, roomId, inside⟩ := rosters x member
  exact plain_roster _ _ x inside

/-- Rosters at the end change nothing. -/
theorem Traced.thenPlain {t : RelayServer L} {goodbyes : List (Write B)}
    (traced : Traced O s c f t writes) (offline : s'.relay.offline = t.relay.offline)
    (persistent : s'.relay.persistent = t.relay.persistent)
    (plain : ∀ x ∈ goodbyes, x.frame.forwards = false) :
    Traced O s c f s' (writes ++ goodbyes) where
  queue bytes queued := traced.queue bytes (queued.of_eq offline persistent)
  envelopes x member env frame := by
    rcases List.mem_append.mp member with first | last
    · exact traced.envelopes x first env frame
    · have none := plain x last
      rw [frame] at none
      cases none
  peers x member pe frame := by
    rcases List.mem_append.mp member with first | last
    · exact traced.peers x first pe frame
    · have none := plain x last
      rw [frame] at none
      cases none

/-- A frame that is looked at: it passes the gate and is dispatched. -/
theorem traced_handleFrame {bytes : Bytes}
    (done : s.handleFrame O fd c draws bytes = .ok (s', writes)) :
    (s'.relay = s.relay ∧ writes = []) ∨
      ∃ f, O.frame.decode bytes = some f ∧ (c.authenticated = true ∨ f.beforeAuth = true) ∧
        Traced O s c f s' writes := by
  cases handledFrame done with
  | malformed | early => exact .inl ⟨rfl, rfl⟩
  | dispatched decoded heard dispatched =>
    have traced := traced_dispatch dispatched
    exact .inr ⟨_, decoded, heard, traced.queue, traced.envelopes, traced.peers⟩

/-- A step forwards nothing, or what a frame on some connection tells it to. -/
theorem step_traced {event : RelayEvent} (done : s.step O event = .ok (s', writes)) :
    (s'.relay.offline = s.relay.offline ∧ s'.relay.persistent = s.relay.persistent ∧
      ∀ x ∈ writes, x.frame.forwards = false) ∨
    ∃ fd bytes draws c f, event = .frame fd bytes draws ∧ s.conns.lookup fd = some c ∧
      O.frame.decode bytes = some f ∧ (c.authenticated = true ∨ f.beforeAuth = true) ∧
      Traced O s c f s' writes := by
  cases stepTaken done with
  | frame at_fd handled =>
    rcases traced_handleFrame handled with ⟨relay, rfl⟩ | ⟨f, decoded, gate, traced⟩
    · exact .inl ⟨congrArg Relay.offline relay, congrArg Relay.persistent relay, plain_nil⟩
    · exact .inr ⟨_, _, _, _, f, rfl, at_fd, decoded, gate, traced⟩
  | frameClosed at_fd handled closed =>
    obtain ⟨offline, persistent, plain⟩ := closeConn_plain closed
    rcases traced_handleFrame handled with ⟨relay, rfl⟩ | ⟨f, decoded, gate, traced⟩
    · rw [relay] at offline persistent
      exact .inl ⟨offline, persistent, plain⟩
    · exact .inr ⟨_, _, _, _, f, rfl, at_fd, decoded, gate,
        traced.thenPlain offline persistent plain⟩
  | closed done => exact .inl (closeConn_plain done)
  | accepted | frameUnknown | closedUnknown | flushed => exact .inl ⟨rfl, rfl, plain_nil⟩

end Frames

/-! ### Runs -/

section Runs

variable {p p' : Posted L} {sent : List Sent} {env : Envelope}

theorem Forwarded.mono (forwarded : Forwarded O sent env) (more : List Sent) :
    Forwarded O (sent ++ more) env := by
  obtain ⟨e, member, rest⟩ := forwarded
  exact ⟨e, List.mem_append_left more member, rest⟩

/-- The stamp is the key of the connection, or an empty sender stays empty. -/
theorem forwarded_stamped {c : Conn} {heard : Handshake} (bound : c.boundUserPub ≠ [])
    (proved : heard.Proves O c.boundUserPub) (member : ⟨c.boundUserPub, heard, env⟩ ∈ sent) :
    Forwarded O sent (RelayServer.stamped c env) := by
  refine ⟨_, member, proved, ?_⟩
  unfold RelayServer.stamped
  split
  · exact ⟨.inr rfl, rfl⟩
  next empty =>
    -- the connection has a key, so it is the envelope that names nobody
    have unnamed : env.senderPubkey = [] := by
      by_contra named
      exact empty ⟨bound, named⟩
    exact ⟨.inl unnamed, rfl⟩

structure Posted.Inv (O : RelayOutside B L) (p : Posted L) : Prop where
  watched : p.watched.Inv O
  queue : ∀ bytes, p.watched.server.relay.Queued bytes →
    ∃ env, bytes = O.envelope.encode env ∧ Forwarded O p.sent env

/-- What a step writes. -/
structure Stamps (O : RelayOutside B L) (w : Watched L) (event : Option RelayEvent)
    (sent : List Sent) (x : Write B) : Prop where
  envelope : ∀ env, x.frame = .envelope env → Forwarded O sent env
  peer : ∀ pe, x.frame = .peer pe → ∃ fd bytes draws c original,
    event = some (.frame fd bytes draws) ∧ w.server.conns.lookup fd = some c ∧
      c.authenticated = true ∧ (w.heard fd).Proves O c.boundUserPub ∧
      O.frame.decode bytes = some (.peer original) ∧
      pe = { original with senderPubkey := c.boundUserPub }

/-- An envelope frame that gets past the gate is sent by its connection. -/
theorem Posted.Inv.sends (inv : p.Inv O) {fd : Fd} {bytes : Bytes} {draws : RelayDraws} {c : Conn}
    (at_fd : p.watched.server.conns.lookup fd = some c)
    (decoded : O.frame.decode bytes = some (.envelope env)) (authenticated : c.authenticated = true) :
    Forwarded O (p.sent ++ p.watched.sends O (.frame fd bytes draws))
      (RelayServer.stamped c env) := by
  obtain ⟨-, size, proved⟩ := (inv.watched.genuine fd c at_fd).bound authenticated
  refine forwarded_stamped ?_ proved ?_
  · intro unbound
    rw [unbound] at size
    cases size
  · apply List.mem_append_right
    simp [Watched.sends, at_fd, decoded, authenticated]

theorem Posted.Inv.served {w' : Watched L} {event : RelayEvent} {writes : List (Write B)}
    (inv : p.Inv O) (taken : Guarded (Watched.Step O) Watched.FdUnused p.watched (event, writes) w') :
    Posted.Inv O ⟨w', p.sent ++ p.watched.sends O event⟩ ∧
      ∀ x ∈ writes, Stamps O p.watched (some event) (p.sent ++ p.watched.sends O event) x := by
  obtain ⟨unused, done, heard⟩ := taken
  have watched := (inv.watched.step unused ⟨done, heard⟩).1
  rcases step_traced done with ⟨offline, persistent, plain⟩ |
    ⟨fd, bytes, draws, c, f, rfl, at_fd, decoded, gate, traced⟩
  · refine ⟨⟨watched, ?_⟩, ?_⟩
    · intro bytes queued
      obtain ⟨env, encoded, forwarded⟩ := inv.queue bytes (queued.of_eq offline persistent)
      exact ⟨env, encoded, forwarded.mono _⟩
    · intro x member
      have none := plain x member
      constructor
      · intro env frame
        rw [frame] at none
        cases none
      · intro pe frame
        rw [frame] at none
        cases none
  · -- frames that forward are looked at only from authenticated connections
    have authenticated (later : f.beforeAuth = false) : c.authenticated = true := by
      rcases gate with yes | first
      · exact yes
      · rw [later] at first
        cases first
    refine ⟨⟨watched, ?_⟩, ?_⟩
    · intro waiting queued
      rcases traced.queue waiting queued with before | ⟨env, rfl, rfl⟩
      · obtain ⟨env, encoded, forwarded⟩ := inv.queue waiting before
        exact ⟨env, encoded, forwarded.mono _⟩
      · exact ⟨_, rfl, inv.sends at_fd decoded (authenticated rfl)⟩
    · intro x member
      constructor
      · intro env frame
        rcases traced.envelopes x member env frame with ⟨original, rfl, rfl⟩ | ⟨waiting, queued, parsed⟩
        · exact inv.sends at_fd decoded (authenticated rfl)
        · -- what has waited parses to what was stamped then
          obtain ⟨env', rfl, forwarded⟩ := inv.queue waiting queued
          rw [Codec.decode_encode, Option.some.injEq] at parsed
          subst parsed
          exact forwarded.mono _
      · intro pe frame
        obtain ⟨original, rfl, rfl⟩ := traced.peers x member pe frame
        have proved := ((inv.watched.genuine fd c at_fd).bound (authenticated rfl)).2.2
        exact ⟨fd, bytes, draws, c, original, rfl, at_fd, authenticated rfl, proved, decoded, rfl⟩

/-- The table keeps what waits. -/
theorem Posted.Inv.restarted (inv : p.Inv O) (limiter : L) :
    Posted.Inv O ⟨.boot p.watched.server.tables limiter, p.sent⟩ := by
  refine ⟨Watched.boot_inv _ _, ?_⟩
  intro bytes queued
  apply inv.queue
  rcases queued with ⟨user, q, found, -⟩ | ⟨db, there, row⟩
  · cases found
  · -- all three tables are there, or the server starts with none
    refine .inr ⟨db, ?_, row⟩
    simp only [Watched.boot, RelayServer.boot, Relay.fresh, RelayServer.tables] at there
    split at there
    next offline names bundles table _ _ =>
      rw [table]
      exact there
    · cases there

theorem Posted.Inv.step {label : Option RelayEvent × List (Write B)} (inv : p.Inv O)
    (taken : PostedStep O p label p') :
    p'.Inv O ∧ ∀ x ∈ label.2, Stamps O p.watched label.1 p'.sent x := by
  cases taken with
  | served taken => exact inv.served taken
  | restarted limiter => exact ⟨inv.restarted limiter, List.forall_mem_nil _⟩

end Runs

/-- In every run, over any restarts, everything in the queue and every envelope and peer
envelope that is written is as it was sent, under no name or under the key that its sender
has proved. -/
theorem senders_never_forged (O : RelayOutside B L)
    (db : Option (SrvOffline × SrvDirectory × Map Bytes Bytes)) (limiter : L)
    (empty : ∀ tables, db = some tables → tables.1.rows = [])
    (labels : List (Option RelayEvent × List (Write B))) (p : Posted L)
    (run : Run (PostedStep O) (Posted.boot db limiter) labels p) :
    (∀ bytes, p.watched.server.relay.Queued bytes →
      ∃ env, bytes = O.envelope.encode env ∧ Forwarded O p.sent env) ∧
    ∀ label p', PostedStep O p label p' →
      ∀ x ∈ label.2, Stamps O p.watched label.1 p'.sent x := by
  have initial : (Posted.boot db limiter).Inv O := by
    refine ⟨Watched.boot_inv db limiter, ?_⟩
    rintro bytes (⟨user, q, found, -⟩ | ⟨offline, there, row, member, -⟩)
    · cases found
    · cases db with
      | none => cases there
      | some tables =>
        cases there
        rw [empty tables rfl] at member
        cases member
  have inv : p.Inv O := run.invariant (Posted.Inv O) (fun _ _ _ inv taken => (inv.step taken).1) initial
  exact ⟨inv.queue, fun label p' taken => (inv.step taken).2⟩

/-! ### A forged sender -/

/-- A run of the server, with what is sent in it. -/
theorem exists_posted {w w' : Watched L} {labels : List (RelayEvent × List (Write B))}
    (run : Run (Guarded (Watched.Step O) Watched.FdUnused) w labels w') (sent : List Sent) :
    ∃ sent', Run (PostedStep O) ⟨w, sent⟩ (labels.map fun label => (some label.1, label.2))
      ⟨w', sent'⟩ := by
  induction run generalizing sent with
  | nil w => exact ⟨sent, .nil _⟩
  | @cons w u w' label labels taken _ ih =>
    obtain ⟨sent', rest⟩ := ih (sent ++ w.sends O label.1)
    exact ⟨sent', .cons (.served taken) rest⟩

/-- A user writes in the name of another one to somebody who is away. What waits then is in
the user's own name. -/
theorem senders_never_forged_note : ∃ labels p env,
    Run (PostedStep plainRelay) (Posted.boot none ()) labels p ∧
    p.watched.server.relay.Queued (plainRelay.envelope.encode env) ∧ env.senderPubkey = owner ∧
    Forwarded plainRelay p.sent env := by
  obtain ⟨labels, w, run, at_fd, -, relay⟩ := exists_login none
  let away : Bytes := List.replicate 32 3
  let note : Envelope := ⟨[], 0, List.replicate 32 4, [42], [], 0, 0, [], [], .userPubkey away⟩
  let stored : Relay := { w.server.relay with
    offline := w.server.relay.offline.insert away
      [plainRelay.envelope.encode { note with senderPubkey := owner }] }
  have queued : w.server.dispatch plainRelay 5 signedIn ⟨nonce, 0, 0⟩ (.envelope note) =
      .ok ({ w.server with relay := stored }, []) := by
    have admitted : w.server.consume plainRelay signedIn 0 note = (w.server, true) := rfl
    have absent : w.server.relay.lookup away = none := by
      rw [relay]
      rfl
    have enqueued : w.server.relay.enqueueOffline (Span.ofVector away)
        (plainRelay.envelope.encode (RelayServer.stamped signedIn note)) 0 = .ok stored := by
      simp only [stored, relay]
      rfl
    change w.server.onDirectEnvelope plainRelay 5 signedIn ⟨nonce, 0, 0⟩ note away = _
    simp only [RelayServer.onDirectEnvelope, admitted, absent, enqueued]
    rfl
  obtain ⟨t, taken, -, kept, -⟩ := step_frame at_fd (.inl rfl) queued
    (List.forall_mem_nil _) (by rw [at_fd]; rfl)
  obtain ⟨sent, posted⟩ := exists_posted run []
  have step : Guarded (Watched.Step plainRelay) Watched.FdUnused w
      (.frame 5 (plainRelay.frame.encode (.envelope note)) ⟨nonce, 0, 0⟩, []) ⟨t, _⟩ :=
    ⟨by simp [Watched.FdUnused], taken, rfl⟩
  have whole := posted.append (.cons (.served step) (.nil _))
  have waits : t.relay.Queued (plainRelay.envelope.encode { note with senderPubkey := owner }) := by
    rw [kept]
    exact .inl ⟨away, _, AList.lookup_insert _, List.mem_singleton_self _⟩
  obtain ⟨env, encoded, forwarded⟩ :=
    (senders_never_forged plainRelay none () (by simp) _ _ whole).1 _ waits
  refine ⟨_, _, env, whole, ?_, ?_, forwarded⟩
  · rw [← encoded]
    exact waits
  · rw [← plainRelay.envelope.encode_injective encoded]

end FinBit.Server
