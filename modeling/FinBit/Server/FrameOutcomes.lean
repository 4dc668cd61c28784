import Mathlib.Logic.Function.Basic
import FinBit.Server.RelayServer

/-! # What a frame can do

One theorem for each handler of the relay, and one for all of them: a frame leaves its
connection's identity as it was, or is a ClientHello that is refused or answered, or a
HelloAck that is accepted. Everything about whole runs is derived from these four ways.
-/

namespace FinBit.Server

open FinBit.Lib

variable {B L : Type} (O : RelayOutside B L)

/-- The challenge in what is written to a connection. -/
def issuedIn (fd : Fd) (writes : List (Write B)) : Option Bytes :=
  writes.findSome? fun w =>
    match w.frame with
    | .serverHello true _ serverRandom => if w.fd = fd then some serverRandom else none
    | _ => none

/-! ### Taking steps apart

Everything that `handle_frame`, `close_conn` and the event loop can do when they return. -/

section Inversion

variable {O} {s s' : RelayServer L} {fd : Fd} {c : Conn} {draws : RelayDraws} {bytes : Bytes}
  {writes : List (Write B)}

/-- Writing changes write buffers and nothing else. -/
theorem foldlM_enqueueWrite_bufs
    (done : writes.foldlM (RelayServer.enqueueWrite O) s = .ok s') :
    ∃ bufs, s' = { s with writeBufs := bufs } := by
  induction writes generalizing s with
  | nil =>
    cases done
    exact ⟨s'.writeBufs, rfl⟩
  | cons w rest ih =>
    rw [List.foldlM_cons] at done
    obtain ⟨t, first, others⟩ := bind_eq_ok.mp done
    obtain ⟨bufs, rfl⟩ := ih others
    refine ⟨bufs, ?_⟩
    unfold RelayServer.enqueueWrite at first
    split at first
    · cases first
      rfl
    · simp only at first
      split at first <;> cases first
      rfl

/-- The ways through `handle_frame`. -/
inductive HandledFrame (O : RelayOutside B L) (s : RelayServer L) (fd : Fd) (c : Conn)
    (draws : RelayDraws) (bytes : Bytes) : RelayServer L → List (Write B) → Prop
  | malformed (undecoded : O.frame.decode bytes = none) :
      HandledFrame O s fd c draws bytes (s.setConn fd { c with wantsClose := true }) []
  /-- Before the sign-in most frames are not looked at. -/
  | early {f : Frame B} (decoded : O.frame.decode bytes = some f) (later : f.beforeAuth = false) :
      HandledFrame O s fd c draws bytes s []
  | dispatched {f : Frame B} {t : RelayServer L} {writes : List (Write B)}
      (decoded : O.frame.decode bytes = some f)
      (heard : c.authenticated = true ∨ f.beforeAuth = true)
      (done : s.dispatch O fd c draws f = .ok (t, writes)) (bufs : Map Fd Bytes) :
      HandledFrame O s fd c draws bytes { t with writeBufs := bufs } writes

theorem handledFrame (done : s.handleFrame O fd c draws bytes = .ok (s', writes)) :
    HandledFrame O s fd c draws bytes s' writes := by
  unfold RelayServer.handleFrame at done
  split at done
  next undecoded =>
    cases done
    exact .malformed undecoded
  next f decoded =>
    split at done
    next early =>
      cases done
      exact .early decoded early.2
    next gate =>
      rw [not_and_or, Bool.not_eq_false, Bool.not_eq_false] at gate
      split at done
      · cases done
      next t first dispatched =>
        split at done
        · cases done
        next written =>
          cases done
          obtain ⟨bufs, rfl⟩ := foldlM_enqueueWrite_bufs written
          exact .dispatched decoded gate dispatched bufs

/-- What `close_conn` leaves, and that it writes nothing but rosters. -/
theorem closeConn_ok (done : s.closeConn O fd = .ok (s', writes)) :
    (∃ bufs, s' = { s with
      relay := ((s.relay.unbind fd).unbindAllChannels fd).unbindAllRooms fd
      registered := s.registered.filter (· ≠ fd)
      conns := s.conns.erase fd
      writeBufs := bufs }) ∧
    ∀ x ∈ writes, ∃ (t : RelayServer L) (roomId : Bytes), x ∈ t.broadcastRoomRoster roomId := by
  unfold RelayServer.closeConn at done
  dsimp only at done
  split at done
  · cases done
  next written =>
    cases done
    obtain ⟨bufs, rfl⟩ := foldlM_enqueueWrite_bufs written
    refine ⟨⟨bufs, rfl⟩, fun x member => ?_⟩
    obtain ⟨roomId, -, inside⟩ := List.mem_flatMap.mp member
    exact ⟨_, roomId, inside⟩

/-- The ways through a step of the event loop. -/
inductive StepTaken (O : RelayOutside B L) (s : RelayServer L) :
    RelayEvent → RelayServer L → List (Write B) → Prop
  | accepted (fd : Fd) (transport : Transport) :
      StepTaken O s (.accept fd transport) { s with
        conns := if (s.conns.lookup fd).isSome then s.conns
          else s.conns.insert fd (Conn.accepted transport)
        registered := Membership.note fd s.registered } []
  | frameUnknown {fd : Fd} (bytes : Bytes) (draws : RelayDraws)
      (absent : s.conns.lookup fd = none) : StepTaken O s (.frame fd bytes draws) s []
  | frame {fd : Fd} {bytes : Bytes} {draws : RelayDraws} {c : Conn} {t : RelayServer L}
      {writes : List (Write B)} (at_fd : s.conns.lookup fd = some c)
      (handled : s.handleFrame O fd c draws bytes = .ok (t, writes))
      (stays : ∀ c', t.conns.lookup fd = some c' → c'.wantsClose = false) :
      StepTaken O s (.frame fd bytes draws) t writes
  /-- The connection wants to close after its frame. -/
  | frameClosed {fd : Fd} {bytes : Bytes} {draws : RelayDraws} {c : Conn} {t u : RelayServer L}
      {writes goodbyes : List (Write B)} (at_fd : s.conns.lookup fd = some c)
      (handled : s.handleFrame O fd c draws bytes = .ok (t, writes))
      (closed : t.closeConn O fd = .ok (u, goodbyes)) :
      StepTaken O s (.frame fd bytes draws) u (writes ++ goodbyes)
  | closedUnknown {fd : Fd} (absent : s.conns.lookup fd = none) : StepTaken O s (.closed fd) s []
  | closed {fd : Fd} {t : RelayServer L} {writes : List (Write B)}
      (done : s.closeConn O fd = .ok (t, writes)) : StepTaken O s (.closed fd) t writes
  | flushed (fd : Fd) (count : Nat) (bufs : Map Fd Bytes) :
      StepTaken O s (.flushed fd count) { s with writeBufs := bufs } []

theorem stepTaken {event : RelayEvent} (done : s.step O event = .ok (s', writes)) :
    StepTaken O s event s' writes := by
  cases event with
  | accept fd transport =>
    cases done
    exact .accepted fd transport
  | frame fd bytes draws =>
    simp only [RelayServer.step] at done
    split at done
    next absent =>
      cases done
      exact .frameUnknown bytes draws absent
    next c at_fd =>
      split at done
      · cases done
      next t first handled =>
        split at done
        · split at done
          · cases done
          next closed =>
            cases done
            exact .frameClosed at_fd handled closed
        next stays =>
          cases done
          refine .frame at_fd handled fun c' there => ?_
          simpa [there] using stays
  | closed fd =>
    simp only [RelayServer.step] at done
    split at done
    next absent =>
      cases done
      exact .closedUnknown absent
    · exact .closed done
  | flushed fd count =>
    simp only [RelayServer.step] at done
    split at done
    · cases done
      exact .flushed fd count s.writeBufs
    · cases done
      exact .flushed fd count _

end Inversion

/-! ### Four ways -/

/-- The fields of a connection that say who it is. -/
def SameIdentity (c c' : Conn) : Prop :=
  c'.claimedUserPub = c.claimedUserPub ∧ c'.boundUserPub = c.boundUserPub ∧
    c'.challenge = c.challenge ∧ c'.challengeIssued = c.challengeIssued ∧
    c'.authenticated = c.authenticated

/-- The body is an envelope. -/
def Frame.isEnvelope : Frame B → Bool
  | .envelope _ => true
  | _ => false

theorem Frame.ne_hello {f : Frame B} (later : f.beforeAuth = false) (pubkey username : Bytes) :
    f ≠ .hello pubkey username := by
  rintro rfl
  cases later

/-- The two maps of the connection book. -/
def SameBook (r r' : Relay) : Prop := r'.userToFd = r.userToFd ∧ r'.fdToUser = r.fdToUser

/-- No mail is among the frames. -/
def NoMail (writes : List (Write B)) : Prop :=
  ∀ w ∈ writes, ∀ user, w.cause ≠ .direct user ∧ w.cause ≠ .drained user

/-- The ways through the `switch`: who the connection is stays as it was, or a
ClientHello is refused or answered, or a HelloAck is accepted. -/
inductive Outcome (s : RelayServer L) (fd : Fd) (c : Conn) (draws : RelayDraws) (f : Frame B)
    (s' : RelayServer L) (writes : List (Write B)) : Prop
  | kept (c' : Conn) (same : SameIdentity c c') (conns : s'.conns.lookup = Function.update
      s.conns.lookup fd (some c')) (book : SameBook s.relay s'.relay)
      (notHello : ∀ pubkey username, f ≠ .hello pubkey username)
      (routed : ∀ w ∈ writes, ∀ user, (w.cause = .direct user →
        s.relay.userToFd.lookup user = some w.fd) ∧ w.cause ≠ .drained user)
  | refused (c' : Conn) (closes : c'.wantsClose = true) (conns : s'.conns.lookup = Function.update
      s.conns.lookup fd (some c')) (book : SameBook s.relay s'.relay) (silent : NoMail writes)
  | challenged (c' : Conn) (unbound : c.authenticated = false ∧ c.boundUserPub = [])
      (same : c'.boundUserPub = c.boundUserPub ∧ c'.authenticated = false)
      (armed : c'.challengeIssued = true ∧ issuedIn fd writes = some c'.challenge)
      (hello : ∃ pubkey username, f = .hello pubkey username)
      (conns : s'.conns.lookup = Function.update s.conns.lookup fd (some c'))
      (book : SameBook s.relay s'.relay) (silent : NoMail writes)
  | admitted (c' : Conn) (signature : Bytes) (ack : f = .helloAck signature)
      (armed : c.challengeIssued = true) (size : c.claimedUserPub.length = 32)
      (verified : O.verify c.claimedUserPub c.challenge signature = true)
      (identity : c' = { c with boundUserPub := c.claimedUserPub, authenticated := true })
      (conns : s'.conns.lookup = Function.update s.conns.lookup fd (some c'))
      (book : SameBook (s.relay.bind fd c.claimedUserPub) s'.relay)
      (drained : ∀ w ∈ writes, w.fd = fd ∧ w.cause = .drained c.claimedUserPub)

section Handlers

variable {O} {s s' : RelayServer L} {fd : Fd} {c : Conn} {draws : RelayDraws}
  {writes : List (Write B)}

@[simp] theorem SameBook.refl (r : Relay) : SameBook r r := ⟨rfl, rfl⟩

theorem SameIdentity.refl (c : Conn) : SameIdentity c c := ⟨rfl, rfl, rfl, rfl, rfl⟩

theorem RelayServer.lookup_setConn (s : RelayServer L) (fd : Fd) (c : Conn) :
    (s.setConn fd c).conns.lookup = Function.update s.conns.lookup fd (some c) := by
  funext fd'
  by_cases here : fd' = fd
  · subst here
    rw [Function.update_self]
    exact AList.lookup_insert _
  · rw [Function.update_of_ne here]
    exact AList.lookup_insert_ne here

/-- A frame that only reads the connection. -/
theorem lookup_unchanged (at_fd : s.conns.lookup fd = some c) :
    s.conns.lookup = Function.update s.conns.lookup fd (some c) := by
  rw [← at_fd, Function.update_eq_self]

/-- A frame that leaves connections and book alone and sends no mail. -/
theorem Outcome.ofQuiet {f : Frame B} (at_fd : s.conns.lookup fd = some c)
    (conns : s'.conns = s.conns) (book : SameBook s.relay s'.relay)
    (notHello : ∀ pubkey username, f ≠ .hello pubkey username) (silent : NoMail writes) :
    Outcome O s fd c draws f s' writes := by
  apply Outcome.kept c (SameIdentity.refl c) _ book notHello
  · intro w member user
    obtain ⟨notDirect, notDrained⟩ := silent w member user
    exact ⟨fun direct => absurd direct notDirect, notDrained⟩
  · rw [conns]
    exact lookup_unchanged at_fd

theorem noMail_nil : NoMail ([] : List (Write B)) := by simp [NoMail]

theorem noMail_map {α : Type} (xs : List α) (write : α → Write B)
    (other : ∀ x user, (write x).cause ≠ .direct user ∧ (write x).cause ≠ .drained user) :
    NoMail (xs.map write) := by
  intro w member
  obtain ⟨x, -, rfl⟩ := List.mem_map.mp member
  exact other x

theorem noMail_roster (s : RelayServer L) (roomId : Bytes) :
    NoMail (s.broadcastRoomRoster roomId : List (Write B)) :=
  noMail_map _ _ (by simp)

theorem noMail_reply (frame : Frame B) : NoMail [⟨fd, .reply, frame⟩] := by simp [NoMail]

theorem onHello_outcome (pubkey username : Bytes) :
    Outcome O s fd c draws (.hello pubkey username)
      (s.onHello (B := B) fd c draws.challenge pubkey username).1
      (s.onHello fd c draws.challenge pubkey username).2 := by
  unfold RelayServer.onHello
  split
  next =>
    exact .refused { c with wantsClose := true } rfl (s.lookup_setConn fd _) (.refl _) noMail_nil
  next fresh =>
    have unbound : c.authenticated = false ∧ c.boundUserPub = [] := by simpa using fresh
    split
    next =>
      exact .refused { c with wantsClose := true } rfl (s.lookup_setConn fd _) (.refl _)
        (noMail_reply _)
    next =>
      split
      next => exact .refused _ rfl (s.lookup_setConn fd _) (.refl _) (noMail_reply _)
      next =>
        let armed : Conn := { c with
          claimedUserPub := pubkey
          claimedUsername := username
          challenge := draws.challenge
          challengeIssued := true
          authenticated := false }
        refine .challenged armed unbound ⟨rfl, rfl⟩ ⟨rfl, ?_⟩ ⟨pubkey, username, rfl⟩
          (s.lookup_setConn fd _) (.refl _) (noMail_reply _)
        simp [issuedIn, armed]

theorem sameBook_drainOffline (r : Relay) (user : Bytes) :
    SameBook r (r.drainOffline user).1 := by
  unfold Relay.drainOffline
  split
  · exact .refl _
  · split <;> exact .refl _

theorem sameBook_enqueueOffline {r r' : Relay} {user : Span} {envelope : Bytes} {nowMs : UInt64}
    (queued : r.enqueueOffline user envelope nowMs = .ok r') : SameBook r r' := by
  unfold Relay.enqueueOffline at queued
  split at queued
  · split at queued
    · cases queued
    · cases queued
      exact .refl _
  · cases queued
    exact .refl _

theorem signIn_outcome {signature : Bytes} (armed : c.challengeIssued = true)
    (size : c.claimedUserPub.length = 32)
    (verified : O.verify c.claimedUserPub c.challenge signature = true) (dir : Directory) :
    Outcome O s fd c draws (.helloAck signature) (({ s with dir := dir }).signIn O fd c).1
      (({ s with dir := dir }).signIn O fd c).2 := by
  refine .admitted _ signature rfl armed size verified rfl (s.lookup_setConn fd _)
    (sameBook_drainOffline _ _) ?_
  intro w member
  obtain ⟨env, -, rfl⟩ := List.mem_map.mp member
  exact ⟨rfl, rfl⟩

theorem onHelloAck_outcome (signature : Bytes) :
    Outcome O s fd c draws (.helloAck signature) (s.onHelloAck O fd c signature).1
      (s.onHelloAck O fd c signature).2 := by
  have closes (dir : Directory) {writes : List (Write B)} (silent : NoMail writes) :
      Outcome O s fd c draws (.helloAck signature)
        (({ s with dir := dir }).setConn fd { c with wantsClose := true }) writes :=
    .refused { c with wantsClose := true } rfl (s.lookup_setConn fd _) (.refl _) silent
  unfold RelayServer.onHelloAck
  split
  · exact closes s.dir noMail_nil
  next ready =>
    obtain ⟨armed, size⟩ : c.challengeIssued = true ∧ c.claimedUserPub.length = 32 := by
      simpa using ready
    split
    · exact closes s.dir noMail_nil
    split
    · exact closes s.dir noMail_nil
    next signed =>
      rw [Bool.not_eq_false] at signed
      split
      · simp only
        -- the name is registered or taken
        split
        · exact signIn_outcome armed size signed _
        · exact closes _ (noMail_reply _)
      · exact signIn_outcome armed size signed s.dir

theorem consume_frame (s : RelayServer L) (c : Conn) (clock : UInt64) (env : Envelope) :
    (s.consume O c clock env).1.conns = s.conns ∧ (s.consume O c clock env).1.relay = s.relay ∧
      (s.consume O c clock env).1.registered = s.registered := by
  unfold RelayServer.consume
  split <;> exact ⟨rfl, rfl, rfl⟩

theorem onKeyFetch_quiet (O : RelayOutside B L) (s : RelayServer L) (fd : Fd) (username : Bytes)
    (requestId : UInt64) :
    (s.onKeyFetch O fd username requestId).1.conns = s.conns ∧
      (s.onKeyFetch O fd username requestId).1.relay = s.relay ∧
      NoMail (s.onKeyFetch O fd username requestId).2 := by
  unfold RelayServer.onKeyFetch
  simp only
  split <;> exact ⟨rfl, rfl, noMail_reply _⟩

theorem onChannelEnvelope_quiet (O : RelayOutside B L) (s : RelayServer L) (fd : Fd) (c : Conn)
    (clock : UInt64) (env : Envelope) (groupId : Bytes) :
    (s.onChannelEnvelope O fd c clock env groupId).1.conns = s.conns ∧
      (s.onChannelEnvelope O fd c clock env groupId).1.relay = s.relay ∧
      NoMail (s.onChannelEnvelope O fd c clock env groupId).2 := by
  obtain ⟨conns, relay, -⟩ := consume_frame (O := O) s c clock env
  unfold RelayServer.onChannelEnvelope
  simp only
  split
  · exact ⟨conns, relay, noMail_nil⟩
  · split
    · exact ⟨conns, relay, noMail_nil⟩
    · exact ⟨conns, relay, noMail_map _ _ (by simp)⟩

theorem noMail_onPeer (pe : PeerEnvelope) : NoMail (s.onPeer O fd c pe) := by
  unfold RelayServer.onPeer
  simp only
  split
  · exact noMail_map _ _ (by simp)
  · split
    · split
      · simp [NoMail]
      · exact noMail_nil
    · exact noMail_nil

theorem onUsernameLookup_quiet (O : RelayOutside B L) (s : RelayServer L) (fd : Fd) (pubkey : Bytes) :
    (s.onUsernameLookup O fd pubkey).1.conns = s.conns ∧
      (s.onUsernameLookup O fd pubkey).1.relay = s.relay ∧
      NoMail (s.onUsernameLookup O fd pubkey).2 := by
  unfold RelayServer.onUsernameLookup
  split <;> exact ⟨rfl, rfl, noMail_reply _⟩

theorem onRegisterReq_quiet (s : RelayServer L) (fd : Fd) (c : Conn)
    (claimPubkey claimUsername : Bytes) :
    (s.onRegisterReq (B := B) fd c claimPubkey claimUsername).1.conns = s.conns ∧
      (s.onRegisterReq (B := B) fd c claimPubkey claimUsername).1.relay = s.relay ∧
      NoMail (s.onRegisterReq (B := B) fd c claimPubkey claimUsername).2 := by
  unfold RelayServer.onRegisterReq
  split <;> exact ⟨rfl, rfl, noMail_reply _⟩

theorem onDirectEnvelope_outcome (at_fd : s.conns.lookup fd = some c) {env : Envelope}
    {recipient : Bytes} (done : s.onDirectEnvelope O fd c draws env recipient = .ok (s', writes)) :
    Outcome O s fd c draws (.envelope env) s' writes := by
  obtain ⟨conns, relay, -⟩ := consume_frame (O := O) s c draws.clock env
  unfold RelayServer.onDirectEnvelope at done
  generalize s.consume O c draws.clock env = consumed at done conns relay
  obtain ⟨t, ok⟩ := consumed
  simp only at done conns relay
  have notHello : ∀ pubkey username, Frame.envelope env ≠ (.hello pubkey username : Frame B) :=
    Frame.ne_hello rfl
  have quiet {writes : List (Write B)} (silent : NoMail writes) :
      Outcome O s fd c draws (.envelope env) t writes :=
    .ofQuiet at_fd conns (relay ▸ .refl _) notHello silent
  split at done
  · cases done
    exact quiet (noMail_reply _)
  · split at done
    next dst here =>
      split at done
      next _ _ =>
        cases done
        -- the one place where a direct envelope is written
        refine .kept c (.refl c) ?_ (relay ▸ .refl _) notHello ?_
        · rw [conns]
          exact lookup_unchanged at_fd
        · intro w member user
          obtain rfl := List.mem_singleton.mp member
          refine ⟨?_, nofun⟩
          intro direct
          rw [← Cause.direct.inj direct, ← relay]
          exact here
      next =>
        cases done
        exact quiet noMail_nil
    next away =>
      -- nothing is written, the envelope goes into the queue
      split at done
      · cases done
      next relay' queued =>
        cases done
        refine .ofQuiet at_fd conns ?_ notHello noMail_nil
        rw [← relay]
        exact sameBook_enqueueOffline queued

theorem dispatch_outcome (at_fd : s.conns.lookup fd = some c) {f : Frame B}
    (done : s.dispatch O fd c draws f = .ok (s', writes)) :
    Outcome O s fd c draws f s' writes := by
  cases f with
  | hello pubkey username =>
    obtain ⟨rfl, rfl⟩ := Prod.ext_iff.mp (Except.ok.inj done)
    exact onHello_outcome pubkey username
  | helloAck signature =>
    obtain ⟨rfl, rfl⟩ := Prod.ext_iff.mp (Except.ok.inj done)
    exact onHelloAck_outcome signature
  | keyFetch username requestId =>
    obtain ⟨rfl, rfl⟩ := Prod.ext_iff.mp (Except.ok.inj done)
    obtain ⟨conns, relay, silent⟩ := onKeyFetch_quiet O s fd username requestId
    exact .ofQuiet at_fd conns (relay ▸ .refl _) (Frame.ne_hello rfl) silent
  | roomJoin roomId uplinkClass =>
    simp only [RelayServer.dispatch] at done
    split at done
    · cases done
      exact .ofQuiet at_fd rfl (.refl _) (Frame.ne_hello rfl) noMail_nil
    · cases done
      refine .kept { c with roomUplinkClass := uplinkClass } ⟨rfl, rfl, rfl, rfl, rfl⟩
        (s.lookup_setConn fd _) (.refl _) (Frame.ne_hello rfl) ?_
      intro w member user
      obtain ⟨notDirect, notDrained⟩ := noMail_roster _ _ w member user
      exact ⟨fun direct => absurd direct notDirect, notDrained⟩
  | roomLeave roomId =>
    simp only [RelayServer.dispatch] at done
    split at done
    · cases done
      exact .ofQuiet at_fd rfl (.refl _) (Frame.ne_hello rfl) noMail_nil
    · cases done
      exact .ofQuiet at_fd rfl (.refl _) (Frame.ne_hello rfl) (noMail_roster _ _)
  | envelope env =>
    simp only [RelayServer.dispatch] at done
    split at done
    next groupId _ =>
      obtain ⟨rfl, rfl⟩ := Prod.ext_iff.mp (Except.ok.inj done)
      obtain ⟨conns, relay, silent⟩ := onChannelEnvelope_quiet O s fd c draws.clock env
        groupId
      exact .ofQuiet at_fd conns (relay ▸ .refl _) (Frame.ne_hello rfl) silent
    · exact onDirectEnvelope_outcome at_fd done
    · cases done
      exact .ofQuiet at_fd rfl (.refl _) (Frame.ne_hello rfl) noMail_nil
  | peer pe =>
    cases done
    exact .ofQuiet at_fd rfl (.refl _) (Frame.ne_hello rfl) (noMail_onPeer pe)
  | usernameLookup pubkey =>
    obtain ⟨rfl, rfl⟩ := Prod.ext_iff.mp (Except.ok.inj done)
    obtain ⟨conns, relay, silent⟩ := onUsernameLookup_quiet O s fd pubkey
    exact .ofQuiet at_fd conns (relay ▸ .refl _) (Frame.ne_hello rfl) silent
  | registerReq claimPubkey claimUsername =>
    obtain ⟨rfl, rfl⟩ := Prod.ext_iff.mp (Except.ok.inj done)
    obtain ⟨conns, relay, silent⟩ := onRegisterReq_quiet (B := B) s fd c claimPubkey
      claimUsername
    exact .ofQuiet at_fd conns (relay ▸ .refl _) (Frame.ne_hello rfl) silent
  | chanSubscribe groupId =>
    simp only [RelayServer.dispatch] at done
    split at done <;> cases done <;> exact .ofQuiet at_fd rfl (.refl _) (Frame.ne_hello rfl) noMail_nil
  | chanUnsubscribe groupId =>
    simp only [RelayServer.dispatch] at done
    split at done <;> cases done <;> exact .ofQuiet at_fd rfl (.refl _) (Frame.ne_hello rfl) noMail_nil
  | keyUpload bundle =>
    cases done
    exact .ofQuiet at_fd rfl (.refl _) (Frame.ne_hello rfl) noMail_nil
  | _ =>
    cases done
    exact .ofQuiet at_fd rfl (.refl _) (Frame.ne_hello rfl) noMail_nil

end Handlers

variable {O}

/-! ### Writing and closing -/

/-- Writing to connections that the loop watches succeeds. -/
theorem exists_foldlM_enqueueWrite (writes : List (Write B)) {s : RelayServer L}
    (watched : ∀ x ∈ writes, (s.conns.lookup x.fd).isSome = true → x.fd ∈ s.registered) :
    ∃ t, writes.foldlM (RelayServer.enqueueWrite O) s = .ok t := by
  induction writes generalizing s with
  | nil => exact ⟨s, rfl⟩
  | cons w rest ih =>
    have first : ∃ t, s.enqueueWrite O w = .ok t ∧ t.conns = s.conns ∧
        t.registered = s.registered := by
      unfold RelayServer.enqueueWrite
      split
      · exact ⟨s, rfl, rfl, rfl⟩
      next c open_ =>
        have here : w.fd ∈ s.registered := by
          apply watched w List.mem_cons_self
          rw [open_]
          rfl
        simp only [here, if_true]
        exact ⟨_, rfl, rfl, rfl⟩
    obtain ⟨t, written, conns, registered⟩ := first
    -- writing changes neither the connections nor what is watched
    rw [List.foldlM_cons, written]
    apply ih
    intro x member
    rw [conns, registered]
    exact watched x (List.mem_cons_of_mem _ member)

/-- A connection that is closed leaves the book and the table, and nobody's mail moves. -/
theorem closeConn_cases {s s' : RelayServer L} {fd : Fd} {writes : List (Write B)}
    (done : s.closeConn O fd = .ok (s', writes)) :
    s'.conns = s.conns.erase fd ∧ SameBook (s.relay.unbind fd) s'.relay ∧
      s'.registered = s.registered.filter (· ≠ fd) ∧ NoMail writes ∧
      ∀ fd', issuedIn fd' writes = none := by
  obtain ⟨⟨bufs, rfl⟩, rosters⟩ := closeConn_ok done
  refine ⟨rfl, .refl _, rfl, ?_, ?_⟩
  · intro w member
    obtain ⟨t, roomId, inside⟩ := rosters w member
    exact noMail_roster _ _ w inside
  · intro fd'
    apply List.findSome?_eq_none_iff.mpr
    intro w member
    obtain ⟨t, roomId, inside⟩ := rosters w member
    obtain ⟨member_fd, -, rfl⟩ := List.mem_map.mp inside
    rfl

section Frames

variable {fd : Fd} {c : Conn} {bytes : Bytes} {draws : RelayDraws} {f : Frame B}
  {s' : RelayServer L} {writes : List (Write B)}

theorem Outcome.of_eq {s t : RelayServer L} (outcome : Outcome O s fd c draws f t writes)
    (conns : s'.conns = t.conns) (relay : s'.relay = t.relay) :
    Outcome O s fd c draws f s' writes := by
  cases outcome with
  | kept c' same conns' book notHello routed =>
    exact .kept c' same (conns ▸ conns') (relay ▸ book) notHello routed
  | refused c' closes conns' book silent =>
    exact .refused c' closes (conns ▸ conns') (relay ▸ book) silent
  | challenged c' unbound same armed hello conns' book silent =>
    exact .challenged c' unbound same armed hello (conns ▸ conns') (relay ▸ book) silent
  | admitted c' signature ack armed size verified identity conns' book drained =>
    exact .admitted c' signature ack armed size verified identity (conns ▸ conns') (relay ▸ book)
      drained

theorem handleFrame_cases {s : RelayServer L} (at_fd : s.conns.lookup fd = some c)
    (done : s.handleFrame O fd c draws bytes = .ok (s', writes)) :
    (O.frame.decode bytes = none ∧ s' = s.setConn fd { c with wantsClose := true } ∧ writes = []) ∨
      ∃ f, O.frame.decode bytes = some f ∧ Outcome O s fd c draws f s' writes := by
  cases handledFrame done with
  | malformed undecoded => exact .inl ⟨undecoded, rfl, rfl⟩
  | early decoded later =>
    exact .inr ⟨_, decoded, .ofQuiet at_fd rfl (.refl _) (Frame.ne_hello later) noMail_nil⟩
  | dispatched decoded heard dispatched bufs =>
    exact .inr ⟨_, decoded, (dispatch_outcome at_fd dispatched).of_eq rfl rfl⟩

end Frames

/-! ### Which frames are mail -/

/-- An envelope that has waited for a user, or one on its way that is addressed to it. -/
def Write.IsMail (x : Write B) (user : Bytes) : Prop :=
  x.cause = .drained user ∨
    (∀ owner, x.cause ≠ .drained owner) ∧
      ∃ env, x.frame = .envelope env ∧ env.recipient = .userPubkey user

/-- The reason that a frame is written with names the user it is for. -/
def Write.Labelled (x : Write B) : Prop :=
  ∀ user, x.IsMail user → x.cause = .direct user ∨ x.cause = .drained user

theorem labelled_of_frame {x : Write B} (other : ∀ env user, x.frame = .envelope env →
    env.recipient ≠ .userPubkey user) : x.Labelled := by
  rintro user (drained | ⟨-, env, frame, recipient⟩)
  · exact .inr drained
  · exact absurd recipient (other env user frame)

/-- A frame that carries no envelope. -/
theorem labelled_of_other {x : Write B} (other : x.frame.isEnvelope = false) : x.Labelled := by
  apply labelled_of_frame
  intro env user frame
  rw [frame] at other
  cases other

theorem labelled_of_drained {x : Write B} {owner : Bytes} (drained : x.cause = .drained owner) :
    x.Labelled := by
  rintro user (drained | ⟨undrained, -⟩)
  · exact .inr drained
  · exact absurd drained (undrained owner)

/-- One frame that is not an envelope, or none. -/
theorem labelled_one {x : Write B} (other : x.frame.isEnvelope = false) :
    ∀ y ∈ [x], y.Labelled := by
  intro y member
  obtain rfl := List.mem_singleton.mp member
  exact labelled_of_other other

theorem labelled_nil : ∀ y ∈ ([] : List (Write B)), y.Labelled := List.forall_mem_nil _

section Labels

variable {s s' : RelayServer L} {fd : Fd} {c : Conn} {draws : RelayDraws}
  {writes : List (Write B)}

theorem labelled_roster (s : RelayServer L) (roomId : Bytes) :
    ∀ x ∈ (s.broadcastRoomRoster roomId : List (Write B)), x.Labelled := by
  intro x member
  obtain ⟨member_fd, -, rfl⟩ := List.mem_map.mp member
  exact labelled_of_other rfl

@[simp] theorem stamped_recipient (c : Conn) (env : Envelope) :
    (RelayServer.stamped c env).recipient = env.recipient := by
  unfold RelayServer.stamped
  split <;> rfl

theorem labelled_channel (clock : UInt64) {env : Envelope} {groupId : Bytes}
    (recipient : env.recipient = .channelGroupId groupId) :
    ∀ x ∈ (s.onChannelEnvelope O fd c clock env groupId).2, x.Labelled := by
  unfold RelayServer.onChannelEnvelope
  simp only
  split
  · exact labelled_nil
  · split
    · exact labelled_nil
    · intro x member
      obtain ⟨sfd, -, rfl⟩ := List.mem_map.mp member
      apply labelled_of_frame
      intro env' user frame
      obtain rfl := Frame.envelope.inj frame
      rw [stamped_recipient, recipient]
      exact nofun

theorem labelled_direct {env : Envelope} {recipient : Bytes}
    (addressed : env.recipient = .userPubkey recipient)
    (done : s.onDirectEnvelope O fd c draws env recipient = .ok (s', writes)) :
    ∀ x ∈ writes, x.Labelled := by
  unfold RelayServer.onDirectEnvelope at done
  simp only at done
  split at done
  · cases done
    intro x member
    obtain rfl := List.mem_singleton.mp member
    exact labelled_of_other rfl
  · split at done
    · split at done
      · cases done
        intro x member
        obtain rfl := List.mem_singleton.mp member
        rintro user (drained | ⟨-, env', frame, recipient'⟩)
        · cases drained
        · obtain rfl := Frame.envelope.inj frame
          rw [stamped_recipient, addressed] at recipient'
          left
          rw [Recipient.userPubkey.inj recipient']
      · cases done
        exact labelled_nil
    · split at done
      · cases done
      · cases done
        exact labelled_nil

theorem labelled_hello (challenge pubkey username : Bytes) :
    ∀ x ∈ (s.onHello (B := B) fd c challenge pubkey username).2, x.Labelled := by
  unfold RelayServer.onHello
  split
  · exact labelled_nil
  · split
    · exact labelled_one rfl
    · simp only
      split <;> exact labelled_one rfl

theorem labelled_signIn : ∀ x ∈ (s.signIn O fd c).2, x.Labelled := by
  intro x member
  obtain ⟨env, -, rfl⟩ := List.mem_map.mp member
  exact labelled_of_drained rfl

theorem labelled_helloAck (signature : Bytes) :
    ∀ x ∈ (s.onHelloAck O fd c signature).2, x.Labelled := by
  unfold RelayServer.onHelloAck
  split
  · exact labelled_nil
  split
  · exact labelled_nil
  split
  · exact labelled_nil
  split
  · simp only
    split
    · exact labelled_signIn
    · exact labelled_one rfl
  · exact labelled_signIn

theorem labelled_peer (pe : PeerEnvelope) : ∀ x ∈ s.onPeer O fd c pe, x.Labelled := by
  unfold RelayServer.onPeer
  simp only
  split
  · intro x member
    obtain ⟨entry, -, rfl⟩ := List.mem_map.mp member
    exact labelled_of_other rfl
  · split
    · split
      · exact labelled_one rfl
      · exact labelled_nil
    · exact labelled_nil

theorem labelled_dispatch {f : Frame B} (done : s.dispatch O fd c draws f = .ok (s', writes)) :
    ∀ x ∈ writes, x.Labelled := by
  cases f with
  | hello pubkey username =>
    obtain ⟨-, rfl⟩ := Prod.ext_iff.mp (Except.ok.inj done)
    exact labelled_hello draws.challenge pubkey username
  | helloAck signature =>
    obtain ⟨-, rfl⟩ := Prod.ext_iff.mp (Except.ok.inj done)
    exact labelled_helloAck signature
  | keyFetch username requestId =>
    obtain ⟨-, rfl⟩ := Prod.ext_iff.mp (Except.ok.inj done)
    unfold RelayServer.onKeyFetch
    simp only
    split <;> exact labelled_one rfl
  | roomJoin roomId uplinkClass =>
    simp only [RelayServer.dispatch] at done
    split at done <;> cases done
    · exact labelled_nil
    · exact labelled_roster _ _
  | roomLeave roomId =>
    simp only [RelayServer.dispatch] at done
    split at done <;> cases done
    · exact labelled_nil
    · exact labelled_roster _ _
  | envelope env =>
    simp only [RelayServer.dispatch] at done
    split at done
    next groupId recipient =>
      obtain ⟨-, rfl⟩ := Prod.ext_iff.mp (Except.ok.inj done)
      exact labelled_channel draws.clock recipient
    next recipient addressed => exact labelled_direct addressed done
    · cases done
      exact labelled_nil
  | peer pe =>
    cases done
    exact labelled_peer pe
  | usernameLookup pubkey =>
    obtain ⟨-, rfl⟩ := Prod.ext_iff.mp (Except.ok.inj done)
    unfold RelayServer.onUsernameLookup
    split <;> exact labelled_one rfl
  | registerReq claimPubkey claimUsername =>
    obtain ⟨-, rfl⟩ := Prod.ext_iff.mp (Except.ok.inj done)
    unfold RelayServer.onRegisterReq
    split <;> exact labelled_one rfl
  | chanSubscribe groupId =>
    simp only [RelayServer.dispatch] at done
    split at done <;> cases done <;> exact labelled_nil
  | chanUnsubscribe groupId =>
    simp only [RelayServer.dispatch] at done
    split at done <;> cases done <;> exact labelled_nil
  | _ =>
    cases done
    exact labelled_nil

theorem labelled_close (done : s.closeConn O fd = .ok (s', writes)) :
    ∀ x ∈ writes, x.Labelled := by
  intro x member
  obtain ⟨t, roomId, inside⟩ := (closeConn_ok done).2 x member
  exact labelled_roster _ _ x inside

theorem labelled_handleFrame {bytes : Bytes}
    (done : s.handleFrame O fd c draws bytes = .ok (s', writes)) : ∀ x ∈ writes, x.Labelled := by
  cases handledFrame done with
  | malformed | early => exact labelled_nil
  | dispatched _ _ dispatched => exact labelled_dispatch dispatched

theorem labelled_step {event : RelayEvent} (done : s.step O event = .ok (s', writes)) :
    ∀ x ∈ writes, x.Labelled := by
  cases stepTaken done with
  | frame _ handled => exact labelled_handleFrame handled
  | frameClosed _ handled closed =>
    intro x member
    rcases List.mem_append.mp member with inside | after
    · exact labelled_handleFrame handled x inside
    · exact labelled_close closed x after
  | closed done => exact labelled_close done
  | accepted | frameUnknown | closedUnknown | flushed => exact labelled_nil

end Labels

end FinBit.Server
