import FinBit.Server.Memberships
import FinBit.Server.RelayRaises

/-! # Before the sign-in

A connection that has not signed in is looked at for two kinds of frames, and what they
change is the connection itself. That it can be closed at any time without leaving a trace
rests on the relay's maps: they mention only sockets that have signed in.
-/

namespace FinBit.Server

open FinBit.Lib

variable {B L : Type} (O : RelayOutside B L)

/-- The frame is a HelloAck whose signature verifies. -/
def Conn.Admits (c : Conn) (bytes : Bytes) : Prop :=
  ∃ signature, O.frame.decode bytes = some (.helloAck signature) ∧
    c.challengeIssued = true ∧ c.claimedUserPub.length = 32 ∧
    signature.length = kIdentitySigBytes ∧
    O.verify c.claimedUserPub c.challenge signature = true

/-- The frames of one connection, one after the other. -/
def RelayServer.deliver (s : RelayServer L) (fd : Fd) :
    List (Bytes × RelayDraws) → Except String (RelayServer L × List (Write B))
  | [] => .ok (s, [])
  | (bytes, draws) :: rest =>
    match s.step O (.frame fd bytes draws) with
    | .error e => .error e
    | .ok (t, writes) =>
      match t.deliver fd rest with
      | .error e => .error e
      | .ok (u, more) => .ok (u, writes ++ more)

/-- No HelloAck among the frames verifies in the state it arrives in. -/
def RelayServer.Unverified (s : RelayServer L) (fd : Fd) (frames : List (Bytes × RelayDraws)) :
    Prop :=
  ∀ before bytes draws after t writes c, frames = before ++ (bytes, draws) :: after →
    s.deliver O fd before = .ok (t, writes) → t.conns.lookup fd = some c → ¬c.Admits O bytes

/-- Two states that differ at most in one connection and in what is written to it. -/
structure Unaffected (fd : Fd) (s t : RelayServer L) : Prop where
  dir : t.dir = s.dir
  relay : t.relay = s.relay
  bundles : t.bundles = s.bundles
  limiter : t.limiter = s.limiter
  conns : ∀ fd' ≠ fd, t.conns.lookup fd' = s.conns.lookup fd'
  writeBufs : ∀ fd' ≠ fd, t.writeBufs.lookup fd' = s.writeBufs.lookup fd'
  registered : ∀ fd' ≠ fd, fd' ∈ t.registered ↔ fd' ∈ s.registered

variable {O}

namespace Unaffected

variable {fd : Fd} {s t u : RelayServer L}

theorem refl (fd : Fd) (s : RelayServer L) : Unaffected fd s s :=
  ⟨rfl, rfl, rfl, rfl, fun _ _ => rfl, fun _ _ => rfl, fun _ _ => Iff.rfl⟩

theorem trans (first : Unaffected fd s t) (second : Unaffected fd t u) : Unaffected fd s u where
  dir := second.dir.trans first.dir
  relay := second.relay.trans first.relay
  bundles := second.bundles.trans first.bundles
  limiter := second.limiter.trans first.limiter
  conns fd' other := (second.conns fd' other).trans (first.conns fd' other)
  writeBufs fd' other := (second.writeBufs fd' other).trans (first.writeBufs fd' other)
  registered fd' other := (second.registered fd' other).trans (first.registered fd' other)

theorem setConn (fd : Fd) (s : RelayServer L) (c : Conn) : Unaffected fd s (s.setConn fd c) :=
  { refl fd s with conns := fun _ other => AList.lookup_insert_ne other }

/-- What is written to the connection goes into its own buffer. -/
theorem written {writes : List (Write B)} (own : ∀ x ∈ writes, x.fd = fd)
    (done : writes.foldlM (RelayServer.enqueueWrite O) s = .ok t) : Unaffected fd s t := by
  induction writes generalizing s with
  | nil =>
    cases done
    exact refl fd _
  | cons x rest ih =>
    rw [List.foldlM_cons] at done
    obtain ⟨u, first, others⟩ := bind_eq_ok.mp done
    have later := ih (fun y member => own y (List.mem_cons_of_mem _ member)) others
    refine trans ?_ later
    have here := own x List.mem_cons_self
    unfold RelayServer.enqueueWrite at first
    split at first
    · cases first
      exact refl fd _
    · simp only at first
      split at first
      · cases first
        exact { refl fd s with
          writeBufs := fun fd' other => AList.lookup_insert_ne (here ▸ other) }
      · cases first

end Unaffected

/-! ### Who is in the maps -/

/-- One of the relay's maps has the socket. -/
def Relay.Mentions (r : Relay) (fd : Fd) : Prop :=
  (∃ user, r.fdToUser.lookup fd = some user) ∨
    (∃ groupId, fd ∈ r.channelSubscribers groupId) ∨ ∃ roomId, fd ∈ r.roomMemberFds roomId

def RelayServer.Trusts (s : RelayServer L) (fd : Fd) : Prop :=
  ∃ c, s.conns.lookup fd = some c ∧ c.authenticated = true

/-- Whoever is in the relay's maps has signed in. -/
structure RelayServer.Gated (s : RelayServer L) : Prop where
  sound : s.Sound
  exact : s.relay.channels.Exact ∧ s.relay.rooms.Exact
  entered : ∀ fd, s.relay.Mentions fd → s.Trusts fd

section Entering

variable {s t u : RelayServer L} {fd : Fd} {c : Conn} {draws : RelayDraws} {bytes : Bytes}
  {writes : List (Write B)}

theorem Relay.named_of_bind {r : Relay} {userPubkey user : Bytes} {fd' : Fd}
    (named : (r.bind fd userPubkey).fdToUser.lookup fd' = some user) :
    fd' = fd ∨ r.fdToUser.lookup fd' = some user := by
  by_cases same : fd' = fd
  · exact .inl same
  right
  simp only [Relay.bind] at named
  rw [AList.lookup_insert_ne same] at named
  split at named
  next prior _ =>
    by_cases forgotten : fd' = prior
    · rw [forgotten, AList.lookup_erase] at named
      cases named
    · rwa [AList.lookup_erase_ne forgotten] at named
  · exact named

theorem Relay.named_of_unbind {r : Relay} {user : Bytes} {fd' : Fd}
    (named : (r.unbind fd).fdToUser.lookup fd' = some user) :
    fd' ≠ fd ∧ r.fdToUser.lookup fd' = some user := by
  unfold Relay.unbind at named
  split at named
  next free =>
    refine ⟨?_, named⟩
    rintro rfl
    rw [free] at named
    cases named
  · dsimp only at named
    by_cases same : fd' = fd
    · rw [same, AList.lookup_erase] at named
      cases named
    · rw [AList.lookup_erase_ne same] at named
      exact ⟨same, named⟩

/-- A frame puts its own socket into a map, and nobody else's. -/
theorem mentions_of_frame (exact : s.relay.channels.Exact ∧ s.relay.rooms.Exact)
    (at_fd : s.conns.lookup fd = some c)
    (done : s.handleFrame O fd c draws bytes = .ok (t, writes)) {fd' : Fd}
    (mentions : t.relay.Mentions fd') :
    s.relay.Mentions fd' ∨ fd' = fd ∧ (c.authenticated = true ∨ t.Trusts fd) := by
  obtain ⟨calls, leads, asked⟩ := handleFrame_calls done
  obtain ⟨-, channels, rooms⟩ := leads.exact exact.1 exact.2
  -- before the sign-in, a frame that asks for a place is dropped
  have dropped {f : Frame B} (decoded : O.frame.decode bytes = some f) (later : f.beforeAuth = false)
      (untrusted : c.authenticated = false) : t = s := by
    simp only [RelayServer.handleFrame, decoded, untrusted, later, and_self, if_true] at done
    exact (Prod.mk.inj (Except.ok.inj done)).1.symm
  have asks {f : Frame B} (decoded : O.frame.decode bytes = some f) (later : f.beforeAuth = false)
      (here : fd' = fd) :
      s.relay.Mentions fd' ∨ fd' = fd ∧ (c.authenticated = true ∨ t.Trusts fd) := by
    cases trusted : c.authenticated with
    | true => exact .inr ⟨here, .inl rfl⟩
    | false => exact .inl (dropped decoded later trusted ▸ mentions)
  rcases id mentions with ⟨user, named⟩ | ⟨groupId, member⟩ | ⟨roomId, member⟩
  · rcases handleFrame_cases at_fd done with ⟨-, rfl, -⟩ | ⟨f, -, outcome⟩
    · exact .inl (.inl ⟨user, named⟩)
    cases outcome with
    | kept _ _ _ book | refused _ _ _ book | challenged _ _ _ _ _ _ book =>
      exact .inl (.inl ⟨user, book.2 ▸ named⟩)
    | admitted c' _ _ _ _ _ identity conns book =>
      rcases Relay.named_of_bind (book.2 ▸ named) with here | before
      · refine .inr ⟨here, .inr ⟨c', Outcome.lookup_self conns, ?_⟩⟩
        rw [identity]
      · exact .inl (.inl ⟨user, before⟩)
  · rcases channels fd' groupId member with before | call
    · exact .inl (.inr (.inl ⟨groupId, before⟩))
    · obtain ⟨_, _, event, decoded⟩ := asked.channels fd' groupId call
      obtain ⟨rfl, rfl, -⟩ := RelayEvent.frame.inj event
      exact asks decoded rfl rfl
  · rcases rooms fd' roomId member with before | call
    · exact .inl (.inr (.inr ⟨roomId, before⟩))
    · obtain ⟨_, _, _, event, decoded⟩ := asked.rooms fd' roomId call
      obtain ⟨rfl, rfl, -⟩ := RelayEvent.frame.inj event
      exact asks decoded rfl rfl

/-- What is trusted elsewhere stays so. -/
theorem trusts_of_frame (at_fd : s.conns.lookup fd = some c)
    (done : s.handleFrame O fd c draws bytes = .ok (t, writes)) {fd' : Fd} (other : fd' ≠ fd)
    (trusts : s.Trusts fd') : t.Trusts fd' := by
  have elsewhere : t.conns.lookup fd' = s.conns.lookup fd' := by
    rcases handleFrame_cases at_fd done with ⟨-, rfl, -⟩ | ⟨f, -, outcome⟩
    · exact AList.lookup_insert_ne other
    · obtain ⟨c', conns⟩ := outcome.exists_conn
      exact (congrFun conns fd').trans (Function.update_of_ne other _ _)
  obtain ⟨c', present, trusted⟩ := trusts
  exact ⟨c', elsewhere.trans present, trusted⟩

/-- A connection that goes on after a frame is trusted if it is in a map. -/
theorem entered_of_frame (entered : ∀ fd, s.relay.Mentions fd → s.Trusts fd)
    (exact : s.relay.channels.Exact ∧ s.relay.rooms.Exact) (at_fd : s.conns.lookup fd = some c)
    (done : s.handleFrame O fd c draws bytes = .ok (t, writes))
    (stays : ∀ c', t.conns.lookup fd = some c' → c'.wantsClose = false)
    (mentions : t.relay.Mentions fd) : t.Trusts fd := by
  -- it was in a map before, and then trusted, or it is trusted now
  have before : c.authenticated = true ∨ t.Trusts fd := by
    rcases mentions_of_frame exact at_fd done mentions with old | ⟨-, trusted⟩
    · obtain ⟨c₀, present, trusted⟩ := entered fd old
      obtain rfl := Option.some.inj (at_fd.symm.trans present)
      exact .inl trusted
    · exact trusted
  refine before.elim (fun trusted => ?_) id
  rcases handleFrame_cases at_fd done with ⟨-, rfl, -⟩ | ⟨f, -, outcome⟩
  · cases stays _ (AList.lookup_insert _)
  cases outcome with
  | kept c' same conns =>
    obtain ⟨-, -, -, -, authenticated⟩ := same
    exact ⟨c', Outcome.lookup_self conns, authenticated.trans trusted⟩
  | refused c' closes conns =>
    rw [stays c' (Outcome.lookup_self conns)] at closes
    cases closes
  | challenged _ unbound =>
    rw [unbound.1] at trusted
    cases trusted
  | admitted c' _ _ _ _ _ identity conns =>
    exact ⟨c', Outcome.lookup_self conns, by rw [identity]⟩

/-- A socket that is closed is in no map any more. -/
theorem mentions_of_close (exact : s.relay.channels.Exact ∧ s.relay.rooms.Exact)
    (done : s.closeConn O fd = .ok (t, writes)) {fd' : Fd} (mentions : t.relay.Mentions fd') :
    fd' ≠ fd ∧ s.relay.Mentions fd' := by
  have relay := closeConn_call done
  obtain ⟨channels, rooms⟩ := s.relay.call_memberships (.closeConn fd)
  rw [← relay] at channels rooms
  have left := exact.1.represents.leaveAll fd
  have left' := exact.2.represents.leaveAll fd
  rcases mentions with ⟨user, named⟩ | ⟨groupId, member⟩ | ⟨roomId, member⟩
  · rw [relay] at named
    obtain ⟨other, before⟩ := Relay.named_of_unbind named
    exact ⟨other, .inl ⟨user, before⟩⟩
  · unfold Relay.channelSubscribers at member
    rw [channels] at member
    obtain ⟨before, other⟩ := (left.members fd' groupId).mp member
    exact ⟨other, .inr (.inl ⟨groupId, before⟩)⟩
  · unfold Relay.roomMemberFds at member
    rw [rooms] at member
    obtain ⟨before, other⟩ := (left'.members fd' roomId).mp member
    exact ⟨other, .inr (.inr ⟨roomId, before⟩)⟩

theorem trusts_of_close (done : s.closeConn O fd = .ok (t, writes)) {fd' : Fd} (other : fd' ≠ fd)
    (trusts : s.Trusts fd') : t.Trusts fd' := by
  obtain ⟨conns, -⟩ := closeConn_cases done
  obtain ⟨c', present, trusted⟩ := trusts
  refine ⟨c', ?_, trusted⟩
  rw [conns, AList.lookup_erase_ne other]
  exact present

end Entering

namespace RelayServer

variable {s t : RelayServer L}

theorem boot_gated (db : Option (SrvOffline × SrvDirectory × Map Bytes Bytes)) (limiter : L) :
    (RelayServer.boot db limiter).Gated where
  sound := boot_sound db limiter
  exact := ⟨Membership.represents_empty.exact, Membership.represents_empty.exact⟩
  entered fd mentions := by
    rcases mentions with ⟨user, named⟩ | ⟨groupId, member⟩ | ⟨roomId, member⟩
    · cases named
    · exact absurd member ((Membership.represents_empty.members fd groupId).not.mpr (by simp))
    · exact absurd member ((Membership.represents_empty.members fd roomId).not.mpr (by simp))

theorem Gated.step {event : RelayEvent} {writes : List (Write B)} (gated : s.Gated)
    (done : s.step O event = .ok (t, writes)) : t.Gated where
  sound := gated.sound.step ⟨writes, done⟩
  exact := by
    obtain ⟨calls, leads, -⟩ := step_calls done
    exact (leads.exact gated.exact.1 gated.exact.2).1
  entered := by
    intro fd' mentions
    cases stepTaken done with
    | accepted fd transport =>
      -- an old connection is kept, and a new one is in no map
      obtain ⟨c, present, trusted⟩ := gated.entered fd' mentions
      refine ⟨c, ?_, trusted⟩
      dsimp only
      split
      · exact present
      next free =>
        have other : fd' ≠ fd := by
          rintro rfl
          rw [present] at free
          exact free rfl
        rw [AList.lookup_insert_ne other]
        exact present
    | @frame fd bytes draws c t writes at_fd handled stays =>
      by_cases here : fd' = fd
      · subst here
        exact entered_of_frame gated.entered gated.exact at_fd handled stays mentions
      · rcases mentions_of_frame gated.exact at_fd handled mentions with before | ⟨here', -⟩
        · exact trusts_of_frame at_fd handled here (gated.entered fd' before)
        · exact absurd here' here
    | @frameClosed fd bytes draws c t u writes goodbyes at_fd handled closed =>
      obtain ⟨calls, leads, -⟩ := handleFrame_calls handled
      have exact := (leads.exact gated.exact.1 gated.exact.2).1
      obtain ⟨other, between⟩ := mentions_of_close exact closed mentions
      rcases mentions_of_frame gated.exact at_fd handled between with before | ⟨here, -⟩
      · exact trusts_of_close closed other
          (trusts_of_frame at_fd handled other (gated.entered fd' before))
      · exact absurd here other
    | closed closed =>
      obtain ⟨other, before⟩ := mentions_of_close gated.exact closed mentions
      exact trusts_of_close closed other (gated.entered fd' before)
    | frameUnknown | closedUnknown => exact gated.entered fd' mentions
    | flushed => exact gated.entered fd' mentions

end RelayServer

/-! ### Frames of a stranger -/

section Stranger

variable {s t : RelayServer L} {fd : Fd} {c : Conn} {draws : RelayDraws} {bytes : Bytes}

/-- The answer to a frame of the handshake, written to the connection that sent it. -/
theorem handled_answer {f : Frame B} {c' : Conn} {writes : List (Write B)}
    (watched : fd ∈ s.registered) (decoded : O.frame.decode bytes = some f)
    (early : f.beforeAuth = true)
    (dispatched : s.dispatch O fd c draws f = .ok (s.setConn fd c', writes))
    (own : ∀ x ∈ writes, x.fd = fd) :
    ∃ t, s.handleFrame O fd c draws bytes = .ok (t, writes) ∧ Unaffected fd s t ∧
      t.conns.lookup fd = some c' := by
  obtain ⟨t, written⟩ := exists_foldlM_enqueueWrite (O := O) writes (s := s.setConn fd c')
    fun x member _ => by rw [own x member]; exact watched
  refine ⟨t, ?_, (Unaffected.setConn fd s c').trans (.written own written), ?_⟩
  · simp only [RelayServer.handleFrame, decoded, early, Bool.true_eq_false, and_false, if_false,
      dispatched, written]
  · obtain ⟨bufs, rfl⟩ := foldlM_enqueueWrite_bufs written
    exact AList.lookup_insert _

/-- A ClientHello of a connection that has not signed in changes what it claims. -/
theorem onHello_stranger (s : RelayServer L) (fd : Fd) (untrusted : c.authenticated = false)
    (challenge pubkey username : Bytes) :
    ∃ c' writes, s.onHello (B := B) fd c challenge pubkey username = (s.setConn fd c', writes) ∧
      c'.authenticated = false ∧ ∀ x ∈ writes, x.fd = fd := by
  unfold RelayServer.onHello
  split
  · exact ⟨_, _, rfl, untrusted, by simp⟩
  split
  · exact ⟨_, _, rfl, untrusted, by simp⟩
  dsimp only
  split
  · exact ⟨_, _, rfl, untrusted, by simp⟩
  · exact ⟨_, _, rfl, rfl, by simp⟩

/-- A HelloAck that does not verify ends the connection. -/
theorem onHelloAck_stranger (s : RelayServer L) (fd : Fd) {signature : Bytes}
    (decoded : O.frame.decode bytes = some (.helloAck signature))
    (unverified : ¬c.Admits O bytes) :
    s.onHelloAck O fd c signature = (s.setConn fd { c with wantsClose := true }, []) := by
  unfold RelayServer.onHelloAck
  split
  · rfl
  next ready =>
    obtain ⟨armed, size⟩ : c.challengeIssued = true ∧ c.claimedUserPub.length = 32 := by
      simpa using ready
    split
    · rfl
    next width =>
      split
      · rfl
      next signed =>
        rw [Bool.not_eq_false] at signed
        exact absurd ⟨signature, decoded, armed, size, not_not.mp width, signed⟩ unverified

/-- One frame, before the connection may be closed. -/
theorem handleFrame_stranger (watched : fd ∈ s.registered) (at_fd : s.conns.lookup fd = some c)
    (untrusted : c.authenticated = false) (unverified : ¬c.Admits O bytes) (draws : RelayDraws) :
    ∃ t writes c', s.handleFrame O fd c draws bytes = .ok (t, writes) ∧ Unaffected fd s t ∧
      t.conns.lookup fd = some c' ∧ c'.authenticated = false ∧ ∀ x ∈ writes, x.fd = fd := by
  cases decoded : O.frame.decode bytes with
  | none =>
    refine ⟨_, [], { c with wantsClose := true }, by simp only [RelayServer.handleFrame, decoded],
      .setConn fd s _, AList.lookup_insert _, untrusted, by simp⟩
  | some f =>
    cases early : f.beforeAuth with
    | false =>
      refine ⟨s, [], c, ?_, .refl fd s, at_fd, untrusted, by simp⟩
      simp only [RelayServer.handleFrame, decoded, untrusted, early, and_self, if_true]
    | true =>
      cases f with
      | hello pubkey username =>
        obtain ⟨c', writes, answered, still, own⟩ :=
          onHello_stranger (B := B) s fd untrusted draws.challenge pubkey username
        obtain ⟨t, handled, unaffected, present⟩ :=
          handled_answer watched decoded early (congrArg Except.ok answered) own
        exact ⟨t, writes, c', handled, unaffected, present, still, own⟩
      | helloAck signature =>
        have refused := onHelloAck_stranger s fd decoded unverified
        obtain ⟨t, handled, unaffected, present⟩ :=
          handled_answer watched decoded early (congrArg Except.ok refused) (by simp)
        exact ⟨t, [], _, handled, unaffected, present, untrusted, by simp⟩
      | _ => cases early

theorem Membership.Forgets.leaveAll {m : Membership} (forgets : m.Forgets fd) :
    m.leaveAll fd = m := by
  have absent : fd ∉ m.groups := AList.lookup_eq_none.mp forgets.groups
  have kept : m.groups.erase fd = m.groups := AList.ext (List.kerase_of_notMem_keys absent)
  simp only [Membership.leaveAll, Membership.groupsOf, forgets.groups, Option.getD_none,
    List.foldl_nil, kept]

/-- Closing a connection that is in no map leaves no trace of it. -/
theorem closeConn_stranger (exact : s.relay.channels.Exact ∧ s.relay.rooms.Exact)
    (unknown : ¬s.relay.Mentions fd) :
    ∃ t, s.closeConn O fd = .ok (t, []) ∧ Unaffected fd s t ∧ t.conns.lookup fd = none := by
  have unnamed : s.relay.fdToUser.lookup fd = none := by
    rw [Option.eq_none_iff_forall_ne_some]
    exact fun user named => unknown (.inl ⟨user, named⟩)
  have channels := exact.1.represents.forgets
    fun groupId member => unknown (.inr (.inl ⟨groupId, member⟩))
  have rooms := exact.2.represents.forgets
    fun roomId member => unknown (.inr (.inr ⟨roomId, member⟩))
  have relay : ((s.relay.unbind fd).unbindAllChannels fd).unbindAllRooms fd = s.relay := by
    have unbound : s.relay.unbind fd = s.relay := by simp only [Relay.unbind, unnamed]
    rw [unbound]
    simp only [Relay.unbindAllChannels, Relay.unbindAllRooms, channels.leaveAll, rooms.leaveAll]
  have noRooms : s.relay.roomMemberRooms fd = [] := by
    simp only [Relay.roomMemberRooms, Membership.groupsOf, rooms.groups, Option.getD_none]
  refine ⟨_, by
    simp only [RelayServer.closeConn, noRooms, relay, List.flatMap_nil, List.foldlM_nil]
    rfl, ?_, AList.lookup_erase _ _⟩
  exact { Unaffected.refl fd s with
    conns := fun _ other => AList.lookup_erase_ne other
    writeBufs := fun _ other => AList.lookup_erase_ne other
    registered := fun fd' other => by simp [other] }

/-- One frame of a connection that has not signed in. -/
theorem step_stranger (gated : s.Gated) (untrusted : ¬s.Trusts fd)
    (unverified : ∀ c, s.conns.lookup fd = some c → ¬c.Admits O bytes) (draws : RelayDraws) :
    ∃ t writes, s.step O (.frame fd bytes draws) = .ok (t, writes) ∧ Unaffected fd s t ∧
      ¬t.Trusts fd ∧ ∀ x ∈ writes, x.fd = fd := by
  cases at_fd : s.conns.lookup fd with
  | none =>
    exact ⟨s, [], by simp only [RelayServer.step, at_fd], .refl fd s, untrusted, by simp⟩
  | some c =>
    have stranger : c.authenticated = false := by
      rw [← Bool.not_eq_true]
      exact fun trusted => untrusted ⟨c, at_fd, trusted⟩
    have watched := gated.sound.watched fd (by rw [at_fd]; rfl)
    obtain ⟨t, writes, c', handled, unaffected, present, still, own⟩ :=
      handleFrame_stranger watched at_fd stranger (unverified c at_fd) draws
    cases closes : c'.wantsClose with
    | false =>
      refine ⟨t, writes, ?_, unaffected, ?_, own⟩
      · simp only [RelayServer.step, at_fd, handled, present, closes, Option.map_some,
          Option.getD_some, Bool.false_eq_true, if_false]
      · rintro ⟨c₀, found, trusted⟩
        obtain rfl := Option.some.inj (present.symm.trans found)
        rw [still] at trusted
        cases trusted
    | true =>
      -- the relay is as it was, so the socket is still in no map
      have relay := unaffected.relay
      have unknown : ¬t.relay.Mentions fd := by
        rw [relay]
        exact fun mentions => untrusted (gated.entered fd mentions)
      obtain ⟨u, closed, gone, absent⟩ := closeConn_stranger (O := O) (relay ▸ gated.exact) unknown
      refine ⟨u, writes, ?_, unaffected.trans gone, ?_, own⟩
      · simp only [RelayServer.step, at_fd, handled, present, closes, Option.map_some,
          Option.getD_some, if_true, closed, List.append_nil]
      · rintro ⟨c₀, found, -⟩
        rw [absent] at found
        cases found

theorem deliver_stranger (gated : s.Gated) (untrusted : ¬s.Trusts fd)
    {frames : List (Bytes × RelayDraws)} (unverified : s.Unverified O fd frames) :
    ∃ t writes, s.deliver O fd frames = .ok (t, writes) ∧ Unaffected fd s t ∧
      ∀ x ∈ writes, x.fd = fd := by
  induction frames generalizing s with
  | nil => exact ⟨s, [], rfl, .refl fd s, by simp⟩
  | cons frame rest ih =>
    obtain ⟨bytes, draws⟩ := frame
    have first (c : Conn) (at_fd : s.conns.lookup fd = some c) : ¬c.Admits O bytes :=
      unverified [] bytes draws rest s [] c rfl rfl at_fd
    obtain ⟨t, writes, taken, unaffected, still, own⟩ :=
      step_stranger gated untrusted first draws
    have later : t.Unverified O fd rest := by
      intro before bytes' draws' after u more c split delivered at_fd
      refine unverified ((bytes, draws) :: before) bytes' draws' after u (writes ++ more) c ?_ ?_ at_fd
      · rw [split, List.cons_append]
      · simp only [RelayServer.deliver, taken, delivered]
    obtain ⟨u, more, delivered, unaffected', own'⟩ := ih (gated.step taken) still later
    refine ⟨u, writes ++ more, ?_, unaffected.trans unaffected', ?_⟩
    · simp only [RelayServer.deliver, taken, delivered]
    · intro x member
      exact (List.mem_append.mp member).elim (own x) (own' x)

end Stranger

/-- From every state that the relay reaches, whatever frames a connection sends that has not
signed in, as long as no HelloAck of it verifies: they are handled, nothing is written to
anyone else, and all but the connection is as it was. -/
theorem unverified_frames_leave_no_trace
    {db : Option (SrvOffline × SrvDirectory × Map Bytes Bytes)} {limiter : L}
    {labels : List (RelayEvent × List (Write B))} {s : RelayServer L}
    (run : Run (Served O) (RelayServer.boot db limiter) labels s) {fd : Fd}
    (untrusted : ¬s.Trusts fd) {frames : List (Bytes × RelayDraws)}
    (unverified : s.Unverified O fd frames) :
    ∃ t writes, s.deliver O fd frames = .ok (t, writes) ∧ Unaffected fd s t ∧
      ∀ x ∈ writes, x.fd = fd := by
  have gated : s.Gated := by
    apply run.invariant RelayServer.Gated _ (RelayServer.boot_gated db limiter)
    intro s label t gated done
    exact gated.step done
  exact deliver_stranger gated untrusted unverified

/-- A ClientHello and then a subscription that is not listened to. -/
theorem unverified_frames_leave_no_trace_hello : ∃ s t writes,
    Run (Served plainRelay) (RelayServer.boot none ()) [(.accept 5 .tcp, [])] s ∧
    s.conns.lookup 5 = some (Conn.accepted .tcp) ∧
    s.deliver plainRelay 5
      [(plainRelay.frame.encode (.hello owner []), ⟨nonce, 0, 0⟩),
        (plainRelay.frame.encode (.chanSubscribe nonce), ⟨nonce, 0, 0⟩)] = .ok (t, writes) ∧
    t.relay = Relay.fresh none := by
  obtain ⟨s, booted, accepted, relay⟩ : ∃ s : RelayServer Unit,
      (RelayServer.boot none ()).step plainRelay (.accept 5 .tcp) = .ok (s, []) ∧
      s.conns.lookup 5 = some (Conn.accepted .tcp) ∧ s.relay = Relay.fresh none :=
    ⟨_, rfl, rfl, rfl⟩
  have run : Run (Served plainRelay) (RelayServer.boot none ()) [(.accept 5 .tcp, [])] s :=
    .cons booted (.nil s)
  have untrusted : ¬s.Trusts 5 := by
    rintro ⟨c, present, trusted⟩
    obtain rfl := Option.some.inj (accepted.symm.trans present)
    cases trusted
  have unverified : s.Unverified plainRelay 5
      [(plainRelay.frame.encode (.hello owner []), ⟨nonce, 0, 0⟩),
        (plainRelay.frame.encode (.chanSubscribe nonce), ⟨nonce, 0, 0⟩)] := by
    rintro before bytes draws after t writes c split - - ⟨signature, decoded, -⟩
    have member : (bytes, draws) ∈ before ++ (bytes, draws) :: after := by simp
    rw [← split] at member
    -- neither frame is a HelloAck
    rcases List.mem_pair.mp member with first | second
    · obtain ⟨rfl, -⟩ := Prod.mk.inj first
      rw [Codec.decode_encode] at decoded
      cases decoded
    · obtain ⟨rfl, -⟩ := Prod.mk.inj second
      rw [Codec.decode_encode] at decoded
      cases decoded
  obtain ⟨t, writes, delivered, unaffected, -⟩ :=
    unverified_frames_leave_no_trace run untrusted unverified
  exact ⟨s, t, writes, run, accepted, delivered, unaffected.relay.trans relay⟩

end FinBit.Server
