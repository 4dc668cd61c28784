import FinBit.Lib.Runs
import FinBit.Server.FrameOutcomes

/-! # Mail goes to its owner

An observer who sees the frames that arrive on each connection and the frames that are
written to it can tell which connection has proved which identity. The relay writes a
direct envelope, and an envelope that has waited, only to a connection that has proved
the identity it is addressed to.
-/

namespace FinBit.Server

open FinBit.Lib

variable {B L : Type} (O : RelayOutside B L)

/-! ### What an observer hears -/

/-- A connection since its last ClientHello: the challenge it was given, and the
signatures it has sent. -/
structure Handshake where
  issued : Option Bytes
  presented : List Bytes

def Handshake.blank : Handshake := ⟨none, []⟩

def observe (heard : Fd → Handshake) (event : RelayEvent) (writes : List (Write B)) :
    Fd → Handshake :=
  match event with
  | .accept fd _ => Function.update heard fd Handshake.blank
  | .frame fd bytes _ =>
    match O.frame.decode bytes with
    -- a ClientHello starts again, with the challenge it is answered with
    | some (.hello _ _) => Function.update heard fd ⟨issuedIn fd writes, []⟩
    | some (.helloAck signature) =>
      Function.update heard fd ⟨(heard fd).issued, signature :: (heard fd).presented⟩
    | _ => heard
  | _ => heard

/-- The connection has sent a signature of `user` over the challenge it was given. -/
def Handshake.Proves (h : Handshake) (user : Bytes) : Prop :=
  ∃ challenge, h.issued = some challenge ∧
    ∃ signature ∈ h.presented, O.verify user challenge signature = true

/-- A server and what has been heard of its connections. -/
structure Watched (L : Type) where
  server : RelayServer L
  heard : Fd → Handshake

/-- A step, labelled with the event and with what is written. A step that throws ends
the server, and no run goes on from it. -/
def Watched.Step (w : Watched L) (label : RelayEvent × List (Write B)) (w' : Watched L) : Prop :=
  w.server.step O label.1 = .ok (w'.server, label.2) ∧
    w'.heard = observe O w.heard label.1 label.2

/-- The operating system gives out descriptors that are not in use. -/
def Watched.FdUnused (w : Watched L) (label : RelayEvent × List (Write B)) : Prop :=
  ∀ fd transport, label.1 = .accept fd transport → w.server.conns.lookup fd = none

def Watched.boot (db : Option (SrvOffline × SrvDirectory × Map Bytes Bytes)) (limiter : L) :
    Watched L :=
  ⟨RelayServer.boot db limiter, fun _ => Handshake.blank⟩

/-! ### The invariant -/

/-- What a connection's fields say about what was heard on it. -/
structure Conn.Genuine (c : Conn) (h : Handshake) : Prop where
  issued : c.challengeIssued = true → h.issued = some c.challenge
  unbound : c.authenticated = false → c.boundUserPub = []
  bound : c.authenticated = true → c.boundUserPub = c.claimedUserPub ∧
    c.boundUserPub.length = 32 ∧ h.Proves O c.boundUserPub

/-- The connection book agrees with itself and with the connections. -/
structure Watched.Inv (w : Watched L) : Prop where
  paired : w.server.relay.Paired
  present : ∀ user fd, w.server.relay.userToFd.lookup user = some fd →
    ∃ c, w.server.conns.lookup fd = some c ∧ c.boundUserPub = user ∧ c.authenticated = true
  genuine : ∀ fd c, w.server.conns.lookup fd = some c → c.Genuine O (w.heard fd)

variable {O}

theorem Watched.boot_inv (db : Option (SrvOffline × SrvDirectory × Map Bytes Bytes)) (limiter : L) :
    (Watched.boot db limiter).Inv O where
  paired := by simp [Relay.Paired, Watched.boot, RelayServer.boot, Relay.fresh]
  present := by simp [Watched.boot, RelayServer.boot, Relay.fresh]
  genuine := by simp [Watched.boot, RelayServer.boot]

theorem SameBook.paired {r r' : Relay} (same : SameBook r r') (paired : r.Paired) : r'.Paired := by
  intro user fd at_fd
  rw [same.1] at at_fd
  rw [same.2]
  exact paired user fd at_fd

/-- Hearing more of a connection takes nothing back, unless it starts again. -/
theorem Conn.Genuine.more {c : Conn} {h : Handshake} (genuine : c.Genuine O h)
    (signature : Bytes) : c.Genuine O ⟨h.issued, signature :: h.presented⟩ where
  issued := genuine.issued
  unbound := genuine.unbound
  bound authenticated := by
    obtain ⟨same, size, challenge, issued, old, member, verified⟩ := genuine.bound authenticated
    exact ⟨same, size, challenge, issued, old, List.mem_cons_of_mem _ member, verified⟩

theorem Conn.Genuine.of_same {c c' : Conn} {h : Handshake} (genuine : c.Genuine O h)
    (same : SameIdentity c c') : c'.Genuine O h := by
  obtain ⟨claimed, bound, challenge, issued, authenticated⟩ := same
  constructor
  · rw [issued, challenge]
    exact genuine.issued
  · rw [authenticated, bound]
    exact genuine.unbound
  · rw [authenticated, bound, claimed]
    exact genuine.bound

theorem observe_of_ne {heard : Fd → Handshake} {fd fd' : Fd} (other : fd' ≠ fd) (bytes : Bytes)
    (draws : RelayDraws) (writes : List (Write B)) :
    observe O heard (.frame fd bytes draws) writes fd' = heard fd' := by
  cases decoded : O.frame.decode bytes with
  | none => simp [observe, decoded]
  | some f => cases f <;> simp [observe, decoded, other]

/-! ### Steps -/

section Steps

variable {w : Watched L} {fd : Fd} {c : Conn} {bytes : Bytes} {draws : RelayDraws} {f : Frame B}
  {s' : RelayServer L} {writes all : List (Write B)}

/-- Only a ClientHello starts a connection again. -/
theorem genuine_observe {h : Fd → Handshake} (decoded : O.frame.decode bytes = some f)
    (notHello : ∀ pubkey username, f ≠ .hello pubkey username) {fd' : Fd}
    (genuine : c.Genuine O (h fd')) :
    c.Genuine O (observe O h (.frame fd bytes draws) all fd') := by
  cases f with
  | hello pubkey username => exact absurd rfl (notHello pubkey username)
  | helloAck signature =>
    simp only [observe, decoded]
    by_cases here : fd' = fd
    · subst here
      rw [Function.update_self]
      exact genuine.more signature
    · rwa [Function.update_of_ne here]
  | _ => simpa only [observe, decoded] using genuine

/-- The invariant but for one connection, which is about to be closed. -/
structure Watched.InvBut (O : RelayOutside B L) (w : Watched L) (fd : Fd) : Prop where
  paired : w.server.relay.Paired
  present : ∀ user fd', fd' ≠ fd → w.server.relay.userToFd.lookup user = some fd' →
    ∃ c, w.server.conns.lookup fd' = some c ∧ c.boundUserPub = user ∧ c.authenticated = true
  genuine : ∀ fd' c, fd' ≠ fd → w.server.conns.lookup fd' = some c → c.Genuine O (w.heard fd')

theorem Watched.Inv.but (inv : w.Inv O) (fd : Fd) : w.InvBut O fd where
  paired := inv.paired
  present user fd' _ := inv.present user fd'
  genuine fd' c _ := inv.genuine fd' c

theorem Watched.InvBut.closed (inv : w.InvBut O fd)
    (done : w.server.closeConn O fd = .ok (s', writes)) : Watched.Inv O ⟨s', w.heard⟩ := by
  obtain ⟨conns, book, -, -, -⟩ := closeConn_cases done
  constructor
  · exact book.paired (inv.paired.unbind fd)
  · intro user fd' at_fd
    simp only at at_fd
    -- whoever is still in the book is at another descriptor
    rw [book.1, inv.paired.lookup_unbind] at at_fd
    obtain ⟨before, other⟩ := at_fd
    obtain ⟨c, present, bound⟩ := inv.present user fd' other before
    refine ⟨c, ?_, bound⟩
    simp only [conns]
    rw [AList.lookup_erase_ne other]
    exact present
  · intro fd' c present
    simp only [conns] at present
    have other : fd' ≠ fd := by
      rintro rfl
      rw [AList.lookup_erase] at present
      cases present
    rw [AList.lookup_erase_ne other] at present
    exact inv.genuine fd' c other present

/-- One connection changes and the book stays. -/
theorem Watched.Inv.changed (inv : w.Inv O) {c' : Conn}
    (conns : s'.conns.lookup = Function.update w.server.conns.lookup fd (some c'))
    (book : SameBook w.server.relay s'.relay) {heard : Fd → Handshake}
    (elsewhere : ∀ fd' ≠ fd, heard fd' = w.heard fd') :
    Watched.InvBut O ⟨s', heard⟩ fd := by
  constructor
  · exact book.paired inv.paired
  · intro user fd' other at_fd'
    simp only at at_fd'
    rw [book.1] at at_fd'
    obtain ⟨c, present, bound⟩ := inv.present user fd' at_fd'
    refine ⟨c, ?_, bound⟩
    have same := congrFun conns fd'
    rw [Function.update_of_ne other] at same
    exact same.trans present
  · intro fd' c other present
    have same := congrFun conns fd'
    rw [Function.update_of_ne other] at same
    change c.Genuine O (heard fd')
    rw [elsewhere fd' other]
    exact inv.genuine fd' c (same.symm.trans present)

/-- The connection that was left out is in order again. -/
theorem Watched.InvBut.restored (inv : w.InvBut O fd) (at_fd : w.server.conns.lookup fd = some c)
    (genuine : c.Genuine O (w.heard fd))
    (bound : ∀ user, w.server.relay.userToFd.lookup user = some fd →
      c.boundUserPub = user ∧ c.authenticated = true) : w.Inv O where
  paired := inv.paired
  present user fd' at_fd' := by
    by_cases here : fd' = fd
    · subst here
      exact ⟨c, at_fd, bound user at_fd'⟩
    · exact inv.present user fd' here at_fd'
  genuine fd' c' at_fd' := by
    by_cases here : fd' = fd
    · subst here
      obtain rfl := Option.some.inj (at_fd.symm.trans at_fd')
      exact genuine
    · exact inv.genuine fd' c' here at_fd'

theorem Outcome.lookup_self {s : RelayServer L} {c' : Conn}
    (conns : s'.conns.lookup = Function.update s.conns.lookup fd (some c')) :
    s'.conns.lookup fd = some c' := by
  have here := congrFun conns fd
  rwa [Function.update_self] at here

/-- After a frame the invariant holds, or the connection is to be closed. -/
theorem Outcome.inv (outcome : Outcome O w.server fd c draws f s' writes) (inv : w.Inv O)
    (at_fd : w.server.conns.lookup fd = some c) (decoded : O.frame.decode bytes = some f)
    (issued : issuedIn fd all = issuedIn fd writes) :
    Watched.InvBut O ⟨s', observe O w.heard (.frame fd bytes draws) all⟩ fd ∧
      (Watched.Inv O ⟨s', observe O w.heard (.frame fd bytes draws) all⟩ ∨
        ∃ c', s'.conns.lookup fd = some c' ∧ c'.wantsClose = true) := by
  have elsewhere (fd' : Fd) (other : fd' ≠ fd) :
      observe O w.heard (.frame fd bytes draws) all fd' = w.heard fd' :=
    observe_of_ne other bytes draws all
  have genuine := inv.genuine fd c at_fd
  -- a user at this descriptor is the one the connection was bound to
  have was (user : Bytes) (here : w.server.relay.userToFd.lookup user = some fd) :
      c.boundUserPub = user ∧ c.authenticated = true := by
    obtain ⟨c₀, present, bound⟩ := inv.present user fd here
    obtain rfl := Option.some.inj (at_fd.symm.trans present)
    exact bound
  cases outcome with
  | kept c' same conns book notHello routed =>
    have but := inv.changed conns book elsewhere
    refine ⟨but, .inl (but.restored (lookup_self conns) ?_ ?_)⟩
    · have heard : c.Genuine O (observe O w.heard (.frame fd bytes draws) all fd) :=
        genuine_observe decoded notHello genuine
      exact heard.of_same same
    · intro user here
      simp only at here
      rw [book.1] at here
      obtain ⟨-, bound, -, -, authenticated⟩ := same
      rw [bound, authenticated]
      exact was user here
  | refused c' closes conns book silent =>
    exact ⟨inv.changed conns book elsewhere, .inr ⟨c', lookup_self conns, closes⟩⟩
  | challenged c' unbound same armed hello conns book silent =>
    have but := inv.changed conns book elsewhere
    refine ⟨but, .inl (but.restored (lookup_self conns) ?_ ?_)⟩
    · -- it has been given this challenge, and has signed nothing yet
      obtain ⟨pubkey, username, rfl⟩ := hello
      have heard : observe O w.heard (.frame fd bytes draws) all fd = ⟨some c'.challenge, []⟩ := by
        simp only [observe, decoded, Function.update_self, issued, armed.2]
      change c'.Genuine O (observe O w.heard (.frame fd bytes draws) all fd)
      rw [heard]
      refine ⟨fun _ => rfl, fun _ => same.1.trans unbound.2, ?_⟩
      rw [same.2]
      exact nofun
    · intro user here
      simp only at here
      rw [book.1] at here
      obtain ⟨-, authenticated⟩ := was user here
      rw [unbound.1] at authenticated
      cases authenticated
  | admitted c' signature ack armed size verified identity conns book drained =>
    subst ack identity
    -- the connection may be bound already, but then to the key it claims
    have free (user : Bytes) (here : w.server.relay.userToFd.lookup user = some fd) :
        user = c.claimedUserPub := by
      obtain ⟨rfl, authenticated⟩ := was user here
      exact (genuine.bound authenticated).1
    have but : Watched.InvBut O ⟨s', observe O w.heard (.frame fd bytes draws) all⟩ fd := by
      constructor
      · exact book.paired (inv.paired.bind free)
      · intro user fd' other at_fd'
        simp only at at_fd'
        rw [book.1, Relay.lookup_bind] at at_fd'
        split at at_fd'
        · exact absurd (Option.some.inj at_fd').symm other
        · obtain ⟨c₀, present, bound⟩ := inv.present user fd' at_fd'
          have same := congrFun conns fd'
          rw [Function.update_of_ne other] at same
          exact ⟨c₀, same.trans present, bound⟩
      · intro fd' c₀ other present
        have same := congrFun conns fd'
        rw [Function.update_of_ne other] at same
        change c₀.Genuine O (observe O w.heard (.frame fd bytes draws) all fd')
        rw [elsewhere fd' other]
        exact inv.genuine fd' c₀ (same.symm.trans present)
    refine ⟨but, .inl (but.restored (lookup_self conns) ?_ ?_)⟩
    · have heard : observe O w.heard (.frame fd bytes draws) all fd =
          ⟨(w.heard fd).issued, signature :: (w.heard fd).presented⟩ := by
        simp only [observe, decoded, Function.update_self]
      change Conn.Genuine O _ (observe O w.heard (.frame fd bytes draws) all fd)
      rw [heard]
      exact ⟨genuine.issued, nofun, fun _ => ⟨rfl, size, c.challenge, genuine.issued armed,
        signature, List.mem_cons_self, verified⟩⟩
    · intro user here
      simp only at here
      rw [book.1, Relay.lookup_bind] at here
      split at here
      next same => exact ⟨same.symm, rfl⟩
      · exact ⟨(free user here).symm, rfl⟩

/-- Mail goes to connections that have proved whose it is. -/
theorem Outcome.mail (outcome : Outcome O w.server fd c draws f s' writes) (inv : w.Inv O)
    (at_fd : w.server.conns.lookup fd = some c) (decoded : O.frame.decode bytes = some f)
    {x : Write B} (member : x ∈ writes) {user : Bytes}
    (mail : x.cause = .direct user ∨ x.cause = .drained user) :
    (w.server.conns.lookup x.fd).isSome = true ∧
      (observe O w.heard (.frame fd bytes draws) all x.fd).Proves O user := by
  have none_of (silent : NoMail writes) : False := by
    obtain ⟨notDirect, notDrained⟩ := silent x member user
    rcases mail with direct | drained
    · exact notDirect direct
    · exact notDrained drained
  cases outcome with
  | kept c' same conns book notHello routed =>
    obtain ⟨direct, notDrained⟩ := routed x member user
    have at_user := direct (mail.resolve_right notDrained)
    obtain ⟨c₀, present, rfl, authenticated⟩ := inv.present user x.fd at_user
    have genuine : c₀.Genuine O (observe O w.heard (.frame fd bytes draws) all x.fd) :=
      genuine_observe decoded notHello (inv.genuine x.fd c₀ present)
    exact ⟨by rw [present]; rfl, (genuine.bound authenticated).2.2⟩
  | refused c' closes conns book silent => exact (none_of silent).elim
  | challenged c' unbound same armed hello conns book silent => exact (none_of silent).elim
  | admitted c' signature ack armed size verified identity conns book drained =>
    subst ack
    obtain ⟨here, cause⟩ := drained x member
    obtain rfl : user = c.claimedUserPub := by
      rcases mail with direct | waited
      · rw [cause] at direct
        cases direct
      · rw [cause] at waited
        exact (Cause.drained.inj waited).symm
    rw [here, at_fd]
    refine ⟨rfl, c.challenge, ?_, signature, ?_, verified⟩
    · simp only [observe, decoded, Function.update_self]
      exact (inv.genuine fd c at_fd).issued armed
    · simp only [observe, decoded, Function.update_self]
      exact List.mem_cons_self

/-- What a frame does to the invariant, whatever is written after it: the connection may
still be to be closed. -/
theorem Watched.Inv.handled {t : RelayServer L} (inv : w.Inv O)
    (at_fd : w.server.conns.lookup fd = some c)
    (handled : w.server.handleFrame O fd c draws bytes = .ok (t, writes))
    (issued : issuedIn fd all = issuedIn fd writes) :
    Watched.InvBut O ⟨t, observe O w.heard (.frame fd bytes draws) all⟩ fd ∧
      (Watched.Inv O ⟨t, observe O w.heard (.frame fd bytes draws) all⟩ ∨
        ∃ c', t.conns.lookup fd = some c' ∧ c'.wantsClose = true) ∧
      ∀ x ∈ writes, ∀ user, x.cause = .direct user ∨ x.cause = .drained user →
        (w.server.conns.lookup x.fd).isSome = true ∧
          (observe O w.heard (.frame fd bytes draws) all x.fd).Proves O user := by
  rcases handleFrame_cases at_fd handled with ⟨malformed, rfl, rfl⟩ | ⟨f, decoded, outcome⟩
  · -- nothing is heard, and the connection goes
    have heard : observe O w.heard (.frame fd bytes draws) all = w.heard := by
      simp only [observe, malformed]
    rw [heard]
    have conns := w.server.lookup_setConn fd { c with wantsClose := true }
    exact ⟨inv.changed conns (.refl _) fun _ _ => rfl,
      .inr ⟨_, Outcome.lookup_self conns, rfl⟩, by simp⟩
  · obtain ⟨but, fine⟩ := outcome.inv inv at_fd decoded issued
    exact ⟨but, fine, fun x member user mail => outcome.mail inv at_fd decoded member mail⟩

theorem Watched.Inv.step {w' : Watched L} {label : RelayEvent × List (Write B)} (inv : w.Inv O)
    (unused : w.FdUnused label) (step : w.Step O label w') :
    w'.Inv O ∧ ∀ x ∈ label.2, ∀ user, x.cause = .direct user ∨ x.cause = .drained user →
      (w.server.conns.lookup x.fd).isSome = true ∧ (w'.heard x.fd).Proves O user := by
  obtain ⟨event, writes⟩ := label
  obtain ⟨s', heard'⟩ := w'
  obtain ⟨done, rfl⟩ := step
  have no_mail {mail : List (Write B)} (silent : NoMail mail) : ∀ x ∈ mail, ∀ user,
      x.cause = .direct user ∨ x.cause = .drained user →
        (w.server.conns.lookup x.fd).isSome = true ∧
          (observe O w.heard event writes x.fd).Proves O user := by
    intro x member user mail
    obtain ⟨notDirect, notDrained⟩ := silent x member user
    rcases mail with direct | drained
    · exact absurd direct notDirect
    · exact absurd drained notDrained
  cases stepTaken done with
  | accepted fd transport =>
    have free : w.server.conns.lookup fd = none := unused fd transport rfl
    refine ⟨?_, no_mail noMail_nil⟩
    -- nobody stands at a descriptor without a connection
    have nobody (user : Bytes) : w.server.relay.userToFd.lookup user ≠ some fd := by
      intro here
      obtain ⟨c, present, -⟩ := inv.present user fd here
      rw [free] at present
      cases present
    have added : (w.server.setConn fd (Conn.accepted transport)).conns =
        w.server.conns.insert fd (Conn.accepted transport) := rfl
    have conns := w.server.lookup_setConn fd (Conn.accepted transport)
    simp only [free, Option.isSome_none, Bool.false_eq_true, if_false, ← added]
    have but : Watched.InvBut O ⟨{ w.server with
        conns := (w.server.setConn fd (Conn.accepted transport)).conns
        registered := Membership.note fd w.server.registered },
        observe O w.heard (.accept fd transport) []⟩ fd := by
      apply inv.changed
      · exact conns
      · exact .refl _
      · intro fd' other
        exact Function.update_of_ne other _ _
    apply but.restored (Outcome.lookup_self conns)
    · exact ⟨nofun, fun _ => rfl, nofun⟩
    · intro user here
      exact absurd here (nobody user)
  | @frameUnknown fd bytes draws absent =>
    refine ⟨⟨inv.paired, inv.present, ?_⟩, no_mail noMail_nil⟩
    intro fd' c present
    have other : fd' ≠ fd := by
      rintro rfl
      cases absent.symm.trans present
    change c.Genuine O (observe O w.heard (.frame fd bytes draws) [] fd')
    rw [observe_of_ne other]
    exact inv.genuine fd' c present
  | frame at_fd handled stays =>
    obtain ⟨-, fine, mail⟩ := inv.handled at_fd handled rfl
    refine ⟨fine.resolve_right ?_, mail⟩
    rintro ⟨c', there, closes⟩
    rw [stays c' there] at closes
    cases closes
  | @frameClosed fd bytes draws c t u first goodbyes at_fd handled closed =>
    obtain ⟨-, -, -, silent, unissued⟩ := closeConn_cases closed
    -- the goodbyes carry no challenge
    have issued : issuedIn fd (first ++ goodbyes) = issuedIn fd first := by
      rw [issuedIn, List.findSome?_append]
      exact (congrArg _ (unissued fd)).trans Option.or_none
    obtain ⟨but, -, mail⟩ := inv.handled at_fd handled issued
    refine ⟨but.closed closed, fun x member => ?_⟩
    rcases List.mem_append.mp member with inside | after
    · exact mail x inside
    · exact no_mail silent x after
  | closed done =>
    obtain ⟨-, -, -, silent, -⟩ := closeConn_cases done
    exact ⟨(inv.but _).closed done, no_mail silent⟩
  | closedUnknown => exact ⟨inv, no_mail noMail_nil⟩
  | flushed => exact ⟨⟨inv.paired, inv.present, inv.genuine⟩, no_mail noMail_nil⟩

end Steps

/-! ### Runs -/

/-- In every run the two maps agree with each other and with the open connections, and
direct and waiting envelopes are written only to connections that have signed the
challenge they were given after their last ClientHello. -/
theorem mail_to_owner {db : Option (SrvOffline × SrvDirectory × Map Bytes Bytes)} {limiter : L}
    {labels : List (RelayEvent × List (Write B))} {w : Watched L}
    (run : Run (Guarded (Watched.Step O) Watched.FdUnused) (Watched.boot db limiter) labels w) :
    (∀ user fd, w.server.relay.userToFd.lookup user = some fd →
      ∃ c, w.server.conns.lookup fd = some c ∧ c.boundUserPub = user ∧
        w.server.relay.fdToUser.lookup fd = some user) ∧
    ∀ event writes w', Guarded (Watched.Step O) Watched.FdUnused w (event, writes) w' →
      ∀ x ∈ writes, ∀ user, x.IsMail user →
        (w.server.conns.lookup x.fd).isSome = true ∧ (w'.heard x.fd).Proves O user := by
  have inv : w.Inv O := by
    apply run.invariant (Watched.Inv O) _ (Watched.boot_inv db limiter)
    rintro w label w' inv ⟨unused, step⟩
    exact (inv.step unused step).1
  constructor
  · intro user fd at_fd
    obtain ⟨c, present, bound, -⟩ := inv.present user fd at_fd
    exact ⟨c, present, bound, inv.paired user fd at_fd⟩
  · rintro event writes w' ⟨unused, step⟩ x member user mail
    exact (inv.step unused step).2 x member user (labelled_step step.1 x member user mail)

/-! ### A user signs in and writes a note to itself -/

/-- A relay whose signatures are the key and the message, and that limits nobody. -/
noncomputable def plainRelay : RelayOutside Unit Unit where
  frame := .ofCountable _
  envelope := .ofCountable _
  bundle := .ofCountable _
  verify pubkey message signature := signature = pubkey ++ message
  tryConsume limiter _ _ _ := (limiter, true)
  names := .entries
  walk := AList.entries
  walk_perm _ := .refl _

/-- A frame that does not close its connection. -/
theorem step_frame_bufs {s s' : RelayServer L} {fd : Fd} {c : Conn} {draws : RelayDraws}
    {f : Frame B} {writes : List (Write B)} (at_fd : s.conns.lookup fd = some c)
    (allowed : c.authenticated = true ∨ f.beforeAuth = true)
    (dispatched : s.dispatch O fd c draws f = .ok (s', writes))
    (watched : ∀ x ∈ writes, x.fd ∈ s'.registered)
    (stays : (s'.conns.lookup fd).map (·.wantsClose) = some false) :
    ∃ bufs, s.step O (.frame fd (O.frame.encode f) draws) =
      .ok ({ s' with writeBufs := bufs }, writes) := by
  obtain ⟨t, written⟩ := exists_foldlM_enqueueWrite (O := O) writes
    fun x member _ => watched x member
  obtain ⟨bufs, rfl⟩ := foldlM_enqueueWrite_bufs written
  have handled : s.handleFrame O fd c draws (O.frame.encode f) =
      .ok ({ s' with writeBufs := bufs }, writes) := by
    have heard : ¬(c.authenticated = false ∧ f.beforeAuth = false) := by
      rcases allowed with yes | yes <;> simp [yes]
    simp only [RelayServer.handleFrame, Codec.decode_encode, heard, if_false, dispatched, written]
  refine ⟨bufs, ?_⟩
  simp only [RelayServer.step, at_fd, handled, stays, Option.getD_some, Bool.false_eq_true,
    if_false]

theorem step_frame {s s' : RelayServer L} {fd : Fd} {c : Conn} {draws : RelayDraws} {f : Frame B}
    {writes : List (Write B)} (at_fd : s.conns.lookup fd = some c)
    (allowed : c.authenticated = true ∨ f.beforeAuth = true)
    (dispatched : s.dispatch O fd c draws f = .ok (s', writes))
    (watched : ∀ x ∈ writes, x.fd ∈ s'.registered)
    (stays : (s'.conns.lookup fd).map (·.wantsClose) = some false) :
    ∃ t, s.step O (.frame fd (O.frame.encode f) draws) = .ok (t, writes) ∧
      t.conns = s'.conns ∧ t.relay = s'.relay ∧ t.registered = s'.registered ∧
      t.dir = s'.dir := by
  obtain ⟨bufs, taken⟩ := step_frame_bufs at_fd allowed dispatched watched stays
  exact ⟨_, taken, rfl, rfl, rfl, rfl⟩

def owner : Bytes := List.replicate 32 1

def nonce : Bytes := List.replicate 32 2

def claimed : Conn :=
  { Conn.accepted .tcp with claimedUserPub := owner, challenge := nonce, challengeIssued := true }

def signedIn : Conn := { claimed with boundUserPub := owner, authenticated := true }

abbrev PlainSteps : Watched Unit → RelayEvent × List (Write Unit) → Watched Unit → Prop :=
  Guarded (Watched.Step plainRelay) Watched.FdUnused

private theorem exists_plainStep {w : Watched Unit} {fd : Fd} {c : Conn} {draws : RelayDraws}
    {f : Frame Unit} {s' : RelayServer Unit} {writes : List (Write Unit)}
    (at_fd : w.server.conns.lookup fd = some c)
    (allowed : c.authenticated = true ∨ f.beforeAuth = true)
    (dispatched : w.server.dispatch plainRelay fd c draws f = .ok (s', writes))
    (watched : ∀ x ∈ writes, x.fd ∈ s'.registered)
    (stays : (s'.conns.lookup fd).map (·.wantsClose) = some false) :
    ∃ w', PlainSteps w (.frame fd (plainRelay.frame.encode f) draws, writes) w' ∧
      w'.server.conns = s'.conns ∧ w'.server.relay = s'.relay ∧
      w'.server.registered = s'.registered := by
  obtain ⟨t, taken, conns, relay, registered, -⟩ := step_frame at_fd allowed dispatched watched stays
  exact ⟨⟨t, _⟩, ⟨nofun, taken, rfl⟩, conns, relay, registered⟩

/-- A connection, a claim without a name and its signature. -/
noncomputable def loginEvents : List RelayEvent :=
  [.accept 5 .tcp,
    .frame 5 (plainRelay.frame.encode (.hello owner [])) ⟨nonce, 0, 0⟩,
    .frame 5 (plainRelay.frame.encode (.helloAck (owner ++ nonce))) ⟨nonce, 0, 0⟩]

/-- A login. If there is a database, nothing waits in it. -/
theorem exists_loginEvents (tables : Option (SrvDirectory × Map Bytes Bytes)) :
    ∃ labels w, Run PlainSteps (Watched.boot (tables.map fun t => (⟨[], 0⟩, t)) ()) labels w ∧
      w.server.conns.lookup 5 = some signedIn ∧ 5 ∈ w.server.registered ∧
      w.server.relay = (Relay.fresh (tables.map fun _ => ⟨[], 0⟩)).bind 5 owner ∧
      labels.map Prod.fst = loginEvents := by
  let draws : RelayDraws := ⟨nonce, 0, 0⟩
  have accepted : ∃ w, PlainSteps (Watched.boot (tables.map fun t => (⟨[], 0⟩, t)) ())
      (.accept 5 .tcp, []) w ∧
      w.server.conns.lookup 5 = some (Conn.accepted .tcp) ∧ 5 ∈ w.server.registered ∧
      w.server.relay = Relay.fresh (tables.map fun _ => ⟨[], 0⟩) := by
    refine ⟨⟨_, _⟩, ⟨?_, rfl, rfl⟩, rfl, List.mem_singleton_self _, ?_⟩
    · rintro fd transport -
      rfl
    · cases tables <;> rfl
  obtain ⟨w₁, step₁, at₁, reg₁, relay₁⟩ := accepted
  have greeted : w₁.server.dispatch plainRelay 5 (Conn.accepted .tcp) draws (.hello owner []) =
      .ok (w₁.server.setConn 5 claimed,
        [⟨5, .reply, .serverHello true (ascii "challenge") nonce⟩]) := rfl
  obtain ⟨w₂, step₂, conns₂, relay₂, registered₂⟩ := exists_plainStep at₁ (.inr rfl) greeted
    (by simpa [RelayServer.setConn] using reg₁)
    (by simp [RelayServer.setConn, claimed, Conn.accepted])
  have at₂ : w₂.server.conns.lookup 5 = some claimed := by
    rw [conns₂]
    exact AList.lookup_insert _
  let bound := (Relay.fresh (tables.map fun _ => ⟨[], 0⟩)).bind 5 owner
  have drained : ((Relay.fresh (tables.map fun _ => ⟨[], 0⟩)).bind 5
      claimed.claimedUserPub).drainOffline claimed.claimedUserPub = (bound, []) := by
    cases tables <;> rfl
  have signed : w₂.server.dispatch plainRelay 5 claimed draws (.helloAck (owner ++ nonce)) =
      .ok ({ w₂.server.setConn 5 signedIn with relay := bound }, []) := by
    have verified : plainRelay.verify claimed.claimedUserPub claimed.challenge (owner ++ nonce) =
        true := by
      simp [plainRelay, claimed]
    have admitted : w₂.server.onHelloAck plainRelay 5 claimed (owner ++ nonce) =
        w₂.server.signIn plainRelay 5 claimed := by
      simp only [RelayServer.onHelloAck, verified]
      rfl
    rw [RelayServer.dispatch, admitted, RelayServer.signIn, relay₂.trans relay₁]
    simp only [drained]
    rfl
  obtain ⟨w₃, step₃, conns₃, relay₃, registered₃⟩ := exists_plainStep at₂ (.inr rfl) signed
    (List.forall_mem_nil _) (by simp [RelayServer.setConn, signedIn, claimed, Conn.accepted])
  refine ⟨_, w₃, .cons step₁ (.cons step₂ (.cons step₃ (.nil _))), ?_, ?_, relay₃, rfl⟩
  · rw [conns₃]
    exact AList.lookup_insert _
  · rw [registered₃]
    change 5 ∈ w₂.server.registered
    rw [registered₂]
    exact reg₁

theorem exists_login (tables : Option (SrvDirectory × Map Bytes Bytes)) :
    ∃ labels w, Run PlainSteps (Watched.boot (tables.map fun t => (⟨[], 0⟩, t)) ()) labels w ∧
      w.server.conns.lookup 5 = some signedIn ∧ 5 ∈ w.server.registered ∧
      w.server.relay = (Relay.fresh (tables.map fun _ => ⟨[], 0⟩)).bind 5 owner := by
  obtain ⟨labels, w, run, at_fd, registered, relay, -⟩ := exists_loginEvents tables
  exact ⟨labels, w, run, at_fd, registered, relay⟩

/-- What the user sends to itself comes back on the connection that has signed in. -/
theorem mail_to_owner_note : ∃ labels w w' env, Run PlainSteps (Watched.boot none ()) labels w ∧
    PlainSteps w (.frame 5 (plainRelay.frame.encode (.envelope env)) ⟨nonce, 0, 0⟩,
      [⟨5, .direct owner, .envelope env⟩]) w' ∧
    w.server.relay.fdToUser.lookup 5 = some owner ∧ (w'.heard 5).Proves plainRelay owner := by
  obtain ⟨labels, w, run, at_fd, registered, relay⟩ := exists_login none
  have here : w.server.relay.lookup owner = some 5 := by
    rw [relay]
    rfl
  let note : Envelope := ⟨[], 0, [], [42], [], 0, 0, [], [], .userPubkey owner⟩
  have sent : w.server.dispatch plainRelay 5 signedIn ⟨nonce, 0, 0⟩ (.envelope note) =
      .ok (w.server, [⟨5, .direct owner, .envelope note⟩]) := by
    have admitted : w.server.consume plainRelay signedIn 0 note = (w.server, true) := rfl
    simp only [RelayServer.dispatch, note, RelayServer.onDirectEnvelope]
    simp only [note] at admitted
    simp only [admitted, here, at_fd]
    rfl
  obtain ⟨w', step, -⟩ := exists_plainStep at_fd (.inl rfl) sent (by simpa using registered)
    (by rw [at_fd]; rfl)
  have safe := mail_to_owner run
  obtain ⟨c, -, -, paired⟩ := safe.1 owner 5 here
  have mail := safe.2 _ _ w' step _ List.mem_cons_self owner (.inr ⟨by simp, note, rfl, rfl⟩)
  exact ⟨labels, w, w', note, run, step, paired, mail.2⟩

end FinBit.Server
