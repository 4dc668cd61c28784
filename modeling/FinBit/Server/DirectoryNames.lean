import FinBit.Server.Stamping

/-! # Names in the directory

The server accepts a name in two frames. A ClientHello has its name checked against the
grammar of usernames; a RegisterReq of a connection that has signed in has not. A third
way in is a look-up: the table compares C strings, so a name that goes on after a NUL
finds the row of its beginning, and is then cached as it was asked for.

As long as neither of the two is used for a name outside the grammar, every name in the
map and in the table is within it, over restarts and all.
-/

namespace FinBit.Server

open FinBit.Lib FinBit.Identity

variable {B L : Type} {O : RelayOutside B L} {s s' : RelayServer L} {fd : Fd} {c : Conn}

/-! ### The directory alone -/

namespace Directory

/-- The name is bound, in the map or in the table. -/
def Binds (d : Directory) (name : Bytes) : Prop :=
  (d.nameToPub.lookup name).isSome ∨
    ∃ db, d.store = some db ∧ ∃ row ∈ db.rows, row.username.val = name

/-- All names are within the grammar. -/
def Grammatical (d : Directory) : Prop := ∀ name, d.Binds name → isValidUsername name = true

variable {d : Directory} {name : Bytes}

/-- Caching a name leaves the others. -/
theorem Grammatical.cache (grammatical : d.Grammatical) (valid : isValidUsername name = true)
    (pubkey : Bytes) : Grammatical { d with nameToPub := d.nameToPub.insert name pubkey } := by
  rintro other (cached | stored)
  · by_cases same : other = name
    · rw [same]
      exact valid
    · rw [AList.lookup_insert_ne same] at cached
      exact grammatical other (.inl cached)
  · exact grammatical other (.inr stored)

theorem Grammatical.registerUser (grammatical : d.Grammatical)
    (valid : isValidUsername name = true) (pubkey : Span) :
    (d.registerUser name pubkey).1.Grammatical := by
  unfold Directory.registerUser
  split
  · exact grammatical
  · -- the map and the table get the name together
    rintro other (cached | ⟨db, stored, row, member, rfl⟩)
    · exact (grammatical.cache valid pubkey.bytes) other (.inl cached)
    · obtain ⟨old, before, rfl⟩ := Option.map_eq_some_iff.mp stored
      unfold srvRegisterUser at member
      split at member
      · exact grammatical _ (.inr ⟨old, before, row, member, rfl⟩)
      · rcases SrvDirectory.mem_rows_upsert member with new | ⟨earlier, inside, same⟩
        · -- a valid name is written as it is
          rw [new, isValidUsername_cstr valid]
          exact valid
        · exact grammatical _ (.inr ⟨old, before, earlier, inside, by rw [same]⟩)

/-- What a look-up caches is what was asked for: within the grammar if it is the name of
the row that is found. -/
theorem Grammatical.resolve (grammatical : d.Grammatical)
    (whole : (0 : UInt8) ∉ name ∨ d.store.bind (srvResolveUsername · name) = none) :
    (d.resolve name).1.Grammatical := by
  unfold Directory.resolve
  split
  · exact grammatical
  · split
    next loaded found =>
      have noNul := whole.resolve_right (by simp [found])
      obtain ⟨db, stored, hit⟩ := Option.bind_eq_some_iff.mp found
      obtain ⟨row, first, -⟩ := Option.map_eq_some_iff.mp hit
      have named : row.username = cstr name := by simpa using List.find?_some first
      have bound : d.Binds name := by
        refine .inr ⟨db, stored, row, List.mem_of_find?_eq_some first, ?_⟩
        rw [named, cstr_of_not_mem noNul]
      exact grammatical.cache (grammatical name bound) loaded
    · exact grammatical

theorem Grammatical.reverseResolve (grammatical : d.Grammatical) (order : IterationOrder)
    (pubkey : Span) : (d.reverseResolve order pubkey).1.Grammatical := by
  unfold Directory.reverseResolve
  split
  · exact grammatical
  · split
    next loaded found =>
      obtain ⟨db, stored, hit⟩ := Option.bind_eq_some_iff.mp found
      unfold srvReverseResolvePubkey at hit
      split at hit
      · cases hit
      · -- here the name that is cached is the one of the row
        obtain ⟨row, first, rfl⟩ := Option.map_eq_some_iff.mp hit
        have bound : d.Binds row.username.val :=
          .inr ⟨db, stored, row, List.mem_of_find?_eq_some first, rfl⟩
        exact grammatical.cache (grammatical _ bound) pubkey.bytes
    · exact grammatical

end Directory

/-! ### The server -/

/-- A step of the server, or a restart on the tables it has left. -/
inductive ServerStep (O : RelayOutside B L) : RelayServer L → Option RelayEvent → RelayServer L → Prop
  | served {s s' : RelayServer L} {event : RelayEvent} {writes : List (Write B)}
      (done : s.step O event = .ok (s', writes)) : ServerStep O s (some event) s'
  | restarted {s : RelayServer L} (limiter : L) : ServerStep O s none (.boot s.tables limiter)

/-- The frames that bring no name from outside the grammar: a RegisterReq for the own key
has a name within it, and a look-up that goes to the table has no NUL. -/
def KeepsGrammar (O : RelayOutside B L) (s : RelayServer L) (label : Option RelayEvent) : Prop :=
  ∀ fd bytes draws c, label = some (.frame fd bytes draws) → s.conns.lookup fd = some c →
    c.authenticated = true →
    (∀ name, O.frame.decode bytes = some (.registerReq c.boundUserPub name) →
      isValidUsername name = true) ∧
    ∀ name requestId, O.frame.decode bytes = some (.keyFetch name requestId) →
      (0 : UInt8) ∉ name ∨ s.dir.store.bind (srvResolveUsername · name) = none

/-- The directory and the claims that are on their way into it. -/
structure NamesValid (s : RelayServer L) : Prop where
  dir : s.dir.Grammatical
  claims : ∀ fd c, s.conns.lookup fd = some c →
    c.claimedUsername = [] ∨ isValidUsername c.claimedUsername = true

/-- A connection is replaced by one whose claim is in order. -/
theorem NamesValid.setConn (names : NamesValid s)
    (claim : c.claimedUsername = [] ∨ isValidUsername c.claimedUsername = true) :
    NamesValid (s.setConn fd c) where
  dir := names.dir
  claims fd' c' found := by
    by_cases same : fd' = fd
    · subst same
      rw [RelayServer.setConn, AList.lookup_insert] at found
      obtain rfl := Option.some.inj found
      exact claim
    · rw [RelayServer.setConn, AList.lookup_insert_ne same] at found
      exact names.claims fd' c' found

theorem NamesValid.of_eq (names : NamesValid s) (conns : s'.conns = s.conns)
    (dir : s'.dir = s.dir) : NamesValid s' where
  dir := dir ▸ names.dir
  claims := by
    rw [conns]
    exact names.claims

section

variable {draws : RelayDraws} {writes : List (Write B)}

theorem NamesValid.onHello (names : NamesValid s) (at_fd : s.conns.lookup fd = some c)
    (challenge pubkey username : Bytes) :
    NamesValid (s.onHello (B := B) fd c challenge pubkey username).1 := by
  have claim := names.claims fd c at_fd
  unfold RelayServer.onHello
  split
  · exact names.setConn claim
  split
  · exact names.setConn claim
  dsimp only
  split
  · exact names.setConn claim
  next checked =>
    -- the name that is kept has just been checked
    apply names.setConn
    by_cases absent : username = []
    · exact .inl absent
    · right
      simpa [absent] using checked

theorem NamesValid.signIn (names : NamesValid s)
    (claim : c.claimedUsername = [] ∨ isValidUsername c.claimedUsername = true) :
    NamesValid (s.signIn O fd c).1 :=
  (names.setConn (c := { c with boundUserPub := c.claimedUserPub, authenticated := true })
    claim).of_eq rfl rfl

theorem NamesValid.onHelloAck (names : NamesValid s) (at_fd : s.conns.lookup fd = some c)
    (signature : Bytes) : NamesValid (s.onHelloAck O fd c signature).1 := by
  have claim := names.claims fd c at_fd
  unfold RelayServer.onHelloAck
  split
  · exact names.setConn claim
  split
  · exact names.setConn claim
  split
  · exact names.setConn claim
  split
  next claims =>
    -- only a claim that the ClientHello has left is registered
    have valid := claim.resolve_left claims
    have registered : NamesValid { s with dir :=
        (s.dir.registerUser c.claimedUsername (Span.ofVector c.claimedUserPub)).1 } :=
      ⟨names.dir.registerUser valid _, names.claims⟩
    dsimp only
    split
    · exact registered.signIn claim
    · exact registered.setConn claim
  · exact names.signIn claim

/-- Envelopes touch neither a claim nor the directory. -/
theorem envelope_frame {env : Envelope}
    (done : s.dispatch O fd c draws (.envelope env) = .ok (s', writes)) :
    s'.conns = s.conns ∧ s'.dir = s.dir := by
  have consumed : (s.consume O c draws.clock env).1.conns = s.conns ∧
      (s.consume O c draws.clock env).1.dir = s.dir := by
    unfold RelayServer.consume
    split <;> exact ⟨rfl, rfl⟩
  simp only [RelayServer.dispatch] at done
  split at done
  · obtain ⟨rfl, -⟩ := Prod.ext_iff.mp (Except.ok.inj done)
    unfold RelayServer.onChannelEnvelope
    dsimp only
    split
    · exact consumed
    · split <;> exact consumed
  · unfold RelayServer.onDirectEnvelope at done
    generalize s.consume O c draws.clock env = result at done consumed
    obtain ⟨t, ok⟩ := result
    dsimp only at done consumed
    split at done
    · cases done
      exact consumed
    · split at done
      · split at done <;> cases done <;> exact consumed
      · split at done <;> cases done
        exact consumed
  · cases done
    exact ⟨rfl, rfl⟩

theorem NamesValid.dispatch (names : NamesValid s) (at_fd : s.conns.lookup fd = some c)
    {f : Frame B}
    (register : ∀ name, f = .registerReq c.boundUserPub name → isValidUsername name = true)
    (lookup : ∀ name requestId, f = .keyFetch name requestId →
      (0 : UInt8) ∉ name ∨ s.dir.store.bind (srvResolveUsername · name) = none)
    (done : s.dispatch O fd c draws f = .ok (s', writes)) : NamesValid s' := by
  cases f with
  | hello pubkey username =>
    obtain ⟨rfl, -⟩ := Prod.ext_iff.mp (Except.ok.inj done)
    exact names.onHello at_fd _ _ _
  | helloAck signature =>
    obtain ⟨rfl, -⟩ := Prod.ext_iff.mp (Except.ok.inj done)
    exact names.onHelloAck at_fd signature
  | keyFetch username requestId =>
    obtain ⟨rfl, -⟩ := Prod.ext_iff.mp (Except.ok.inj done)
    have resolved : NamesValid { s with dir := (s.dir.resolve username).1 } :=
      ⟨names.dir.resolve (lookup username requestId rfl), names.claims⟩
    simp only [RelayServer.onKeyFetch]
    split
    · exact resolved
    · exact resolved.of_eq rfl rfl
  | usernameLookup pubkey =>
    obtain ⟨rfl, -⟩ := Prod.ext_iff.mp (Except.ok.inj done)
    unfold RelayServer.onUsernameLookup
    split
    · exact ⟨names.dir.reverseResolve O.names _, names.claims⟩
    · exact names
  | registerReq claimPubkey claimUsername =>
    obtain ⟨rfl, -⟩ := Prod.ext_iff.mp (Except.ok.inj done)
    unfold RelayServer.onRegisterReq
    split
    · exact names
    next own =>
      -- nothing has looked at this name but the hypothesis
      rw [not_not] at own
      exact ⟨names.dir.registerUser (register claimUsername (by rw [own])) _, names.claims⟩
  | roomJoin roomId uplinkClass =>
    simp only [RelayServer.dispatch] at done
    split at done
    · cases done
      exact names
    · cases done
      exact (names.setConn (c := { c with roomUplinkClass := uplinkClass })
        (names.claims fd c at_fd)).of_eq rfl rfl
  | chanSubscribe | chanUnsubscribe | roomLeave =>
    simp only [RelayServer.dispatch] at done
    split at done <;> cases done <;> exact names.of_eq rfl rfl
  | envelope env =>
    obtain ⟨conns, dir⟩ := envelope_frame done
    exact names.of_eq conns dir
  | _ =>
    cases done
    exact names.of_eq rfl rfl

theorem NamesValid.closeConn (names : NamesValid s)
    (done : s.closeConn O fd = .ok (s', writes)) : NamesValid s' := by
  obtain ⟨⟨bufs, rfl⟩, -⟩ := closeConn_ok done
  refine ⟨names.dir, fun fd' c' found => ?_⟩
  change (s.conns.erase fd).lookup fd' = some c' at found
  by_cases same : fd' = fd
  · subst same
    rw [AList.lookup_erase] at found
    cases found
  · rw [AList.lookup_erase_ne same] at found
    exact names.claims fd' c' found

theorem NamesValid.handleFrame (names : NamesValid s) (at_fd : s.conns.lookup fd = some c)
    {bytes : Bytes} (keeps : KeepsGrammar O s (some (.frame fd bytes draws)))
    (done : s.handleFrame O fd c draws bytes = .ok (s', writes)) : NamesValid s' := by
  cases handledFrame done with
  | malformed => exact names.setConn (c := { c with wantsClose := true }) (names.claims fd c at_fd)
  | early => exact names
  | @dispatched f t writes decoded heard dispatched bufs =>
    -- both frames come after the sign-in
    have signed : f.beforeAuth = false → c.authenticated = true := by
      intro later
      exact heard.resolve_right (by simp [later])
    have after := names.dispatch at_fd (fun name here => ?_) (fun name requestId here => ?_)
      dispatched
    · exact after.of_eq rfl rfl
    · subst here
      exact (keeps fd bytes draws c rfl at_fd (signed rfl)).1 name decoded
    · subst here
      exact (keeps fd bytes draws c rfl at_fd (signed rfl)).2 name requestId decoded

theorem NamesValid.step {event : RelayEvent} (names : NamesValid s)
    (keeps : KeepsGrammar O s (some event)) (done : s.step O event = .ok (s', writes)) :
    NamesValid s' := by
  cases stepTaken done with
  | accepted fd transport =>
    refine ⟨names.dir, fun fd' c' found => ?_⟩
    dsimp only at found
    split at found
    · exact names.claims fd' c' found
    · -- a new connection claims no name yet
      by_cases same : fd' = fd
      · subst same
        rw [AList.lookup_insert] at found
        obtain rfl := Option.some.inj found
        exact .inl rfl
      · rw [AList.lookup_insert_ne same] at found
        exact names.claims fd' c' found
  | frame at_fd handled => exact names.handleFrame at_fd keeps handled
  | frameClosed at_fd handled closed => exact (names.handleFrame at_fd keeps handled).closeConn closed
  | closed done => exact names.closeConn done
  | frameUnknown | closedUnknown => exact names
  | flushed => exact names.of_eq rfl rfl

/-- A server that starts on tables with valid names. -/
theorem namesValid_boot {db : Option (SrvOffline × SrvDirectory × Map Bytes Bytes)}
    (valid : ∀ tables ∈ db, ∀ row ∈ tables.2.1.rows, isValidUsername row.username.val = true)
    (limiter : L) : NamesValid (RelayServer.boot db limiter) where
  dir name bound := by
    rcases bound with cached | ⟨names, stored, row, member, rfl⟩
    · simp [RelayServer.boot] at cached
    · obtain ⟨tables, there, rfl⟩ := Option.map_eq_some_iff.mp stored
      exact valid tables there row member
  claims fd c found := by simp [RelayServer.boot] at found

theorem NamesValid.restart (names : NamesValid s) (limiter : L) :
    NamesValid (RelayServer.boot s.tables limiter) := by
  apply namesValid_boot
  intro tables there row member
  have stored : s.dir.store = some tables.2.1 := by
    unfold RelayServer.tables at there
    split at there
    next held _ => cases there; exact held
    · cases there
  exact names.dir _ (.inr ⟨_, stored, row, member, rfl⟩)

end

/-! ### What the grammar excludes -/

/-- ASCII letters in lower case. -/
def lowercase (c : UInt8) : UInt8 := if 0x41 ≤ c ∧ c ≤ 0x5a then c + 0x20 else c

def isControl (c : UInt8) : Bool := c < 0x20 || c = 0x7f

theorem usernameChar_plain {c : UInt8} (allowed : usernameChar c = true) :
    lowercase c = c ∧ isControl c = false := by
  simp only [usernameChar, Bool.or_eq_true, Bool.and_eq_true, decide_eq_true_eq,
    UInt8.le_iff_toNat_le, ← UInt8.toNat_inj] at allowed
  have upper : ¬(0x41 ≤ c ∧ c ≤ 0x5a) := by
    simp only [UInt8.le_iff_toNat_le]
    intro big
    simp at allowed big
    omega
  refine ⟨by rw [lowercase, if_neg upper], ?_⟩
  simp only [isControl, Bool.or_eq_false_iff, decide_eq_false_iff_not, UInt8.lt_iff_toNat_lt,
    ← UInt8.toNat_inj]
  simp at allowed ⊢
  omega

/-- Names within the grammar that differ at most by case are the same. -/
theorem eq_of_lowercase {a b : Bytes} (one : isValidUsername a = true)
    (two : isValidUsername b = true) (same : a.map lowercase = b.map lowercase) : a = b := by
  have plain : ∀ name, isValidUsername name = true → name.map lowercase = name := by
    intro name valid
    have allowed := List.all_eq_true.mp (isValidUsername_all valid)
    calc name.map lowercase = name.map id :=
          List.map_congr_left fun c member => (usernameChar_plain (allowed c member)).1
      _ = name := List.map_id name
  rwa [plain a one, plain b two] at same

/-- On a database whose names are within the grammar, such as an empty one, every name that
is ever bound is within it, if the frames keep it. -/
theorem directory_names_valid {db : Option (SrvOffline × SrvDirectory × Map Bytes Bytes)}
    (valid : ∀ tables ∈ db, ∀ row ∈ tables.2.1.rows, isValidUsername row.username.val = true)
    {limiter : L} {labels : List (Option RelayEvent)}
    (run : Run (Guarded (ServerStep O) (KeepsGrammar O)) (RelayServer.boot db limiter) labels s) :
    (∀ name, s.dir.Binds name → isValidUsername name = true) ∧
    (∀ a b, s.dir.Binds a → s.dir.Binds b → a.map lowercase = b.map lowercase → a = b) ∧
    ∀ name, s.dir.Binds name → name.length ≤ 32 ∧ ∀ c ∈ name, isControl c = false := by
  -- the claims of open connections are part of the invariant: a HelloAck binds them
  have names : NamesValid s := by
    refine run.invariant NamesValid ?_ (namesValid_boot valid limiter)
    rintro s label s' names ⟨keeps, taken⟩
    cases taken with
    | served done => exact names.step keeps done
    | restarted limiter => exact names.restart limiter
  refine ⟨names.dir, fun a b one two same => ?_, fun name bound => ?_⟩
  · exact eq_of_lowercase (names.dir a one) (names.dir b two) same
  · have inside := names.dir name bound
    have allowed := List.all_eq_true.mp (isValidUsername_all inside)
    exact ⟨(isValidUsername_length inside).2,
      fun c member => (usernameChar_plain (allowed c member)).2⟩

/-! ### A name in upper case -/

/-- The owner signs in without a name, and then registers one. -/
private noncomputable def registration (name : Bytes) : List (Option RelayEvent) :=
  loginEvents.map some ++
    [some (.frame 5 (plainRelay.frame.encode (.registerReq owner name)) ⟨nonce, 0, 0⟩)]

private theorem exists_registered (name : Bytes) : ∃ s,
    Run (ServerStep plainRelay) (RelayServer.boot none ()) (registration name) s ∧
      s.dir.Binds name := by
  obtain ⟨labels, w, run, at_fd, registered, -, events⟩ := exists_loginEvents none
  have login : Run (ServerStep plainRelay) (RelayServer.boot none ()) (loginEvents.map some)
      w.server := by
    have served := run.simulate Watched.server (fun label => some label.1)
      fun u label v taken => ServerStep.served taken.2.1
    rw [← events, List.map_map]
    exact served
  let registered' := w.server.dir.registerUser name (Span.ofVector owner)
  have asked : w.server.dispatch plainRelay 5 signedIn ⟨nonce, 0, 0⟩ (.registerReq owner name) =
      .ok ({ w.server with dir := registered'.1 }, [⟨5, .reply, .registerResp registered'.2
        (ascii (if registered'.2 then "ok" else "username taken"))⟩]) := by
    have own : ¬owner ≠ signedIn.boundUserPub := fun other => other rfl
    rw [RelayServer.dispatch, RelayServer.onRegisterReq, if_neg own]
    rfl
  obtain ⟨t, taken, -, -, -, dir⟩ := step_frame at_fd (.inl rfl) asked (by simpa using registered)
    (by rw [at_fd]; rfl)
  refine ⟨t, login.append (.cons (.served taken) (.nil _)), .inl ?_⟩
  -- whoever had the name before, it is bound now
  simp only [dir, registered', Directory.registerUser]
  split
  next held found => simp [found]
  · simp [AList.lookup_insert]

/-- A RegisterReq binds `Alice`. -/
theorem register_unchecked : ∃ labels s,
    Run (ServerStep plainRelay) (RelayServer.boot none ()) labels s ∧
      ∃ name, s.dir.Binds name ∧ isValidUsername name = false := by
  obtain ⟨s, run, bound⟩ := exists_registered (ascii "Alice")
  exact ⟨_, s, run, _, bound, by decide⟩

private theorem registration_keeps {name : Bytes} (valid : isValidUsername name = true)
    (s : RelayServer Unit) : ∀ label ∈ registration name, KeepsGrammar plainRelay s label := by
  rintro label member fd bytes draws c rfl - -
  simp only [registration, loginEvents, List.map_cons, List.map_nil, List.cons_append,
    List.nil_append, List.mem_cons, List.not_mem_nil, or_false, Option.some.injEq,
    RelayEvent.frame.injEq, reduceCtorEq, false_or] at member
  rcases member with ⟨-, rfl, -⟩ | ⟨-, rfl, -⟩ | ⟨-, rfl, -⟩
  all_goals simp only [Codec.decode_encode]
  · exact ⟨nofun, nofun⟩
  · exact ⟨nofun, nofun⟩
  · refine ⟨fun other same => ?_, nofun⟩
    obtain ⟨-, rfl⟩ := Frame.registerReq.inj (Option.some.inj same)
    exact valid

/-- With `alice` the run keeps the grammar, and so do the names. -/
theorem directory_names_valid_alice : ∃ labels s,
    Run (Guarded (ServerStep plainRelay) (KeepsGrammar plainRelay)) (RelayServer.boot none ())
      labels s ∧ s.dir.Binds (ascii "alice") ∧
      ∀ name, s.dir.Binds name → isValidUsername name = true := by
  obtain ⟨s, run, bound⟩ := exists_registered (ascii "alice")
  have guarded := run.guarded (registration_keeps (by decide))
  exact ⟨_, s, guarded, bound, (directory_names_valid (by simp) guarded).1⟩

end FinBit.Server
