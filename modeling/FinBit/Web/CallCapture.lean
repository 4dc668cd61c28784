import FinBit.Web.CallCandidates

/-! # The microphone of a call in the browser

Tearing a session down stops the tracks of its local stream. While the browser still asks for the
microphone there is none, and the stream that comes later is kept by a session that is closed already
and is never torn down again.
-/

namespace FinBit.Web

open FinBit.Lib

/-- `getUserMedia` has not answered yet. -/
def CallStage.asks : CallStage → Bool
  | .building _ | .capturing _ => true
  | _ => false

namespace CallSession

variable {B : Browser} {s t : CallSession}

/-- A closed session whose local stream is live. -/
structure LeftOn (s : CallSession) : Prop where
  begun : s.begun = true
  torn : s.pc = none
  closed : s.state = .closed
  ended : s.method = none
  live : s.localStream = some true
  still : s.handler.any SignalStage.drains = false

theorem LeftOn.act {e : SessionEvent} {news : List SessionNews} (left : LeftOn s)
    (taken : s.act B e = some (t, news)) : LeftOn t := by
  obtain ⟨begun, torn, closed, ended, live, still⟩ := left
  have teardown : s.teardown = (s, []) := if_pos closed
  cases e with
  | startOutgoing withVideo =>
    -- a session begins once
    rw [CallSession.act, if_pos (.inl begun)] at taken
    cases taken
  | accept withVideo =>
    rw [CallSession.act, if_pos (.inl begun)] at taken
    cases taken
  | resolved sdp =>
    -- nothing waits any more that could bring another stream
    rw [CallSession.act, ended] at taken
    cases taken
  | rejected =>
    rw [CallSession.act, ended] at taken
    cases taken
  | applied =>
    rw [CallSession.act, torn] at taken
    cases taken
  | receiveOffer offerSdp =>
    rw [CallSession.act, if_pos (.inl begun)] at taken
    cases taken
  | receiveAnswer =>
    rw [CallSession.act] at taken
    split at taken
    · cases taken
    · split at taken
      · cases taken
        exact ⟨begun, torn, closed, ended, live, still⟩
      next there => cases torn.symm.trans there
  | receiveIce json =>
    rw [CallSession.act] at taken
    split at taken
    · cases taken
    · obtain rfl := congrArg Prod.fst (Option.some.inj taken)
      rw [receiveIce]
      split
      · exact ⟨begun, torn, closed, ended, live, still⟩
      next there => cases torn.symm.trans there
      · exact ⟨begun, torn, closed, ended, live, still⟩
  | hungUp =>
    -- a closed session is not torn down again, so its tracks are not stopped
    rw [CallSession.act, teardown] at taken
    split at taken
    · cases taken
    · cases taken
      exact ⟨begun, torn, closed, ended, live, still⟩
  | handled fulfilled =>
    rw [CallSession.act] at taken
    split at taken
    · cases taken
    next applied here =>
      rw [here] at still
      -- no description was applied, since there is no connection
      obtain rfl : applied = false := still
      split at taken
      · cases taken
      · cases taken
        exact ⟨begun, torn, closed, ended, live, rfl⟩
    next here =>
      rw [here] at still
      cases still
    · cases taken
      exact ⟨begun, torn, closed, ended, live, rfl⟩
  | hangup =>
    rw [CallSession.act, if_pos closed] at taken
    cases taken
    exact ⟨begun, torn, closed, ended, live, still⟩
  | hangupSent =>
    rw [CallSession.act] at taken
    split at taken
    · cases taken
    · have again : ({ s with hangingUp := s.hangingUp - 1 } : CallSession).teardown =
          ({ s with hangingUp := s.hangingUp - 1 }, []) := if_pos closed
      rw [again] at taken
      cases taken
      exact ⟨begun, torn, closed, ended, live, still⟩
  | connection connected =>
    rw [CallSession.act.eq_def] at taken
    dsimp only at taken
    rw [torn] at taken
    cases taken
  | track =>
    rw [CallSession.act, torn] at taken
    cases taken
  | frame sender plaintext =>
    rw [CallSession.act, torn] at taken
    cases taken

theorem LeftOn.run {events : List SessionEvent} (left : LeftOn s) (run : Run (Step B) s events t) :
    LeftOn t :=
  run.invariant LeftOn (fun _ _ _ left ⟨_, taken⟩ => left.act taken) left

/-- Before the browser has given its microphone there is no stream, and a session that is torn down by
then is closed. -/
structure Asking (s : CallSession) : Prop where
  idle : s.begun = false → s.pc = none ∧ s.method = none ∧ s.handler = none ∧ s.localStream = none
  closed : s.state = .closed → s.pc = none
  stream : ∀ m, s.method = some m → m.asks = true → s.localStream = none
  still : ∀ m, s.method = some m → m.asks = true → s.handler.any SignalStage.drains = false
  stable : ∀ m p, s.method = some m → m.asks = true → s.pc = some p → p.signaling = .stable
  torn : ∀ m, s.method = some m → m.asks = true → s.pc = none → s.state = .closed

/-- The microphone that a torn session still uses was there before, or is given in this step. -/
def Late (s : CallSession) (e : SessionEvent) (t : CallSession) : Prop :=
  t.pc = none → t.localStream = some true → (s.pc = none ∧ s.localStream = some true) ∨
    ∃ sdp withVideo, e = .resolved sdp ∧ s.method = some (.capturing withVideo) ∧ s.pc = none

/-- Steps that give no microphone and tear nothing down. A session that still asks for its microphone
does nothing but take in what comes. -/
structure Passes (s t : CallSession) : Prop where
  begun : t.begun = s.begun
  stream : t.localStream = s.localStream
  pc : t.pc = none ↔ s.pc = none
  closed : t.state = .closed → s.state = .closed
  idle : s.begun = false → s.method = none → s.handler = none → t.method = none ∧ t.handler = none
  asks : ∀ m, t.method = some m → m.asks = true →
    (∃ n, s.method = some n ∧ n.asks = true) ∧ t.state = s.state ∧
      (t.handler.any SignalStage.drains = true → s.handler.any SignalStage.drains = true) ∧
      ∀ p, t.pc = some p → ∃ q, s.pc = some q ∧ q.signaling = p.signaling

theorem Asking.passes (asking : Asking s) (passes : Passes s t) (e : SessionEvent) :
    Asking t ∧ Late s e t := by
  obtain ⟨begun, stream, pc, closed, idle, asks⟩ := passes
  refine ⟨⟨fun fresh => ?_, fun shut => pc.mpr (asking.closed (closed shut)), ?_, ?_, ?_, ?_⟩,
    fun torn live => .inl ⟨pc.mp torn, stream ▸ live⟩⟩
  · obtain ⟨no_pc, no_method, no_handler, no_stream⟩ := asking.idle (begun ▸ fresh)
    obtain ⟨method, handler⟩ := idle (begun ▸ fresh) no_method no_handler
    exact ⟨pc.mpr no_pc, method, handler, stream.trans no_stream⟩
  · intro m here asking_for
    obtain ⟨⟨n, there, before⟩, -⟩ := asks m here asking_for
    exact stream.trans (asking.stream n there before)
  · intro m here asking_for
    obtain ⟨⟨n, there, before⟩, -, drains, -⟩ := asks m here asking_for
    by_contra now
    have still := asking.still n there before
    rw [drains (Bool.eq_true_of_not_eq_false now)] at still
    cases still
  · intro m p here asking_for now
    obtain ⟨⟨n, there, before⟩, -, -, signaling⟩ := asks m here asking_for
    obtain ⟨q, was, same⟩ := signaling p now
    exact same.symm.trans (asking.stable n q there before was)
  · intro m here asking_for now
    obtain ⟨⟨n, there, before⟩, state, -⟩ := asks m here asking_for
    exact state.trans (asking.torn n there before (pc.mp now))

theorem Passes.refl (s : CallSession) : Passes s s where
  begun := rfl
  stream := rfl
  pc := Iff.rfl
  closed := id
  idle _ method handler := ⟨method, handler⟩
  asks m here asks := ⟨⟨m, here, asks⟩, rfl, id, fun p there => ⟨p, there, rfl⟩⟩

/-- The method goes on behind the microphone, or ends. -/
theorem passes_method {m : CallStage} (here : s.method = some m)
    (begun : t.begun = s.begun) (stream : t.localStream = s.localStream) (pc : t.pc = none ↔ s.pc = none)
    (closed : t.state = .closed → s.state = .closed)
    (behind : ∀ n, t.method = some n → n.asks = false) : Passes s t := by
  refine ⟨begun, stream, pc, closed, fun _ no_method => ?_, fun n now asks => ?_⟩
  · cases here.symm.trans no_method
  · rw [behind n now] at asks
    cases asks

/-- A handler begins to wait, outside of a loop. -/
theorem passes_handler (asking : Asking s) {p : PeerConnection} (there : s.pc = some p)
    {handler : SignalStage} (before : handler.drains = true → False) :
    Passes s { s with handler := some handler } where
  begun := rfl
  stream := rfl
  pc := Iff.rfl
  closed := id
  idle fresh := by cases (asking.idle fresh).1.symm.trans there
  asks m here asks := ⟨⟨m, here, asks⟩, rfl, fun drains => (before drains).elim, fun p there => ⟨p, there, rfl⟩⟩

/-- The handler of a signal is through. -/
theorem passes_idle {handler : SignalStage} (here : s.handler = some handler) :
    Passes s { s with handler := none } where
  begun := rfl
  stream := rfl
  pc := Iff.rfl
  closed := id
  idle _ _ none := by cases here.symm.trans none
  asks m now asks := ⟨⟨m, now, asks⟩, rfl, (fun drains => by cases drains), fun p there => ⟨p, there, rfl⟩⟩

theorem pc_drain (s : CallSession) (next : Nat) : (s.drain next).1.pc = none ↔ s.pc = none := by
  rw [drain]
  split
  next p candidate there _ => simp [give, there]
  · exact Iff.rfl

theorem passes_acceptFrom {m : CallStage} (here : s.method = some m)
    (next : Nat) : Passes s (s.acceptFrom next).1 := by
  have pc := pc_drain s next
  have same : (s.drain next).1.begun = s.begun ∧ (s.drain next).1.localStream = s.localStream ∧
      (s.drain next).1.state = s.state := by
    rw [drain]
    split <;> exact ⟨rfl, rfl, rfl⟩
  rw [CallSession.acceptFrom]
  split
  next u next' drained =>
    rw [drained] at pc same
    refine passes_method here same.1 same.2.1 pc (fun shut => same.2.2 ▸ shut) fun n now => ?_
    cases now
    rfl
  next u drained =>
    rw [drained] at pc same
    split
    all_goals
      refine passes_method here same.1 same.2.1 pc (fun shut => same.2.2 ▸ shut) fun n now => ?_
      cases now
    rfl

/-- A loop of `receiveAnswer` goes on only behind the microphone. -/
theorem Asking.answerFrom (asking : Asking s) (drains : s.handler.any SignalStage.drains = true)
    (next : Nat) : Passes s (s.answerFrom next).1 := by
  have pc := pc_drain s next
  have same : (s.drain next).1.begun = s.begun ∧ (s.drain next).1.localStream = s.localStream ∧
      (s.drain next).1.state = s.state ∧ (s.drain next).1.method = s.method := by
    rw [drain]
    split <;> exact ⟨rfl, rfl, rfl, rfl⟩
  have busy : s.handler = none → False := by
    intro none
    rw [none] at drains
    cases drains
  have behind : ∀ n, s.method = some n → n.asks = true → False := by
    intro n there asks
    rw [asking.still n there asks] at drains
    cases drains
  rw [CallSession.answerFrom]
  split
  next u next' drained =>
    rw [drained] at pc same
    obtain ⟨begun, stream, state, method⟩ := same
    exact ⟨begun, stream, pc, fun shut => state ▸ shut, fun _ _ none => (busy none).elim,
      fun n now asks => (behind n (method ▸ now) asks).elim⟩
  next u drained =>
    rw [drained] at pc same
    obtain ⟨begun, stream, state, method⟩ := same
    exact ⟨begun, stream, pc, (fun shut => by cases shut), fun _ _ none => (busy none).elim,
      fun n now asks => (behind n (method ▸ now) asks).elim⟩

theorem Asking.teardown (asking : Asking s) (e : SessionEvent) :
    Asking s.teardown.1 ∧ Late s e s.teardown.1 := by
  rw [CallSession.teardown]
  split
  · exact asking.passes (.refl s) e
  · refine ⟨⟨fun fresh => ?_, fun _ => rfl, ?_, ?_, ?_, ?_⟩, ?_⟩
    · obtain ⟨-, method, handler, stream⟩ := asking.idle fresh
      exact ⟨rfl, method, handler, by simp [setState, stream]⟩
    · intro m here asks
      simp [setState, asking.stream m here asks]
    · exact asking.still
    · rintro m p - - ⟨⟩
    · exact fun _ _ _ _ => rfl
    · -- what was live has been stopped
      intro _ live
      simp [setState] at live

theorem Asking.resume {m : CallStage} {sdp : Bytes} {news : List SessionNews} (asking : Asking s)
    (here : s.method = some m) (goes : s.resume B sdp m = some (t, news)) :
    Asking t ∧ Late s (.resolved sdp) t := by
  cases m with
  | building withVideo =>
    cases goes
    refine asking.passes ?_ _
    refine { Passes.refl s with idle := fun _ none => ?_, asks := fun n now asks => ?_ }
    · cases here.symm.trans none
    · exact ⟨⟨_, here, rfl⟩, rfl, id, fun p there => ⟨p, there, rfl⟩⟩
  | capturing withVideo =>
    rw [CallSession.resume] at goes
    split at goes
    next torn =>
      -- the stream comes too late
      cases goes
      refine ⟨⟨fun fresh => ?_, asking.closed, ?_, ?_, ?_, ?_⟩, fun _ _ => ?_⟩
      · cases here.symm.trans (asking.idle fresh).2.1
      · rintro m ⟨⟩
      · rintro m ⟨⟩
      · rintro m p ⟨⟩
      · rintro m ⟨⟩
      · exact .inr ⟨sdp, withVideo, rfl, here, torn⟩
    next p there =>
      -- it comes in time, and the method asks for nothing more
      cases goes
      refine ⟨⟨fun fresh => ?_, asking.closed, ?_, ?_, ?_, ?_⟩, fun torn => ?_⟩
      · cases here.symm.trans (asking.idle fresh).2.1
      · rintro m ⟨⟩ asks
        cases asks
      · rintro m ⟨⟩ asks
        cases asks
      · rintro m p ⟨⟩ asks
        cases asks
      · rintro m ⟨⟩ asks
        cases asks
      · cases there.symm.trans torn
  | adding =>
    cases goes
    refine asking.passes ?_ _
    exact passes_method here rfl rfl .rfl id fun n now => by cases now; rfl
  | derivingKey =>
    rw [CallSession.resume] at goes
    split at goes
    all_goals
      cases goes
      refine asking.passes ?_ _
      refine passes_method here rfl rfl .rfl id fun n now => ?_
      cases now
    · rfl
    · rfl
  | creatingOffer =>
    rw [CallSession.resume] at goes
    split at goes
    all_goals
      cases goes
      refine asking.passes ?_ _
      refine passes_method here rfl rfl .rfl id fun n now => ?_
      cases now
    rfl
  | settingOffer offer =>
    cases goes
    refine asking.passes ?_ _
    exact passes_method here rfl rfl Option.map_eq_none_iff (fun shut => by cases shut)
      fun n now => by cases now; rfl
  | sendingOffer =>
    cases goes
    refine asking.passes ?_ _
    exact passes_method here rfl rfl .rfl id fun n now => by cases now
  | settingRemote applied =>
    cases applied with
    | false => cases goes
    | true =>
      obtain rfl := congrArg Prod.fst (Option.some.inj goes)
      exact asking.passes (passes_acceptFrom here 0) _
  | draining next =>
    obtain rfl := congrArg Prod.fst (Option.some.inj goes)
    exact asking.passes (passes_acceptFrom here next) _
  | creatingAnswer =>
    rw [CallSession.resume] at goes
    split at goes
    all_goals
      cases goes
      refine asking.passes ?_ _
      refine passes_method here rfl rfl .rfl id fun n now => ?_
      cases now
    rfl
  | settingAnswer answer =>
    cases goes
    refine asking.passes ?_ _
    exact passes_method here rfl rfl Option.map_eq_none_iff id fun n now => by cases now; rfl
  | sendingAnswer =>
    cases goes
    refine asking.passes ?_ _
    exact passes_method here rfl rfl .rfl (fun shut => by cases shut) fun n now => by cases now

theorem Asking.act {e : SessionEvent} {news : List SessionNews} (asking : Asking s)
    (taken : s.act B e = some (t, news)) : Asking t ∧ Late s e t := by
  have started (fresh : s.begun = false) (open_ : s.state ≠ .closed) (role : Option CallRole)
      (withVideo : Bool) : Asking { s with
        role, begun := true, pc := some ⟨false, .stable, []⟩, method := some (.building withVideo) } := by
    obtain ⟨-, -, handler, stream⟩ := asking.idle fresh
    refine ⟨(fun no => by cases no), fun shut => absurd shut open_, fun _ _ _ => stream, fun m _ _ => ?_,
      ?_, fun m _ _ => ?_⟩
    · change s.handler.any SignalStage.drains = false
      rw [handler]
      rfl
    · rintro m p - - ⟨⟩
      rfl
    · rintro ⟨⟩
  cases e with
  | startOutgoing withVideo =>
    rw [CallSession.act] at taken
    split at taken
    · cases taken
    next fresh =>
      obtain ⟨unbegun, idle⟩ := not_or.mp fresh
      cases taken
      refine ⟨started (Bool.eq_false_iff.mpr unbegun) ?_ _ _, fun none => by cases none⟩
      rw [not_not.mp idle]
      decide
  | accept withVideo =>
    rw [CallSession.act] at taken
    split at taken
    · cases taken
    next fresh =>
      obtain ⟨unbegun, open_⟩ := not_or.mp fresh
      split at taken
      · cases taken
        exact asking.passes (.refl s) _
      · cases taken
        exact ⟨started (Bool.eq_false_iff.mpr unbegun) open_ _ _, fun none => by cases none⟩
  | resolved sdp =>
    obtain ⟨m, here, goes⟩ := Option.bind_eq_some_iff.mp taken
    exact asking.resume here goes
  | rejected =>
    rw [CallSession.act] at taken
    split at taken
    · cases taken
    · cases taken
    next next here =>
      obtain rfl := congrArg Prod.fst (Option.some.inj taken)
      exact asking.passes (passes_acceptFrom here next) _
    next here =>
      cases taken
      refine asking.passes ?_ _
      exact passes_method here rfl rfl .rfl id fun n now => by cases now
  | applied =>
    obtain ⟨u, applies, same⟩ := Option.map_eq_some_iff.mp taken
    obtain ⟨p, there, goes⟩ := Option.bind_eq_some_iff.mp applies
    cases same
    rw [apply] at goes
    split at goes
    next waits =>
      cases goes
      refine asking.passes ?_ _
      refine passes_method waits rfl rfl ?_ id fun n now => by cases now; rfl
      simp [there]
    next signaling waits =>
      cases goes
      -- a local offer comes behind the microphone
      refine asking.passes ?_ _
      refine { Passes.refl s with pc := ?_, idle := ?_, asks := fun m here asks => ?_ }
      · simp [there]
      · intro _ _ none
        cases waits.symm.trans none
      · have stable := asking.stable m p here asks there
        cases signaling.symm.trans stable
    · cases goes
  | receiveOffer offerSdp =>
    rw [CallSession.act] at taken
    split at taken
    · cases taken
    next fresh =>
      cases taken
      obtain ⟨-, method, -, -⟩ := asking.idle (Bool.eq_false_iff.mpr fun begun => fresh (.inl begun))
      -- the offer only makes the session ring
      refine asking.passes ?_ _
      refine { Passes.refl s with closed := (fun shut => by cases shut), asks := fun m here _ => ?_ }
      cases method.symm.trans here
  | receiveAnswer =>
    rw [CallSession.act] at taken
    split at taken
    · cases taken
    · split at taken
      · cases taken
        exact asking.passes (.refl s) _
      next p there =>
        cases taken
        refine asking.passes ?_ _
        exact passes_handler asking there fun drains => by cases drains
  | receiveIce json =>
    rw [CallSession.act] at taken
    split at taken
    · cases taken
    · obtain rfl := congrArg Prod.fst (Option.some.inj taken)
      refine asking.passes ?_ _
      rw [receiveIce]
      split
      · exact .refl s
      next there =>
        refine { Passes.refl s with pc := ?_, idle := ?_, asks := fun m here asks => ?_ }
        · simp [give, there]
        · intro fresh
          cases (asking.idle fresh).1.symm.trans there
        · refine ⟨⟨m, here, asks⟩, rfl, (fun drains => by cases drains), ?_⟩
          simp [give, there]
      · exact { Passes.refl s with }
  | hungUp =>
    rw [CallSession.act] at taken
    split at taken
    · cases taken
    · obtain rfl := congrArg Prod.fst (Option.some.inj taken)
      exact asking.teardown _
  | handled fulfilled =>
    rw [CallSession.act] at taken
    split at taken
    · cases taken
    next applied here =>
      split at taken
      · cases taken
      · split at taken
        next on =>
          obtain rfl := congrArg Prod.fst (Option.some.inj taken)
          refine asking.passes ?_ _
          exact asking.answerFrom (by rw [here]; exact on) 0
        · cases taken
          refine asking.passes ?_ _
          exact passes_idle here
    next next here =>
      obtain rfl := congrArg Prod.fst (Option.some.inj taken)
      refine asking.passes ?_ _
      exact asking.answerFrom (by rw [here]; rfl) next
    next here =>
      cases taken
      refine asking.passes ?_ _
      exact passes_idle here
  | hangup =>
    obtain ⟨_, _, _, _, rfl⟩ := act_beside (.inl rfl) taken
    refine asking.passes ?_ _
    exact { Passes.refl s with }
  | hangupSent =>
    rw [CallSession.act] at taken
    split at taken
    · cases taken
    · obtain rfl := congrArg Prod.fst (Option.some.inj taken)
      have sent : Asking { s with hangingUp := s.hangingUp - 1 } := { asking with }
      exact sent.teardown _
  | connection connected =>
    rw [CallSession.act.eq_def] at taken
    dsimp only at taken
    split at taken
    · cases taken
    next p there =>
      cases taken
      refine ⟨{ asking with closed := (fun shut => by cases shut), torn := fun m _ _ none => ?_ }, ?_⟩
      · cases there.symm.trans none
      · intro torn
        cases there.symm.trans torn
    · obtain rfl := congrArg Prod.fst (Option.some.inj taken)
      exact asking.teardown _
    · cases taken
      exact asking.passes (.refl s) _
  | track =>
    obtain ⟨_, _, _, _, rfl⟩ := act_beside (.inr (.inl rfl)) taken
    refine asking.passes ?_ _
    exact { Passes.refl s with }
  | frame sender plaintext =>
    obtain ⟨_, _, _, _, rfl⟩ := act_beside (.inr (.inr ⟨sender, plaintext, rfl⟩)) taken
    refine asking.passes ?_ _
    exact { Passes.refl s with }

/-! ### Runs -/

theorem asking_new (callId sharedSecret : Bytes) : Asking (new callId sharedSecret) := by
  refine ⟨fun _ => ⟨rfl, rfl, rfl, rfl⟩, (fun shut => by cases shut), ?_, ?_, ?_, ?_⟩
  all_goals
    intro m
    intros
    contradiction

/-- The stream of a session that is torn down while it asks is left on. -/
theorem Asking.leaves_on {sdp : Bytes} {withVideo : Bool} {news : List SessionNews} (asking : Asking s)
    (waits : s.method = some (.capturing withVideo)) (torn : s.pc = none)
    (taken : s.act B (.resolved sdp) = some (t, news)) : LeftOn t := by
  obtain ⟨m, here, goes⟩ := Option.bind_eq_some_iff.mp taken
  obtain rfl : m = .capturing withVideo := Option.some.inj (here.symm.trans waits)
  have begun : s.begun = true := by
    by_contra fresh
    cases here.symm.trans (asking.idle (Bool.eq_false_iff.mpr fresh)).2.1
  rw [CallSession.resume] at goes
  split at goes
  · cases goes
    exact ⟨begun, torn, asking.torn _ here rfl torn, rfl, rfl, asking.still _ here rfl⟩
  next p there => cases torn.symm.trans there

/-- The stream came when the session had been torn down. -/
def CameLate (B : Browser) (s : CallSession) (events : List SessionEvent) (t : CallSession) : Prop :=
  ∃ before sdp after u withVideo, events = before ++ .resolved sdp :: after ∧ Run (Step B) s before u ∧
    Run (Step B) u (.resolved sdp :: after) t ∧ u.method = some (.capturing withVideo) ∧ u.pc = none

theorem CameLate.on {u : CallSession} {events more : List SessionEvent} (late : CameLate B s events t)
    (further : Run (Step B) t more u) : CameLate B s (events ++ more) u := by
  obtain ⟨before, sdp, after, v, withVideo, rfl, first, second, waits, torn⟩ := late
  exact ⟨before, sdp, after ++ more, v, withVideo, by simp, first, second.append further, waits, torn⟩

theorem asking_run {callId sharedSecret : Bytes} {events : List SessionEvent}
    (run : Run (Step B) (new callId sharedSecret) events t) : Asking t :=
  run.invariant Asking (fun _ _ _ asking ⟨_, taken⟩ => (asking.act taken).1)
    (asking_new callId sharedSecret)

/-- Once a session is torn down, its microphone is in use exactly if the browser has given it afterwards,
and then nothing stops it any more. -/
theorem left_on_iff {callId sharedSecret : Bytes} {events : List SessionEvent}
    (run : Run (Step B) (new callId sharedSecret) events t) (torn : t.pc = none) :
    (t.localStream = some true ↔ CameLate B (new callId sharedSecret) events t) ∧
      (t.localStream = some true → ∀ more u, Run (Step B) t more u →
        u.state = .closed ∧ u.pc = none ∧ u.localStream = some true) := by
  have came : ∀ {events t}, Run (Step B) (new callId sharedSecret) events t → t.pc = none →
      t.localStream = some true → LeftOn t ∧ CameLate B (new callId sharedSecret) events t := by
    intro events t run
    have both := run.invariant_history
      (fun events s => Run (Step B) (new callId sharedSecret) events s ∧ (s.pc = none →
        s.localStream = some true → LeftOn s ∧ CameLate B (new callId sharedSecret) events s)) ?_
      ⟨.nil _, fun _ none => by cases none⟩
    · exact both.2
    · rintro history s e t ⟨earlier, before⟩ taken
      obtain ⟨news, acted⟩ := taken
      have further : Run (Step B) s [e] t := .cons ⟨news, acted⟩ (.nil t)
      refine ⟨earlier.append further, fun torn live => ?_⟩
      obtain ⟨was_torn, was_live⟩ | ⟨sdp, withVideo, rfl, waits, was_torn⟩ :=
        ((asking_run earlier).act acted).2 torn live
      · obtain ⟨left, late⟩ := before was_torn was_live
        exact ⟨left.act acted, late.on further⟩
      · exact ⟨(asking_run earlier).leaves_on waits was_torn acted,
          history, sdp, [], s, withVideo, rfl, earlier, further, waits, was_torn⟩
  refine ⟨⟨fun live => (came run torn live).2, ?_⟩, fun live more u further => ?_⟩
  · rintro ⟨before, sdp, after, u, withVideo, -, first, second, waits, was_torn⟩
    cases second with
    | cons taken rest =>
      obtain ⟨news, acted⟩ := taken
      exact (((asking_run first).leaves_on waits was_torn acted).run rest).live
  · have left := (came run torn live).1.run further
    exact ⟨left.closed, left.torn, left.live⟩

/-- The peer hangs up while the browser asks for the microphone, which is given then. -/
def hungUpAsking : List SessionEvent :=
  [.receiveOffer [], .accept false, .resolved [], .hungUp, .resolved []]

def leftOn : CallSession := (follow openBrowser hungUpAsking (new [2] [3])).getD (new [2] [3])

theorem left_on_iff_hungUpAsking :
    follow openBrowser hungUpAsking (new [2] [3]) = some leftOn ∧
      CameLate openBrowser (new [2] [3]) hungUpAsking leftOn ∧
      ∀ more u, Run (Step openBrowser) leftOn more u →
        u.state = .closed ∧ u.pc = none ∧ u.localStream = some true := by
  have followed : follow openBrowser hungUpAsking (new [2] [3]) = some leftOn := rfl
  have both := left_on_iff (run_of_follow followed) rfl
  exact ⟨followed, both.1.mp rfl, both.2 rfl⟩

end CallSession

end FinBit.Web
