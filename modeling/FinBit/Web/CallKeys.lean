import FinBit.Web.CallSession

/-! # What a call in the browser seals and opens

The transforms of a session capture its base key when they are installed. Those of the senders are
installed with the local media, before the key is derived; those of the receivers when the tracks of the
peer appear, behind the remote description. So a session opens what its peer seals and sends nothing.
-/

namespace FinBit.Web

open FinBit.Lib FinBit.Media

namespace CallStage
/-- The stages before the key is there. -/
def keyless : CallStage → Bool
  | .building _ | .capturing _ | .adding | .derivingKey => true
  | _ => false
end CallStage

namespace CallSession

variable {B : Browser} {s t : CallSession} {key : Bytes} {plain : List Bytes}

/-- What the keys of a session are, at every time. -/
structure Keyed (B : Browser) (key : Bytes) (plain : List Bytes) (s : CallSession) : Prop where
  own : s.callKey B = key
  idle : s.begun = false → s.pc = none ∧ s.method = none ∧ s.sending = []
  without : s.begun = false ∨ (∃ m, s.method = some m ∧ m.keyless = true) → s.sframeBaseKey = none
  stage : ∀ m, s.method = some m → m.keyless = false → s.sframeBaseKey = some key
  described : ∀ p, s.pc = some p → p.remote = true ∨ p.signaling ≠ .stable → s.sframeBaseKey = some key
  sending : ∀ t ∈ s.sending, t.isSome = B.encodedStreams ∧ ∀ x, t = some x → x.baseKey = none
  receiving : ∀ r ∈ s.receiving, r = if B.encodedStreams then some (some key) else none
  spoken : s.spoken = if B.encodedStreams then [] else plain

/-- The same keys, with a method that is no earlier, and no other connection. -/
structure Onward (s t : CallSession) : Prop where
  own : t.callId = s.callId ∧ t.sharedSecret = s.sharedSecret
  begun : t.begun = s.begun
  base : t.sframeBaseKey = s.sframeBaseKey
  sending : t.sending = s.sending
  receiving : t.receiving = s.receiving
  method : ∀ m, t.method = some m → s.method = some m ∨
    m.keyless = false ∧ ∃ m, s.method = some m ∧ m.keyless = false
  pc : ∀ p, t.pc = some p → ∃ q, s.pc = some q ∧ q.remote = p.remote ∧ q.signaling = p.signaling
  spoken : t.spoken = s.spoken

theorem Keyed.onward (keyed : Keyed B key plain s) (same : Onward s t) : Keyed B key plain t := by
  obtain ⟨⟨id, secret⟩, begun, base, sending, receiving, method, pc, spoken⟩ := same
  constructor
  · rw [← keyed.own, callKey, callKey, id, secret]
  · intro fresh
    obtain ⟨no_pc, no_method, no_senders⟩ := keyed.idle (begun ▸ fresh)
    refine ⟨Option.eq_none_iff_forall_ne_some.mpr fun p here => ?_,
      Option.eq_none_iff_forall_ne_some.mpr fun m here => ?_, sending.trans no_senders⟩
    · obtain ⟨q, there, -⟩ := pc p here
      rw [no_pc] at there
      cases there
    · obtain there | ⟨-, m, there, -⟩ := method m here
      all_goals
        rw [no_method] at there
        cases there
  · rintro (fresh | ⟨m, here, early⟩)
    · rw [base]
      exact keyed.without (.inl (begun ▸ fresh))
    · obtain there | ⟨late, -⟩ := method m here
      · rw [base]
        exact keyed.without (.inr ⟨m, there, early⟩)
      · rw [early] at late
        cases late
  · intro m here late
    rw [base]
    obtain there | ⟨-, m, there, late⟩ := method m here
    · exact keyed.stage m there late
    · exact keyed.stage m there late
  · intro p here described
    obtain ⟨q, there, remote, signaling⟩ := pc p here
    rw [base]
    exact keyed.described q there (by rwa [remote, signaling])
  · rw [sending]
    exact keyed.sending
  · rw [receiving]
    exact keyed.receiving
  · rw [spoken]
    exact keyed.spoken

theorem Onward.refl (s : CallSession) : Onward s s :=
  ⟨⟨rfl, rfl⟩, rfl, rfl, rfl, rfl, fun _ here => .inl here, fun p here => ⟨p, here, rfl, rfl⟩, rfl⟩

theorem Onward.trans {u : CallSession} (first : Onward s t) (second : Onward t u) : Onward s u := by
  obtain ⟨⟨id, secret⟩, begun, base, sending, receiving, method, pc, spoken⟩ := first
  refine ⟨⟨second.own.1.trans id, second.own.2.trans secret⟩, second.begun.trans begun,
    second.base.trans base, second.sending.trans sending, second.receiving.trans receiving,
    fun m here => ?_, fun p here => ?_, second.spoken.trans spoken⟩
  · obtain there | ⟨late, n, there, late'⟩ := second.method m here
    · exact method m there
    · obtain first | ⟨-, first⟩ := method n there
      · exact .inr ⟨late, n, first, late'⟩
      · exact .inr ⟨late, first⟩
  · obtain ⟨q, there, remote, signaling⟩ := second.pc p here
    obtain ⟨r, first, remote', signaling'⟩ := pc q there
    exact ⟨r, first, remote'.trans remote, signaling'.trans signaling⟩

theorem onward_drain (s : CallSession) (next : Nat) : Onward s (s.drain next).1 := by
  rw [drain]
  split
  next p candidate here _ =>
    constructor <;> simp +contextual [give, here]
  · exact { Onward.refl s with }

theorem onward_teardown (s : CallSession) : Onward s s.teardown.1 := by
  rw [teardown]
  split
  · exact .refl s
  · exact { Onward.refl s with pc := fun p here => absurd here (by simp [setState]) }

theorem onward_ends (s : CallSession) : Onward s s.ends.1 :=
  { Onward.refl s with method := fun m here => absurd here (by simp [ends]) }

theorem onward_acceptFrom {m : CallStage} (here : s.method = some m) (late : m.keyless = false)
    (next : Nat) : Onward s (s.acceptFrom next).1 := by
  have drained := onward_drain s next
  have kept : (s.drain next).1.method = some m := by
    rw [← here, drain]
    split <;> rfl
  rw [acceptFrom]
  split
  next u next' drains =>
    rw [drains] at drained kept
    refine drained.trans { Onward.refl u with method := fun n now => .inr ?_ }
    cases now
    exact ⟨rfl, m, kept, late⟩
  next u drains =>
    rw [drains] at drained kept
    refine drained.trans ?_
    split
    · exact onward_ends u
    · refine { Onward.refl u with method := fun n now => .inr ?_ }
      cases now
      exact ⟨rfl, m, kept, late⟩

theorem onward_answerFrom (s : CallSession) (next : Nat) : Onward s (s.answerFrom next).1 := by
  have drained := onward_drain s next
  rw [answerFrom]
  split
  next u next' drains =>
    rw [drains] at drained
    exact drained.trans { Onward.refl u with }
  next u drains =>
    rw [drains] at drained
    exact drained.trans { Onward.refl u with }

/-- The method ends, or goes on within its stages without a key, or within those with one. -/
theorem Keyed.method (keyed : Keyed B key plain s) {m n : CallStage} (here : s.method = some m)
    (same : n.keyless = m.keyless) : Keyed B key plain { s with method := some n } where
  own := keyed.own
  idle fresh := by
    have none := (keyed.idle fresh).2.1
    rw [here] at none
    cases none
  without early := by
    obtain fresh | ⟨k, now, early⟩ := early
    · exact keyed.without (.inl fresh)
    · cases now
      exact keyed.without (.inr ⟨m, here, same ▸ early⟩)
  stage k now late := by
    cases now
    exact keyed.stage m here (same ▸ late)
  described := keyed.described
  sending := keyed.sending
  receiving := keyed.receiving
  spoken := keyed.spoken

theorem Keyed.ends (keyed : Keyed B key plain s) : Keyed B key plain s.ends.1 := keyed.onward (onward_ends s)

/-- A method has been begun where there is one that goes on. -/
theorem Keyed.begun (keyed : Keyed B key plain s) {m : CallStage} (here : s.method = some m) :
    s.begun = true := by
  by_contra fresh
  have none := (keyed.idle (Bool.eq_false_iff.mpr fresh)).2.1
  rw [here] at none
  cases none

theorem Keyed.resume {m : CallStage} {sdp : Bytes} {news : List SessionNews} (keyed : Keyed B key plain s)
    (here : s.method = some m) (goes : s.resume B sdp m = some (t, news)) : Keyed B key plain t := by
  have begun := keyed.begun here
  cases m with
  | building withVideo =>
    cases goes
    exact keyed.method here rfl
  | capturing withVideo =>
    have without := keyed.without (.inr ⟨_, here, rfl⟩)
    rw [CallSession.resume] at goes
    split at goes
    · cases goes
      exact keyed.onward { onward_ends s with }
    · cases goes
      -- each track gets a transform, and the key is only derived afterwards
      refine { Keyed.method keyed here (n := .adding) rfl with idle := ?_, sending := ?_ }
      · intro fresh
        rw [begun] at fresh
        cases fresh
      · intro transform member
        obtain rfl := (List.mem_replicate.mp member).2
        rw [sendTransform]
        split
        next streams => exact ⟨streams.symm, fun x same => by cases same; exact without⟩
        next streams => exact ⟨(Bool.eq_false_iff.mpr streams).symm, fun x same => by cases same⟩
  | adding =>
    cases goes
    exact keyed.method here rfl
  | derivingKey =>
    have derived : ∀ method, (∀ m, method = some m → m.keyless = false) →
        Keyed B key plain { s with sframeBaseKey := some (s.callKey B), method } := by
      intro method late
      refine ⟨keyed.own, fun fresh => ?_, ?_, fun m now _ => congrArg some keyed.own,
        fun p now _ => congrArg some keyed.own, keyed.sending, keyed.receiving, keyed.spoken⟩
      · rw [begun] at fresh
        cases fresh
      · rintro (fresh | ⟨n, now, early⟩)
        · rw [begun] at fresh
          cases fresh
        · rw [late n now] at early
          cases early
    rw [CallSession.resume] at goes
    split at goes
    all_goals
      cases goes
      refine derived _ ?_
      rintro m ⟨⟩
      try rfl
  | creatingOffer =>
    rw [CallSession.resume] at goes
    split at goes
    · cases goes
      exact keyed.ends
    · cases goes
      exact keyed.method here rfl
  | settingOffer offer =>
    cases goes
    have late := keyed.stage _ here rfl
    refine { Keyed.method keyed here (n := .sendingOffer) rfl with idle := ?_, described := ?_ }
    · intro fresh
      rw [begun] at fresh
      cases fresh
    · exact fun p now _ => late
  | sendingOffer =>
    cases goes
    exact keyed.ends
  | settingRemote applied =>
    cases applied with
    | false => cases goes
    | true =>
      obtain rfl := congrArg Prod.fst (Option.some.inj goes)
      exact keyed.onward (onward_acceptFrom here rfl 0)
  | draining next =>
    obtain rfl := congrArg Prod.fst (Option.some.inj goes)
    exact keyed.onward (onward_acceptFrom here rfl next)
  | creatingAnswer =>
    rw [CallSession.resume] at goes
    split at goes
    · cases goes
      exact keyed.ends
    · cases goes
      exact keyed.method here rfl
  | settingAnswer answer =>
    cases goes
    have late := keyed.stage _ here rfl
    refine { Keyed.method keyed here (n := .sendingAnswer) rfl with idle := ?_, described := ?_ }
    · intro fresh
      rw [begun] at fresh
      cases fresh
    · exact fun p now _ => late
  | sendingAnswer =>
    cases goes
    exact { keyed.ends with }

theorem Keyed.apply {p : PeerConnection} (keyed : Keyed B key plain s) (here : s.pc = some p)
    (goes : s.apply p = some t) : Keyed B key plain t := by
  rw [CallSession.apply] at goes
  split at goes
  next _ waits =>
    cases goes
    have late := keyed.stage _ waits rfl
    refine { Keyed.method keyed waits (n := .settingRemote true) rfl with idle := ?_, described := ?_ }
    · intro fresh
      rw [keyed.begun waits] at fresh
      cases fresh
    · exact fun q now _ => late
  next signaling _ =>
    cases goes
    -- there has been a local offer, and so a key
    have late := keyed.described p here (.inr (by rw [signaling]; decide))
    refine { keyed with idle := ?_, described := fun q now _ => late }
    intro fresh
    have none := (keyed.idle fresh).1
    rw [here] at none
    cases none
  · cases goes

theorem Keyed.speak {sender : Nat} {plaintext : Bytes} (keyed : Keyed B key plain s)
    (goes : s.speak B sender plaintext = some t) : Keyed B key (plain ++ [plaintext]) t := by
  rw [CallSession.speak] at goes
  split at goes
  · cases goes
  next here =>
    cases goes
    -- without a transform the frame goes out as it is
    have clear : B.encodedStreams = false := (keyed.sending _ (List.mem_of_getElem? here)).1.symm
    refine { keyed with spoken := ?_ }
    have so_far := keyed.spoken
    rw [clear] at so_far ⊢
    exact congrArg (· ++ [plaintext]) so_far
  next transform here =>
    obtain ⟨streams, without⟩ := keyed.sending _ (List.mem_of_getElem? here)
    have silent : s.spoken = if B.encodedStreams then [] else plain ++ [plaintext] := by
      have so_far := keyed.spoken
      rw [← streams] at so_far ⊢
      exact so_far
    -- the transform was made without a key, so that nothing goes out
    rw [without transform rfl] at goes
    split at goes
    · cases goes
      exact { keyed with spoken := silent }
    · cases goes
      refine { keyed with idle := fun fresh => ?_, sending := fun x member => ?_, spoken := silent }
      · obtain ⟨no_pc, no_method, no_senders⟩ := keyed.idle fresh
        rw [no_senders] at here
        cases here
      · obtain old | rfl := List.mem_or_eq_of_mem_set member
        · exact keyed.sending x old
        · exact ⟨streams, fun y same => by cases same; rfl⟩

/-- What an event gives an encoder's frame to. -/
def plainOf : SessionEvent → Option Bytes
  | .frame _ plaintext => some plaintext
  | _ => none

theorem Keyed.act {e : SessionEvent} {news : List SessionNews} (keyed : Keyed B key plain s)
    (quiet : plainOf e = none) (taken : s.act B e = some (t, news)) : Keyed B key plain t := by
  have fresh_start (fresh : s.begun = false) (role : Option CallRole) (withVideo : Bool) :
      Keyed B key plain { s with
        role, begun := true, pc := some ⟨false, .stable, []⟩, method := some (.building withVideo) } := by
    refine { keyed with idle := ?_, without := fun _ => ?_, stage := ?_, described := ?_ }
    · exact fun now => by cases now
    · exact keyed.without (.inl fresh)
    · rintro m ⟨⟩ late
      cases late
    · rintro p ⟨⟩ (described | described)
      · cases described
      · exact absurd rfl described
  cases e with
  | startOutgoing withVideo =>
    rw [CallSession.act] at taken
    split at taken
    · cases taken
    next fresh =>
      cases taken
      exact fresh_start (Bool.eq_false_iff.mpr fun begun => fresh (.inl begun)) _ _
  | accept withVideo =>
    rw [CallSession.act] at taken
    split at taken
    · cases taken
    next fresh =>
      split at taken
      · cases taken
        exact keyed
      · cases taken
        exact fresh_start (Bool.eq_false_iff.mpr fun begun => fresh (.inl begun)) _ _
  | resolved sdp =>
    obtain ⟨m, here, goes⟩ := Option.bind_eq_some_iff.mp taken
    exact keyed.resume here goes
  | rejected =>
    rw [CallSession.act] at taken
    split at taken
    · cases taken
    · cases taken
    next next here =>
      obtain rfl := congrArg Prod.fst (Option.some.inj taken)
      exact keyed.onward (onward_acceptFrom here rfl next)
    · cases taken
      exact keyed.ends
  | applied =>
    obtain ⟨u, applies, same⟩ := Option.map_eq_some_iff.mp taken
    obtain ⟨p, here, goes⟩ := Option.bind_eq_some_iff.mp applies
    cases same
    exact keyed.apply here goes
  | receiveOffer offerSdp =>
    rw [CallSession.act] at taken
    split at taken
    · cases taken
    · cases taken
      exact { keyed with }
  | receiveAnswer =>
    rw [CallSession.act] at taken
    split at taken
    · cases taken
    · split at taken
      all_goals
        cases taken
        exact { keyed with }
  | receiveIce json =>
    rw [CallSession.act] at taken
    split at taken
    · cases taken
    · obtain rfl := congrArg Prod.fst (Option.some.inj taken)
      rw [CallSession.receiveIce]
      split
      · exact keyed
      next here =>
        refine keyed.onward { Onward.refl s with pc := ?_ }
        simp [give, here]
      · exact { keyed with }
  | hungUp =>
    rw [CallSession.act] at taken
    split at taken
    · cases taken
    · obtain rfl := congrArg Prod.fst (Option.some.inj taken)
      exact keyed.onward (onward_teardown s)
  | handled fulfilled =>
    rw [CallSession.act] at taken
    split at taken
    · cases taken
    · split at taken
      · cases taken
      · split at taken
        · obtain rfl := congrArg Prod.fst (Option.some.inj taken)
          exact keyed.onward (onward_answerFrom s 0)
        · cases taken
          exact { keyed with }
    next place _ =>
      obtain rfl := congrArg Prod.fst (Option.some.inj taken)
      exact keyed.onward (onward_answerFrom s place)
    · cases taken
      exact { keyed with }
  | hangup =>
    rw [CallSession.act] at taken
    split at taken
    all_goals
      cases taken
      exact { keyed with }
  | hangupSent =>
    rw [CallSession.act] at taken
    split at taken
    · cases taken
    · obtain rfl := congrArg Prod.fst (Option.some.inj taken)
      have sent : Keyed B key plain { s with hangingUp := s.hangingUp - 1 } := { keyed with }
      exact sent.onward (onward_teardown _)
  | connection connected =>
    rw [CallSession.act.eq_def] at taken
    dsimp only at taken
    split at taken
    · cases taken
    · cases taken
      exact { keyed with }
    · obtain rfl := congrArg Prod.fst (Option.some.inj taken)
      exact keyed.onward (onward_teardown s)
    · cases taken
      exact keyed
  | track =>
    rw [CallSession.act] at taken
    split at taken
    next here =>
      cases taken
      have late := keyed.described _ here (.inl rfl)
      refine { keyed with receiving := fun r member => ?_ }
      obtain old | new := List.mem_append.mp member
      · exact keyed.receiving r old
      · rw [List.mem_singleton.mp new, late]
    · cases taken
  | frame sender plaintext => cases quiet

theorem keyed_new (B : Browser) (callId sharedSecret : Bytes) :
    Keyed B ((new callId sharedSecret).callKey B) [] (new callId sharedSecret) where
  own := rfl
  idle _ := ⟨rfl, rfl, rfl⟩
  without _ := rfl
  stage m here := by cases here
  described p here := by cases here
  sending := List.forall_mem_nil _
  receiving := List.forall_mem_nil _
  spoken := (ite_self []).symm

theorem keyed_run {callId sharedSecret : Bytes} {events : List SessionEvent}
    (run : Run (Step B) (new callId sharedSecret) events t) :
    Keyed B ((new callId sharedSecret).callKey B) (events.filterMap plainOf) t := by
  refine run.invariant_history (fun events => Keyed B _ (events.filterMap plainOf)) ?_
    (keyed_new B callId sharedSecret)
  rintro history s e t keyed ⟨news, taken⟩
  rw [List.filterMap_append]
  cases plain : plainOf e with
  | none =>
    rw [List.filterMap_cons_none plain, List.filterMap_nil, List.append_nil]
    exact keyed.act plain taken
  | some plaintext =>
    rw [List.filterMap_cons_some plain, List.filterMap_nil]
    cases e with
    | frame sender _ =>
      obtain ⟨p, -, speaks⟩ := Option.bind_eq_some_iff.mp taken
      obtain ⟨u, goes, same⟩ := Option.map_eq_some_iff.mp speaks
      cases plain
      cases same
      exact keyed.speak goes
    | _ => cases plain

/-! ### Both directions -/

/-- A frame that comes in, through the transform of its receiver. -/
def hear (B : Browser) : Option (Option Bytes) → Bytes → Option Bytes
  | none, frame => some frame
  | some none, _ => none
  | some (some key), sealed => sframeOpen B.hkdf B.aead key sealed

/-- A call of two goes on with its key, whatever it has sent. -/
theorem sends_sealed (peer : MediaCall) (sharedSecret callId : Bytes) (earlier : List Bytes)
    (plaintext : Bytes) : ∃ counter,
    ((peer.setSframeContext B.hkdf sharedSecret callId).run B.hkdf B.aead (earlier.map .frame)).sends
      B.hkdf B.aead plaintext =
        sealedFrame B.hkdf B.aead ((new callId sharedSecret).callKey B) 1 counter plaintext := by
  have started : (peer.setSframeContext B.hkdf sharedSecret callId).sealing =
      some ((new callId sharedSecret).callKey B, 1) := rfl
  generalize peer.setSframeContext B.hkdf sharedSecret callId = c at *
  induction earlier generalizing c with
  | nil =>
    refine ⟨c.sendCounter, ?_⟩
    change (c.sealProbe B.hkdf B.aead true plaintext).2 = _
    rw [MediaCall.sealProbe_eq, started]
  | cons frame rest ih =>
    refine ih _ ?_
    change (c.sealProbe B.hkdf B.aead true frame).1.sealing = _
    rw [MediaCall.sealProbe_eq, started]
    exact started

/-- A session with transforms sends nothing and hears all that the desktop's end of the call sends;
one without them sends its frames as they are and passes on what is sealed. -/
theorem hears_and_is_silent {callId sharedSecret : Bytes} {events : List SessionEvent}
    (run : Run (Step B) (new callId sharedSecret) events t) :
    t.spoken = (if B.encodedStreams then [] else events.filterMap plainOf) ∧
      ∀ (peer : MediaCall) (earlier : List Bytes) (plaintext : Bytes), ∀ r ∈ t.receiving,
        let sent := ((peer.setSframeContext B.hkdf sharedSecret callId).run B.hkdf B.aead
          (earlier.map .frame)).sends B.hkdf B.aead plaintext
        hear B r sent = if B.encodedStreams then some plaintext else some sent := by
  have keyed := keyed_run run
  refine ⟨keyed.spoken, fun peer earlier plaintext r member => ?_⟩
  dsimp only
  rw [keyed.receiving r member]
  split
  · obtain ⟨counter, sealed⟩ := sends_sealed (B := B) peer sharedSecret callId earlier plaintext
    rw [sealed]
    exact sframeOpen_sealedFrame ..
  · rfl

/-- A call is accepted, the track of the peer appears, and there is a frame to send. -/
def accepting : List SessionEvent :=
  [.receiveOffer [], .accept false, .resolved [], .resolved [], .resolved [], .resolved [], .applied,
    .track, .frame 0 [1]]

def accepted : CallSession := (follow openBrowser accepting (new [2] [3])).getD (new [2] [3])

theorem hears_and_is_silent_accepting :
    follow openBrowser accepting (new [2] [3]) = some accepted ∧ accepted.receiving.length = 1 ∧
      accepted.spoken = [] ∧ ∀ (peer : MediaCall) (earlier : List Bytes) (plaintext : Bytes),
        ∀ r ∈ accepted.receiving,
          hear openBrowser r (((peer.setSframeContext openBrowser.hkdf [3] [2]).run openBrowser.hkdf
            openBrowser.aead (earlier.map .frame)).sends openBrowser.hkdf openBrowser.aead plaintext) =
              some plaintext := by
  have followed : follow openBrowser accepting (new [2] [3]) = some accepted := rfl
  exact ⟨followed, rfl, hears_and_is_silent (run_of_follow followed)⟩

end CallSession

end FinBit.Web
