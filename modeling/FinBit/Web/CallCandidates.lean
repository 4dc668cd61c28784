import FinBit.Web.CallSession

/-! # The candidates of a call in the browser

Candidates of the peer that come before the remote description wait; `accept` or `receiveAnswer` takes
them up in a loop that pauses at each, while further ones may come and overtake those that wait. Only
one of the two loops can be there, and no candidate is lost or given twice.
-/

namespace FinBit.Web

open FinBit.Lib

namespace CallStage

/-- Where the loop of `accept` stands. -/
def next : CallStage → Nat
  | .draining next => next
  | _ => 0

/-- The remote description is there, and candidates may wait. -/
def drains : CallStage → Bool
  | .settingRemote applied => applied
  | .draining _ => true
  | _ => false

/-- Stages that only `startOutgoing` comes to. -/
def offers : CallStage → Bool
  | .creatingOffer | .settingOffer _ => true
  | _ => false

/-- Stages that only `accept` comes to. -/
def accepts : CallStage → Bool
  | .settingRemote _ | .draining _ => true
  | _ => false

theorem accepts_of_drains {m : CallStage} (drains : m.drains = true) : m.accepts = true := by
  cases m <;> first | rfl | cases drains

theorem next_of_not_drains {m : CallStage} (still : m.drains = false) : m.next = 0 := by
  cases m <;> first | rfl | cases still

end CallStage

namespace SignalStage

def next : SignalStage → Nat
  | .draining next => next
  | _ => 0

def drains : SignalStage → Bool
  | .settingRemote applied => applied
  | .draining _ => true
  | .giving => false

theorem next_of_not_drains {h : SignalStage} (still : h.drains = false) : h.next = 0 := by
  cases h <;> first | rfl | cases still

end SignalStage

namespace CallSession

variable {B : Browser} {s t : CallSession} {heard : List Bytes}

/-- The place of the loop, if there is one. -/
def place (s : CallSession) : Nat :=
  s.method.elim 0 CallStage.next + s.handler.elim 0 SignalStage.next

/-- The candidates that are still to be given. -/
def waiting (s : CallSession) : List Bytes := s.pendingIce.drop s.place

/-- A loop is under way, or about to begin. -/
def emptying (s : CallSession) : Bool := s.method.any CallStage.drains || s.handler.any SignalStage.drains

/-- What has been heard has been given or waits, and one loop at most is under way. -/
structure Collected (heard : List Bytes) (s : CallSession) : Prop where
  idle : s.begun = false → s.pc = none ∧ s.method = none ∧ s.handler = none ∧ s.pendingIce = heard
  collected : ∀ p, s.pc = some p → (p.given ++ s.waiting).Perm heard
  early : ∀ p, s.pc = some p → p.remote = false → p.given = [] ∧ s.emptying = false
  settled : ∀ p, s.pc = some p → p.remote = true → s.emptying = false → s.waiting = []
  offers : ∀ m, s.method = some m → m.offers = true → s.role = some .caller
  accepts : ∀ m, s.method = some m → m.accepts = true → s.role = some .callee
  offered : ∀ p, s.pc = some p → p.signaling = .haveLocalOffer → s.role = some .caller
  answered : s.handler.any SignalStage.drains = true → s.role = some .caller

/-- A method that is not in its loop goes on outside of it. -/
theorem Collected.method (all : Collected heard s) {m : CallStage} (here : s.method = some m)
    (before : m.drains = false) (method : Option CallStage)
    (after : ∀ n, method = some n → n.drains = false)
    (offers : ∀ n, method = some n → n.offers = true → s.role = some .caller)
    (accepts : ∀ n, method = some n → n.accepts = true → s.role = some .callee) :
    Collected heard { s with method } := by
  have place : ({ s with method } : CallSession).place = s.place := by
    rw [CallSession.place, CallSession.place, here, Option.elim_some, CallStage.next_of_not_drains before]
    cases now : method with
    | none => rfl
    | some n => rw [Option.elim_some, CallStage.next_of_not_drains (after n now)]
  have waiting : ({ s with method } : CallSession).waiting = s.waiting := by
    rw [CallSession.waiting, CallSession.waiting, place]
  have emptying : ({ s with method } : CallSession).emptying = s.emptying := by
    rw [CallSession.emptying, CallSession.emptying, here, Option.any_some, before]
    cases now : method with
    | none => rfl
    | some n => rw [Option.any_some, after n now]
  refine { all with idle := ?_, collected := ?_, early := ?_, settled := ?_, offers, accepts }
  · intro fresh
    have none := (all.idle fresh).2.1
    rw [here] at none
    cases none
  · rw [waiting]
    exact all.collected
  · rw [emptying]
    exact all.early
  · rw [waiting, emptying]
    exact all.settled

theorem Collected.ends (all : Collected heard s) {m : CallStage} (here : s.method = some m)
    (before : m.drains = false) : Collected heard s.ends.1 := by
  refine all.method here before none ?_ ?_ ?_
  all_goals
    intro n none
    cases none

/-- Nothing is asked of a session without its connection. -/
theorem Collected.teardown (all : Collected heard s) : Collected heard s.teardown.1 := by
  rw [CallSession.teardown]
  split
  · exact all
  · refine { all with idle := fun fresh => ?_, collected := ?_, early := ?_, settled := ?_, offered := ?_ }
    · obtain ⟨-, rest⟩ := all.idle fresh
      exact ⟨rfl, rest⟩
    all_goals
      rintro p ⟨⟩

/-! ### The loops -/

/-- The candidate at the loop's place goes over to those that have been given. -/
theorem give_waiting {l given : List Bytes} {next : Nat} {candidate : Bytes}
    (here : l[next]? = some candidate) :
    (given ++ [candidate]) ++ l.drop (next + 1) = given ++ l.drop next := by
  have from_here := List.drop_eq_getElem?_toList_append (l := l) (i := next)
  rw [from_here, here, List.append_assoc]
  rfl

theorem Collected.handler_still (all : Collected heard s) (callee : s.role = some .callee) :
    s.handler.any SignalStage.drains = false := by
  by_contra drains
  have caller := all.answered (Bool.eq_true_of_not_eq_false drains)
  rw [callee] at caller
  cases caller

theorem Collected.method_still (all : Collected heard s) (caller : s.role = some .caller) :
    s.method.any CallStage.drains = false := by
  cases here : s.method with
  | none => rfl
  | some m =>
    by_contra drains
    have callee := all.accepts m here (CallStage.accepts_of_drains (Bool.eq_true_of_not_eq_false drains))
    rw [caller] at callee
    cases callee

theorem next_of_still {h : Option SignalStage} (still : h.any SignalStage.drains = false) :
    h.elim 0 SignalStage.next = 0 := by
  cases h with
  | none => rfl
  | some h => exact SignalStage.next_of_not_drains still

theorem next_of_method_still {m : Option CallStage} (still : m.any CallStage.drains = false) :
    m.elim 0 CallStage.next = 0 := by
  cases m with
  | none => rfl
  | some m => exact CallStage.next_of_not_drains still

theorem drain_next {p : PeerConnection} {next : Nat} {candidate : Bytes} (there : s.pc = some p)
    (waits : s.pendingIce[next]? = some candidate) :
    s.drain next = (s.give candidate, some (next + 1)) := by
  rw [drain, there, waits]

theorem drain_torn (next : Nat) (torn : s.pc = none) :
    s.drain next = ({ s with pendingIce := [] }, none) := by
  rw [drain, torn]

theorem drain_end {next : Nat} (none_left : s.pendingIce[next]? = none) :
    s.drain next = ({ s with pendingIce := [] }, none) := by
  rw [drain, none_left]
  cases s.pc <;> rfl

theorem acceptFrom_torn (next : Nat) (torn : s.pc = none) :
    s.acceptFrom next = { s with pendingIce := [] }.ends := by
  rw [acceptFrom, drain_torn next torn]
  dsimp only
  split
  · rfl
  next there => cases torn.symm.trans there

theorem acceptFrom_end {p : PeerConnection} {next : Nat} (there : s.pc = some p)
    (none_left : s.pendingIce[next]? = none) : s.acceptFrom next =
      ({ s with pendingIce := [], method := some .creatingAnswer }, []) := by
  rw [acceptFrom, drain_end none_left]
  dsimp only
  split
  next torn => cases there.symm.trans torn
  · rfl

/-- What both loops keep: the candidate at their place is given and they go on, or none is left. -/
theorem Collected.drain (all : Collected heard s) (emptying : s.emptying = true) (method : Option CallStage)
    (handler : Option SignalStage)
    (offers : ∀ n, method = some n → n.offers = true → s.role = some .caller)
    (accepts : ∀ n, method = some n → n.accepts = true → s.role = some .callee)
    (answered : handler.any SignalStage.drains = true → s.role = some .caller)
    (begun : s.begun = true) (goes_on : (s.drain s.place).2.isSome = true →
      ({ s with method, handler } : CallSession).emptying = true ∧
        ({ s with method, handler } : CallSession).place = s.place + 1)
    (ends : (s.drain s.place).2 = none → s.pc.isSome = true →
      ({ s with method, handler } : CallSession).emptying = false) :
    Collected heard { (s.drain s.place).1 with method, handler } := by
  have started {x : Prop} : (s.begun = false → x) := fun fresh => by rw [begun] at fresh; cases fresh
  have remote : ∀ p, s.pc = some p → p.remote = true := by
    intro p there
    by_contra early
    have idle := (all.early p there (Bool.eq_false_iff.mpr early)).2
    rw [emptying] at idle
    cases idle
  cases there : s.pc with
  | none =>
    -- torn down while the loop waits: it drops what is left
    rw [drain_torn _ there]
    refine ⟨started, ?_, ?_, ?_, offers, accepts, ?_, answered⟩
    all_goals
      intro p none
      cases there.symm.trans none
  | some p =>
    cases waits : s.pendingIce[s.place]? with
    | none =>
      -- the loop has been through, and the buffer is reset
      rw [drain_end waits] at ends ⊢
      have still := ends rfl (there ▸ rfl)
      have nothing : s.waiting = [] := List.drop_eq_nil_iff.mpr (List.getElem?_eq_none_iff.mp waits)
      refine ⟨started, fun q here => ?_, fun q here early => ?_, fun q here _ _ => List.drop_nil,
        offers, accepts, all.offered, answered⟩
      · have given := all.collected q here
        rw [nothing] at given
        rw [waiting, List.drop_nil]
        exact given
      · have late := remote q here
        rw [early] at late
        cases late
    | some candidate =>
      rw [drain_next there waits] at goes_on ⊢
      obtain ⟨on, place⟩ := goes_on rfl
      -- one candidate changes sides, the others stay
      have given : (s.give candidate).pc = some { p with given := p.given ++ [candidate] } := by
        rw [give, there]
        rfl
      refine ⟨started, fun q here => ?_, fun q here early => ?_, fun q here late still => ?_,
        offers, accepts, fun q here => ?_, answered⟩
      · cases given.symm.trans here
        have before := all.collected p there
        rw [waiting, ← give_waiting waits] at before
        have same : ({ s.give candidate with method, handler } : CallSession).place = s.place + 1 := place
        rw [waiting, same]
        exact before
      · cases given.symm.trans here
        have late := remote p there
        rw [early] at late
        cases late
      · exact absurd on (ne_true_of_eq_false still)
      · cases given.symm.trans here
        exact all.offered p there

theorem Collected.begun (all : Collected heard s) {m : CallStage} (here : s.method = some m) :
    s.begun = true := by
  by_contra fresh
  have none := (all.idle (Bool.eq_false_iff.mpr fresh)).2.1
  rw [here] at none
  cases none

theorem Collected.acceptFrom (all : Collected heard s) {m : CallStage} (here : s.method = some m)
    (drains : m.drains = true) : Collected heard (s.acceptFrom m.next).1 := by
  have callee := all.accepts m here (CallStage.accepts_of_drains drains)
  have still := all.handler_still callee
  have place : s.place = m.next := by
    rw [CallSession.place, here, next_of_still still]
    rfl
  have emptying : s.emptying = true := by
    rw [CallSession.emptying, here, Option.any_some, drains, Bool.true_or]
  have not_answered : s.handler.any SignalStage.drains = true → s.role = some .caller := by
    rw [still]
    intro drains
    cases drains
  have quiet (method : Option CallStage) (none : method.any CallStage.drains = false) :
      ({ s with method, handler := s.handler } : CallSession).emptying = false := by
    rw [CallSession.emptying, none, still]
    rfl
  have goes (method : Option CallStage) (outside : ∀ n, method = some n → n.offers = false)
      (goes_on) (ends) := all.drain emptying method s.handler
    (fun n now offers => by rw [outside n now] at offers; cases offers) (fun n _ _ => callee)
    not_answered (all.begun here) goes_on ends
  rw [← place]
  cases there : s.pc with
  | none =>
    have torn := goes none (fun n now => by cases now)
    rw [drain_torn _ there] at torn
    rw [acceptFrom_torn _ there]
    exact torn (fun on => by cases on) (fun _ pc => by rw [there] at pc; cases pc)
  | some p =>
    cases waits : s.pendingIce[s.place]? with
    | none =>
      have emptied := goes (some .creatingAnswer) (fun n now => by cases now; rfl)
      rw [drain_end waits] at emptied
      rw [acceptFrom_end there waits]
      exact emptied (fun on => by cases on) (fun _ _ => quiet _ rfl)
    | some candidate =>
      have on := goes (some (.draining (s.place + 1))) (fun n now => by cases now; rfl)
      rw [drain_next there waits] at on
      rw [CallSession.acceptFrom, drain_next there waits]
      refine on (fun _ => ⟨rfl, ?_⟩) (fun emptied => by cases emptied)
      rw [CallSession.place, next_of_still still]
      rfl

theorem Collected.answerFrom (all : Collected heard s) {h : SignalStage} (here : s.handler = some h)
    (drains : h.drains = true) : Collected heard (s.answerFrom h.next).1 := by
  have caller := all.answered (by rw [here, Option.any_some, drains])
  have still := all.method_still caller
  have place : s.place = h.next := by
    rw [CallSession.place, here, next_of_method_still still]
    exact Nat.zero_add _
  have emptying : s.emptying = true := by
    rw [CallSession.emptying, here, Option.any_some, drains, Bool.or_true]
  have begun : s.begun = true := by
    by_contra fresh
    have none := (all.idle (Bool.eq_false_iff.mpr fresh)).2.2.1
    rw [here] at none
    cases none
  have goes (handler : Option SignalStage) (goes_on) (ends) := all.drain emptying s.method handler
    all.offers all.accepts (fun _ => caller) begun goes_on ends
  rw [CallSession.answerFrom, ← place]
  by_cases on : s.pc.isSome = true ∧ (s.pendingIce[s.place]?).isSome = true
  · obtain ⟨p, there⟩ := Option.isSome_iff_exists.mp on.1
    obtain ⟨candidate, waits⟩ := Option.isSome_iff_exists.mp on.2
    have on := goes (some (.draining (s.place + 1)))
    rw [drain_next there waits] at on ⊢
    refine on (fun _ => ⟨?_, ?_⟩) (fun emptied => by cases emptied)
    · exact Bool.or_true _
    · rw [CallSession.place, next_of_method_still still, Nat.zero_add]
      rfl
  · have emptied : s.drain s.place = ({ s with pendingIce := [] }, none) := by
      by_cases torn : s.pc.isSome = true
      · exact drain_end (Option.not_isSome_iff_eq_none.mp fun some => on ⟨torn, some⟩)
      · exact drain_torn _ (Option.not_isSome_iff_eq_none.mp torn)
    have ended := goes none
    rw [emptied] at ended ⊢
    have finished := ended (fun on => by cases on) fun _ _ => by
      rw [CallSession.emptying, still]
      rfl
    exact { finished with }

/-! ### One event -/

/-- The signalling state changes, and with it neither what is given nor what waits. -/
theorem Collected.signaling (all : Collected heard s) (signaling : SignalingState)
    (caller : signaling = .haveLocalOffer → s.pc.isSome = true → s.role = some .caller) :
    Collected heard { s with pc := s.pc.map fun p => { p with signaling } } := by
  refine { all with idle := fun fresh => ?_, collected := ?_, early := ?_, settled := ?_, offered := ?_ }
  · obtain ⟨none, rest⟩ := all.idle fresh
    exact ⟨by rw [none]; rfl, rest⟩
  all_goals
    intro p here
    obtain ⟨q, there, rfl⟩ := Option.map_eq_some_iff.mp here
  · exact all.collected q there
  · exact all.early q there
  · exact all.settled q there
  · exact fun local_ => caller local_ (there ▸ rfl)

theorem Collected.resume {m : CallStage} {sdp : Bytes} {news : List SessionNews}
    (all : Collected heard s) (here : s.method = some m) (goes : s.resume B sdp m = some (t, news)) :
    Collected heard t := by
  -- on to a stage that is neither's own
  have onward (n : CallStage) (before : m.drains = false) (after : n.drains = false)
      (offers : n.offers = true → s.role = some .caller)
      (accepts : n.accepts = true → s.role = some .callee) :
      Collected heard { s with method := some n } :=
    all.method here before (some n) (fun k now => by cases now; exact after)
      (fun k now => by cases now; exact offers) (fun k now => by cases now; exact accepts)
  cases m with
  | building withVideo =>
    cases goes
    exact onward _ rfl rfl (fun no => by cases no) (fun no => by cases no)
  | capturing withVideo =>
    rw [CallSession.resume] at goes
    split at goes
    · cases goes
      exact { all.ends here rfl with }
    · cases goes
      exact { onward .adding rfl rfl (fun no => by cases no) (fun no => by cases no) with }
  | adding =>
    cases goes
    exact onward _ rfl rfl (fun no => by cases no) (fun no => by cases no)
  | derivingKey =>
    rw [CallSession.resume] at goes
    split at goes
    next role =>
      cases goes
      exact { onward .creatingOffer rfl rfl (fun _ => role) (fun no => by cases no) with }
    next role =>
      cases goes
      exact { onward (.settingRemote false) rfl rfl (fun no => by cases no) (fun _ => role) with }
    · cases goes
      exact { all.ends here rfl with }
  | creatingOffer =>
    have caller := all.offers _ here rfl
    rw [CallSession.resume] at goes
    split at goes
    · cases goes
      exact all.ends here rfl
    · cases goes
      exact onward _ rfl rfl (fun _ => caller) (fun no => by cases no)
  | settingOffer offer =>
    have caller := all.offers _ here rfl
    cases goes
    have next := onward .sendingOffer rfl rfl (fun no => by cases no) (fun no => by cases no)
    exact { next.signaling .haveLocalOffer (fun _ _ => caller) with }
  | sendingOffer =>
    cases goes
    exact all.ends here rfl
  | settingRemote applied =>
    cases applied with
    | false => cases goes
    | true =>
      obtain rfl := congrArg Prod.fst (Option.some.inj goes)
      exact all.acceptFrom here rfl
  | draining next =>
    obtain rfl := congrArg Prod.fst (Option.some.inj goes)
    exact all.acceptFrom here rfl
  | creatingAnswer =>
    rw [CallSession.resume] at goes
    split at goes
    · cases goes
      exact all.ends here rfl
    · cases goes
      exact onward _ rfl rfl (fun no => by cases no) (fun no => by cases no)
  | settingAnswer answer =>
    cases goes
    have next := onward .sendingAnswer rfl rfl (fun no => by cases no) (fun no => by cases no)
    exact next.signaling .stable fun no => by cases no
  | sendingAnswer =>
    cases goes
    exact { all.ends here rfl with }

/-- The description is there, and what has waited waits for the loop. -/
theorem Collected.apply {p : PeerConnection} (all : Collected heard s) (there : s.pc = some p)
    (goes : s.apply p = some t) : Collected heard t := by
  rw [CallSession.apply] at goes
  split at goes
  next waits =>
    cases goes
    -- an offer is applied by the callee, whose loop starts at the first place
    have callee := all.accepts _ waits rfl
    have still := all.handler_still callee
    have place : s.place = 0 := by
      rw [CallSession.place, waits, next_of_still still]
      rfl
    have given := all.collected p there
    refine { all with idle := fun fresh => ?_, collected := ?_, early := ?_, settled := ?_,
                      offers := ?_, accepts := ?_, offered := ?_ }
    · have none := (all.idle fresh).2.1
      rw [waits] at none
      cases none
    · rintro q ⟨⟩
      rw [waiting, place] at given
      rw [waiting, CallSession.place, next_of_still still]
      exact given
    · rintro q ⟨⟩ early
      cases early
    · rintro q ⟨⟩ - still
      cases still
    · rintro m ⟨⟩ no
      cases no
    · exact fun m now _ => callee
    · rintro q ⟨⟩ no
      cases no
  next signaling waits =>
    cases goes
    -- an answer is applied by the caller, which has no method in a loop
    have caller := all.offered p there signaling
    have still := all.method_still caller
    have place : s.place = 0 := by
      rw [CallSession.place, waits, next_of_method_still still]
      rfl
    have given := all.collected p there
    refine { all with idle := fun fresh => ?_, collected := ?_, early := ?_, settled := ?_,
                      offered := ?_, answered := fun _ => caller }
    · have none := (all.idle fresh).2.2.1
      rw [waits] at none
      cases none
    · rintro q ⟨⟩
      rw [waiting, place] at given
      rw [waiting, CallSession.place, next_of_method_still still]
      exact given
    · rintro q ⟨⟩ early
      cases early
    · rintro q ⟨⟩ - idle
      rw [emptying, Option.any_some] at idle
      exact absurd idle (by simp [SignalStage.drains])
    · rintro q ⟨⟩ no
      cases no
  · cases goes

/-- The candidate that an event brings. -/
def candidateOf (B : Browser) : SessionEvent → Option Bytes
  | .receiveIce json => B.parse json
  | _ => none

theorem place_of_still (still : s.emptying = false) : s.place = 0 := by
  obtain ⟨method, handler⟩ := Bool.or_eq_false_iff.mp still
  rw [place, next_of_method_still method, next_of_still handler]

/-- A candidate is given at once where the description is there, and waits otherwise. -/
theorem Collected.hear (all : Collected heard s) {candidate json : Bytes}
    (parsed : B.parse json = some candidate) (idle : s.handler = none) :
    Collected (heard ++ [candidate]) (s.receiveIce B json) := by
  rw [CallSession.receiveIce, parsed]
  split
  next none => cases none
  next signaling given same there =>
    -- it may overtake those that a loop has still to give
    obtain rfl := Option.some.inj same
    have now : (s.give candidate).pc = some ⟨true, signaling, given ++ [candidate]⟩ := by
      rw [give, there]
      rfl
    have unmoved : ({ s.give candidate with handler := some .giving } : CallSession).waiting = s.waiting := by
      rw [waiting, waiting, place, place, idle]
      rfl
    have still : ({ s.give candidate with handler := some .giving } : CallSession).emptying = s.emptying := by
      rw [emptying, emptying, idle]
      rfl
    refine { all with idle := fun fresh => ?_, collected := ?_, early := ?_, settled := ?_,
                      offered := ?_, answered := fun no => by cases no }
    · have none := (all.idle fresh).1
      rw [there] at none
      cases none
    all_goals
      intro p here
      cases now.symm.trans here
    · rw [unmoved]
      have before := (all.collected _ there).append_right [candidate]
      refine List.Perm.trans ?_ before
      rw [List.append_assoc, List.append_assoc]
      exact List.perm_append_comm.append_left given
    · intro early
      cases early
    · rw [unmoved, still]
      exact all.settled ⟨true, signaling, given⟩ there
    · exact all.offered ⟨true, signaling, given⟩ there
  next other same early =>
    -- it goes behind all that wait, and no loop runs yet
    obtain rfl := Option.some.inj same
    have waits : ∀ p, s.pc = some p → p.remote = false := by
      rintro ⟨remote, signaling, given⟩ there
      by_contra late
      obtain rfl := Bool.eq_true_of_not_eq_false late
      exact early signaling given there
    refine { all with idle := fun fresh => ?_, collected := fun p there => ?_, early := all.early,
                      settled := fun p there late => ?_ }
    · obtain ⟨none, method, handler, pending⟩ := all.idle fresh
      exact ⟨none, method, handler, congrArg (· ++ [candidate]) pending⟩
    · obtain ⟨nothing, still⟩ := all.early p there (waits p there)
      have before := all.collected p there
      rw [waiting, place_of_still still, List.drop_zero] at before
      have at_start : ({ s with pendingIce := s.pendingIce ++ [candidate] } : CallSession).place = 0 :=
        place_of_still still
      rw [waiting, at_start, List.drop_zero, ← List.append_assoc]
      exact before.append_right [candidate]
    · rw [waits p there] at late
      cases late

/-- A handler that is not in its loop goes on outside of it. -/
theorem Collected.handler_goes (all : Collected heard s)
    (before : s.handler = none ∨ ∃ h, s.handler = some h ∧ h.drains = false)
    (handler : Option SignalStage) (after : handler = none ∨ handler = some (.settingRemote false))
    (begun : s.begun = false → False) : Collected heard { s with handler } := by
  have still : s.handler.any SignalStage.drains = false := by
    obtain none | ⟨h, here, idle⟩ := before
    · rw [none]
      rfl
    · rw [here, Option.any_some, idle]
  have still' : handler.any SignalStage.drains = false := by
    obtain rfl | rfl := after <;> rfl
  have unmoved : ({ s with handler } : CallSession).waiting = s.waiting := by
    rw [waiting, waiting, place, place, next_of_still still, next_of_still still']
  have same : ({ s with handler } : CallSession).emptying = s.emptying := by
    rw [emptying, emptying, still, still']
  refine { all with idle := fun fresh => (begun fresh).elim, collected := ?_, early := ?_, settled := ?_,
                    answered := fun drains => ?_ }
  · rw [unmoved]
    exact all.collected
  · rw [same]
    exact all.early
  · rw [unmoved, same]
    exact all.settled
  · have drains : handler.any SignalStage.drains = true := drains
    rw [still'] at drains
    cases drains

theorem Collected.act {e : SessionEvent} {news : List SessionNews} (all : Collected heard s)
    (quiet : candidateOf B e = none) (taken : s.act B e = some (t, news)) : Collected heard t := by
  have started (fresh : s.begun = false) (role : Option CallRole) (withVideo : Bool) :
      Collected heard { s with
        role, begun := true, pc := some ⟨false, .stable, []⟩, method := some (.building withVideo) } := by
    obtain ⟨-, -, handler, pending⟩ := all.idle fresh
    refine { idle := fun no => ?_, collected := ?_, early := ?_, settled := ?_, offers := ?_, accepts := ?_,
             offered := ?_, answered := fun drains => ?_ }
    · cases no
    · rintro p ⟨⟩
      rw [waiting, place, handler, pending]
      exact .refl _
    · rintro p ⟨⟩ -
      refine ⟨rfl, ?_⟩
      rw [emptying, handler]
      rfl
    · rintro p ⟨⟩ late
      cases late
    · rintro m ⟨⟩ no
      cases no
    · rintro m ⟨⟩ no
      cases no
    · rintro p ⟨⟩ no
      cases no
    · rw [handler] at drains
      cases drains
  cases e with
  | startOutgoing withVideo =>
    rw [CallSession.act] at taken
    split at taken
    · cases taken
    next fresh =>
      cases taken
      exact started (Bool.eq_false_iff.mpr fun begun => fresh (.inl begun)) _ _
  | accept withVideo =>
    rw [CallSession.act] at taken
    split at taken
    · cases taken
    next fresh =>
      split at taken
      · cases taken
        exact all
      · cases taken
        exact started (Bool.eq_false_iff.mpr fun begun => fresh (.inl begun)) _ _
  | resolved sdp =>
    obtain ⟨m, here, goes⟩ := Option.bind_eq_some_iff.mp taken
    exact all.resume here goes
  | rejected =>
    rw [CallSession.act] at taken
    split at taken
    · cases taken
    · cases taken
    next here =>
      obtain rfl := congrArg Prod.fst (Option.some.inj taken)
      exact all.acceptFrom here rfl
    next m not_remote not_loop here =>
      -- what throws ends the method, a candidate that is refused does not
      cases taken
      refine all.ends here ?_
      cases m with
      | settingRemote applied =>
        cases applied with
        | true => exact (not_remote rfl).elim
        | false => rfl
      | draining next => exact (not_loop next rfl).elim
      | _ => rfl
  | applied =>
    obtain ⟨u, applies, same⟩ := Option.map_eq_some_iff.mp taken
    obtain ⟨p, here, goes⟩ := Option.bind_eq_some_iff.mp applies
    cases same
    exact all.apply here goes
  | receiveOffer offerSdp =>
    rw [CallSession.act] at taken
    split at taken
    · cases taken
    next fresh =>
      cases taken
      have unbegun : s.begun = false := Bool.eq_false_iff.mpr fun begun => fresh (.inl begun)
      obtain ⟨no_pc, no_method, no_handler, -⟩ := all.idle unbegun
      refine { all with offers := ?_, accepts := fun _ _ _ => rfl, offered := ?_, answered := ?_ }
      · intro m here
        cases no_method.symm.trans here
      · intro p here
        cases no_pc.symm.trans here
      · intro drains
        have none : s.handler.any SignalStage.drains = true := drains
        rw [no_handler] at none
        cases none
  | receiveAnswer =>
    rw [CallSession.act] at taken
    split at taken
    · cases taken
    next idle =>
      have free := Option.not_isSome_iff_eq_none.mp idle
      split at taken
      · cases taken
        exact all
      next p here =>
        cases taken
        exact all.handler_goes (.inl free) _ (.inr rfl) fun fresh => by
          have none := (all.idle fresh).1
          rw [here] at none
          cases none
  | receiveIce json =>
    rw [CallSession.act] at taken
    split at taken
    · cases taken
    · obtain rfl := congrArg Prod.fst (Option.some.inj taken)
      rw [candidateOf] at quiet
      rw [CallSession.receiveIce, quiet]
      exact all
  | hungUp =>
    rw [CallSession.act] at taken
    split at taken
    · cases taken
    · obtain rfl := congrArg Prod.fst (Option.some.inj taken)
      exact all.teardown
  | handled fulfilled =>
    rw [CallSession.act] at taken
    split at taken
    · cases taken
    next applied here =>
      split at taken
      · cases taken
      · split at taken
        next on =>
          obtain rfl := congrArg Prod.fst (Option.some.inj taken)
          exact all.answerFrom here on
        next off =>
          cases taken
          refine all.handler_goes (.inr ⟨_, here, Bool.eq_false_iff.mpr off⟩) none (.inl rfl) fun fresh => ?_
          have none := (all.idle fresh).2.2.1
          rw [here] at none
          cases none
    next here =>
      obtain rfl := congrArg Prod.fst (Option.some.inj taken)
      exact all.answerFrom here rfl
    next here =>
      cases taken
      refine all.handler_goes (.inr ⟨_, here, rfl⟩) none (.inl rfl) fun fresh => ?_
      have none := (all.idle fresh).2.2.1
      rw [here] at none
      cases none
  | hangup =>
    obtain ⟨_, _, _, _, rfl⟩ := act_beside (.inl rfl) taken
    exact { all with }
  | hangupSent =>
    rw [CallSession.act] at taken
    split at taken
    · cases taken
    · obtain rfl := congrArg Prod.fst (Option.some.inj taken)
      have sent : Collected heard { s with hangingUp := s.hangingUp - 1 } := { all with }
      exact sent.teardown
  | connection connected =>
    rw [CallSession.act.eq_def] at taken
    dsimp only at taken
    split at taken
    · cases taken
    · cases taken
      exact { all with }
    · obtain rfl := congrArg Prod.fst (Option.some.inj taken)
      exact all.teardown
    · cases taken
      exact all
  | track =>
    obtain ⟨_, _, _, _, rfl⟩ := act_beside (.inr (.inl rfl)) taken
    exact { all with }
  | frame sender plaintext =>
    obtain ⟨_, _, _, _, rfl⟩ := act_beside (.inr (.inr ⟨sender, plaintext, rfl⟩)) taken
    exact { all with }

/-! ### Runs -/

theorem collected_new (callId sharedSecret : Bytes) : Collected [] (new callId sharedSecret) := by
  refine ⟨fun _ => ⟨rfl, rfl, rfl, rfl⟩, ?_, ?_, ?_, ?_, ?_, ?_, fun no => by cases no⟩
  all_goals
    intro x none
    cases none

theorem collected_run {callId sharedSecret : Bytes} {events : List SessionEvent}
    (run : Run (Step B) (new callId sharedSecret) events t) :
    Collected (events.filterMap (candidateOf B)) t := by
  refine run.invariant_history (fun events => Collected (events.filterMap (candidateOf B))) ?_
    (collected_new callId sharedSecret)
  rintro history s e t all ⟨news, taken⟩
  rw [List.filterMap_append]
  cases brings : candidateOf B e with
  | none =>
    rw [List.filterMap_cons_none brings, List.filterMap_nil, List.append_nil]
    exact all.act brings taken
  | some candidate =>
    rw [List.filterMap_cons_some brings, List.filterMap_nil]
    cases e with
    | receiveIce json =>
      rw [CallSession.act] at taken
      split at taken
      · cases taken
      next idle =>
        obtain rfl := congrArg Prod.fst (Option.some.inj taken)
        exact all.hear brings (Option.not_isSome_iff_eq_none.mp idle)
    | _ => cases brings

/-- As long as a session has its connection, every candidate that has been heard is given exactly once
or waits; none is given before the remote description is there, and none waits longer than the loop. -/
theorem candidates_once {callId sharedSecret : Bytes} {events : List SessionEvent}
    (run : Run (Step B) (new callId sharedSecret) events t) {p : PeerConnection} (there : t.pc = some p) :
    (p.given ++ t.waiting).Perm (events.filterMap (candidateOf B)) ∧
      (p.remote = false → p.given = []) ∧
      (p.remote = true → t.emptying = false → t.waiting = []) := by
  have all := collected_run run
  exact ⟨all.collected p there, fun early => (all.early p there early).1, all.settled p there⟩

/-- A candidate of the peer comes before the call is accepted, and one while that one is given. -/
def overtaking : List SessionEvent :=
  [.receiveOffer [], .receiveIce [1], .receiveIce [2], .accept false, .resolved [], .resolved [],
    .resolved [], .resolved [], .applied, .receiveIce [3], .handled true, .resolved [], .resolved []]

def overtaken : CallSession := (follow openBrowser overtaking (new [2] [3])).getD (new [2] [3])

theorem candidates_once_overtaken :
    follow openBrowser overtaking (new [2] [3]) = some overtaken ∧
      overtaken.pc = some ⟨true, .haveRemoteOffer, [[3], [1], [2]]⟩ ∧
      ([[3], [1], [2]] ++ overtaken.waiting).Perm [[1], [2], [3]] := by
  have followed : follow openBrowser overtaking (new [2] [3]) = some overtaken := rfl
  exact ⟨followed, rfl, (candidates_once (run_of_follow followed) rfl).1⟩

end CallSession

end FinBit.Web
