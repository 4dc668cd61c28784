import FinBit.Crypto.MlsFailures

/-! # Generations of application messages

The library protects each application message with the next generation of a ratchet
that starts anew with every epoch. The ratchet is part of the state, but only calls that
change the group are logged: a restored group is in the epoch of the live one and at
generation 0 of it, whatever was sent before.

So a generation is used twice exactly if a message is sent in an epoch in which a
restore has come after another message. `MlsMonitor` notes that beside the group.
-/

namespace FinBit.Crypto

open FinBit.Lib

variable {P : Mlspp}

/-- What a message is protected with. -/
structure Position where
  epoch : Nat
  sender : Nat
  generation : Nat
  deriving DecidableEq

/-- What is assumed of the library: a commit leads to the next epoch, what `handle` does
in place does not leave the epoch, and `protect` uses the next generation. -/
structure SendingRatchet (P : Mlspp) where
  position : P.State → Position
  commit : ∀ {s leafSecret opts msg welcome s'},
    P.commit s leafSecret opts = .ok (msg, welcome, s') →
      (position s').epoch = (position s).epoch + 1
  handle : ∀ {s msg s' outcome}, P.handle s msg = (s', outcome) → position s' = position s
  handle_next : ∀ {s msg s' next}, P.handle s msg = (s', .ok (some next)) →
    (position next).epoch = (position s).epoch + 1
  protect : ∀ {s plaintext s' msg}, P.protect s plaintext = .ok (s', msg) →
    position s' = { position s with generation := (position s).generation + 1 }

/-! ### Runs of one member -/

inductive MlsEvent where
  | called (op : MlsOp)
  | sent (position : Position)
  | restored

/-- The group, and whether a restore has come after a message of this epoch. -/
structure MlsMonitor (P : Mlspp) where
  group : MlsGroup P
  stale : Bool

variable (R : SendingRatchet P)

/-- A call, which may throw, a message, or a restore from either form. -/
inductive MlsMonitor.Step : MlsMonitor P → MlsEvent → MlsMonitor P → Prop
  | called (w : MlsMonitor P) (op : MlsOp) : Step w (.called op)
      ⟨(w.group.mutate op).1, w.stale &&
        (R.position (w.group.mutate op).1.state).epoch = (R.position w.group.state).epoch⟩
  | sent {w : MlsMonitor P} {plaintext wire : Bytes} {g' : MlsGroup P}
      (encrypted : w.group.applicationEncrypt plaintext = (g', .ok wire)) :
      Step w (.sent (R.position w.group.state)) ⟨g', w.stale⟩
  | fromLog {w : MlsMonitor P} {g' : MlsGroup P} (rebuilt : MlsGroup.fromSeedAndLog P
      w.group.serializeSeed w.group.operationLog = .ok g') :
      Step w .restored ⟨g', w.stale || 0 < (R.position w.group.state).generation⟩
  | fromBlob {w : MlsMonitor P} {g' : MlsGroup P}
      (rebuilt : MlsGroup.fromBlob P w.group.serialize = .ok g') :
      Step w .restored ⟨g', w.stale || 0 < (R.position w.group.state).generation⟩

/-- No message is sent in an epoch in which a restore has come after a message; lengths
fit their prefixes. -/
def MlsMonitor.Allowed (w : MlsMonitor P) : MlsEvent → Prop
  | .called op => op.Fits
  | .sent _ => w.stale = false
  | .restored => w.group.opLog.length < 2 ^ 32

/-! ### The epoch of a restored group -/

/-- The calls that end an epoch. -/
def MlsOp.epochs : MlsOp → Nat
  | .addMember _ _ => 1
  | .removeMember _ _ => 1
  | .proposeAdd _ => 0
  | .handleProposal _ => 0
  | .commitPending _ => 1
  | .applyCommit _ => 1

/-- What an effect does to the position of the next message. -/
inductive Moves (op : MlsOp) (p p' : Position) : Prop
  | stays (same : p' = p) (inside : op.epochs = 0)
  | advances (next : p'.epoch = p.epoch + 1) (ends : op.epochs = 1)

variable {R}

theorem map_ok {α β : Type} {x : P.State × Except String α} {f : α → β} {s' : P.State} {b : β}
    (returned : x.map id (·.map f) = (s', .ok b)) : ∃ a, x = (s', .ok a) := by
  obtain ⟨t, outcome⟩ := x
  cases outcome with
  | error e => cases returned
  | ok a =>
    cases returned
    exact ⟨a, rfl⟩

theorem MlsOp.effect_moves {op : MlsOp} {s s' : P.State} {reply : MlsReply}
    (returned : op.effect s = (s', .ok reply)) : Moves op (R.position s) (R.position s') := by
  cases op with
  | addMember kp leafSecret =>
    obtain ⟨result, done⟩ := map_ok returned
    split at done <;> [cases done; skip]
    split at done <;> [cases done; skip]
    split at done
    · cases done
    next committed =>
      cases done
      exact .advances (R.commit committed) rfl
  | removeMember leafIdx leafSecret =>
    obtain ⟨result, done⟩ := map_ok returned
    split at done <;> [cases done; skip]
    split at done
    · cases done
    next committed =>
      cases done
      exact .advances (R.commit committed) rfl
  | proposeAdd kp =>
    obtain ⟨result, done⟩ := map_ok returned
    split at done <;> [cases done; skip]
    split at done <;> [cases done; skip]
    split at done
    · cases done
    next handled =>
      cases done
      exact .stays (R.handle handled) rfl
  | handleProposal wire =>
    obtain ⟨result, done⟩ := map_ok returned
    split at done <;> [cases done; skip]
    split at done
    · cases done
    next handled =>
      cases done
      exact .stays (R.handle handled) rfl
  | commitPending leafSecret =>
    obtain ⟨result, done⟩ := map_ok returned
    split at done
    · cases done
    next committed =>
      cases done
      exact .advances (R.commit committed) rfl
  | applyCommit wire =>
    obtain ⟨result, done⟩ := map_ok returned
    split at done <;> [cases done; skip]
    split at done
    · cases done
    · cases done
    next handled =>
      cases done
      exact .advances (R.handle_next handled) rfl

/-- A call that throws leaves the position where it was. -/
theorem MlsOp.effect_error_position {op : MlsOp} {s s' : P.State} {e : String}
    (thrown : op.effect s = (s', .error e)) : R.position s' = R.position s := by
  rcases MlsOp.effect_error thrown with rfl | ⟨msg, handled⟩ | ⟨wire, msg, -, -, handled⟩
  · rfl
  · exact R.handle handled
  · exact R.handle handled

namespace MlsGroup

theorem replayOp_eq_ok {g g' : MlsGroup P} {op : Bytes} (done : g.replayOp op = (g', .ok ())) :
    ∃ call s reply, decodeOp op = .ok call ∧ call.effect g.state = (s, .ok reply) ∧
      g' = { g with state := s, opLog := g.opLog ++ [op] } := by
  unfold replayOp at done
  split at done
  · cases done
  next call decoded =>
    split at done
    · cases done
    next s reply effect =>
      cases done
      exact ⟨call, s, reply, decoded, effect, rfl⟩

/-- The last record is run on what the others give. -/
theorem replayFrom_concat_inv {g g'' : MlsGroup P} {i : Nat} {ops : List Bytes} {op : Bytes}
    (done : g.replayFrom i (ops ++ [op]) = .ok g'') :
    ∃ g', g.replayFrom i ops = .ok g' ∧ g'.replayOp op = (g'', .ok ()) := by
  induction ops generalizing g i with
  | nil =>
    rw [List.nil_append, replayFrom] at done
    split at done
    · cases done
    next replayed =>
      cases done
      exact ⟨g, rfl, replayed⟩
  | cons first rest ih =>
    rw [List.cons_append, replayFrom] at done
    split at done
    · cases done
    next replayed =>
      obtain ⟨g', before, last⟩ := ih done
      refine ⟨g', ?_, last⟩
      rw [replayFrom, replayed]
      exact before

/-- A group that is rebuilt has the log it was rebuilt from. -/
theorem replayFrom_log {g g' : MlsGroup P} {i : Nat} {ops : List Bytes}
    (done : g.replayFrom i ops = .ok g') :
    g'.opLog = g.opLog ++ ops ∧ g'.seedBlob = g.seedBlob := by
  induction ops generalizing g i with
  | nil =>
    cases done
    simp
  | cons first rest ih =>
    rw [replayFrom] at done
    split at done
    · cases done
    next replayed =>
      obtain ⟨call, s, reply, -, -, rfl⟩ := replayOp_eq_ok replayed
      obtain ⟨log, seed⟩ := ih done
      refine ⟨?_, seed⟩
      rw [log, List.append_assoc]
      rfl

theorem fromSeedAndLog_log {seed : Bytes} {ops : List Bytes} {g : MlsGroup P}
    (rebuilt : MlsGroup.fromSeedAndLog P seed ops = .ok g) :
    g.opLog = ops ∧ g.seedBlob = seed := by
  simp only [MlsGroup.fromSeedAndLog, bind_eq_ok] at rebuilt
  obtain ⟨decoded, -, state, -, replayed⟩ := rebuilt
  simpa using replayFrom_log replayed

variable (R) in
/-- What is rebuilt from seed and log is in the epoch of the live group. -/
def SameEpoch (g : MlsGroup P) : Prop :=
  ∀ g', MlsGroup.fromSeedAndLog P g.seedBlob g.opLog = .ok g' →
    (R.position g'.state).epoch = (R.position g.state).epoch

theorem SameEpoch.returns {g g' : MlsGroup P} {op : MlsOp} (same : g.SameEpoch R)
    (returned : g.Returns op g') (fits : op.Fits) : g'.SameEpoch R := by
  obtain ⟨s, reply, effect, rfl⟩ := returns_iff.mp returned
  intro rebuilt done
  simp only [MlsGroup.fromSeedAndLog, bind_eq_ok] at done
  obtain ⟨decoded, read, state, initial, replayed⟩ := done
  obtain ⟨before, earlier, last⟩ := replayFrom_concat_inv replayed
  obtain ⟨call, t, reply', decodes, again, rfl⟩ := replayOp_eq_ok last
  obtain rfl := Except.ok.inj (decodes.symm.trans (op.decodeOp_encode fits))
  have equal : (R.position before.state).epoch = (R.position g.state).epoch := by
    apply same
    simp only [MlsGroup.fromSeedAndLog, bind_eq_ok]
    exact ⟨decoded, read, state, initial, earlier⟩
  -- the same call ends an epoch in both groups or in none
  rcases MlsOp.effect_moves (R := R) effect with ⟨live, inside⟩ | ⟨live, ends⟩ <;>
    rcases MlsOp.effect_moves (R := R) again with ⟨replay, inside'⟩ | ⟨replay, ends'⟩
  · simp only [live, replay, equal]
  · omega
  · omega
  · simp only [live, replay, equal]

end MlsGroup

/-! ### What every step keeps -/

/-- A call leaves the position, or leads to the next epoch. -/
theorem position_mutate (g : MlsGroup P) (op : MlsOp) :
    R.position (g.mutate op).1.state = R.position g.state ∨
      (R.position (g.mutate op).1.state).epoch = (R.position g.state).epoch + 1 := by
  rcases g.mutate_cases op with ⟨g', returned, rfl⟩ | ⟨s, e, thrown, left⟩
  · obtain ⟨s, reply, effect, after⟩ := MlsGroup.returns_iff.mp returned
    rw [after]
    rcases MlsOp.effect_moves (R := R) effect with ⟨same, -⟩ | ⟨next, -⟩
    · exact .inl same
    · exact .inr next
  · rw [left]
    exact .inl (MlsOp.effect_error_position thrown)

theorem applicationEncrypt_eq_ok {g g' : MlsGroup P} {plaintext wire : Bytes}
    (encrypted : g.applicationEncrypt plaintext = (g', .ok wire)) :
    ∃ s msg, P.protect g.state plaintext = .ok (s, msg) ∧ g' = { g with state := s } := by
  unfold MlsGroup.applicationEncrypt at encrypted
  split at encrypted
  · cases encrypted
  next s msg protected_ =>
    cases encrypted
    exact ⟨s, msg, protected_, rfl⟩

namespace MlsMonitor

variable (R) in
structure Inv (w : MlsMonitor P) : Prop where
  epoch : w.group.SameEpoch R
  seed : w.group.seedBlob.length < 2 ^ 32
  fit : ∀ op ∈ w.group.opLog, op.length < 2 ^ 32

variable {w w' : MlsMonitor P} {event : MlsEvent}

/-- Either form of a restore rebuilds the group from seed and log. -/
theorem Inv.rebuilt (inv : w.Inv R) (few : w.group.opLog.length < 2 ^ 32) {g' : MlsGroup P}
    (restored : MlsGroup.fromSeedAndLog P w.group.serializeSeed w.group.operationLog = .ok g' ∨
      MlsGroup.fromBlob P w.group.serialize = .ok g') :
    MlsGroup.fromSeedAndLog P w.group.seedBlob w.group.opLog = .ok g' := by
  rcases restored with split | bundled
  · exact split
  · rwa [MlsGroup.fromBlob_serialize inv.seed few inv.fit] at bundled

theorem Inv.restore (inv : w.Inv R) {g' : MlsGroup P} {stale : Bool}
    (rebuilt : MlsGroup.fromSeedAndLog P w.group.seedBlob w.group.opLog = .ok g') :
    Inv R ⟨g', stale⟩ := by
  obtain ⟨log, seed⟩ := MlsGroup.fromSeedAndLog_log rebuilt
  refine ⟨?_, ?_, ?_⟩
  · intro g'' again
    simp only [log, seed, rebuilt] at again
    rw [Except.ok.inj again]
  · rw [seed]
    exact inv.seed
  · rw [log]
    exact inv.fit

theorem Inv.step (inv : w.Inv R) (allowed : w.Allowed event) (step : w.Step R event w') :
    w'.Inv R := by
  cases step with
  | called op =>
    rcases w.group.mutate_cases op with ⟨g', returned, same⟩ | ⟨s, e, thrown, left⟩
    · rw [same]
      have epoch := inv.epoch.returns returned allowed
      obtain ⟨s, reply, effect, rfl⟩ := MlsGroup.returns_iff.mp returned
      refine ⟨epoch, inv.seed, ?_⟩
      intro record member
      rcases List.mem_append.mp member with earlier | last
      · exact inv.fit record earlier
      · rw [List.mem_singleton.mp last]
        exact allowed
    · rw [left]
      refine ⟨?_, inv.seed, inv.fit⟩
      intro g' rebuilt
      rw [inv.epoch g' rebuilt]
      exact congrArg Position.epoch (MlsOp.effect_error_position thrown).symm
  | sent encrypted =>
    obtain ⟨s, msg, protected_, rfl⟩ := applicationEncrypt_eq_ok encrypted
    refine ⟨?_, inv.seed, inv.fit⟩
    intro g' rebuilt
    simp only [R.protect protected_]
    exact inv.epoch g' rebuilt
  | fromLog rebuilt => exact inv.restore (inv.rebuilt allowed (.inl rebuilt))
  | fromBlob rebuilt => exact inv.restore (inv.rebuilt allowed (.inr rebuilt))

variable (R) in
/-- The position lies behind the live group, or a restore has come after it. -/
def Passed (p : Position) (w : MlsMonitor P) : Prop :=
  p.epoch < (R.position w.group.state).epoch ∨ p.epoch = (R.position w.group.state).epoch ∧
    (p.generation < (R.position w.group.state).generation ∨ w.stale = true)

theorem Passed.step {p : Position} (passed : w.Passed R p) (inv : w.Inv R)
    (allowed : w.Allowed event) (step : w.Step R event w') : w'.Passed R p := by
  have restored {g' : MlsGroup P} (few : w.group.opLog.length < 2 ^ 32)
      (forms : MlsGroup.fromSeedAndLog P w.group.serializeSeed w.group.operationLog = .ok g' ∨
        MlsGroup.fromBlob P w.group.serialize = .ok g') :
      Passed R p ⟨g', w.stale || 0 < (R.position w.group.state).generation⟩ := by
    have epoch := inv.epoch g' (inv.rebuilt few forms)
    rcases passed with behind | ⟨same, earlier | stale⟩
    · exact .inl (epoch ▸ behind)
    · have sent : 0 < (R.position w.group.state).generation := by omega
      exact .inr ⟨same.trans epoch.symm, .inr (by simp [sent])⟩
    · exact .inr ⟨same.trans epoch.symm, .inr (by simp [stale])⟩
  cases step with
  | called op =>
    rcases position_mutate (R := R) w.group op with same | next
    · simpa only [Passed, same, decide_true, Bool.and_true] using passed
    · refine .inl ?_
      simp only [next]
      rcases passed with behind | ⟨here, -⟩ <;> omega
  | sent encrypted =>
    obtain ⟨s, msg, protected_, rfl⟩ := applicationEncrypt_eq_ok encrypted
    simp only [Passed, R.protect protected_]
    rcases passed with behind | ⟨same, earlier | stale⟩
    · exact .inl behind
    · exact .inr ⟨same, .inl (by omega)⟩
    · exact .inr ⟨same, .inr stale⟩
  | fromLog rebuilt => exact restored allowed (.inl rebuilt)
  | fromBlob rebuilt => exact restored allowed (.inr rebuilt)

end MlsMonitor

/-! ### Runs -/

/-- What an event has protected a message with. -/
def MlsEvent.position : MlsEvent → Option Position
  | .sent position => some position
  | _ => none

/-- In every run in which no message is sent in an epoch after a restore that has come
after another message of it, no two messages are protected alike. -/
theorem positions_distinct (laws : P.RoundTrips) {start : MlsStart P} {g₀ : MlsGroup P}
    (begun : start.begin = .ok g₀) (narrow : start.Fits g₀) {events : List MlsEvent}
    {w : MlsMonitor P}
    (run : Run (Guarded (MlsMonitor.Step R) MlsMonitor.Allowed) ⟨g₀, false⟩ events w) :
    (events.filterMap MlsEvent.position).Nodup := by
  have initial : MlsMonitor.Inv R ⟨g₀, false⟩ := by
    have replays := start.replays laws begun narrow
    refine ⟨?_, narrow.1, ?_⟩
    · intro g' rebuilt
      rw [Except.ok.inj (rebuilt.symm.trans replays)]
    · rw [MlsStart.fresh begun]
      simp
  apply List.pairwise_filterMap.mpr
  refine run.pairwise (MlsMonitor.Inv R) (fun e w => ∀ p, e.position = some p → w.Passed R p)
    ?_ ?_ ?_ ?_ initial
  · rintro w event w' inv ⟨allowed, step⟩
    exact inv.step allowed step
  · rintro w event w' inv ⟨allowed, step⟩ p sent
    cases step with
    | sent encrypted =>
      obtain rfl := Option.some.inj sent
      obtain ⟨s, msg, protected_, rfl⟩ := applicationEncrypt_eq_ok encrypted
      simp only [MlsMonitor.Passed, R.protect protected_]
      exact .inr ⟨trivial, .inl (Nat.lt_succ_self _)⟩
    | called op => cases sent
    | fromLog rebuilt => cases sent
    | fromBlob rebuilt => cases sent
  · rintro e w event w' inv passed ⟨allowed, step⟩ p sent
    exact (passed p sent).step inv allowed step
  · rintro e w event w' inv passed ⟨allowed, step⟩ p sent q again rfl
    cases step with
    | sent encrypted =>
      obtain rfl := Option.some.inj again
      have fresh : w.stale = false := allowed
      rcases passed _ sent with behind | ⟨-, earlier | stale⟩
      · omega
      · omega
      · rw [fresh] at stale
        cases stale
    | called op => cases again
    | fromLog rebuilt => cases again
    | fromBlob rebuilt => cases again

/-! ### A counting library -/

def SendingRatchet.tally : SendingRatchet Mlspp.tally where
  position s := ⟨s.epoch, 0, s.generation⟩
  commit := by
    rintro s leafSecret opts msg welcome s' ⟨⟩
    rfl
  handle := by
    intro s msg s' outcome handled
    cases msg <;> cases handled <;> rfl
  handle_next := by
    intro s msg s' next handled
    cases msg <;> cases handled
    rfl
  protect := by
    rintro s plaintext s' msg ⟨⟩
    rfl

/-- A message from the group that was created. -/
private theorem tally_sent (stale : Bool) : MlsMonitor.Step SendingRatchet.tally
    ⟨tallyGroup, stale⟩ (.sent ⟨0, 0, 0⟩)
    ⟨{ tallyGroup with state := ⟨zeros.1, 0, [], 1⟩ }, stale⟩ := by
  have encrypted : tallyGroup.applicationEncrypt [] = (_, .ok [3, 0]) := rfl
  exact .sent encrypted

/-- A message, a restore and a message. -/
theorem restore_reuses_generation : ∃ (events : List MlsEvent) (w : MlsMonitor Mlspp.tally),
    MlsGroup.create zeros zeros tallyDraws = .ok tallyGroup ∧
    Run (MlsMonitor.Step SendingRatchet.tally) ⟨tallyGroup, false⟩ events w ∧
    events.filterMap MlsEvent.position = [⟨0, 0, 0⟩, ⟨0, 0, 0⟩] ∧
    ¬(events.filterMap MlsEvent.position).Nodup := by
  have begun : (MlsStart.create zeros zeros tallyDraws).begin = .ok tallyGroup := rfl
  have rebuilt := MlsStart.replays Mlspp.tally_roundTrips begun tallyGroup_fits
  refine ⟨_, _, begun, .cons (tally_sent false) (.cons (.fromLog rebuilt)
    (.cons (tally_sent _) (.nil _))), rfl, ?_⟩
  decide

/-- A message, a new member, a restore and a message. -/
theorem positions_distinct_added : ∃ (events : List MlsEvent) (w : MlsMonitor Mlspp.tally),
    Run (MlsMonitor.Step SendingRatchet.tally) ⟨tallyGroup, false⟩ events w ∧
    events.filterMap MlsEvent.position = [⟨0, 0, 0⟩, ⟨1, 0, 0⟩] ∧
    (events.filterMap MlsEvent.position).Nodup := by
  have begun : (MlsStart.create zeros zeros tallyDraws).begin = .ok tallyGroup := rfl
  have small : (MlsOp.addMember [1, 7] [9]).Fits := by
    rw [MlsOp.Fits]
    decide
  -- the new epoch is the same whether or not a message was sent before it
  let added : MlsGroup Mlspp.tally := (tallyGroup.mutate (.addMember [1, 7] [9])).1
  have rebuilt : added.Replays :=
    (MlsStart.replays Mlspp.tally_roundTrips begun tallyGroup_fits).step ⟨_, rfl⟩ small
  have second : MlsMonitor.Step SendingRatchet.tally ⟨added, false⟩ (.sent ⟨1, 0, 0⟩)
      ⟨{ added with state := ⟨zeros.1, 1, [], 1⟩ }, false⟩ := by
    have encrypted : added.applicationEncrypt [] = (_, .ok [3, 0]) := rfl
    exact .sent encrypted
  have few : added.opLog.length < 2 ^ 32 := by decide
  have run : Run (Guarded (MlsMonitor.Step SendingRatchet.tally) MlsMonitor.Allowed)
      ⟨tallyGroup, false⟩
      [.sent ⟨0, 0, 0⟩, .called (.addMember [1, 7] [9]), .restored, .sent ⟨1, 0, 0⟩]
      ⟨{ added with state := ⟨zeros.1, 1, [], 1⟩ }, false⟩ :=
    .cons ⟨rfl, tally_sent false⟩ (.cons ⟨small, .called _ _⟩ (.cons ⟨few, .fromLog rebuilt⟩
      (.cons ⟨rfl, second⟩ (.nil _))))
  exact ⟨_, _, run.unguarded, rfl,
    positions_distinct Mlspp.tally_roundTrips begun tallyGroup_fits run⟩

end FinBit.Crypto
