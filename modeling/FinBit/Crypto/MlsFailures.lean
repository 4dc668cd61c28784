import FinBit.Crypto.MlsReplay

/-! # Calls that throw

A caller appends the last record of the log to its database only after a mutator has
returned, and relies on a mutator that throws having changed nothing. Five of the six
keep to that. `apply_commit` hands what it got to `handle`, which keeps a proposal in
place, and throws afterwards because there is no new state.
-/

namespace FinBit.Crypto

open FinBit.Lib

variable {P : Mlspp}

/-- `handle` leaves the state as it was when it throws. -/
def Mlspp.HandleKeeps (P : Mlspp) : Prop :=
  ∀ s msg s' e, P.handle s msg = (s', .error e) → s' = s

/-- `apply_commit` is given a message that the library keeps as a proposal. -/
def MlsGroup.TakesProposal (g : MlsGroup P) (op : MlsOp) : Prop :=
  ∃ wire msg s', op = .applyCommit wire ∧ P.mlsMessage.decode wire = some msg ∧
    P.handle g.state msg = (s', .ok none) ∧ s' ≠ g.state

/-! ### One call -/

section Effects

variable {s s' : P.State} {e : String}

theorem doAddMember_error {kpBytes leafSecret : Bytes}
    (thrown : doAddMember s kpBytes leafSecret = (s', .error e)) : s' = s := by
  unfold doAddMember at thrown
  split at thrown
  · cases thrown
    rfl
  split at thrown
  · cases thrown
    rfl
  split at thrown
  · cases thrown
    rfl
  · cases thrown

theorem doRemoveMember_error {leafIndex : UInt32} {leafSecret : Bytes}
    (thrown : doRemoveMember s leafIndex leafSecret = (s', .error e)) : s' = s := by
  unfold doRemoveMember at thrown
  split at thrown
  · cases thrown
    rfl
  split at thrown
  · cases thrown
    rfl
  · cases thrown

theorem doCommitPending_error {leafSecret : Bytes}
    (thrown : doCommitPending s leafSecret = (s', .error e)) : s' = s := by
  unfold doCommitPending at thrown
  split at thrown
  · cases thrown
    rfl
  · cases thrown

theorem doProposeAddMember_error {kpBytes : Bytes}
    (thrown : doProposeAddMember s kpBytes = (s', .error e)) :
    s' = s ∨ ∃ msg, P.handle s msg = (s', .error e) := by
  unfold doProposeAddMember at thrown
  split at thrown
  · cases thrown
    exact .inl rfl
  split at thrown
  · cases thrown
    exact .inl rfl
  next msg _ =>
    split at thrown
    next refused =>
      cases thrown
      exact .inr ⟨msg, refused⟩
    · cases thrown

theorem doHandleProposal_error {wire : Bytes}
    (thrown : doHandleProposal s wire = (s', .error e)) :
    s' = s ∨ ∃ msg, P.handle s msg = (s', .error e) := by
  unfold doHandleProposal at thrown
  split at thrown
  · cases thrown
    exact .inl rfl
  next msg _ =>
    split at thrown
    next refused =>
      cases thrown
      exact .inr ⟨msg, refused⟩
    · cases thrown

/-- The one call that may throw with a changed state. -/
theorem doApplyCommit_error {wire : Bytes} (thrown : doApplyCommit s wire = (s', .error e)) :
    s' = s ∨ (∃ msg, P.handle s msg = (s', .error e)) ∨
      ∃ msg, P.mlsMessage.decode wire = some msg ∧ P.handle s msg = (s', .ok none) := by
  unfold doApplyCommit tlsGet at thrown
  cases decoded : P.mlsMessage.decode wire with
  | none =>
    rw [decoded] at thrown
    cases thrown
    exact .inl rfl
  | some msg =>
    rw [decoded] at thrown
    simp only at thrown
    split at thrown
    next refused =>
      cases thrown
      exact .inr (.inl ⟨msg, refused⟩)
    next kept =>
      cases thrown
      exact .inr (.inr ⟨msg, rfl, kept⟩)
    · cases thrown

/-- An outcome that is mapped has thrown before. -/
theorem map_error {α β : Type} {x : P.State × Except String α} {f : α → β}
    (thrown : x.map id (·.map f) = (s', .error e)) : x = (s', .error e) := by
  obtain ⟨t, outcome⟩ := x
  cases outcome with
  | error e' =>
    cases thrown
    rfl
  | ok a => cases thrown

/-- A call throws before it has touched the state, or because `handle` does, or after
`handle` has kept a proposal. -/
theorem MlsOp.effect_error {op : MlsOp} (thrown : op.effect s = (s', .error e)) :
    s' = s ∨ (∃ msg, P.handle s msg = (s', .error e)) ∨
      ∃ wire msg, op = .applyCommit wire ∧ P.mlsMessage.decode wire = some msg ∧
        P.handle s msg = (s', .ok none) := by
  cases op with
  | addMember kp leafSecret => exact .inl (doAddMember_error (map_error thrown))
  | removeMember leafIdx leafSecret => exact .inl (doRemoveMember_error (map_error thrown))
  | proposeAdd kp => exact (doProposeAddMember_error (map_error thrown)).imp_right .inl
  | handleProposal wire => exact (doHandleProposal_error (map_error thrown)).imp_right .inl
  | commitPending leafSecret => exact .inl (doCommitPending_error (map_error thrown))
  | applyCommit wire =>
    rcases doApplyCommit_error (map_error thrown) with same | refused | ⟨msg, decoded, kept⟩
    · exact .inl same
    · exact .inr (.inl refused)
    · exact .inr (.inr ⟨wire, msg, rfl, decoded, kept⟩)

end Effects

namespace MlsGroup

variable {g g' : MlsGroup P} {op : MlsOp}

/-- A mutator returns, or leaves behind the state of an effect that has thrown. -/
theorem mutate_cases (g : MlsGroup P) (op : MlsOp) :
    (∃ g', g.Returns op g' ∧ (g.mutate op).1 = g') ∨
      ∃ s e, op.effect g.state = (s, .error e) ∧ g.mutate op = ({ g with state := s }, .error e) := by
  cases effect : op.effect g.state with
  | mk s outcome =>
    cases outcome with
    | error e => exact .inr ⟨s, e, rfl, by simp only [mutate, effect]⟩
    | ok reply =>
      have returned : g.mutate op =
          ({ g with state := s, opLog := g.opLog ++ [op.encode] }, .ok reply) := by
        simp only [mutate, effect]
      exact .inl ⟨_, ⟨reply, returned⟩, by rw [returned]⟩

/-- If the call throws, state and log are as before. -/
def Unchanged (g : MlsGroup P) (op : MlsOp) : Prop :=
  ∀ g' e, g.mutate op = (g', .error e) → g'.state = g.state ∧ g'.opLog = g.opLog

theorem unchanged_iff (keeps : P.HandleKeeps) : g.Unchanged op ↔ ¬g.TakesProposal op := by
  constructor
  · rintro unchanged ⟨wire, msg, s', rfl, decoded, kept, changed⟩
    have called : ∃ e, g.mutate (.applyCommit wire) = ({ g with state := s' }, .error e) := by
      simp only [mutate, MlsOp.effect, doApplyCommit, tlsGet, decoded, kept]
      exact ⟨_, rfl⟩
    obtain ⟨e, called⟩ := called
    exact changed (unchanged _ _ called).1
  · intro fine g' e called
    rcases mutate_cases g op with ⟨_, ⟨reply, returned⟩, -⟩ | ⟨s, e', thrown, left⟩
    · cases called.symm.trans returned
    · obtain ⟨rfl, -⟩ := Prod.ext_iff.mp (called.symm.trans left)
      refine ⟨?_, rfl⟩
      rcases MlsOp.effect_error thrown with same | ⟨msg, refused⟩ | ⟨wire, msg, rfl, decoded, kept⟩
      · exact same
      · exact keeps _ _ _ _ refused
      · by_contra changed
        exact fine ⟨wire, msg, s, rfl, decoded, kept, changed⟩

/-- A call, whether it returns or throws. -/
def Called (g : MlsGroup P) (op : MlsOp) (g' : MlsGroup P) : Prop := (g.mutate op).1 = g'

theorem Replays.called (keeps : P.HandleKeeps) (replays : g.Replays) (called : g.Called op g')
    (fine : ¬g.TakesProposal op) (fits : op.Fits) : g'.Replays := by
  rcases mutate_cases g op with ⟨g'', returns, rfl⟩ | ⟨s, e, -, left⟩
  · obtain rfl := called
    exact replays.step returns fits
  · have same := ((unchanged_iff keeps).mpr fine _ _ left).1
    simp only at same
    rw [Called, left] at called
    obtain rfl : g = g' := by rw [← called, same]
    exact replays

end MlsGroup

/-- A call that throws leaves state and log as they were exactly if it is not
`apply_commit` on a message that is kept as a proposal; in every run without such a
call, and in which lengths fit, seed and log give the live group. -/
theorem failed_call_changes_nothing (keeps : P.HandleKeeps) (laws : P.RoundTrips) :
    (∀ (g : MlsGroup P) (op : MlsOp), (∀ g' e, g.mutate op = (g', .error e) →
      g'.state = g.state ∧ g'.opLog = g.opLog) ↔ ¬g.TakesProposal op) ∧
    ∀ (start : MlsStart P) (g₀ g : MlsGroup P) (ops : List MlsOp), start.begin = .ok g₀ →
      start.Fits g₀ →
      Run (Guarded MlsGroup.Called fun g op => ¬g.TakesProposal op ∧ op.Fits) g₀ ops g →
      MlsGroup.fromSeedAndLog P g.serializeSeed g.operationLog = .ok g := by
  refine ⟨fun g op => MlsGroup.unchanged_iff keeps, ?_⟩
  intro start g₀ g ops begun narrow run
  apply run.invariant MlsGroup.Replays _ (start.replays laws begun narrow)
  rintro g op g' replays ⟨⟨fine, fits⟩, called⟩
  exact replays.called keeps called fine fits

theorem Mlspp.tally_handleKeeps : Mlspp.tally.HandleKeeps := by
  intro s msg s' e thrown
  cases msg with
  | proposal content => cases thrown
  | commit content => cases thrown
  | application generation content =>
    cases thrown
    rfl

/-- A proposal in the place of a commit: the call throws and the proposal stays. -/
theorem apply_commit_keeps_proposal : ∃ (g g' : MlsGroup Mlspp.tally) (e : String),
    g.applyCommit [1, 7] = (g', .error e) ∧ g'.state ≠ g.state ∧ g'.opLog = g.opLog := by
  let g : MlsGroup Mlspp.tally := ⟨⟨[], 0, [], 0⟩, [4], [5], [], []⟩
  refine ⟨g, _, _, rfl, ?_, rfl⟩
  intro same
  cases same

/-- Something that is no message is refused by `handle_proposal`. -/
theorem failed_call_changes_nothing_garbage : ∃ (g g' : MlsGroup Mlspp.tally) (e : String),
    g.handleProposal [9] = (g', .error e) ∧ g'.state = g.state ∧ g'.opLog = g.opLog := by
  let g : MlsGroup Mlspp.tally := ⟨⟨[], 0, [], 0⟩, [4], [5], [], []⟩
  have fine : ¬g.TakesProposal (.handleProposal [9]) := by
    rintro ⟨wire, msg, s', other, -⟩
    cases other
  have unchanged := ((failed_call_changes_nothing Mlspp.tally_handleKeeps
    Mlspp.tally_roundTrips).1 g (.handleProposal [9])).mpr fine
  exact ⟨g, _, _, rfl, unchanged _ _ rfl⟩

end FinBit.Crypto
