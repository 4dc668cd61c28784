import FinBit.Lib.Bytes
import FinBit.Lib.Runs

/-! # MLS channels

The in-band handshake of an MLS channel: an invite request, the joiner's
KeyPackage, the inviter's proposal, commit and Welcome. Whoever receives a
KeyPackage commits at once. Nobody orders commits, so two members that commit from
the same epoch end in different groups with the same epoch number.

mlspp is a parameter. Its state splits into what an epoch fixes, the `core`, and the
proposals staged on top of it; messages on the wire are opaque.
-/

namespace FinBit.Desktop

open FinBit.Lib

/-- `AddResult`. -/
structure AddResult (W : Type) where
  welcome : W
  commit : W

/-- `MlsGroup` and `PendingMlsJoin` over mlspp, for groups `G` with cores `C`, joins
`J` and messages `W`. A call that fails has changed nothing; `draw` is its randomness. -/
structure Mlspp (G C J W : Type) where
  core : G → C
  epoch : C → Nat
  memberIdentities : G → List Bytes
  proposeAddMember : G → W → Except String (G × W)
  handleProposal : G → W → Except String G
  commitPending : G → Nat → Except String (G × AddResult W)
  applyCommit : G → W → Except String G
  startJoin : Bytes → Nat → Except String J
  keyPackage : J → W
  complete : J → W → Except String G

variable {G C J W : Type}

/-- What is relied on. `stepOf` is the step that a commit makes, `welcomeOf` the core
that a Welcome lets in to. -/
structure Mlspp.Lawful (M : Mlspp G C J W) (stepOf : W → Option (C × C))
    (welcomeOf : W → Option C) : Prop where
  propose : ∀ {g kp g' p}, M.proposeAddMember g kp = .ok (g', p) → M.core g' = M.core g
  handle : ∀ {g p g'}, M.handleProposal g p = .ok g' → M.core g' = M.core g
  advances : ∀ {g draw g' add}, M.commitPending g draw = .ok (g', add) →
    M.epoch (M.core g') = M.epoch (M.core g) + 1
  commits : ∀ {g draw g' add}, M.commitPending g draw = .ok (g', add) →
    stepOf add.commit = some (M.core g, M.core g')
  welcomes : ∀ {g draw g' add}, M.commitPending g draw = .ok (g', add) →
    welcomeOf add.welcome = some (M.core g')
  applies : ∀ {g c g'}, M.applyCommit g c = .ok g' → stepOf c = some (M.core g, M.core g')
  joins : ∀ {j w g}, M.complete j w = .ok g → welcomeOf w = some (M.core g)

/-! ### Handlers -/

/-- The `DmPayload` bodies of the handshake. -/
inductive MlsMessage (W : Type) where
  | inviteRequest
  | keyPackage (kp : W)
  | welcome (wire : W)
  | proposal (wire : W)
  | commit (wire : W)

/-- The MLS part of a `ChannelState`. -/
structure MlsChannel (G J : Type) where
  mls : Option G
  pendingJoin : Option J

/-- What `persist_mls_last_op` does after the proposal and after the commit; it throws
where the store refuses the row. -/
structure Persisted where
  proposal : Bool
  commit : Bool

section

variable (M : Mlspp G C J W)

/-- The branch of `kMlsKeyPackage`. `hasSession` says which peers a payload can be
queued for. -/
def onKeyPackage (me : Bytes) (hasSession : Bytes → Bool) (cs : MlsChannel G J) (sender : Bytes)
    (kp : W) (draw : Nat) (persisted : Persisted) : MlsChannel G J × List (Bytes × MlsMessage W) :=
  match cs.mls with
  | none => (cs, [])
  | some g =>
    match M.proposeAddMember g kp with
    | .error _ => (cs, [])
    | .ok (g, proposal) =>
      if persisted.proposal = false then ({ cs with mls := some g }, [])
      else
        -- the roster before the commit, so without the joiner
        let existingOthers := (M.memberIdentities g).filter fun id =>
          id.length = 32 && id ≠ me && hasSession id
        let proposals := existingOthers.map fun id => (id, .proposal proposal)
        match M.commitPending g draw with
        | .error _ => ({ cs with mls := some g }, proposals)
        | .ok (g, add) =>
          if persisted.commit = false then ({ cs with mls := some g }, proposals)
          else
            ({ cs with mls := some g }, proposals ++ (sender, .welcome add.welcome) ::
              existingOthers.map fun id => (id, .commit add.commit))

/-- The branch of `kMlsInviteRequest`. -/
def onInviteRequest (me : Bytes) (cs : MlsChannel G J) (sender : Bytes) (draw : Nat) :
    MlsChannel G J × List (Bytes × MlsMessage W) :=
  match cs.pendingJoin with
  | some join => (cs, [(sender, .keyPackage (M.keyPackage join))])
  | none =>
    match M.startJoin me draw with
    | .error _ => (cs, [])
    | .ok join => ({ cs with pendingJoin := some join }, [(sender, .keyPackage (M.keyPackage join))])

/-- The branch of `kMlsWelcome`; it replaces any group that is there. -/
def onWelcome (cs : MlsChannel G J) (wire : W) : MlsChannel G J :=
  match cs.pendingJoin with
  | none => cs
  | some join =>
    match M.complete join wire with
    | .error _ => cs
    | .ok g => ⟨some g, none⟩

/-- The branches of `kMlsCommit` and `kMlsProposal`, by the call they make. -/
def onGroupMessage (call : G → W → Except String G) (cs : MlsChannel G J) (wire : W) :
    MlsChannel G J :=
  match cs.mls with
  | none => cs
  | some g =>
    match call g wire with
    | .error _ => cs
    | .ok g => { cs with mls := some g }

/-- The MLS branches of `dispatch_envelope`, with the payloads they queue. -/
def receiveMls (me : Bytes) (hasSession : Bytes → Bool) (cs : MlsChannel G J) (sender : Bytes)
    (draw : Nat) (persisted : Persisted) :
    MlsMessage W → MlsChannel G J × List (Bytes × MlsMessage W)
  | .inviteRequest => onInviteRequest M me cs sender draw
  | .keyPackage kp => onKeyPackage M me hasSession cs sender kp draw persisted
  | .welcome wire => (onWelcome M cs wire, [])
  | .commit wire => (onGroupMessage M.applyCommit cs wire, [])
  | .proposal wire => (onGroupMessage M.handleProposal cs wire, [])

end

end FinBit.Desktop
