import FinBit.Desktop.MlsChannel

/-! # Agreement in an MLS channel

Any number of clients in one channel, each ordered pair with its own queue. The
cores that matter are those that some member has and those that a commit or a
Welcome on its way leads to. A member that handles a KeyPackage adds a core one epoch
past its own. If nothing is past it already, no two of these cores share an epoch.
-/

namespace FinBit.Desktop

open FinBit.Lib

variable {G C J W : Type}

/-! ### The channel -/

structure MlsClient (G J : Type) where
  channel : MlsChannel G J
  hasSession : Bytes → Bool

/-- Clients are named by their identity key; `inFlight a b` is what `a` has sent to
`b`, the oldest first. -/
structure MlsWorld (G J W : Type) where
  clients : Bytes → MlsClient G J
  inFlight : Bytes → Bytes → List (MlsMessage W)

inductive MlsEvent (W : Type) where
  | invited (inviter joiner : Bytes)
  | delivered (sender receiver : Bytes) (message : MlsMessage W)

namespace MlsWorld

/-- Queue payloads of one client. -/
def post (w : MlsWorld G J W) (sender : Bytes) (queued : List (Bytes × MlsMessage W)) :
    MlsWorld G J W :=
  { w with
    inFlight := fun a b =>
      if a = sender then w.inFlight a b ++ (queued.filter (·.1 = b)).map (·.2)
      else w.inFlight a b }

def setChannel (w : MlsWorld G J W) (name : Bytes) (cs : MlsChannel G J) : MlsWorld G J W :=
  { w with clients := Function.update w.clients name { w.clients name with channel := cs } }

/-- Take what is left of one queue. -/
def setQueue (w : MlsWorld G J W) (sender receiver : Bytes) (rest : List (MlsMessage W)) :
    MlsWorld G J W :=
  { w with
    inFlight := fun a b => if a = sender ∧ b = receiver then rest else w.inFlight a b }

end MlsWorld

section

variable (M : Mlspp G C J W)

/-- An invite of the user, or the delivery of the oldest message between two clients. -/
inductive MlsStep : MlsWorld G J W → MlsEvent W → MlsWorld G J W → Prop
  | invite (w : MlsWorld G J W) (inviter joiner : Bytes) :
      MlsStep w (.invited inviter joiner) (w.post inviter [(joiner, .inviteRequest)])
  | deliver (w : MlsWorld G J W) (sender receiver : Bytes) (message : MlsMessage W)
      (rest : List (MlsMessage W)) (draw : Nat) (persisted : Persisted)
      (next : w.inFlight sender receiver = message :: rest) :
      MlsStep w (.delivered sender receiver message)
        (((w.setQueue sender receiver rest).setChannel receiver
          (receiveMls M receiver (w.clients receiver).hasSession (w.clients receiver).channel
            sender draw persisted message).1).post receiver
          (receiveMls M receiver (w.clients receiver).hasSession (w.clients receiver).channel
            sender draw persisted message).2)

/-! ### Cores -/

def MlsChannel.Has (cs : MlsChannel G J) (c : C) : Prop := ∃ g, cs.mls = some g ∧ M.core g = c

/-- Any two members at one epoch have the same group. -/
def MembersAgree (w : MlsWorld G J W) : Prop :=
  ∀ a b c d, (w.clients a).channel.Has M c → (w.clients b).channel.Has M d →
    M.epoch c = M.epoch d → c = d

end

section

variable (stepOf : W → Option (C × C)) (welcomeOf : W → Option C)

/-- The core that a message leads its receiver to. -/
def MlsMessage.leadsTo : MlsMessage W → Option C
  | .commit wire => (stepOf wire).map Prod.snd
  | .welcome wire => welcomeOf wire
  | _ => none

variable (M : Mlspp G C J W)

/-- Some member has the core, or is on its way there. -/
def Present (w : MlsWorld G J W) (c : C) : Prop :=
  (∃ a, (w.clients a).channel.Has M c) ∨
    ∃ a b, ∃ message ∈ w.inFlight a b, message.leadsTo stepOf welcomeOf = some c

def AllAgree (w : MlsWorld G J W) : Prop :=
  ∀ c d, Present stepOf welcomeOf M w c → Present stepOf welcomeOf M w d →
    M.epoch c = M.epoch d → c = d

/-- A KeyPackage is handled by a member that nobody has overtaken. -/
def UpToDate (w : MlsWorld G J W) : MlsEvent W → Prop
  | .delivered _ receiver (.keyPackage _) =>
    ∀ own c, (w.clients receiver).channel.Has M own → Present stepOf welcomeOf M w c →
      M.epoch c ≤ M.epoch own
  | _ => True

/-! ### What one message does -/

variable {stepOf welcomeOf M}

/-- What a handler leaves behind: nothing new, or one core at the next epoch where it
has handled a KeyPackage. -/
structure Leaves (M : Mlspp G C J W) (stepOf : W → Option (C × C)) (welcomeOf : W → Option C)
    (cs : MlsChannel G J) (message : MlsMessage W)
    (result : MlsChannel G J × List (Bytes × MlsMessage W)) (fresh : Option C) : Prop where
  next_epoch : ∀ c, fresh = some c → (∃ kp, message = .keyPackage kp) ∧
    ∃ own, cs.Has M own ∧ M.epoch c = M.epoch own + 1
  channel : ∀ c, result.1.Has M c →
    cs.Has M c ∨ message.leadsTo stepOf welcomeOf = some c ∨ fresh = some c
  queued : ∀ entry ∈ result.2, ∀ c, entry.2.leadsTo stepOf welcomeOf = some c → fresh = some c

theorem Leaves.unchanged {cs : MlsChannel G J} {message : MlsMessage W}
    {queued : List (Bytes × MlsMessage W)}
    (plain : ∀ entry ∈ queued, entry.2.leadsTo stepOf welcomeOf = none) {cs' : MlsChannel G J}
    (same : ∀ c, cs'.Has M c → cs.Has M c) :
    Leaves M stepOf welcomeOf cs message (cs', queued) none where
  next_epoch := by simp
  channel c has := .inl (same c has)
  queued entry member c leads := by simp [plain entry member] at leads

theorem Leaves.led {cs cs' : MlsChannel G J} {message : MlsMessage W}
    (led : ∀ c, cs'.Has M c → cs.Has M c ∨ message.leadsTo stepOf welcomeOf = some c) :
    Leaves M stepOf welcomeOf cs message (cs', []) none where
  next_epoch := by simp
  channel c has := (led c has).imp_right .inl
  queued := by simp

variable (lawful : M.Lawful stepOf welcomeOf)

include lawful in
theorem onKeyPackage_leaves (me : Bytes) (hasSession : Bytes → Bool) (cs : MlsChannel G J)
    (sender : Bytes) (kp : W) (draw : Nat) (persisted : Persisted) : ∃ fresh,
    Leaves M stepOf welcomeOf cs (.keyPackage kp)
      (onKeyPackage M me hasSession cs sender kp draw persisted) fresh := by
  unfold onKeyPackage
  split
  · exact ⟨none, .unchanged (by simp) (fun _ has => has)⟩
  next g member =>
    split
    · exact ⟨none, .unchanged (by simp) (fun _ has => has)⟩
    next g₁ proposal proposed =>
      -- staging a proposal does not touch the core
      have staged : ∀ c, (⟨some g₁, cs.pendingJoin⟩ : MlsChannel G J).Has M c → cs.Has M c := by
        rintro c ⟨g', same, rfl⟩
        obtain rfl := Option.some.inj same
        exact ⟨g, member, (lawful.propose proposed).symm⟩
      split
      · exact ⟨none, .unchanged (by simp) staged⟩
      · dsimp only
        have only_proposals : ∀ entry ∈ ((M.memberIdentities g₁).filter fun id =>
            id.length = 32 && id ≠ me && hasSession id).map fun id =>
              ((id, .proposal proposal) : Bytes × MlsMessage W),
            entry.2.leadsTo stepOf welcomeOf = none := by
          intro entry queued
          obtain ⟨id, -, rfl⟩ := List.mem_map.mp queued
          rfl
        split
        · exact ⟨none, .unchanged only_proposals staged⟩
        next g₂ add committed =>
          have next_epoch : ∀ c, some (M.core g₂) = some c →
              (∃ kp', MlsMessage.keyPackage kp = .keyPackage kp') ∧
              ∃ own, cs.Has M own ∧ M.epoch c = M.epoch own + 1 := by
            rintro c ⟨rfl⟩
            refine ⟨⟨kp, rfl⟩, M.core g, ⟨g, member, rfl⟩, ?_⟩
            rw [lawful.advances committed, lawful.propose proposed]
          have channel : ∀ c, (⟨some g₂, cs.pendingJoin⟩ : MlsChannel G J).Has M c →
              some (M.core g₂) = some c := by
            rintro c ⟨g', same, rfl⟩
            obtain rfl := Option.some.inj same
            rfl
          refine ⟨some (M.core g₂), ?_⟩
          split
          · refine ⟨next_epoch, fun c has => .inr (.inr (channel c has)), ?_⟩
            intro entry queued c leads
            simp [only_proposals entry queued] at leads
          · refine ⟨next_epoch, fun c has => .inr (.inr (channel c has)), ?_⟩
            -- the Welcome and the commits lead to the committer's own core
            intro entry queued c leads
            simp only [List.mem_append, List.mem_map, List.mem_cons] at queued
            rcases queued with ⟨id, -, rfl⟩ | rfl | ⟨id, -, rfl⟩
            · simp [MlsMessage.leadsTo] at leads
            · simpa [MlsMessage.leadsTo, lawful.welcomes committed] using leads
            · simpa [MlsMessage.leadsTo, lawful.commits committed] using leads

theorem onInviteRequest_leaves (me : Bytes) (cs : MlsChannel G J) (sender : Bytes) (draw : Nat) :
    Leaves M stepOf welcomeOf cs .inviteRequest (onInviteRequest M me cs sender draw) none := by
  unfold onInviteRequest
  split
  · exact .unchanged (by simp [MlsMessage.leadsTo]) (fun _ has => has)
  · split
    · exact .unchanged (by simp) (fun _ has => has)
    · exact .unchanged (by simp [MlsMessage.leadsTo]) (fun _ has => has)

include lawful in
theorem onWelcome_leaves (cs : MlsChannel G J) (wire : W) :
    Leaves M stepOf welcomeOf cs (.welcome wire) (onWelcome M cs wire, []) none := by
  apply Leaves.led
  intro c has
  unfold onWelcome at has
  split at has
  · exact .inl has
  next join pending =>
    split at has
    · exact .inl has
    next g joined =>
      obtain ⟨g', same, rfl⟩ := has
      obtain rfl := Option.some.inj same
      exact .inr (lawful.joins joined)

/-- A commit or a proposal leaves the core alone or takes it where the message leads. -/
theorem onGroupMessage_leaves {call : G → W → Except String G} {message : MlsMessage W} {wire : W}
    (led : ∀ {g g'}, call g wire = .ok g' →
      M.core g' = M.core g ∨ message.leadsTo stepOf welcomeOf = some (M.core g'))
    (cs : MlsChannel G J) :
    Leaves M stepOf welcomeOf cs message (onGroupMessage call cs wire, []) none := by
  apply Leaves.led
  intro c has
  unfold onGroupMessage at has
  split at has
  · exact .inl has
  next g member =>
    split at has
    · exact .inl has
    next g₁ called =>
      obtain ⟨g', same, rfl⟩ := has
      obtain rfl := Option.some.inj same
      rcases led called with kept | leads
      · exact .inl ⟨g, member, kept.symm⟩
      · exact .inr leads

include lawful in
theorem receiveMls_leaves (me : Bytes) (hasSession : Bytes → Bool) (cs : MlsChannel G J)
    (sender : Bytes) (draw : Nat) (persisted : Persisted) (message : MlsMessage W) : ∃ fresh,
    Leaves M stepOf welcomeOf cs message
      (receiveMls M me hasSession cs sender draw persisted message) fresh := by
  cases message with
  | inviteRequest => exact ⟨none, onInviteRequest_leaves me cs sender draw⟩
  | keyPackage kp => exact onKeyPackage_leaves lawful me hasSession cs sender kp draw persisted
  | welcome wire => exact ⟨none, onWelcome_leaves lawful cs wire⟩
  | proposal wire =>
    exact ⟨none, onGroupMessage_leaves (fun called => .inl (lawful.handle called)) cs⟩
  | commit wire =>
    refine ⟨none, onGroupMessage_leaves (fun called => .inr ?_) cs⟩
    simp [MlsMessage.leadsTo, lawful.applies called]

/-! ### Whole runs -/

theorem Present.of_post {w : MlsWorld G J W} {sender : Bytes}
    {queued : List (Bytes × MlsMessage W)} {c : C}
    (here : Present stepOf welcomeOf M (w.post sender queued) c) :
    Present stepOf welcomeOf M w c ∨
      ∃ entry ∈ queued, entry.2.leadsTo stepOf welcomeOf = some c := by
  rcases here with ⟨a, has⟩ | ⟨a, b, message, waiting, leads⟩
  · exact .inl (.inl ⟨a, has⟩)
  · simp only [MlsWorld.post] at waiting
    split at waiting
    · rcases List.mem_append.mp waiting with earlier | later
      · exact .inl (.inr ⟨a, b, message, earlier, leads⟩)
      · obtain ⟨entry, member, rfl⟩ := List.mem_map.mp later
        exact .inr ⟨entry, List.mem_of_mem_filter member, leads⟩
    · exact .inl (.inr ⟨a, b, message, waiting, leads⟩)

/-- A delivery takes a message from a queue and may change its receiver's channel. -/
theorem Present.of_delivery {w : MlsWorld G J W} {sender receiver : Bytes}
    {message : MlsMessage W} {rest : List (MlsMessage W)} {cs : MlsChannel G J} {c : C}
    (next : w.inFlight sender receiver = message :: rest)
    (here : Present stepOf welcomeOf M
      ((w.setQueue sender receiver rest).setChannel receiver cs) c) :
    Present stepOf welcomeOf M w c ∨ cs.Has M c := by
  rcases here with ⟨a, has⟩ | ⟨a, b, other, waiting, leads⟩
  · by_cases owner : a = receiver
    · subst owner
      exact .inr (by simpa [MlsWorld.setChannel] using has)
    · exact .inl (.inl ⟨a, by simpa [MlsWorld.setChannel, MlsWorld.setQueue, owner] using has⟩)
  · refine .inl (.inr ⟨a, b, other, ?_, leads⟩)
    simp only [MlsWorld.setChannel, MlsWorld.setQueue] at waiting
    split at waiting
    next pair =>
      rw [pair.1, pair.2, next]
      exact List.mem_cons_of_mem _ waiting
    · exact waiting

include lawful in
/-- What is present after a step was present before, or is the one core that a member
which nobody had overtaken has made. -/
theorem MlsStep.present {w w' : MlsWorld G J W} {event : MlsEvent W}
    (step : MlsStep M w event w') (upToDate : UpToDate stepOf welcomeOf M w event) :
    ∃ fresh : Option C,
      (∀ c, fresh = some c → ∀ d, Present stepOf welcomeOf M w d → M.epoch d < M.epoch c) ∧
      ∀ c, Present stepOf welcomeOf M w' c → Present stepOf welcomeOf M w c ∨ fresh = some c := by
  cases step with
  | invite inviter joiner =>
    refine ⟨none, by simp, fun c here => ?_⟩
    rcases here.of_post with before | ⟨entry, queued, leads⟩
    · exact .inl before
    · obtain rfl := List.mem_singleton.mp queued
      simp [MlsMessage.leadsTo] at leads
  | deliver sender receiver message rest draw persisted next =>
    obtain ⟨fresh, leaves⟩ := receiveMls_leaves lawful receiver (w.clients receiver).hasSession
      (w.clients receiver).channel sender draw persisted message
    refine ⟨fresh, fun c new d before => ?_, fun c here => ?_⟩
    · obtain ⟨⟨kp, rfl⟩, own, has, epoch⟩ := leaves.next_epoch c new
      have := upToDate own d has before
      omega
    · rcases here.of_post with here | ⟨entry, queued, leads⟩
      · rcases here.of_delivery next with before | has
        · exact .inl before
        · rcases leaves.channel c has with kept | led | new
          · exact .inl (.inl ⟨receiver, kept⟩)
          · exact .inl (.inr ⟨sender, receiver, message, by simp [next], led⟩)
          · exact .inr new
      · exact .inr (leaves.queued entry queued c leads)

include lawful in
theorem AllAgree.step {w w' : MlsWorld G J W} {event : MlsEvent W}
    (agree : AllAgree stepOf welcomeOf M w)
    (taken : Guarded (MlsStep M) (UpToDate stepOf welcomeOf M) w event w') :
    AllAgree stepOf welcomeOf M w' := by
  obtain ⟨fresh, past, kept⟩ := taken.2.present lawful taken.1
  intro c d here there same
  rcases kept c here with before | new
  · rcases kept d there with before' | new'
    · exact agree c d before before' same
    · have := past d new' c before
      omega
  · rcases kept d there with before' | new'
    · have := past c new d before'
      omega
    · exact Option.some.inj (new.symm.trans new')

/-- The members agree and nothing is on its way. -/
structure Settled (M : Mlspp G C J W) (w : MlsWorld G J W) : Prop where
  agree : MembersAgree M w
  quiet : ∀ a b, w.inFlight a b = []

theorem Settled.allAgree {w : MlsWorld G J W} (settled : Settled M w) :
    AllAgree stepOf welcomeOf M w := by
  have member : ∀ c, Present stepOf welcomeOf M w c → ∃ a, (w.clients a).channel.Has M c := by
    rintro c (has | ⟨a, b, message, waiting, -⟩)
    · exact has
    · simp [settled.quiet] at waiting
  intro c d here there same
  obtain ⟨a, has⟩ := member c here
  obtain ⟨b, has'⟩ := member d there
  exact settled.agree a b c d has has' same

include lawful in
/-- In every run in which KeyPackages are handled by members that nobody has
overtaken, members at the same epoch have the same group. -/
theorem members_agree {w w' : MlsWorld G J W} {events : List (MlsEvent W)}
    (settled : Settled M w)
    (run : Run (Guarded (MlsStep M) (UpToDate stepOf welcomeOf M)) w events w') :
    MembersAgree M w' := by
  have agree := run.invariant (AllAgree stepOf welcomeOf M)
    (fun _ _ _ agree taken => agree.step lawful taken) settled.allAgree
  intro a b c d has has' same
  exact agree c d (.inl ⟨a, has⟩) (.inl ⟨b, has'⟩) same

end

/-! ### Two members who add at the same time -/

/-- Groups as the draws of their commits, for a fixed roster. -/
def Mlspp.draws (roster : List Bytes) :
    Mlspp (List Nat) (List Nat) Unit (List Nat × List Nat) where
  core := id
  epoch := List.length
  memberIdentities _ := roster
  proposeAddMember g _ := .ok (g, [], [])
  handleProposal g _ := .ok g
  commitPending g draw := .ok (draw :: g, ⟨(g, draw :: g), (g, draw :: g)⟩)
  applyCommit g wire := if wire.1 = g then .ok wire.2 else .error "wrong epoch"
  startJoin _ _ := .ok ()
  keyPackage _ := ([], [])
  complete _ wire := .ok wire.2

theorem Mlspp.draws_lawful (roster : List Bytes) :
    (Mlspp.draws roster).Lawful some (fun wire => some wire.2) where
  propose := by simp [draws]
  handle := by simp [draws, eq_comm]
  advances := by
    rintro g draw g' add ⟨rfl, rfl⟩
    rfl
  commits := by
    rintro g draw g' add ⟨rfl, rfl⟩
    rfl
  welcomes := by
    rintro g draw g' add ⟨rfl, rfl⟩
    rfl
  applies := by
    intro g wire g' applied
    simp only [draws] at applied ⊢
    split at applied
    next from_here =>
      cases applied
      simp [← from_here]
    · cases applied
  joins := by
    rintro j wire g ⟨rfl⟩
    rfl

private def key (n : UInt8) : Bytes := List.replicate 32 n

private abbrev pair := Mlspp.draws [key 1, key 2]

/-- Two members at the first epoch, and everybody can reach everybody. -/
private def twoMembers : MlsWorld (List Nat) Unit (List Nat × List Nat) where
  clients name := ⟨⟨if name = key 1 ∨ name = key 2 then some [] else none, none⟩, fun _ => true⟩
  inFlight _ _ := []

private theorem twoMembers_settled : Settled pair twoMembers := by
  constructor
  · have only : ∀ a c, (twoMembers.clients a).channel.Has pair c → c = [] := by
      rintro a c ⟨g, member, rfl⟩
      simp only [twoMembers, Option.ite_none_right_eq_some] at member
      exact (Option.some.inj member.2).symm
    intro a b c d has has' _
    rw [only a c has, only b d has']
  · exact fun _ _ => rfl

private def stored : Persisted := ⟨true, true⟩

/-- Both members invite the same client and handle its KeyPackage before they see
each other's commit. -/
theorem members_fork : ¬∀ (w w' : MlsWorld (List Nat) Unit (List Nat × List Nat))
    (events : List (MlsEvent (List Nat × List Nat))),
    Settled pair w → Run (MlsStep pair) w events w' → MembersAgree pair w' := by
  intro all
  have forked := all twoMembers _ _ twoMembers_settled
    (.cons (.invite _ (key 1) (key 3)) <| .cons (.invite _ (key 2) (key 3)) <|
      .cons (.deliver _ (key 1) (key 3) .inviteRequest [] 0 stored rfl) <|
      .cons (.deliver _ (key 2) (key 3) .inviteRequest [] 0 stored rfl) <|
      .cons (.deliver _ (key 3) (key 1) (.keyPackage ([], [])) [] 1 stored rfl) <|
      .cons (.deliver _ (key 3) (key 2) (.keyPackage ([], [])) [] 2 stored rfl) (.nil _))
  have same := forked (key 1) (key 2) [1] [2] ⟨[1], rfl, rfl⟩ ⟨[2], rfl, rfl⟩ rfl
  simp at same

/-- The first KeyPackage on its way back to the first member. -/
private def asked : MlsWorld (List Nat) Unit (List Nat × List Nat) :=
  (((twoMembers.post (key 1) [(key 3, .inviteRequest)]).setQueue (key 1) (key 3) []).setChannel
    (key 3) ⟨none, some ()⟩).post (key 3) [(key 1, .keyPackage ([], []))]

private theorem asked_upToDate (message : List Nat × List Nat) :
    UpToDate some (fun wire => some wire.2) pair asked
      (.delivered (key 3) (key 1) (.keyPackage message)) := by
  rintro own c - here
  have before : Present some (fun wire => some wire.2) pair twoMembers c := by
    rcases here.of_post with here | ⟨entry, queued, leads⟩
    · have next : (twoMembers.post (key 1) [(key 3, .inviteRequest)]).inFlight (key 1) (key 3) =
          [.inviteRequest] := rfl
      rcases here.of_delivery next with here | ⟨g, member, -⟩
      · rcases here.of_post with here | ⟨entry, queued, leads⟩
        · exact here
        · obtain rfl := List.mem_singleton.mp queued
          simp [MlsMessage.leadsTo] at leads
      · cases member
    · obtain rfl := List.mem_singleton.mp queued
      simp [MlsMessage.leadsTo] at leads
  rcases before with ⟨a, g, member, rfl⟩ | ⟨a, b, other, waiting, -⟩
  · simp only [twoMembers, Option.ite_none_right_eq_some] at member
    obtain rfl := Option.some.inj member.2
    exact Nat.zero_le _
  · cases waiting

/-- One member adds a client, and the other follows. -/
theorem members_agree_pair : ∃ events w', Settled pair twoMembers ∧
    Run (Guarded (MlsStep pair) (UpToDate some (fun wire => some wire.2) pair)) twoMembers
      events w' ∧
    (w'.clients (key 1)).channel.Has pair [1] ∧ (w'.clients (key 2)).channel.Has pair [1] ∧
    MembersAgree pair w' := by
  have run : Run (Guarded (MlsStep pair) (UpToDate some (fun wire => some wire.2) pair))
      twoMembers [.invited (key 1) (key 3), .delivered (key 1) (key 3) .inviteRequest,
        .delivered (key 3) (key 1) (.keyPackage ([], [])),
        .delivered (key 1) (key 2) (.proposal ([], [])),
        .delivered (key 1) (key 2) (.commit ([], [1]))] _ :=
    .cons ⟨trivial, .invite _ (key 1) (key 3)⟩ <|
      .cons ⟨trivial, .deliver _ (key 1) (key 3) .inviteRequest [] 0 stored rfl⟩ <|
      .cons ⟨asked_upToDate _, .deliver _ (key 3) (key 1) (.keyPackage ([], [])) [] 1 stored rfl⟩ <|
      .cons ⟨trivial, .deliver _ (key 1) (key 2) (.proposal ([], [])) [.commit ([], [1])] 0 stored
        rfl⟩ <|
      .cons ⟨trivial, .deliver _ (key 1) (key 2) (.commit ([], [1])) [] 0 stored rfl⟩ (.nil _)
  exact ⟨_, _, twoMembers_settled, run, ⟨[1], rfl, rfl⟩, ⟨[1], rfl, rfl⟩,
    members_agree (Mlspp.draws_lawful _) twoMembers_settled run⟩

end FinBit.Desktop
