import FinBit.Desktop.FirstContact
import FinBit.Identity.UsernameGossip
import FinBit.Lib.Runs
import FinBit.Lib.Tickets

/-! # Queued operations

The two queues that the user interface fills and the worker loop empties: sends to a
peer and operations on a channel. The loop swaps a whole queue into a local batch and
goes through it. An item that cannot be worked on, for want of a session, is put back
or parked, and the loop then leaves the batch: what was behind the item is gone.

Every operation carries a ticket here that the program does not have. The results are
about where the tickets are.
-/

namespace FinBit.Desktop

open FinBit.Lib FinBit.Crypto FinBit.Identity Std

variable {K : Type}

/-! ### Operations -/

structure PendingSend where
  peer : Bytes
  text : Bytes
  prePackedPayload : Bytes
  persistBlob : Bytes

/-- `PendingChannelOp::Kind`. -/
inductive OpKind where
  | create
  | createLocal
  | join
  | send
  | invite
  | leave
  | roomJoin
  | roomLeave
  deriving DecidableEq

structure PendingChannelOp where
  kind : OpKind
  channelName : Bytes
  distPath : Bytes
  text : Bytes
  peer : Bytes
  wantVideo : Bool
  useMls : Bool

structure Ticket (α : Type) where
  id : Nat
  work : α

structure ParkedFirstContact where
  send : Ticket PendingSend
  peerPub : Bytes
  parkedAtMs : UInt64

/-- What the loop reads of a channel. -/
structure ChannelView where
  id : Bytes
  isMls : Bool
  ownDist : Bytes
  subscribed : Bool

/-- What the loop reads of the rest of the client. -/
structure Surroundings (K : Type) where
  sessions : Sessions K
  usernameLog : UsernameLog
  /-- Both the DHT and PeerNet are there. -/
  overlay : Bool
  channels : Bytes → ChannelView

/-- What one item meets outside the program. -/
structure Luck where
  /-- `blocking_send` goes through. -/
  socket : Bool
  /-- The DHT knows a way past the relay, and the message is taken there. -/
  serverless : Bool
  /-- A call inside the item's own `try` block throws. -/
  failed : Bool

/-! ### One send -/

inductive SendFate where
  | sent
  | requeued
  | parked (peerPub : Bytes)
  | fetching
  | threw

/-- Every way but one leaves the loop over the batch. -/
def SendFate.endsBatch : SendFate → Bool
  | .sent => false
  | _ => true

/-- The first session with a ratchet for a peer that `wanted` recognises. -/
def rebind (sessions : Sessions K) (wanted : Bytes → Bool) (s : PendingSend) : PendingSend :=
  match sessions.keys.find? fun name => (sessions.ratchetAt name).any fun entry => wanted entry.1 with
  | none => s
  | some name => { s with peer := name }

/-- A target that looks like a fingerprint is replaced by the session it belongs to. -/
def rebindFingerprint (fingerprint : Bytes → Bytes) (sessions : Sessions K) (s : PendingSend) :
    PendingSend :=
  if s.peer.length = 11 ∧ s.peer.getD 5 0 = 0x2d ∧ s.peer ∉ sessions then
    rebind sessions (fun peer => fingerprint peer = s.peer) s
  else s

/-- One pass of the loop over `to_send`, with the item as it is put back. -/
def sendOne (fingerprint : Bytes → Bytes) (around : Surroundings K) (luck : Luck)
    (s : PendingSend) : PendingSend × SendFate :=
  let s := rebindFingerprint fingerprint around.sessions s
  let fetch := fun s => (s, if luck.socket then SendFate.fetching else SendFate.threw)
  match around.sessions.ratchetAt s.peer with
  | some (_, rat) =>
    -- `encrypt` throws without a sending chain; only the direct path catches that
    if rat.haveCks = false then (s, .threw)
    else if around.overlay && luck.serverless then (s, .sent)
    else if luck.socket then (s, .sent)
    else (s, .threw)
  | none =>
    match around.usernameLog.resolve s.peer with
    | none => fetch s
    | some pub =>
      let s := rebind around.sessions (· = pub) s
      if (around.sessions.ratchetAt s.peer).isSome then (s, .requeued)
      else if around.overlay then (s, .parked pub)
      else fetch s

/-! ### One channel operation -/

inductive OpFate where
  | executed
  | reported
  /-- An invitation to an MLS channel is a send of its own. -/
  | invited (s : PendingSend)
  | fetching
  | threw

def OpFate.endsBatch : OpFate → Bool
  | .fetching => true
  | .threw => true
  | _ => false

/-- One pass of the loop over `chan_ops`. -/
def operateOne (P : DmCrypto K) (around : Surroundings K) (luck : Luck) (op : PendingChannelOp) :
    OpFate :=
  let cs := around.channels op.channelName
  match op.kind with
  | .create | .createLocal | .join => if luck.failed then .reported else .executed
  | .send => if cs.ownDist = [] ∨ luck.failed = true then .reported else .executed
  | .leave => if cs.subscribed = true ∧ luck.socket = false then .threw else .executed
  | .roomJoin | .roomLeave => if luck.socket then .executed else .threw
  | .invite =>
    if cs.isMls then
      let payload := P.payload.encode ⟨.mlsInviteRequest cs.id op.channelName, [], [], 0⟩
      .invited ⟨op.peer, [], payload, []⟩
    else if cs.ownDist = [] ∧ luck.failed = true then .reported
    else if luck.socket = false then .threw
    else
      match around.sessions.ratchetAt op.peer with
      | none => .fetching
      | some (_, rat) => if rat.haveCks = false then .threw else .executed

/-! ### The worker -/

structure SendQueue (K : Type) where
  around : Surroundings K
  queue : List (Ticket PendingSend)
  chanQueue : List (Ticket PendingChannelOp)
  parking : List ParkedFirstContact
  /-- The batches in hand. -/
  toSend : List (Ticket PendingSend)
  chanOps : List (Ticket PendingChannelOp)
  pendingFetchTargets : List Bytes
  executed : List Nat
  reported : List Nat
  issued : Nat
  running : Bool

namespace SendQueue

def new (around : Surroundings K) : SendQueue K :=
  ⟨around, [], [], [], [], [], [], [], [], 0, true⟩

/-- `send_to_peer` and its like. -/
def queueSend (q : SendQueue K) (s : PendingSend) : SendQueue K :=
  { q with queue := q.queue ++ [⟨q.issued, s⟩], issued := q.issued + 1 }

/-- The functions that queue a channel operation. -/
def queueOp (q : SendQueue K) (op : PendingChannelOp) : SendQueue K :=
  { q with chanQueue := q.chanQueue ++ [⟨q.issued, op⟩], issued := q.issued + 1 }

def takeOps (q : SendQueue K) : SendQueue K := { q with chanOps := q.chanQueue, chanQueue := [] }

def takeSends (q : SendQueue K) : SendQueue K := { q with toSend := q.queue, queue := [] }

/-- The head of `chan_ops`; the list without it is `rest`. -/
def operate (P : DmCrypto K) (luck : Luck) (q : SendQueue K) (t : Ticket PendingChannelOp)
    (rest : List (Ticket PendingChannelOp)) : SendQueue K :=
  match operateOne P q.around luck t.work with
  | .executed => { q with chanOps := rest, executed := q.executed ++ [t.id] }
  | .reported => { q with chanOps := rest, reported := q.reported ++ [t.id] }
  | .invited s => { q with chanOps := rest, executed := q.executed ++ [t.id] }.queueSend s
  | .fetching =>
    { q with
      chanOps := []
      chanQueue := t :: q.chanQueue
      pendingFetchTargets := q.pendingFetchTargets ++ [t.work.peer] }
  | .threw => { q with chanOps := [], reported := q.reported ++ [t.id], running := false }

/-- The head of `to_send`; the list without it is `rest`. -/
def send (fingerprint : Bytes → Bytes) (luck : Luck) (now : UInt64) (q : SendQueue K)
    (t : Ticket PendingSend) (rest : List (Ticket PendingSend)) : SendQueue K :=
  let (work, fate) := sendOne fingerprint q.around luck t.work
  match fate with
  | .sent => { q with toSend := rest, executed := q.executed ++ [t.id] }
  | .requeued => { q with toSend := [], queue := ⟨t.id, work⟩ :: q.queue }
  | .parked peerPub =>
    { q with toSend := [], parking := q.parking ++ [⟨⟨t.id, work⟩, peerPub, now⟩] }
  | .fetching =>
    { q with
      toSend := []
      queue := ⟨t.id, work⟩ :: q.queue
      pendingFetchTargets := q.pendingFetchTargets ++ [work.peer] }
  | .threw => { q with toSend := [], reported := q.reported ++ [t.id], running := false }

/-- The drain of the parking lot. A send that is `ready`, because the DHT has what it
needs or because it has waited long enough, goes to the front of the queue. -/
def unpark (ready : ParkedFirstContact → Bool) (q : SendQueue K) : SendQueue K :=
  { q with
    queue := ((q.parking.filter ready).map ParkedFirstContact.send).reverse ++ q.queue
    parking := q.parking.filter fun p => !ready p }

/-- A bundle that was not found: whatever is queued for the user is dropped and
reported. -/
def dropMissing (user : Bytes) (q : SendQueue K) : SendQueue K :=
  let send := fun t : Ticket PendingSend => decide (t.work.peer = user)
  let op := fun t : Ticket PendingChannelOp => decide (t.work.kind = .invite ∧ t.work.peer = user)
  { q with
    queue := q.queue.filter fun t => !send t
    chanQueue := q.chanQueue.filter fun t => !op t
    reported := q.reported ++ ((q.queue.filter send).map Ticket.id ++
      (q.chanQueue.filter op).map Ticket.id) }

/-! ### Steps -/

inductive Event where
  | queued (s : PendingSend)
  | queuedOp (op : PendingChannelOp)
  | tookOps
  | operated (luck : Luck)
  | tookSends
  | sent (luck : Luck) (now : UInt64)
  | unparked (ready : ParkedFirstContact → Bool)
  | missing (user : Bytes)
  | elsewhere
  | ended

/-- The loop is not inside a batch. -/
def AtRest (q : SendQueue K) : Prop := q.toSend = [] ∧ q.chanOps = []

/-- The user interface may queue at any time. What the other parts of the client change
(`elsewhere`) is left open, and so is the order of the parts of the loop. -/
inductive Step (P : DmCrypto K) (fingerprint : Bytes → Bytes) :
    SendQueue K → Event → SendQueue K → Prop
  | queued (q : SendQueue K) (s : PendingSend) : Step P fingerprint q (.queued s) (q.queueSend s)
  | queuedOp (q : SendQueue K) (op : PendingChannelOp) :
      Step P fingerprint q (.queuedOp op) (q.queueOp op)
  | tookOps {q : SendQueue K} (running : q.running = true) (rest : q.AtRest) :
      Step P fingerprint q .tookOps q.takeOps
  | operated {q : SendQueue K} {t : Ticket PendingChannelOp} {rest : List (Ticket PendingChannelOp)}
      (running : q.running = true) (batch : q.chanOps = t :: rest) (luck : Luck) :
      Step P fingerprint q (.operated luck) (q.operate P luck t rest)
  | tookSends {q : SendQueue K} (running : q.running = true) (rest : q.AtRest) :
      Step P fingerprint q .tookSends q.takeSends
  | sent {q : SendQueue K} {t : Ticket PendingSend} {rest : List (Ticket PendingSend)}
      (running : q.running = true) (batch : q.toSend = t :: rest) (luck : Luck) (now : UInt64) :
      Step P fingerprint q (.sent luck now) (q.send fingerprint luck now t rest)
  | unparked {q : SendQueue K} (running : q.running = true) (rest : q.AtRest)
      (ready : ParkedFirstContact → Bool) : Step P fingerprint q (.unparked ready) (q.unpark ready)
  | missing {q : SendQueue K} {user : Bytes} {others : List Bytes} (running : q.running = true)
      (rest : q.AtRest) (named : user ≠ []) (inFlight : q.pendingFetchTargets = user :: others) :
      Step P fingerprint q (.missing user) { q.dropMissing user with pendingFetchTargets := others }
  | elsewhere (q : SendQueue K) (around : Surroundings K) (targets : List Bytes) :
      Step P fingerprint q .elsewhere { q with around := around, pendingFetchTargets := targets }
  | ended {q : SendQueue K} (rest : q.AtRest) :
      Step P fingerprint q .ended { q with running := false }

/-- Where the loop leaves a batch, nothing is behind the item that made it leave. -/
def LastOfBatch (P : DmCrypto K) (fingerprint : Bytes → Bytes) (q : SendQueue K) : Event → Prop
  | .operated luck => ∀ t rest, q.chanOps = t :: rest →
      (operateOne P q.around luck t.work).endsBatch = true → rest = []
  | .sent luck _ => ∀ t rest, q.toSend = t :: rest →
      (sendOne fingerprint q.around luck t.work).2.endsBatch = true → rest = []
  | _ => True

/-! ### Accounts -/

inductive Place where
  | waiting
  /-- In the batch that the loop is going through. -/
  | inHand
  | parked
  | executed
  | reported

def places : List Place := [.waiting, .inHand, .parked, .executed, .reported]

theorem mem_places (place : Place) : place ∈ places := by
  cases place <;> simp [places]

/-- The tickets in a place. -/
def held (q : SendQueue K) : Place → List Nat
  | .waiting => q.queue.map Ticket.id ++ q.chanQueue.map Ticket.id
  | .inHand => q.toSend.map Ticket.id ++ q.chanOps.map Ticket.id
  | .parked => q.parking.map fun p => p.send.id
  | .executed => q.executed
  | .reported => q.reported

theorem count_held (q : SendQueue K) (id : Nat) :
    (places.flatMap q.held).count id =
      (q.queue.map Ticket.id).count id + (q.chanQueue.map Ticket.id).count id +
      (q.toSend.map Ticket.id).count id + (q.chanOps.map Ticket.id).count id +
      (q.parking.map fun p => p.send.id).count id + q.executed.count id + q.reported.count id := by
  simp only [places, List.flatMap_cons, List.flatMap_nil, held, List.count_append, List.count_nil]
  omega

private theorem count_ticket (ticket : Nat) (l : List Nat) (id : Nat) :
    (ticket :: l).count id = l.count id + if id = ticket then 1 else 0 := by
  rw [List.count_cons]
  by_cases same : id = ticket
  · simp [same]
  · simp [same, Ne.symm same]

/-- Splitting a list by a test keeps the tickets. -/
private theorem count_split {α : Type} (f : α → Nat) (p : α → Bool) (l : List α) (id : Nat) :
    ((l.filter p).map f).count id + ((l.filter fun x => !p x).map f).count id =
      (l.map f).count id := by
  rw [← List.count_append, ← List.map_append]
  exact ((List.filter_append_perm p l).map f).count_eq id

/-- The tickets behind an item at which the loop leaves its batch. -/
def leftBehind (P : DmCrypto K) (fingerprint : Bytes → Bytes) (q : SendQueue K) : Event → List Nat
  | .operated luck =>
    match q.chanOps with
    | [] => []
    | t :: rest =>
      if (operateOne P q.around luck t.work).endsBatch then rest.map Ticket.id else []
  | .sent luck _ =>
    match q.toSend with
    | [] => []
    | t :: rest =>
      if (sendOne fingerprint q.around luck t.work).2.endsBatch then rest.map Ticket.id else []
  | _ => []

/-- Every step moves tickets about or gives out one; what it leaves behind is lost. -/
theorem count_step (P : DmCrypto K) (fingerprint : Bytes → Bytes) {q r : SendQueue K} {e : Event}
    (step : Step P fingerprint q e r) (id : Nat) :
    (r.issued = q.issued ∧
      (places.flatMap r.held).count id + (q.leftBehind P fingerprint e).count id =
        (places.flatMap q.held).count id) ∨
    (r.issued = q.issued + 1 ∧ q.leftBehind P fingerprint e = [] ∧
      (places.flatMap r.held).count id =
        (places.flatMap q.held).count id + if id = q.issued then 1 else 0) := by
  rw [count_held, count_held]
  cases step with
  | queued s =>
    right
    simp only [queueSend, leftBehind, List.map_append, List.map_cons, List.map_nil,
      List.count_append, count_ticket, List.count_nil, true_and]
    omega
  | queuedOp op =>
    right
    simp only [queueOp, leftBehind, List.map_append, List.map_cons, List.map_nil,
      List.count_append, count_ticket, List.count_nil, true_and]
    omega
  | tookOps running rest =>
    left
    simp [takeOps, leftBehind, rest.1, rest.2]
  | @operated t rest running batch luck =>
    simp only [operate, leftBehind, batch]
    cases operateOne P q.around luck t.work <;>
      simp only [OpFate.endsBatch, queueSend, List.map_append, List.map_cons, List.map_nil,
        List.count_append, count_ticket, List.count_nil, Bool.false_eq_true, if_false, if_true,
        true_and] <;>
      omega
  | tookSends running rest =>
    left
    simp [takeSends, leftBehind, rest.1, rest.2]
    omega
  | @sent t rest running batch luck now =>
    left
    simp only [send, leftBehind, batch]
    cases (sendOne fingerprint q.around luck t.work).2 <;>
      simp only [SendFate.endsBatch, List.map_append, List.map_cons, List.map_nil,
        List.count_append, count_ticket, List.count_nil, Bool.false_eq_true, if_false, if_true,
        true_and] <;>
      omega
  | unparked running rest ready =>
    left
    have split := count_split (fun p => p.send.id) ready q.parking id
    simp [unpark, leftBehind, Function.comp_def]
    omega
  | @missing user others running rest named inFlight =>
    left
    simp only [dropMissing, leftBehind, List.count_append, List.count_nil, true_and]
    have sends := count_split Ticket.id (fun t : Ticket PendingSend => decide (t.work.peer = user))
      q.queue id
    have ops := count_split Ticket.id (fun t : Ticket PendingChannelOp =>
      decide (t.work.kind = .invite ∧ t.work.peer = user)) q.chanQueue id
    omega
  | elsewhere around targets => simp [leftBehind]
  | ended rest => simp [leftBehind]

/-! ### The result -/

theorem leftBehind_eq_nil_iff (P : DmCrypto K) (fingerprint : Bytes → Bytes) (q : SendQueue K)
    (e : Event) : q.leftBehind P fingerprint e = [] ↔ q.LastOfBatch P fingerprint e := by
  cases e with
  | operated luck =>
    cases batch : q.chanOps with
    | nil => simp [leftBehind, LastOfBatch, batch]
    | cons t rest =>
      cases ends : (operateOne P q.around luck t.work).endsBatch <;>
        simp [leftBehind, LastOfBatch, batch, ends]
  | sent luck now =>
    cases batch : q.toSend with
    | nil => simp [leftBehind, LastOfBatch, batch]
    | cons t rest =>
      cases ends : (sendOne fingerprint q.around luck t.work).2.endsBatch <;>
        simp [leftBehind, LastOfBatch, batch, ends]
  | _ => simp [leftBehind, LastOfBatch]

theorem accounted_step (P : DmCrypto K) (fingerprint : Bytes → Bytes) {q r : SendQueue K}
    {e : Event} (accounted : Accounted places q.held q.issued)
    (step : Guarded (Step P fingerprint) (LastOfBatch P fingerprint) q e r) :
    Accounted places r.held r.issued := by
  obtain ⟨last, step⟩ := step
  have nothing := (leftBehind_eq_nil_iff P fingerprint q e).mpr last
  by_cases same : r.issued = q.issued
  · rw [same]
    apply accounted.moved
    intro id
    rcases count_step P fingerprint step id with ⟨-, moved⟩ | ⟨more, -⟩
    · rwa [nothing, List.count_nil] at moved
    · omega
  · have more : r.issued = q.issued + 1 := by
      rcases count_step P fingerprint step 0 with ⟨equal, -⟩ | ⟨more, -⟩
      · exact absurd equal same
      · exact more
    rw [more]
    apply accounted.issued
    intro id
    rcases count_step P fingerprint step id with ⟨equal, -⟩ | ⟨-, -, added⟩
    · exact absurd equal same
    · exact added

/-- In a run that leaves batches only at their last item every operation is in one
place; and a step that leaves one earlier loses an operation. -/
theorem operations_accounted (P : DmCrypto K) (fingerprint : Bytes → Bytes)
    {around : Surroundings K} {events : List Event} {q : SendQueue K}
    (run : Run (Guarded (Step P fingerprint) (LastOfBatch P fingerprint)) (.new around) events q) :
    (∀ id < q.issued, ∃! place, id ∈ q.held place) ∧
    (q.AtRest → ∀ id < q.issued, ∃! place, place ≠ .inHand ∧ id ∈ q.held place) ∧
    ∀ e r, Step P fingerprint q e r → ¬q.LastOfBatch P fingerprint e →
      ∃ id < r.issued, ∀ place, id ∉ r.held place := by
  have accounted : Accounted places q.held q.issued := by
    refine run.invariant (fun q => Accounted places q.held q.issued) (fun _ _ _ => ?_) ?_
    · exact accounted_step P fingerprint
    · intro id
      simp [new, count_held]
  have unique : ∀ id < q.issued, ∃! place, id ∈ q.held place :=
    fun id issued => accounted.existsUnique mem_places issued
  refine ⟨unique, fun rest id issued => ?_, fun e r step early => ?_⟩
  · obtain ⟨place, holds, only⟩ := unique id issued
    refine ⟨place, ⟨?_, holds⟩, fun other also => only other also.2⟩
    rintro rfl
    simp [held, rest.1, rest.2] at holds
  · rw [← leftBehind_eq_nil_iff] at early
    obtain ⟨id, behind⟩ := List.exists_mem_of_ne_nil _ early
    rcases count_step P fingerprint step id with ⟨same, moved⟩ | ⟨-, nothing, -⟩
    · -- it was counted once, and that one is gone
      have once : 0 < (q.leftBehind P fingerprint e).count id := List.count_pos_iff.mpr behind
      have bound := accounted id
      have gone : (places.flatMap r.held).count id = 0 := by
        split at bound <;> omega
      refine ⟨id, ?_, fun place holds => ?_⟩
      · rw [same]
        by_contra outside
        rw [if_neg outside] at bound
        omega
      · exact List.count_eq_zero.mp gone (List.mem_flatMap.mpr ⟨place, mem_places place, holds⟩)
    · exact absurd nothing early

/-! ### Two first messages -/

/-- A client without contacts, on the relay alone. -/
private def alone : Surroundings Nat :=
  ⟨∅, [], false, fun _ => ⟨List.replicate 32 0, false, [], false⟩⟩

private def hello (peer : String) : PendingSend := ⟨ascii peer, ascii "hello", [], []⟩

private def online : Luck := ⟨true, false, false⟩

/-- The loop comes to the message for `alice`. -/
private theorem alone_send {q : SendQueue Nat} (around : q.around = alone)
    (rest : List (Ticket PendingSend)) :
    q.send id online 0 ⟨0, hello "alice"⟩ rest =
      { q with
        toSend := []
        queue := ⟨0, hello "alice"⟩ :: q.queue
        pendingFetchTargets := q.pendingFetchTargets ++ [ascii "alice"] } := by
  have fetching : sendOne id alone online (hello "alice") = (hello "alice", .fetching) := by
    have short : (ascii "alice").length ≠ 11 := by decide
    simp [sendOne, rebindFingerprint, hello, short, alone, online, Sessions.ratchetAt,
      UsernameLog.resolve]
  simp only [send, around, fetching]
  rfl

/-- Both sends are in one batch. The first one waits for its bundle, the second one is
nowhere. -/
theorem second_send_lost :
    ∃ q, Run (Step DmCrypto.nat id) (.new alone)
        [.queued (hello "alice"), .queued (hello "bob"), .tookSends, .sent online 0] q ∧
      q.AtRest ∧ 1 < q.issued ∧ ∀ place, 1 ∉ q.held place := by
  let batch := (((SendQueue.new alone).queueSend (hello "alice")).queueSend (hello "bob")).takeSends
  have run : Run (Step DmCrypto.nat id) (.new alone)
      [.queued (hello "alice"), .queued (hello "bob"), .tookSends, .sent online 0]
      (batch.send id online 0 ⟨0, hello "alice"⟩ [⟨1, hello "bob"⟩]) :=
    .cons (.queued _ _) (.cons (.queued _ _) (.cons (.tookSends rfl ⟨rfl, rfl⟩)
      (.cons (.sent rfl rfl online 0) (.nil _))))
  rw [alone_send rfl] at run
  refine ⟨_, run, ⟨rfl, rfl⟩, by decide, fun place => ?_⟩
  cases place <;> decide

/-- With the first message alone, every operation is in its place. -/
theorem operations_accounted_alone :
    ∃ q, Run (Guarded (Step DmCrypto.nat id) (LastOfBatch DmCrypto.nat id)) (.new alone)
        [.queued (hello "alice"), .tookSends, .sent online 0] q ∧
      q.AtRest ∧ 0 < q.issued ∧ ∃! place, place ≠ .inHand ∧ 0 ∈ q.held place := by
  let batch := ((SendQueue.new alone).queueSend (hello "alice")).takeSends
  have run : Run (Guarded (Step DmCrypto.nat id) (LastOfBatch DmCrypto.nat id)) (.new alone)
      [.queued (hello "alice"), .tookSends, .sent online 0]
      (batch.send id online 0 ⟨0, hello "alice"⟩ []) := by
    refine .cons ⟨trivial, .queued _ _⟩ (.cons ⟨trivial, .tookSends rfl ⟨rfl, rfl⟩⟩
      (.cons ⟨?_, .sent rfl rfl online 0⟩ (.nil _)))
    rintro t rest ⟨⟩ -
    rfl
  rw [alone_send rfl] at run
  obtain ⟨-, accounted, -⟩ := operations_accounted DmCrypto.nat id run
  exact ⟨_, run, ⟨rfl, rfl⟩, by decide, accounted ⟨rfl, rfl⟩ 0 (by decide)⟩

end SendQueue

end FinBit.Desktop
