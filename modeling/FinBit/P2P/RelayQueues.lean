import Mathlib.Data.List.Induction
import Std.Data.ExtTreeMap
import FinBit.Lib.MapEntries
import FinBit.Lib.Runs
import FinBit.P2P.OfflineRelay

/-! # The queues of a friend relay

The map that `OfflineRelayStore` is kept in, over runs of deposits, fetches and prunes. A fetch
returns what was accepted since the one before and has not expired, in order, and a prune
cannot be noticed by it. Deposits are the exception: nothing is pruned on insert, so that a
queue full of expired blobs rejects what it should take.
-/

namespace FinBit.P2P.OfflineRelayStore

open FinBit.Lib Std

/-! ### The map -/

/-- `now_ms_or`, with what the system clock reads. -/
def nowMsOr (overrideMs clock : UInt64) : UInt64 := if overrideMs ≠ 0 then overrideMs else clock

structure Impl where
  byRecipient : ExtTreeMap Bytes (List Blob)

namespace Impl

def new : Impl := ⟨∅⟩

/-- The queue of a recipient. -/
def queue (s : Impl) (recipientPubkey : Bytes) : List Blob :=
  s.byRecipient[recipientPubkey]?.getD []

def deposit (s : Impl) (recipientPubkey payload : Bytes) (nowMs clock : UInt64) :
    Impl × DepositResult :=
  if recipientPubkey.length ≠ 32 then (s, .rejectedFormat)
  else if payload = [] then (s, .rejectedFormat)
  else
    let t := nowMsOr nowMs clock
    let q := s.queue recipientPubkey
    if q.length ≥ kMaxBlobsPerRecipient then
      -- `operator[]` has made an entry, if there was none
      (⟨s.byRecipient.insertIfNew recipientPubkey []⟩, .rejectedFull)
    else (⟨s.byRecipient.insert recipientPubkey (q ++ [⟨payload, t⟩])⟩, .accepted)

def fetchAndClear (s : Impl) (recipientPubkey : Bytes) (nowMs clock : UInt64) :
    Impl × List Bytes :=
  if recipientPubkey.length ≠ 32 then (s, [])
  else
    let t := nowMsOr nowMs clock
    match s.byRecipient[recipientPubkey]? with
    | none => (s, [])
    | some q =>
      (⟨s.byRecipient.erase recipientPubkey⟩,
        (q.filter fun blob => blob.depositedAtMs + kDefaultBlobTtlMs > t).map Blob.bytes)

/-- What a prune keeps of a queue. -/
def keep (t ttlMs : UInt64) (q : List Blob) : List Blob :=
  q.filter fun blob => ¬blob.depositedAtMs + ttlMs ≤ t

/-- The number that is returned counts the blobs of all recipients. -/
def pruneExpired (s : Impl) (nowMs ttlMs clock : UInt64) : Impl × Nat :=
  let t := nowMsOr nowMs clock
  let kept := s.byRecipient.filterMap fun _ q =>
    if (keep t ttlMs q).isEmpty then none else some (keep t ttlMs q)
  (⟨kept⟩, (s.byRecipient.toList.map fun entry =>
    entry.2.length - (keep t ttlMs entry.2).length).sum)

end Impl

/-! ### What is left of the map -/

namespace Impl

variable (s : Impl) (recipientPubkey : Bytes) (nowMs clock : UInt64)

/-- The map as a function: an entry with an empty queue is as good as none. -/
def view : OfflineRelayStore := s.queue

theorem view_new : new.view = fun _ => [] := by
  funext other
  simp [view, queue, new]

theorem view_insert (recipient : Bytes) (q : List Blob) :
    view ⟨s.byRecipient.insert recipient q⟩ = Function.update s.view recipient q := by
  funext other
  by_cases same : other = recipient
  · subst same
    simp [view, queue]
  · simp [view, queue, ExtTreeMap.getElem?_insert, Ne.symm same, same]

/-- `deposit` on the map is `deposit` on the function. -/
theorem view_deposit (payload : Bytes) :
    ((s.deposit recipientPubkey payload nowMs clock).1.view,
      (s.deposit recipientPubkey payload nowMs clock).2) =
    s.view.deposit recipientPubkey payload (nowMsOr nowMs clock) := by
  unfold deposit OfflineRelayStore.deposit
  split
  · rfl
  split
  · rfl
  dsimp only
  rw [show s.view recipientPubkey = s.queue recipientPubkey from rfl]
  split
  · refine Prod.ext ?_ rfl
    funext other
    simp only [view, queue, getElem?_emplace]
    split
    next made => rw [made.2, Option.getD_none, Option.getD_some]
    · rfl
  · rw [view_insert]

theorem view_fetchAndClear :
    ((s.fetchAndClear recipientPubkey nowMs clock).1.view,
      (s.fetchAndClear recipientPubkey nowMs clock).2) =
    s.view.fetchAndClear recipientPubkey (nowMsOr nowMs clock) := by
  unfold fetchAndClear OfflineRelayStore.fetchAndClear
  split
  · rfl
  have erased : view ⟨s.byRecipient.erase recipientPubkey⟩ =
      Function.update s.view recipientPubkey [] := by
    funext other
    by_cases same : other = recipientPubkey
    · subst same
      simp [view, queue]
    · simp [view, queue, ExtTreeMap.getElem?_erase, Ne.symm same, same]
  cases found : s.byRecipient[recipientPubkey]? with
  | none =>
    have empty : s.view recipientPubkey = [] := by simp [view, queue, found]
    simp only [empty, List.filter_nil, List.map_nil]
    rw [← empty, Function.update_eq_self]
  | some q =>
    have stored : s.view recipientPubkey = q := by simp [view, queue, found]
    simp only [stored]
    rw [erased]

/-- A prune filters every queue. -/
theorem view_pruneExpired (ttlMs : UInt64) :
    (s.pruneExpired nowMs ttlMs clock).1.view =
      fun recipient => keep (nowMsOr nowMs clock) ttlMs (s.view recipient) := by
  funext recipient
  simp only [view, queue, pruneExpired, ExtTreeMap.getElem?_filterMap']
  cases found : s.byRecipient[recipient]? with
  | none => rfl
  | some q =>
    simp only [Option.bind_some, Option.getD_some]
    split
    next empty => simpa using (List.isEmpty_iff.mp empty).symm
    · rfl

end Impl

/-! ### Runs -/

inductive RelayCall where
  | deposit (recipientPubkey payload : Bytes)
  | fetchAndClear (recipientPubkey : Bytes)
  | pruneExpired (ttlMs : UInt64)

inductive RelayResult where
  | deposited (result : DepositResult)
  | fetched (blobs : List Bytes)
  | pruned (count : Nat)

/-- A call with the time that it is given, what the system clock reads, and its result. -/
structure RelayLabel where
  call : RelayCall
  nowMs : UInt64
  clock : UInt64
  result : RelayResult

def Impl.call (s : Impl) (nowMs clock : UInt64) : RelayCall → Impl × RelayResult
  | .deposit recipientPubkey payload =>
    (s.deposit recipientPubkey payload nowMs clock).map id .deposited
  | .fetchAndClear recipientPubkey => (s.fetchAndClear recipientPubkey nowMs clock).map id .fetched
  | .pruneExpired ttlMs => (s.pruneExpired nowMs ttlMs clock).map id .pruned

/-- A store with the time of the last call. -/
structure Relay where
  store : Impl
  lastMs : UInt64

namespace Relay

def new : Relay := ⟨.new, 0⟩

def Step (r : Relay) (label : RelayLabel) (r' : Relay) : Prop :=
  r.store.call label.nowMs label.clock label.call = (r'.store, label.result) ∧
    r'.lastMs = label.nowMs

/-- Times are given, do not go back and leave room for a lifetime to be added. -/
structure Timely (r : Relay) (label : RelayLabel) : Prop where
  given : label.nowMs ≠ 0
  later : r.lastMs ≤ label.nowMs
  small : label.nowMs.toNat < 2 ^ 63
  ttl : ∀ ttlMs, label.call = .pruneExpired ttlMs → ttlMs = kDefaultBlobTtlMs

end Relay

/-! ### What the relay owes -/

/-- The blobs accepted for the recipient since the last fetch, after one more call. -/
def RelayLabel.owe (recipient : Bytes) (owed : List Blob) (label : RelayLabel) : List Blob :=
  match label.call, label.result with
  | .deposit recipientPubkey payload, .deposited .accepted =>
    if recipientPubkey = recipient then owed ++ [⟨payload, label.nowMs⟩] else owed
  | .fetchAndClear recipientPubkey, _ => if recipientPubkey = recipient then [] else owed
  | _, _ => owed

def owed (labels : List RelayLabel) (recipient : Bytes) : List Blob :=
  labels.foldl (RelayLabel.owe recipient) []

/-- Not expired yet. -/
def Lives (t : UInt64) (blob : Blob) : Prop :=
  t.toNat < blob.depositedAtMs.toNat + kDefaultBlobTtlMs.toNat

instance (t : UInt64) : DecidablePred (Lives t) := fun _ => inferInstanceAs (Decidable (_ < _))

/-- What a relay promises about a call that comes after these. -/
structure Law (labels : List RelayLabel) (r : Relay) (label : RelayLabel) (r' : Relay) : Prop where
  delivered : ∀ recipient blobs, label.call = .fetchAndClear recipient →
    label.result = .fetched blobs →
      blobs = ((owed labels recipient).filter (Lives label.nowMs)).map Blob.bytes
  own : ∀ recipient blobs, label.call = .fetchAndClear recipient →
    label.result = .fetched blobs → ∀ bytes ∈ blobs, ∃ earlier ∈ labels,
      earlier.call = .deposit recipient bytes ∧ earlier.result = .deposited .accepted
  bounded : ∀ recipient, (r'.store.queue recipient).length ≤ kMaxBlobsPerRecipient
  admitted : ∀ recipient payload, label.call = .deposit recipient payload →
    recipient.length = 32 → payload ≠ [] → label.result ≠ .deposited .accepted →
      ((r.store.queue recipient).filter (Lives label.nowMs)).length = kMaxBlobsPerRecipient

/-- A deposit for a recipient whose queue is full, though some of it has expired. -/
def Clogged (r : Relay) (label : RelayLabel) : Prop :=
  ∃ recipient payload, label.call = .deposit recipient payload ∧ recipient.length = 32 ∧
    payload ≠ [] ∧ kMaxBlobsPerRecipient ≤ (r.store.queue recipient).length ∧
    ∃ blob ∈ r.store.queue recipient, ¬Lives label.nowMs blob

section

variable {labels : List RelayLabel} {label : RelayLabel} {r r' : Relay} {recipient : Bytes}

theorem owed_more (labels : List RelayLabel) (label : RelayLabel) (recipient : Bytes) :
    owed (labels ++ [label]) recipient = label.owe recipient (owed labels recipient) := by
  simp [owed]

/-- What is owed has been deposited for that recipient. -/
theorem mem_owed {blob : Blob} (member : blob ∈ owed labels recipient) :
    ∃ earlier ∈ labels, earlier.call = .deposit recipient blob.bytes ∧
      earlier.result = .deposited .accepted ∧ earlier.nowMs = blob.depositedAtMs := by
  induction labels using List.reverseRecOn with
  | nil => simp [owed] at member
  | append_singleton labels label ih =>
    rw [owed_more] at member
    have before (inside : blob ∈ owed labels recipient) : ∃ earlier ∈ labels ++ [label],
        earlier.call = .deposit recipient blob.bytes ∧
          earlier.result = .deposited .accepted ∧ earlier.nowMs = blob.depositedAtMs := by
      obtain ⟨earlier, among, rest⟩ := ih inside
      exact ⟨earlier, List.mem_append_left _ among, rest⟩
    unfold RelayLabel.owe at member
    split at member
    next recipientPubkey payload call result =>
      split at member
      next same =>
        rcases List.mem_append.mp member with inside | new
        · exact before inside
        · rw [List.mem_singleton.mp new]
          exact ⟨label, by simp, by rw [call, same], result, rfl⟩
      · exact before member
    · split at member
      · cases member
      · exact before member
    · exact before member

/-- Without overflow the two ways to say that a blob lives agree. -/
theorem lives_iff {blob : Blob} (small : blob.depositedAtMs.toNat < 2 ^ 63) (t : UInt64) :
    blob.depositedAtMs + kDefaultBlobTtlMs > t ↔ Lives t blob := by
  have ttl : kDefaultBlobTtlMs.toNat = 604800000 := by decide
  rw [gt_iff_lt, UInt64.lt_iff_toNat_lt, UInt64.toNat_add, Lives, ttl, Nat.mod_eq_of_lt (by omega)]

/-- A blob that lives has lived before. -/
theorem Lives.earlier {t u : UInt64} {blob : Blob} (lives : Lives u blob) (later : t ≤ u) :
    Lives t blob := by
  have := UInt64.le_iff_toNat_le.mp later
  unfold Lives at lives ⊢
  omega

/-- What a call at a given time does to the queues, and what it returns. -/
inductive Served (queues : OfflineRelayStore) (now : UInt64) :
    RelayCall → RelayResult → OfflineRelayStore → Prop
  | malformed {recipient payload : Bytes} (bad : ¬(recipient.length = 32 ∧ payload ≠ [])) :
      Served queues now (.deposit recipient payload) (.deposited .rejectedFormat) queues
  | full {recipient payload : Bytes} (sized : recipient.length = 32) (content : payload ≠ [])
      (many : kMaxBlobsPerRecipient ≤ (queues recipient).length) :
      Served queues now (.deposit recipient payload) (.deposited .rejectedFull) queues
  | accepted {recipient payload : Bytes} (sized : recipient.length = 32)
      (room : (queues recipient).length < kMaxBlobsPerRecipient) :
      Served queues now (.deposit recipient payload) (.deposited .accepted)
        (Function.update queues recipient (queues recipient ++ [⟨payload, now⟩]))
  | ignored {recipient : Bytes} (bad : recipient.length ≠ 32) :
      Served queues now (.fetchAndClear recipient) (.fetched []) queues
  | fetched {recipient : Bytes} :
      Served queues now (.fetchAndClear recipient) (.fetched (((queues recipient).filter fun blob =>
        blob.depositedAtMs + kDefaultBlobTtlMs > now).map Blob.bytes))
        (Function.update queues recipient [])
  | pruned {ttlMs : UInt64} (count : Nat) :
      Served queues now (.pruneExpired ttlMs) (.pruned count) fun recipient =>
        Impl.keep now ttlMs (queues recipient)

theorem Impl.served (s : Impl) (nowMs clock : UInt64) (call : RelayCall) :
    Served s.view (nowMsOr nowMs clock) call (s.call nowMs clock call).2
      (s.call nowMs clock call).1.view := by
  cases call with
  | deposit recipient payload =>
    have outcome := s.view_deposit recipient nowMs clock payload
    simp only [Impl.call, Prod.map_fst, Prod.map_snd, id]
    obtain ⟨view, result⟩ := Prod.ext_iff.mp outcome
    dsimp only at view result
    rw [view, result]
    unfold OfflineRelayStore.deposit
    split
    next bad => exact .malformed fun good => bad good.1
    next sized =>
      split
      next empty => exact .malformed fun good => good.2 empty
      next content =>
        split
        next many => exact .full (not_not.mp sized) content many
        next room => exact .accepted (not_not.mp sized) (by omega)
  | fetchAndClear recipient =>
    obtain ⟨view, result⟩ := Prod.ext_iff.mp (s.view_fetchAndClear recipient nowMs clock)
    simp only [Impl.call, Prod.map_fst, Prod.map_snd, id]
    dsimp only at view result
    rw [view, result]
    unfold OfflineRelayStore.fetchAndClear
    split
    next bad => exact .ignored bad
    next sized => exact .fetched
  | pruneExpired ttlMs =>
    simp only [Impl.call, Prod.map_fst, Prod.map_snd, id]
    rw [Impl.view_pruneExpired]
    exact .pruned _

theorem Relay.Step.served (taken : r.Step label r') (given : label.nowMs ≠ 0) :
    Served r.store.view label.nowMs label.call label.result r'.store.view := by
  have outcome := r.store.served label.nowMs label.clock label.call
  rwa [taken.1, nowMsOr, if_pos given] at outcome

/-- The queues hold what is owed, but for what has expired. -/
structure Owing (labels : List RelayLabel) (r : Relay) : Prop where
  last : r.lastMs.toNat < 2 ^ 63
  times : ∀ recipient, ∀ blob ∈ owed labels recipient, blob.depositedAtMs ≤ r.lastMs
  stored : ∀ recipient, (r.store.view recipient).Sublist (owed labels recipient)
  agree : ∀ recipient t, r.lastMs ≤ t →
    (r.store.view recipient).filter (Lives t) = (owed labels recipient).filter (Lives t)
  bounded : ∀ recipient, (r.store.view recipient).length ≤ kMaxBlobsPerRecipient
  format : ∀ recipient, recipient.length ≠ 32 → owed labels recipient = []

theorem owing_new : Owing [] Relay.new where
  last := by decide
  times := by simp [owed]
  stored := by simp [Relay.new, Impl.view_new]
  agree := by simp [Relay.new, Impl.view_new, owed]
  bounded := by simp [Relay.new, Impl.view_new]
  format := by simp [owed]

/-- A step that leaves the queues and what is owed as they were. -/
theorem Owing.same (owing : Owing labels r) (timely : r.Timely label)
    (clock : r'.lastMs = label.nowMs) (view : r'.store.view = r.store.view)
    (same : ∀ recipient, owed (labels ++ [label]) recipient = owed labels recipient) :
    Owing (labels ++ [label]) r' where
  last := clock ▸ timely.small
  times recipient blob member := by
    rw [clock]
    exact UInt64.le_trans (owing.times recipient blob (same recipient ▸ member)) timely.later
  stored recipient := by rw [view, same]; exact owing.stored recipient
  agree recipient t later := by
    rw [view, same]
    exact owing.agree recipient t (UInt64.le_trans timely.later (clock ▸ later))
  bounded recipient := by rw [view]; exact owing.bounded recipient
  format recipient bad := by rw [same]; exact owing.format recipient bad

/-- A deposit that is taken is stored and owed. -/
theorem Owing.accept (owing : Owing labels r) (timely : r.Timely label)
    (clock : r'.lastMs = label.nowMs) {payload : Bytes}
    (call : label.call = .deposit recipient payload) (result : label.result = .deposited .accepted)
    (sized : recipient.length = 32)
    (room : (r.store.view recipient).length < kMaxBlobsPerRecipient)
    (view : r'.store.view = Function.update r.store.view recipient
      (r.store.view recipient ++ [⟨payload, label.nowMs⟩])) :
    Owing (labels ++ [label]) r' := by
  -- what the recipient gets more, for one recipient as for the others
  let more (other : Bytes) : List Blob := if recipient = other then [⟨payload, label.nowMs⟩] else []
  have stored (other : Bytes) : r'.store.view other = r.store.view other ++ more other := by
    by_cases same : recipient = other
    · subst same
      simp [view, more]
    · simp [view, more, same, Ne.symm same]
  have owes (other : Bytes) : owed (labels ++ [label]) other = owed labels other ++ more other := by
    rw [owed_more, RelayLabel.owe, call, result]
    dsimp only [more]
    split <;> simp
  have timed (other : Bytes) : ∀ blob ∈ more other, blob.depositedAtMs = label.nowMs := by
    intro blob member
    dsimp only [more] at member
    split at member
    · rw [List.mem_singleton.mp member]
    · cases member
  constructor
  · exact clock ▸ timely.small
  · intro other blob member
    rw [owes] at member
    rw [clock]
    rcases List.mem_append.mp member with before | new
    · exact UInt64.le_trans (owing.times other blob before) timely.later
    · rw [timed other blob new]
      exact UInt64.le_refl _
  · intro other
    rw [stored, owes]
    exact (owing.stored other).append (List.Sublist.refl _)
  · intro other t later
    rw [stored, owes, List.filter_append, List.filter_append,
      owing.agree other t (UInt64.le_trans timely.later (clock ▸ later))]
  · intro other
    by_cases same : recipient = other
    · subst same
      rw [view, Function.update_self, List.length_append, List.length_singleton]
      omega
    · rw [view, Function.update_of_ne (Ne.symm same)]
      exact owing.bounded other
  · intro other bad
    have apart : recipient ≠ other := fun same => bad (same ▸ sized)
    rw [owes, owing.format other bad]
    simp [more, apart]

/-- After a fetch nothing is stored and nothing is owed. -/
theorem Owing.fetch (owing : Owing labels r) (timely : r.Timely label)
    (clock : r'.lastMs = label.nowMs) (call : label.call = .fetchAndClear recipient)
    (view : r'.store.view = Function.update r.store.view recipient []) :
    Owing (labels ++ [label]) r' := by
  have gone : owed (labels ++ [label]) recipient = [] := by
    rw [owed_more, RelayLabel.owe, call]
    exact if_pos rfl
  have others (other : Bytes) (apart : other ≠ recipient) :
      owed (labels ++ [label]) other = owed labels other := by
    rw [owed_more, RelayLabel.owe, call]
    exact if_neg (Ne.symm apart)
  constructor
  · exact clock ▸ timely.small
  · intro other blob member
    by_cases same : other = recipient
    · rw [same, gone] at member
      cases member
    · rw [others other same] at member
      exact clock ▸ UInt64.le_trans (owing.times other blob member) timely.later
  · intro other
    by_cases same : other = recipient
    · rw [same, gone, view, Function.update_self]
    · rw [others other same, view, Function.update_of_ne same]
      exact owing.stored other
  · intro other t later
    by_cases same : other = recipient
    · rw [same, gone, view, Function.update_self]
    · rw [others other same, view, Function.update_of_ne same]
      exact owing.agree other t (UInt64.le_trans timely.later (clock ▸ later))
  · intro other
    by_cases same : other = recipient
    · rw [same, view, Function.update_self]
      exact Nat.zero_le _
    · rw [view, Function.update_of_ne same]
      exact owing.bounded other
  · intro other bad
    by_cases same : other = recipient
    · rw [same, gone]
    · rw [others other same]
      exact owing.format other bad

/-- Stored blobs are not from the future. -/
theorem Owing.small (owing : Owing labels r) {blob : Blob}
    (member : blob ∈ owed labels recipient) : blob.depositedAtMs.toNat < 2 ^ 63 := by
  have early := UInt64.le_iff_toNat_le.mp (owing.times recipient blob member)
  have := owing.last
  omega

/-- What a prune drops will never live again. -/
theorem Owing.prune (owing : Owing labels r) (timely : r.Timely label)
    (clock : r'.lastMs = label.nowMs) (call : label.call = .pruneExpired kDefaultBlobTtlMs)
    (view : r'.store.view = fun other =>
      Impl.keep label.nowMs kDefaultBlobTtlMs (r.store.view other)) :
    Owing (labels ++ [label]) r' := by
  have same (other : Bytes) : owed (labels ++ [label]) other = owed labels other := by
    rw [owed_more, RelayLabel.owe, call]
  have fewer (other : Bytes) : (r'.store.view other).Sublist (r.store.view other) := by
    rw [view]
    exact List.filter_sublist
  constructor
  · exact clock ▸ timely.small
  · intro other blob member
    rw [same] at member
    exact clock ▸ UInt64.le_trans (owing.times other blob member) timely.later
  · intro other
    rw [same]
    exact (fewer other).trans (owing.stored other)
  · intro other t later
    have later' : label.nowMs ≤ t := clock ▸ later
    rw [same, ← owing.agree other t (UInt64.le_trans timely.later later'), view]
    dsimp only
    rw [Impl.keep, List.filter_filter]
    refine List.filter_congr fun blob member => ?_
    have small := owing.small ((owing.stored other).subset member)
    by_cases lives : Lives t blob
    · have kept := (lives_iff small label.nowMs).mpr (lives.earlier later')
      simp [lives, kept]
    · simp [lives]
  · intro other
    exact Nat.le_trans (fewer other).length_le (owing.bounded other)
  · intro other bad
    rw [same]
    exact owing.format other bad

theorem Owing.step (owing : Owing labels r) (taken : Guarded Relay.Step Relay.Timely r label r') :
    Owing (labels ++ [label]) r' := by
  obtain ⟨timely, stepped⟩ := taken
  have served := stepped.served timely.given
  have clock := stepped.2
  obtain ⟨call, nowMs, reading, result⟩ := label
  dsimp only at served
  generalize view : r'.store.view = queues at served
  cases served with
  | malformed bad => exact owing.same timely clock view fun other => by rw [owed_more]; rfl
  | full sized content many =>
    exact owing.same timely clock view fun other => by rw [owed_more]; rfl
  | accepted sized room => exact owing.accept timely clock rfl rfl sized room view
  | @ignored recipient bad =>
    refine owing.same timely clock view fun other => ?_
    rw [owed_more]
    simp only [RelayLabel.owe]
    -- nothing was owed to a recipient of that length
    split
    next same => rw [← same, owing.format recipient bad]
    · rfl
  | fetched => exact owing.fetch timely clock rfl view
  | @pruned ttlMs count =>
    obtain rfl := timely.ttl ttlMs rfl
    exact owing.prune timely clock rfl view

/-- What is delivered is what is owed and lives. -/
theorem Owing.delivered (owing : Owing labels r) (timely : r.Timely label) :
    (((r.store.view recipient).filter fun blob =>
      blob.depositedAtMs + kDefaultBlobTtlMs > label.nowMs).map Blob.bytes) =
    ((owed labels recipient).filter (Lives label.nowMs)).map Blob.bytes := by
  rw [← owing.agree recipient label.nowMs timely.later]
  refine congrArg (List.map Blob.bytes) (List.filter_congr fun blob member => ?_)
  have small := owing.small ((owing.stored recipient).subset member)
  exact decide_eq_decide.mpr (lives_iff small label.nowMs)

/-- Every fetch returns what is owed. -/
theorem Owing.fetches (owing : Owing labels r) (timely : r.Timely label) (taken : r.Step label r')
    {blobs : List Bytes} (call : label.call = .fetchAndClear recipient)
    (result : label.result = .fetched blobs) :
    blobs = ((owed labels recipient).filter (Lives label.nowMs)).map Blob.bytes := by
  have served := taken.served timely.given
  rw [call, result] at served
  generalize r'.store.view = queues at served
  cases served with
  | ignored bad => simp [owing.format recipient bad]
  | fetched => exact owing.delivered timely

/-- A deposit of the right format is rejected if and only if the queue is full. -/
theorem Relay.Step.rejected (taken : r.Step label r') (given : label.nowMs ≠ 0) {payload : Bytes}
    (call : label.call = .deposit recipient payload) (sized : recipient.length = 32)
    (content : payload ≠ []) :
    label.result ≠ .deposited .accepted ↔
      kMaxBlobsPerRecipient ≤ (r.store.queue recipient).length := by
  have served := taken.served given
  rw [call] at served
  change _ ↔ kMaxBlobsPerRecipient ≤ (r.store.view recipient).length
  generalize label.result = result at served ⊢
  generalize r'.store.view = queues at served
  cases served with
  | malformed bad => exact absurd ⟨sized, content⟩ bad
  | full _ _ many => simpa using many
  | accepted _ room => simpa using room

end

/-- In every run with sensible times each call keeps the law of the relay, if and only if it is no
deposit into a full queue of which a part has expired. -/
theorem law_iff_not_clogged (labels : List RelayLabel) (r r' : Relay) (label : RelayLabel)
    (run : Run (Guarded Relay.Step Relay.Timely) Relay.new labels r)
    (taken : Guarded Relay.Step Relay.Timely r label r') :
    Law labels r label r' ↔ ¬Clogged r label := by
  have owing : Owing labels r :=
    run.invariant_history Owing (fun _ _ _ _ owing taken => owing.step taken) owing_new
  have after := owing.step taken
  obtain ⟨timely, stepped⟩ := taken
  constructor
  · rintro law ⟨recipient, payload, call, sized, content, many, blob, member, dead⟩
    have rejected := (stepped.rejected timely.given call sized content).mpr many
    have living := law.admitted recipient payload call sized content rejected
    -- all of the queue would have to live
    have every := List.length_filter_eq_length_iff.mp
      (living.trans (Nat.le_antisymm many (owing.bounded recipient)))
    exact dead (by simpa using every blob member)
  · intro clear
    refine ⟨?_, ?_, after.bounded, ?_⟩
    · intro recipient blobs call result
      exact owing.fetches timely stepped call result
    · intro recipient blobs call result bytes member
      rw [owing.fetches timely stepped call result] at member
      obtain ⟨blob, inside, rfl⟩ := List.mem_map.mp member
      obtain ⟨earlier, among, call, result, -⟩ := mem_owed (List.mem_filter.mp inside).1
      exact ⟨earlier, among, call, result⟩
    · intro recipient payload call sized content rejected
      have many := (stepped.rejected timely.given call sized content).mp rejected
      have every : (r.store.queue recipient).filter (Lives label.nowMs) =
          r.store.queue recipient := by
        refine List.filter_eq_self.mpr fun blob member => ?_
        by_contra dead
        exact clear ⟨recipient, payload, call, sized, content, many, blob, member,
          by simpa using dead⟩
      rw [every]
      exact Nat.le_antisymm (owing.bounded recipient) many

/-! ### A queue that nobody fetches -/

private def somebody : Bytes := List.replicate 32 7

private def aBlob : Bytes := [1]

private def depositing (r : Relay) (nowMs : UInt64) : RelayLabel :=
  ⟨.deposit somebody aBlob, nowMs, 0, (r.store.call nowMs 0 (.deposit somebody aBlob)).2⟩

private def deposited (r : Relay) (nowMs : UInt64) : Relay :=
  ⟨(r.store.call nowMs 0 (.deposit somebody aBlob)).1, nowMs⟩

private theorem step_deposited {r : Relay} {nowMs : UInt64} (given : nowMs ≠ 0)
    (later : r.lastMs ≤ nowMs) (small : nowMs.toNat < 2 ^ 63) :
    Guarded Relay.Step Relay.Timely r (depositing r nowMs) (deposited r nowMs) :=
  ⟨⟨given, later, small, by simp [depositing]⟩, rfl, rfl⟩

/-- As many deposits as there is room for. -/
private theorem fill (n : Nat) (room : n ≤ kMaxBlobsPerRecipient) :
    ∃ labels r, Run (Guarded Relay.Step Relay.Timely) Relay.new labels r ∧ r.lastMs ≤ 1 ∧
      r.store.queue somebody = List.replicate n ⟨aBlob, 1⟩ := by
  induction n with
  | zero => exact ⟨[], Relay.new, .nil _, by decide, congrFun Impl.view_new somebody⟩
  | succ n ih =>
    obtain ⟨labels, r, run, early, stored⟩ := ih (by omega)
    have taken := step_deposited (by decide) early (by decide)
    refine ⟨_, deposited r 1, run.append (.cons taken (.nil _)), UInt64.le_refl 1, ?_⟩
    have few : (r.store.view somebody).length < kMaxBlobsPerRecipient := by
      change (r.store.queue somebody).length < _
      rw [stored, List.length_replicate]
      omega
    have view := (Prod.ext_iff.mp (r.store.view_deposit somebody 1 0 aBlob)).1
    simp only [OfflineRelayStore.deposit] at view
    rw [if_neg (by decide), if_neg (by decide), if_neg (by omega)] at view
    change (r.store.deposit somebody aBlob 1 0).1.view somebody = _
    rw [view]
    dsimp only
    rw [Function.update_self, List.replicate_succ']
    exact congrArg (· ++ [⟨aBlob, 1⟩]) stored

/-- The queue is full, all of it has expired, and a deposit is rejected. -/
theorem expired_queue_rejects :
    ∃ labels r label r' payload, Run (Guarded Relay.Step Relay.Timely) Relay.new labels r ∧
      Guarded Relay.Step Relay.Timely r label r' ∧ label.call = .deposit somebody payload ∧
      somebody.length = 32 ∧ payload ≠ [] ∧ label.result = .deposited .rejectedFull ∧
      (r.store.queue somebody).filter (Lives label.nowMs) = [] := by
  obtain ⟨labels, r, run, early, stored⟩ := fill kMaxBlobsPerRecipient (Nat.le_refl _)
  have late : r.lastMs ≤ 1 + kDefaultBlobTtlMs := UInt64.le_trans early (by decide)
  refine ⟨labels, r, _, _, aBlob, run, step_deposited (by decide) late (by decide), rfl, by decide,
    by decide, ?_, ?_⟩
  · have result := (Prod.ext_iff.mp
      (r.store.view_deposit somebody (1 + kDefaultBlobTtlMs) 0 aBlob)).2
    have full : (r.store.view somebody).length ≥ kMaxBlobsPerRecipient := by
      change (r.store.queue somebody).length ≥ _
      rw [stored, List.length_replicate]
    simp only [OfflineRelayStore.deposit] at result
    rw [if_neg (by decide), if_neg (by decide), if_pos full] at result
    exact congrArg RelayResult.deposited result
  · rw [stored]
    refine List.filter_eq_nil_iff.mpr fun blob member => ?_
    rw [List.eq_of_mem_replicate member]
    change ¬decide (Lives (1 + kDefaultBlobTtlMs) ⟨aBlob, 1⟩) = true
    decide

/-- One blob is deposited, and the next call fetches it. -/
theorem law_iff_not_clogged_one :
    ∃ labels r label r', Run (Guarded Relay.Step Relay.Timely) Relay.new labels r ∧
      label.result = .fetched [aBlob] ∧ Law labels r label r' := by
  have taken := step_deposited (r := Relay.new) (by decide : (1 : UInt64) ≠ 0) (by decide)
    (by decide)
  have run : Run _ Relay.new [depositing Relay.new 1] (deposited Relay.new 1) :=
    .cons taken (.nil _)
  have fetched : Guarded Relay.Step Relay.Timely (deposited Relay.new 1)
      ⟨.fetchAndClear somebody, 2, 0, .fetched [aBlob]⟩
      ⟨((deposited Relay.new 1).store.call 2 0 (.fetchAndClear somebody)).1, 2⟩ :=
    ⟨⟨by decide, by decide, by decide, by simp⟩, rfl, rfl⟩
  have clear : ¬Clogged (deposited Relay.new 1)
      ⟨.fetchAndClear somebody, 2, 0, .fetched [aBlob]⟩ := by
    rintro ⟨recipient, payload, call, -⟩
    cases call
  exact ⟨_, _, _, _, run, rfl, (law_iff_not_clogged _ _ _ _ run fetched).mpr clear⟩

end FinBit.P2P.OfflineRelayStore
