import Mathlib.Data.List.DropRight
import FinBit.Server.Relay

/-! # The two offline queues

`enqueue_offline` and `drain_offline` work on a deque in memory, or on the table `srv_offline`
when a store is open. Both are compared with the envelopes that were queued for a user since
it was last drained: the deque has the newest of them, the table those that its columns take.
-/

namespace FinBit.Server

open FinBit.Lib

/-- Calls on the offline queue. The server holds keys and envelopes in vectors. -/
inductive OfflineCall
  | enqueue (userPubkey envelopeBytes : Bytes) (nowMs : UInt64)
  | drain (userPubkey : Bytes)

/-- One call and, of a drain, what it returns. A store that rejects a row throws, and the
Relay stays as it was. -/
def Relay.offlineCall (r : Relay) : OfflineCall → Relay × Option (List Bytes)
  | .enqueue userPubkey envelopeBytes nowMs =>
    match r.enqueueOffline (Span.ofVector userPubkey) envelopeBytes nowMs with
    | .ok r' => (r', none)
    | .error _ => (r, none)
  | .drain userPubkey =>
    let (r', envelopes) := r.drainOffline userPubkey
    (r', some envelopes)

/-- What the drains among the calls return, in order. -/
def Relay.drains (r : Relay) : List OfflineCall → List (List Bytes)
  | [] => []
  | call :: calls => (r.offlineCall call).2.toList ++ (r.offlineCall call).1.drains calls

/-! ### What was queued -/

/-- The envelopes queued for each user since it was last drained, none of them dropped. -/
abbrev Pending := Bytes → List Bytes

namespace Pending

def nothing : Pending := fun _ => []

def after (q : Pending) : OfflineCall → Pending
  | .enqueue userPubkey envelopeBytes _ =>
    Function.update q userPubkey (q userPubkey ++ [envelopeBytes])
  | .drain userPubkey => Function.update q userPubkey []

def afterAll (q : Pending) (calls : List OfflineCall) : Pending := calls.foldl after q

/-- Each drain with what was queued for its user. -/
def drained (q : Pending) : List OfflineCall → List (Bytes × List Bytes)
  | [] => []
  | .enqueue userPubkey envelopeBytes nowMs :: calls =>
    (q.after (.enqueue userPubkey envelopeBytes nowMs)).drained calls
  | .drain userPubkey :: calls =>
    (userPubkey, q userPubkey) :: (q.after (.drain userPubkey)).drained calls

theorem mem_drained_iff (q : Pending) (calls : List OfflineCall) (user : Bytes)
    (queued : List Bytes) :
    (user, queued) ∈ q.drained calls ↔
      ∃ before after, calls = before ++ .drain user :: after ∧ queued = q.afterAll before user := by
  induction calls generalizing q with
  | nil => simp [drained]
  | cons call calls ih =>
    -- the drain stands at the head or among the later calls
    have later (q' : Pending) (next : q' = q.after call) :
        (user, queued) ∈ q'.drained calls ↔ ∃ before after,
          call :: calls = call :: before ++ .drain user :: after ∧
            queued = q.afterAll (call :: before) user := by
      rw [ih, next]
      simp [afterAll]
    cases call with
    | enqueue userPubkey envelopeBytes nowMs =>
      rw [drained, later _ rfl]
      constructor
      · rintro ⟨before, after, split, rest⟩
        exact ⟨_, after, split, rest⟩
      · rintro ⟨before, after, split, rest⟩
        cases before with
        | nil => simp at split
        | cons first before =>
          obtain ⟨rfl, -⟩ := List.cons.inj split
          exact ⟨before, after, split, rest⟩
    | drain userPubkey =>
      rw [drained, List.mem_cons, later _ rfl]
      constructor
      · rintro (head | ⟨before, after, split, rest⟩)
        · obtain ⟨rfl, rfl⟩ := Prod.mk.inj head
          exact ⟨[], calls, rfl, rfl⟩
        · exact ⟨_, after, split, rest⟩
      · rintro ⟨before, after, split, rest⟩
        cases before with
        | nil =>
          obtain ⟨head, -⟩ := List.cons.inj split
          obtain rfl := OfflineCall.drain.inj head
          exact .inl (by rw [rest]; rfl)
        | cons first before =>
          obtain ⟨rfl, -⟩ := List.cons.inj split
          exact .inr ⟨before, after, split, rest⟩

end Pending

/-! ### Both queues -/

/-- A backend keeps of what is pending for a user what `view` says. -/
structure Refines (holds : Relay → Pending → Prop) (view : Bytes → List Bytes → List Bytes) :
    Prop where
  step : ∀ {r q} call, holds r q → holds (r.offlineCall call).1 (q.after call)
  enqueued : ∀ {r q} userPubkey envelopeBytes nowMs, holds r q →
    (r.offlineCall (.enqueue userPubkey envelopeBytes nowMs)).2 = none
  drained : ∀ {r q} user, holds r q → (r.offlineCall (.drain user)).2 = some (view user (q user))

theorem Refines.drains {holds : Relay → Pending → Prop} {view : Bytes → List Bytes → List Bytes}
    (refines : Refines holds view) {r : Relay} {q : Pending} (start : holds r q)
    (calls : List OfflineCall) :
    r.drains calls = (q.drained calls).map fun d => view d.1 d.2 := by
  induction calls generalizing r q with
  | nil => rfl
  | cons call calls ih =>
    have rest := ih (refines.step call start)
    cases call with
    | enqueue userPubkey envelopeBytes nowMs =>
      rw [Relay.drains, refines.enqueued _ _ _ start, rest, Pending.drained]
      rfl
    | drain user =>
      rw [Relay.drains, refines.drained user start, rest, Pending.drained]
      rfl

theorem offlineCall_enqueue_snd (r : Relay) (userPubkey envelopeBytes : Bytes) (nowMs : UInt64) :
    (r.offlineCall (.enqueue userPubkey envelopeBytes nowMs)).2 = none := by
  simp only [Relay.offlineCall]
  split <;> rfl

/-! ### In memory -/

/-- The deque of each user ends at the newest envelope. -/
def InMemory (r : Relay) (q : Pending) : Prop :=
  r.persistent = none ∧
    ∀ user, (r.offline.lookup user).getD [] = (q user).rtake Relay.kMaxQueued

/-- Dropping the oldest entry of a full deque keeps it at the newest. -/
theorem rtake_append_singleton {α : Type} (xs : List α) (x : α) (n : Nat) :
    (xs ++ [x]).rtake (n + 1) =
      (if (xs.rtake (n + 1)).length ≥ n + 1 then (xs.rtake (n + 1)).drop 1
        else xs.rtake (n + 1)) ++ [x] := by
  rw [List.rtake_concat_succ]
  congr 1
  simp only [List.rtake, List.length_drop, List.drop_drop]
  split
  · congr 1
    omega
  · rw [show xs.length - n = 0 by omega, show xs.length - (n + 1) = 0 by omega]

theorem lookup_drain {r : Relay} (volatile : r.persistent = none) (userPubkey : Bytes) :
    (r.offlineCall (.drain userPubkey)).1.persistent = none ∧
      ∀ user, (r.offlineCall (.drain userPubkey)).1.offline.lookup user =
        if user = userPubkey then none else r.offline.lookup user := by
  cases found : r.offline.lookup userPubkey with
  | none =>
    simp only [Relay.offlineCall, Relay.drainOffline, volatile, found, true_and]
    intro user
    split
    next same => rw [same, found]
    · rfl
  | some queued =>
    simp only [Relay.offlineCall, Relay.drainOffline, volatile, found, true_and]
    intro user
    split
    next same =>
      rw [same]
      exact AList.lookup_erase _ _
    next other => exact AList.lookup_erase_ne other

theorem inMemory_refines : Refines InMemory fun _ queued => queued.rtake Relay.kMaxQueued where
  step {r q} call := by
    rintro ⟨volatile, queue⟩
    cases call with
    | enqueue userPubkey envelopeBytes nowMs =>
      simp only [Relay.offlineCall, Relay.enqueueOffline, volatile, Pending.after, InMemory,
        true_and]
      intro user
      by_cases same : user = userPubkey
      · subst same
        rw [Function.update_self]
        refine Eq.trans ?_ (rtake_append_singleton (q user) envelopeBytes 1023).symm
        rw [← show _ = (q user).rtake (1023 + 1) from queue user]
        change (AList.lookup user (AList.insert user _ r.offline)).getD [] = _
        rw [AList.lookup_insert]
        rfl
      · rw [Function.update_of_ne same, ← queue user]
        change (AList.lookup user (AList.insert userPubkey _ r.offline)).getD [] = _
        rw [AList.lookup_insert_ne same]
    | drain userPubkey =>
      have kept := lookup_drain volatile userPubkey
      refine ⟨kept.1, fun user => ?_⟩
      rw [kept.2, Pending.after]
      by_cases same : user = userPubkey
      · subst same
        rw [Function.update_self, if_pos rfl]
        rfl
      · rw [Function.update_of_ne same, if_neg same, queue user]
  enqueued _ _ _ _ := offlineCall_enqueue_snd ..
  drained {r q} user := by
    rintro ⟨volatile, queue⟩
    rw [← queue user]
    simp only [Relay.offlineCall, Relay.drainOffline, volatile]
    cases r.offline.lookup user <;> rfl

/-! ### In the store -/

/-- An empty vector binds `NULL`, which both columns reject. -/
def stored (user : Bytes) (queued : List Bytes) : List Bytes :=
  if user = [] then [] else queued.filter (· ≠ [])

def InStore (r : Relay) (q : Pending) : Prop :=
  ∃ db, r.persistent = some db ∧
    ∀ user, (db.rows.filter (·.recipientPub = user)).map (·.envelope) = stored user (q user)

theorem srvOfflineDrain_ofVector (db : SrvOffline) (user : Bytes) :
    srvOfflineDrain db (Span.ofVector user) =
      if user = [] then (db, [])
      else ({ db with rows := db.rows.filter (·.recipientPub ≠ user) },
        (db.rows.filter (·.recipientPub = user)).map (·.envelope)) := by
  cases user with
  | nil => simp [srvOfflineDrain, Span.ofVector]
  | cons first rest =>
    simp only [srvOfflineDrain, Span.ofVector, List.isEmpty_cons, Bool.not_false, Bool.true_and,
      reduceCtorEq, if_false, ne_eq, decide_not]
    rfl

theorem inStore_refines : Refines InStore stored where
  step {r q} call := by
    rintro ⟨db, open_, rows⟩
    cases call with
    | enqueue userPubkey envelopeBytes nowMs =>
      by_cases rejected : userPubkey = [] ∨ envelopeBytes = []
      · -- the call throws, and the envelope would not be among those stored
        have unchanged : (r.offlineCall (.enqueue userPubkey envelopeBytes nowMs)).1 = r := by
          rcases rejected with rfl | rfl
          · simp [Relay.offlineCall, Relay.enqueueOffline, open_, srvOfflineEnqueue, Span.ofVector]
          · cases userPubkey <;>
              simp [Relay.offlineCall, Relay.enqueueOffline, open_, srvOfflineEnqueue,
                Span.ofVector]
        refine ⟨db, by rw [unchanged, open_], fun user => ?_⟩
        rw [rows user, Pending.after]
        by_cases same : user = userPubkey
        · subst same
          rw [Function.update_self]
          rcases rejected with rfl | rfl <;> simp [stored]
        · rw [Function.update_of_ne same]
      · obtain ⟨named, present⟩ := not_or.mp rejected
        simp only [Relay.offlineCall, Relay.enqueueOffline, open_, srvOfflineEnqueue, Span.ofVector,
          List.isEmpty_iff, named, present, if_false, InStore, Option.some.injEq, exists_eq_left']
        intro user
        rw [List.filter_append, List.map_append, rows user, Pending.after]
        by_cases same : user = userPubkey
        · subst same
          simp [stored, named, present]
        · simp [Function.update_of_ne same, Ne.symm same]
    | drain userPubkey =>
      simp only [Relay.offlineCall, Relay.drainOffline, open_, srvOfflineDrain_ofVector, InStore,
        Option.some.injEq, exists_eq_left', Pending.after]
      intro user
      by_cases same : user = userPubkey
      · subst same
        rw [Function.update_self]
        split
        next unnamed => rw [rows user, stored, stored, if_pos unnamed, if_pos unnamed]
        · simp [List.filter_filter, stored]
      · rw [Function.update_of_ne same, ← rows user]
        split
        · rfl
        · -- the deleted rows are those of another user
          rw [List.filter_filter]
          congr 1
          refine List.filter_congr fun row _ => ?_
          by_cases his : row.recipientPub = user <;> simp [his, same]
  enqueued _ _ _ _ := offlineCall_enqueue_snd ..
  drained {r q} user := by
    rintro ⟨db, open_, rows⟩
    simp only [Relay.offlineCall, Relay.drainOffline, open_, srvOfflineDrain_ofVector]
    split
    next unnamed => simp [stored, unnamed]
    · rw [rows user]

/-! ### Where they agree -/

/-- Whatever the deque has dropped was refused by the store, and nothing else was. -/
def KeptAlike (user : Bytes) (queued : List Bytes) : Prop :=
  if user = [] then queued = []
  else (∀ e ∈ queued.rdrop Relay.kMaxQueued, e = []) ∧
    ∀ e ∈ queued.rtake Relay.kMaxQueued, e ≠ []

theorem rtake_eq_stored_iff (user : Bytes) (queued : List Bytes) :
    queued.rtake Relay.kMaxQueued = stored user queued ↔ KeptAlike user queued := by
  by_cases unnamed : user = []
  · rw [stored, KeptAlike, if_pos unnamed, if_pos unnamed, List.rtake, List.drop_eq_nil_iff,
      ← List.length_eq_zero_iff]
    have : Relay.kMaxQueued = 1024 := rfl
    omega
  rw [stored, KeptAlike, if_neg unnamed, if_neg unnamed]
  have parts : queued.rdrop Relay.kMaxQueued ++ queued.rtake Relay.kMaxQueued = queued :=
    List.take_append_drop _ _
  generalize queued.rdrop Relay.kMaxQueued = dropped at parts ⊢
  generalize queued.rtake Relay.kMaxQueued = kept at parts ⊢
  rw [← parts, List.filter_append]
  constructor
  · intro same
    have present : ∀ e ∈ kept, e ≠ [] := by
      intro e member
      rw [same, ← List.filter_append] at member
      simpa using (List.mem_filter.mp member).2
    have whole : kept.filter (· ≠ []) = kept := by simpa using present
    rw [whole, List.self_eq_append_left, List.filter_eq_nil_iff] at same
    exact ⟨by simpa using same, present⟩
  · rintro ⟨refused, present⟩
    have none_ : dropped.filter (· ≠ []) = [] := by simpa using refused
    have whole : kept.filter (· ≠ []) = kept := by simpa using present
    rw [none_, whole, List.nil_append]

theorem inMemory_fresh : InMemory (Relay.fresh none) .nothing :=
  ⟨rfl, fun _ => (List.rtake_nil _).symm⟩

theorem inStore_fresh (lastId : Nat) : InStore (Relay.fresh (some ⟨[], lastId⟩)) .nothing := by
  refine ⟨_, rfl, fun user => ?_⟩
  simp [Pending.nothing, stored]

/-- The drains of a sequence of calls return the same from memory and from an empty store,
exactly if at each of them the deque has dropped what the store had refused. -/
theorem offline_backends_agree_iff (calls : List OfflineCall) (lastId : Nat) :
    (Relay.fresh none).drains calls = (Relay.fresh (some ⟨[], lastId⟩)).drains calls ↔
      ∀ before user after, calls = before ++ .drain user :: after →
        KeptAlike user (Pending.nothing.afterAll before user) := by
  rw [inMemory_refines.drains inMemory_fresh, inStore_refines.drains (inStore_fresh lastId),
    List.map_inj_left]
  constructor
  · intro same before user after split
    have member := (Pending.mem_drained_iff .nothing calls user _).mpr ⟨before, after, split, rfl⟩
    have equal := same _ member
    dsimp only at equal
    exact (rtake_eq_stored_iff user _).mp equal
  · rintro alike ⟨user, queued⟩ member
    obtain ⟨before, after, split, rfl⟩ := (Pending.mem_drained_iff .nothing calls user _).mp member
    exact (rtake_eq_stored_iff user _).mpr (alike before user after split)

theorem drained_replicate (q : Pending) (n : Nat) (user envelope : Bytes) (nowMs : UInt64) :
    q.drained (List.replicate n (.enqueue user envelope nowMs) ++ [.drain user]) =
      [(user, q user ++ List.replicate n envelope)] := by
  induction n generalizing q with
  | zero => simp [Pending.drained]
  | succ n ih =>
    rw [List.replicate_succ, List.cons_append, Pending.drained, ih]
    simp [Pending.after, List.replicate_succ]

/-- One envelope more than the deque takes. -/
theorem offline_backends_differ :
    ∃ calls : List OfflineCall,
      (Relay.fresh none).drains calls = [List.replicate 1024 [7]] ∧
      (Relay.fresh (some ⟨[], 0⟩)).drains calls = [List.replicate 1025 [7]] := by
  have newest (n m : Nat) : (List.replicate n ([7] : Bytes)).rtake m =
      List.replicate (n - (n - m)) [7] := by
    rw [List.rtake, List.length_replicate, List.drop_replicate]
  have accepted (n : Nat) : stored [1] (List.replicate n [7]) = List.replicate n [7] := by
    simp [stored]
  refine ⟨List.replicate 1025 (.enqueue [1] [7] 0) ++ [.drain [1]], ?_, ?_⟩
  · rw [inMemory_refines.drains inMemory_fresh, drained_replicate]
    exact congrArg (fun envelopes => [envelopes]) (newest 1025 Relay.kMaxQueued)
  · rw [inStore_refines.drains (inStore_fresh 0), drained_replicate]
    exact congrArg (fun envelopes => [envelopes]) (accepted 1025)

end FinBit.Server
