import FinBit.Lib.Interleaving
import FinBit.Web.AutoStores

/-! # Draining the outbox

Calls of `enqueue` and `drain` go on side by side. A call of `enqueue` has its time before its
transaction is run; a drain works on the records that it has read at its start, and each of its sends
and each of its transactions is awaited, so that any other call may go on in between.
-/

namespace FinBit.Web

open FinBit.Lib

/-- Where a call is. A drain counts what it has sent. -/
inductive OutboxTask where
  /-- The transaction of `enqueue` has not been run. -/
  | enqueuing (entry : OutboxEntry)
  | enqueued (id : Nat)
  /-- `pending` has not been run. -/
  | starting
  /-- `sendFn` has been called for an entry. -/
  | sending (entry : Nat × OutboxEntry) (rest : List (Nat × OutboxEntry)) (sent : Nat)
  /-- It has succeeded, and the entry has not been removed. -/
  | removing (entry : Nat × OutboxEntry) (rest : List (Nat × OutboxEntry)) (sent : Nat)
  /-- It has failed, and the attempt has not been counted. -/
  | bumping (entry : Nat × OutboxEntry) (sent : Nat)
  | drained (sent failed : Nat)

/-- A call, or the next thing that happens to the call at a position. -/
inductive OutboxEvent where
  | enqueue (recipient plaintext : String) (now : Nat)
  | drain
  | stored (i : Nat)
  | snapshot (i : Nat)
  | resolved (i : Nat)
  | rejected (i : Nat)
  | removed (i : Nat)
  | bumped (i : Nat)

structure OutboxPage where
  store : AutoStore OutboxEntry
  tasks : List OutboxTask
  /-- The calls of `sendFn` that have succeeded, in order. -/
  sent : List (Nat × OutboxEntry)

namespace OutboxPage

def initial : OutboxPage := ⟨.new, [], []⟩

/-- The loop of `drain` at its head. -/
def next (items : List (Nat × OutboxEntry)) (sent : Nat) : OutboxTask :=
  match items with
  | [] => .drained sent 0
  | entry :: rest => .sending entry rest sent

/-- The transaction of `bumpAttempts`. -/
def bump (id : Nat) (s : AutoStore OutboxEntry) : AutoStore OutboxEntry :=
  match s.get id with
  | none => s
  | some entry => s.put (id, { entry with attempts := entry.attempts + 1 })

/-- `items.sort` of what has been read; the sort is stable. -/
def snapshotOf (s : AutoStore OutboxEntry) : List (Nat × OutboxEntry) :=
  s.rows.mergeSort fun a b => a.2.queuedAt ≤ b.2.queuedAt

inductive Step : OutboxPage → OutboxEvent → OutboxPage → Prop
  | enqueue (s : OutboxPage) (recipient plaintext : String) (now : Nat) :
      Step s (.enqueue recipient plaintext now)
        { s with tasks := s.tasks ++ [.enqueuing ⟨recipient, plaintext, now, 0⟩] }
  | drain (s : OutboxPage) : Step s .drain { s with tasks := s.tasks ++ [.starting] }
  | stored {s : OutboxPage} {i : Nat} {entry : OutboxEntry}
      (here : s.tasks[i]? = some (.enqueuing entry)) :
      Step s (.stored i)
        { s with
          store := (s.store.add entry).2
          tasks := s.tasks.set i (.enqueued (s.store.add entry).1) }
  | snapshot {s : OutboxPage} {i : Nat} (here : s.tasks[i]? = some .starting) :
      Step s (.snapshot i) { s with tasks := s.tasks.set i (next (snapshotOf s.store) 0) }
  | resolved {s : OutboxPage} {i : Nat} {entry : Nat × OutboxEntry}
      {rest : List (Nat × OutboxEntry)} {sent : Nat}
      (here : s.tasks[i]? = some (.sending entry rest sent)) :
      Step s (.resolved i)
        { s with tasks := s.tasks.set i (.removing entry rest sent), sent := s.sent ++ [entry] }
  | rejected {s : OutboxPage} {i : Nat} {entry : Nat × OutboxEntry}
      {rest : List (Nat × OutboxEntry)} {sent : Nat}
      (here : s.tasks[i]? = some (.sending entry rest sent)) :
      Step s (.rejected i) { s with tasks := s.tasks.set i (.bumping entry sent) }
  | removed {s : OutboxPage} {i : Nat} {entry : Nat × OutboxEntry}
      {rest : List (Nat × OutboxEntry)} {sent : Nat}
      (here : s.tasks[i]? = some (.removing entry rest sent)) :
      Step s (.removed i)
        { s with
          store := (s.store.delete entry.1).2
          tasks := s.tasks.set i (next rest (sent + 1)) }
  | bumped {s : OutboxPage} {i : Nat} {entry : Nat × OutboxEntry} {sent : Nat}
      (here : s.tasks[i]? = some (.bumping entry sent)) :
      Step s (.bumped i)
        { s with store := bump entry.1 s.store, tasks := s.tasks.set i (.drained sent 1) }

theorem run_bumpAttempts (id : Nat) (s : AutoStore OutboxEntry) :
    (Outbox.bumpAttempts id).run s = (.ok (), bump id s) := by
  unfold bump
  cases found : s.get id <;> simp [Outbox.bumpAttempts, Prog.transact, Prog.run, found]

theorem run_drainFrom (sends : Nat × OutboxEntry → Bool) (items : List (Nat × OutboxEntry)) :
    ∀ (n : Nat) (s : OutboxPage) (i : Nat), s.tasks[i]? = some (next items n) →
      ∃ events t sent failed, Run Step s events t ∧ t.tasks[i]? = some (.drained sent failed) ∧
        (Outbox.drainFrom sends items n).run s.store = (.ok (.counts sent failed), t.store) := by
  induction items with
  | nil => exact fun n s i here => ⟨[], s, n, 0, .nil s, here, rfl⟩
  | cons entry rest ih =>
    intro n s i here
    have below := (List.getElem?_eq_some_iff.mp here).1
    have placed : ∀ task, (s.tasks.set i task)[i]? = some task :=
      fun task => List.getElem?_set_self below
    have replaced : ∀ task task', ((s.tasks.set i task).set i task')[i]? = some task' :=
      fun task task' => List.getElem?_set_self (by rw [List.length_set]; exact below)
    cases success : sends entry with
    | true =>
      obtain ⟨u, step, there, store⟩ : ∃ u, Run Step s [.resolved i, .removed i] u ∧
          u.tasks[i]? = some (next rest (n + 1)) ∧ u.store = (s.store.delete entry.1).2 :=
        ⟨_, .cons (@Step.resolved s i entry rest n here)
          (.cons (@Step.removed _ i entry rest n (placed _)) (.nil _)), replaced _ _, rfl⟩
      obtain ⟨events, t, sent, failed, run, last, same⟩ := ih (n + 1) u i there
      refine ⟨_, t, sent, failed, step.append run, last, ?_⟩
      rw [Outbox.drainFrom, success, ← same, store]
      rfl
    | false =>
      refine ⟨_, _, n, 1, .cons (@Step.rejected s i entry rest n here)
        (.cons (@Step.bumped _ i entry n (placed _)) (.nil _)), replaced _ _, ?_⟩
      calc (Outbox.drainFrom sends (entry :: rest) n).run s.store
          = ((Outbox.bumpAttempts entry.1 >>= fun _ =>
              pure (.counts n 1) : Outbox.OutboxProg Result)).run s.store := by
            rw [Outbox.drainFrom, success]
            rfl
        _ = (.ok (.counts n 1), ((Outbox.bumpAttempts entry.1).run s.store).2) := rfl
        _ = (.ok (.counts n 1), bump entry.1 s.store) := by rw [run_bumpAttempts]

/-- A drain that nothing interrupts does what its program does. -/
theorem run_drain (sends : Nat × OutboxEntry → Bool) {s : OutboxPage} {i : Nat}
    (here : s.tasks[i]? = some .starting) :
    ∃ events t sent failed, Run Step s events t ∧ t.tasks[i]? = some (.drained sent failed) ∧
      (Outbox.drain sends).run s.store = (.ok (.counts sent failed), t.store) := by
  have below := (List.getElem?_eq_some_iff.mp here).1
  obtain ⟨events, t, sent, failed, run, there, same⟩ := run_drainFrom sends (snapshotOf s.store) 0
    { s with tasks := s.tasks.set i (next (snapshotOf s.store) 0) } i
    (List.getElem?_set_self below)
  exact ⟨_, t, sent, failed, .cons (.snapshot here) run, there, same⟩

/-- Whatever has been stored and is there no longer has been sent, nothing has been sent twice, and
what has been sent to one recipient has been sent in the order of its times. -/
structure OnceInOrder (s : OutboxPage) : Prop where
  kept : ∀ id, 0 < id → id < s.store.nextId →
    id ∈ s.store.rows.map Prod.fst ∨ id ∈ s.sent.map Prod.fst
  once : (s.sent.map Prod.fst).Nodup
  ordered : s.sent.Pairwise fun a b =>
    a.2.recipient = b.2.recipient → a.2.queuedAt ≤ b.2.queuedAt

/-- The entries that a drain has not let go of: one that is being sent or has to be removed, and those
that it has yet to send. -/
def held : OutboxTask → List (Nat × OutboxEntry)
  | .sending entry rest _ => entry :: rest
  | .removing entry rest _ => entry :: rest
  | _ => []

/-- No drain reads the records while another holds some, and an entry is stored before nobody of the
same recipient who has been sent or is held with a later time. -/
def Allowed (s : OutboxPage) : OutboxEvent → Prop
  | .snapshot _ => ∀ task ∈ s.tasks, held task = []
  | .stored i => ∀ entry, s.tasks[i]? = some (.enqueuing entry) →
      ∀ e, e ∈ s.sent ∨ (∃ task ∈ s.tasks, e ∈ held task) →
        e.2.recipient = entry.recipient → e.2.queuedAt ≤ entry.queuedAt
  | _ => True

/-! ### What a drain may rely on -/

/-- A record is that of an entry; only the count of attempts may have changed. -/
def SameEntry (a b : Nat × OutboxEntry) : Prop :=
  a.1 = b.1 ∧ a.2.recipient = b.2.recipient ∧ a.2.queuedAt = b.2.queuedAt

/-- Entries that can still be sent: they are stored and in order, none has been sent, and no other
entry for one of their recipients has to go before. -/
structure Ready (store : AutoStore OutboxEntry) (sent items : List (Nat × OutboxEntry)) : Prop where
  sorted : items.Pairwise fun a b => a.2.queuedAt ≤ b.2.queuedAt
  distinct : (items.map Prod.fst).Nodup
  stored : ∀ x ∈ items, ∃ row ∈ store.rows, SameEntry x row
  unsent : ∀ x ∈ items, x.1 ∉ sent.map Prod.fst
  behind : ∀ row ∈ store.rows, row.1 ∉ sent.map Prod.fst → row.1 ∉ items.map Prod.fst →
    ∀ x ∈ items, x.2.recipient = row.2.recipient → x.2.queuedAt ≤ row.2.queuedAt

def Holds (store : AutoStore OutboxEntry) (sent : List (Nat × OutboxEntry)) : OutboxTask → Prop
  | .sending entry rest _ => Ready store sent (entry :: rest)
  | .removing entry rest _ => Ready store sent rest ∧ entry.1 ∈ sent.map Prod.fst
  | _ => True

/-- One task at most holds entries. -/
def Alone (tasks : List OutboxTask) : Prop :=
  ∃ i : Nat, ∀ (j : Nat) (task : OutboxTask), tasks[j]? = some task → held task ≠ [] → j = i

/-- One drain at most holds entries, what has been sent is stored only until that drain removes it,
and what has not been sent does not have to go before what has. -/
structure Tidy (s : OutboxPage) : Prop where
  ids : s.store.Ordered
  alone : Alone s.tasks
  holds : ∀ task ∈ s.tasks, Holds s.store s.sent task
  unremoved : ∀ row ∈ s.store.rows, row.1 ∈ s.sent.map Prod.fst →
    ∃ entry rest n, .removing entry rest n ∈ s.tasks ∧ entry.1 = row.1
  later : ∀ row ∈ s.store.rows, row.1 ∉ s.sent.map Prod.fst →
    ∀ e ∈ s.sent, e.2.recipient = row.2.recipient → e.2.queuedAt ≤ row.2.queuedAt
  generated : ∀ id ∈ s.sent.map Prod.fst, id < s.store.nextId
  once : OnceInOrder s

theorem SameEntry.refl (a : Nat × OutboxEntry) : SameEntry a a := ⟨rfl, rfl, rfl⟩

theorem SameEntry.trans {a b c : Nat × OutboxEntry} (ab : SameEntry a b) (bc : SameEntry b c) :
    SameEntry a c :=
  ⟨ab.1.trans bc.1, ab.2.1.trans bc.2.1, ab.2.2.trans bc.2.2⟩

section

variable {store : AutoStore OutboxEntry} {row : Nat × OutboxEntry}

/-- Counting an attempt keeps every record. -/
theorem sameEntry_of_mem (id : Nat) (stored : row ∈ store.rows) (ordered : store.Ordered) :
    ∃ row' ∈ (bump id store).rows, SameEntry row row' := by
  unfold bump
  cases found : store.get id with
  | none => exact ⟨row, stored, .refl row⟩
  | some entry =>
    by_cases same : row.1 = id
    · -- The record is the one that is put back.
      obtain rfl := ordered.eq_of_id stored (AutoStore.mem_of_get found) same
      exact ⟨_, AutoStore.mem_put.mpr (.inl rfl), rfl, rfl, rfl⟩
    · exact ⟨row, AutoStore.mem_put.mpr (.inr ⟨stored, same⟩), .refl row⟩

theorem sameEntry_of_mem_bump {id : Nat} (stored : row ∈ (bump id store).rows) :
    ∃ row' ∈ store.rows, SameEntry row row' := by
  unfold bump at stored
  cases found : store.get id with
  | none =>
    rw [found] at stored
    exact ⟨row, stored, .refl row⟩
  | some entry =>
    rw [found] at stored
    obtain rfl | ⟨earlier, -⟩ := AutoStore.mem_put.mp stored
    · exact ⟨(id, entry), AutoStore.mem_of_get found, rfl, rfl, rfl⟩
    · exact ⟨row, earlier, .refl row⟩

theorem nextId_bump (id : Nat) : (bump id store).nextId = store.nextId := by
  unfold bump
  cases store.get id <;> rfl

theorem ordered_bump (ordered : store.Ordered) (id : Nat) : (bump id store).Ordered := by
  unfold bump
  cases found : store.get id with
  | none => exact ordered
  | some entry => exact ordered.put (ordered.below (id, entry) (AutoStore.mem_of_get found))

end

namespace Ready

variable {store : AutoStore OutboxEntry} {entry : Nat × OutboxEntry}
  {sent items rest : List (Nat × OutboxEntry)}

/-- Dropping what is sent first leaves the others ready. -/
theorem sentFirst (ready : Ready store sent (entry :: rest)) :
    Ready store (sent ++ [entry]) rest := by
  obtain ⟨first, sorted⟩ := List.pairwise_cons.mp ready.sorted
  obtain ⟨apart, distinct⟩ := List.nodup_cons.mp ready.distinct
  have listed : ∀ x ∈ rest, x ∈ entry :: rest := fun x => List.mem_cons_of_mem entry
  refine ⟨sorted, distinct, fun x member => ready.stored x (listed x member), ?_, ?_⟩
  · intro x member sent
    rw [List.map_append] at sent
    obtain earlier | last := List.mem_append.mp sent
    · exact ready.unsent x (listed x member) earlier
    · exact apart (List.mem_singleton.mp last ▸ List.mem_map_of_mem member)
  · intro row stored unsent outside x member same
    rw [List.map_append] at unsent
    obtain ⟨before, other⟩ := not_or.mp (List.mem_append.not.mp unsent)
    refine ready.behind row stored before ?_ x (listed x member) same
    exact List.not_mem_cons_of_ne_of_not_mem (fun same => other (List.mem_singleton.mpr same)) outside

/-- Nothing that has not been sent has to go before what is sent first. -/
theorem first_le (ready : Ready store sent (entry :: rest)) (ordered : store.Ordered)
    {row : Nat × OutboxEntry} (stored : row ∈ store.rows) (unsent : row.1 ∉ sent.map Prod.fst)
    (same : entry.2.recipient = row.2.recipient) : entry.2.queuedAt ≤ row.2.queuedAt := by
  by_cases inside : row.1 ∈ (entry :: rest).map Prod.fst
  · obtain ⟨x, member, id⟩ := List.mem_map.mp inside
    obtain ⟨row', stored', match_⟩ := ready.stored x member
    obtain rfl := ordered.eq_of_id stored stored' (id.symm.trans match_.1)
    rw [← match_.2.2]
    obtain rfl | later := List.mem_cons.mp member
    · exact Nat.le_refl _
    · exact (List.pairwise_cons.mp ready.sorted).1 x later
  · exact ready.behind row stored unsent inside entry List.mem_cons_self same

/-- A new record that nobody held has to go before. -/
theorem add (ready : Ready store sent items) {new : OutboxEntry}
    (after : ∀ x ∈ items, x.2.recipient = new.recipient → x.2.queuedAt ≤ new.queuedAt) :
    Ready (store.add new).2 sent items where
  sorted := ready.sorted
  distinct := ready.distinct
  stored x member := by
    obtain ⟨row, stored, same⟩ := ready.stored x member
    exact ⟨row, AutoStore.mem_add.mpr (.inl stored), same⟩
  unsent := ready.unsent
  behind row stored unsent outside := by
    obtain earlier | rfl := AutoStore.mem_add.mp stored
    · exact ready.behind row earlier unsent outside
    · exact after

/-- Removing what has been sent. -/
theorem delete (ready : Ready store sent items) {id : Nat} (done : id ∈ sent.map Prod.fst) :
    Ready (store.delete id).2 sent items where
  sorted := ready.sorted
  distinct := ready.distinct
  stored x member := by
    obtain ⟨row, stored, same⟩ := ready.stored x member
    refine ⟨row, AutoStore.mem_delete.mpr ⟨stored, ?_⟩, same⟩
    rintro rfl
    exact ready.unsent x member (same.1 ▸ done)
  unsent := ready.unsent
  behind row stored unsent outside :=
    ready.behind row (AutoStore.mem_delete.mp stored).1 unsent outside

/-- Counting an attempt does not change what is ready. -/
theorem bump (ready : Ready store sent items) (ordered : store.Ordered) (id : Nat) :
    Ready (bump id store) sent items where
  sorted := ready.sorted
  distinct := ready.distinct
  stored x member := by
    obtain ⟨row, stored, same⟩ := ready.stored x member
    obtain ⟨row', stored', same'⟩ := sameEntry_of_mem id stored ordered
    exact ⟨row', stored', same.trans same'⟩
  unsent := ready.unsent
  behind row stored unsent outside x member same := by
    obtain ⟨row', stored', id', recipient, queuedAt⟩ := sameEntry_of_mem_bump stored
    rw [id'] at unsent outside
    rw [queuedAt]
    exact ready.behind row' stored' unsent outside x member (same.trans recipient)

/-- A reading of the records is ready if none of them has been sent. -/
theorem snapshot (ordered : store.Ordered)
    (unsent : ∀ row ∈ store.rows, row.1 ∉ sent.map Prod.fst) :
    Ready store sent (snapshotOf store) := by
  have same : (snapshotOf store).Perm store.rows := List.mergeSort_perm _ _
  refine ⟨?_, (same.map Prod.fst).nodup_iff.mpr ordered.nodup, ?_, ?_, ?_⟩
  · refine (List.pairwise_mergeSort (fun a b c ab bc => ?_) (fun a b => ?_) _).imp
      (fun le => of_decide_eq_true le)
    · exact decide_eq_true (Nat.le_trans (of_decide_eq_true ab) (of_decide_eq_true bc))
    · simpa using Nat.le_total a.2.queuedAt b.2.queuedAt
  · exact fun x member => ⟨x, same.mem_iff.mp member, .refl x⟩
  · exact fun x member => unsent x (same.mem_iff.mp member)
  · intro row stored _ outside
    exact absurd (List.mem_map_of_mem (same.mem_iff.mpr stored)) outside

end Ready

/-! ### Replacing a task -/

section

variable {tasks : List OutboxTask} {i : Nat} {task task' other : OutboxTask}

theorem Alone.idle (alone : Alone tasks) (found : tasks[i]? = some task) (busy : held task ≠ [])
    {j : Nat} (apart : j ≠ i) (there : tasks[j]? = some other) : held other = [] := by
  obtain ⟨k, one⟩ := alone
  refine Decidable.not_not.mp fun busy' => apart ?_
  rw [one j other there busy', one i task found busy]

theorem Alone.eq (alone : Alone tasks) (found : tasks[i]? = some task) (busy : held task ≠ [])
    (member : other ∈ tasks) (busy' : held other ≠ []) : other = task := by
  obtain ⟨k, one⟩ := alone
  obtain ⟨j, there⟩ := List.mem_iff_getElem?.mp member
  have place := (one j other there busy').trans (one i task found busy).symm
  exact Option.some.inj ((place ▸ there).symm.trans found)

theorem Alone.set (alone : Alone tasks) (found : tasks[i]? = some task)
    (more : held task' ≠ [] → held task ≠ []) : Alone (tasks.set i task') := by
  obtain ⟨k, one⟩ := alone
  refine ⟨k, fun j u there busy => ?_⟩
  rw [List.getElem?_set] at there
  split at there
  next same =>
    split at there
    · cases there
      exact same ▸ one i task found (more busy)
    · cases there
  next apart => exact one j u there busy

theorem Alone.append (alone : Alone tasks) (idle : held task' = []) : Alone (tasks ++ [task']) := by
  obtain ⟨k, one⟩ := alone
  refine ⟨k, fun j u there busy => ?_⟩
  rw [List.getElem?_append] at there
  split at there
  · exact one j u there busy
  · have last := List.mem_singleton.mp (List.mem_of_getElem? there)
    exact absurd (last ▸ idle) busy

theorem alone_of_idle (idle : ∀ u ∈ tasks, held u = []) (i : Nat) (task' : OutboxTask) :
    Alone (tasks.set i task') := by
  refine ⟨i, fun j u there busy => ?_⟩
  rw [List.getElem?_set] at there
  split at there
  next same => exact same.symm
  · exact absurd (idle u (List.mem_of_getElem? there)) busy

theorem holds_of_idle {store : AutoStore OutboxEntry} {sent : List (Nat × OutboxEntry)}
    (idle : held task = []) : Holds store sent task := by
  cases task with
  | sending | removing => cases idle
  | _ => trivial

section

variable {store : AutoStore OutboxEntry} {sent : List (Nat × OutboxEntry)}

theorem Holds.add (holds : Holds store sent task) {new : OutboxEntry}
    (after : ∀ x ∈ held task, x.2.recipient = new.recipient → x.2.queuedAt ≤ new.queuedAt) :
    Holds (store.add new).2 sent task := by
  cases task with
  | sending => exact Ready.add holds after
  | removing entry rest =>
    exact ⟨holds.1.add fun x member => after x (List.mem_cons_of_mem entry member), holds.2⟩
  | _ => trivial

theorem Holds.bump (holds : Holds store sent task) (ordered : store.Ordered) (id : Nat) :
    Holds (bump id store) sent task := by
  cases task with
  | sending => exact Ready.bump holds ordered id
  | removing => exact ⟨holds.1.bump ordered id, holds.2⟩
  | _ => trivial

theorem holds_next {items : List (Nat × OutboxEntry)} (ready : Ready store sent items) (n : Nat) :
    Holds store sent (next items n) := by
  cases items with
  | nil => trivial
  | cons entry rest => exact ready

end

end

namespace Tidy

variable {s : OutboxPage} {i : Nat}

theorem initial : Tidy initial where
  ids := .new
  alone := ⟨0, nofun⟩
  holds := List.forall_mem_nil _
  unremoved := nofun
  later := nofun
  generated := nofun
  once := ⟨fun _ positive below => absurd below (Nat.not_lt.mpr positive), .nil, .nil⟩

/-- A new call holds nothing. -/
theorem called (tidy : s.Tidy) {task : OutboxTask} (idle : held task = []) :
    Tidy { s with tasks := s.tasks ++ [task] } where
  ids := tidy.ids
  alone := tidy.alone.append idle
  holds := by
    intro u member
    obtain earlier | last := List.mem_append.mp member
    · exact tidy.holds u earlier
    · rw [List.mem_singleton.mp last]
      exact holds_of_idle idle
  unremoved := by
    intro row stored sent
    obtain ⟨entry, rest, n, member, same⟩ := tidy.unremoved row stored sent
    exact ⟨entry, rest, n, List.mem_append_left _ member, same⟩
  later := tidy.later
  generated := tidy.generated
  once := ⟨tidy.once.kept, tidy.once.once, tidy.once.ordered⟩

theorem stored (tidy : s.Tidy) {entry : OutboxEntry}
    (here : s.tasks[i]? = some (.enqueuing entry))
    (allowed : ∀ e, e ∈ s.sent ∨ (∃ task ∈ s.tasks, e ∈ held task) →
      e.2.recipient = entry.recipient → e.2.queuedAt ≤ entry.queuedAt) :
    Tidy
      { s with
        store := (s.store.add entry).2
        tasks := s.tasks.set i (.enqueued (s.store.add entry).1) } := by
  refine ⟨tidy.ids.add entry, tidy.alone.set here id, ?_, ?_, ?_, ?_, ?_, tidy.once.once,
    tidy.once.ordered⟩
  · intro u member
    obtain rfl | ⟨j, -, there⟩ := mem_set_cases member
    · trivial
    · have member := List.mem_of_getElem? there
      exact (tidy.holds u member).add fun x inside => allowed x (.inr ⟨u, member, inside⟩)
  · intro row stored sent
    obtain earlier | rfl := AutoStore.mem_add.mp stored
    · obtain ⟨entry', rest, n, member, same⟩ := tidy.unremoved row earlier sent
      exact ⟨entry', rest, n, mem_set_of_ne here member nofun, same⟩
    · exact absurd (tidy.generated _ sent) (Nat.lt_irrefl _)
  · intro row stored unsent e member
    obtain earlier | rfl := AutoStore.mem_add.mp stored
    · exact tidy.later row earlier unsent e member
    · exact allowed e (.inl member)
  · exact fun id sent => Nat.lt_succ_of_lt (tidy.generated id sent)
  · intro id positive below
    obtain earlier | rfl := Nat.lt_succ_iff_lt_or_eq.mp below
    · refine (tidy.once.kept id positive earlier).imp_left fun listed => ?_
      obtain ⟨row, stored, same⟩ := List.mem_map.mp listed
      exact List.mem_map.mpr ⟨row, AutoStore.mem_add.mpr (.inl stored), same⟩
    · exact .inl (List.mem_map_of_mem (AutoStore.mem_add.mpr (.inr rfl)))

/-- A drain that reads the records while nobody holds any. -/
theorem snapshot (tidy : s.Tidy) (i : Nat)
    (allowed : ∀ task ∈ s.tasks, held task = []) :
    Tidy { s with tasks := s.tasks.set i (next (snapshotOf s.store) 0) } := by
  -- Whoever removes an entry holds it.
  have unsent : ∀ row ∈ s.store.rows, row.1 ∉ s.sent.map Prod.fst := by
    intro row stored sent
    obtain ⟨entry, rest, n, member, -⟩ := tidy.unremoved row stored sent
    exact List.cons_ne_nil entry rest (allowed _ member)
  refine ⟨tidy.ids, alone_of_idle allowed i _, ?_, ?_, tidy.later, tidy.generated, tidy.once.kept,
    tidy.once.once, tidy.once.ordered⟩
  · intro u member
    obtain rfl | ⟨j, -, there⟩ := mem_set_cases member
    · exact holds_next (.snapshot tidy.ids unsent) 0
    · exact tidy.holds u (List.mem_of_getElem? there)
  · exact fun row stored sent => absurd sent (unsent row stored)

theorem resolved (tidy : s.Tidy) {entry : Nat × OutboxEntry} {rest : List (Nat × OutboxEntry)}
    {n : Nat} (here : s.tasks[i]? = some (.sending entry rest n)) :
    Tidy
      { s with tasks := s.tasks.set i (.removing entry rest n), sent := s.sent ++ [entry] } := by
  have busy : held (.sending entry rest n) ≠ [] := List.cons_ne_nil entry rest
  have ready : Ready s.store s.sent (entry :: rest) := tidy.holds _ (List.mem_of_getElem? here)
  have unsent := ready.unsent entry List.mem_cons_self
  obtain ⟨own, stored, id, recipient, queuedAt⟩ := ready.stored entry List.mem_cons_self
  have last : entry.1 ∈ (s.sent ++ [entry]).map Prod.fst :=
    List.mem_map_of_mem List.mem_concat_self
  refine ⟨tidy.ids, tidy.alone.set here fun _ => busy, ?_, ?_, ?_, ?_, ?_, ?_, ?_⟩
  · intro u member
    obtain rfl | ⟨j, apart, there⟩ := mem_set_cases member
    · exact ⟨ready.sentFirst, last⟩
    · exact holds_of_idle (tidy.alone.idle here busy apart there)
  · intro row listed sent
    rw [List.map_append] at sent
    obtain earlier | now := List.mem_append.mp sent
    · -- Nobody else can be removing what has been sent before.
      obtain ⟨entry', rest', n', member, -⟩ := tidy.unremoved row listed earlier
      cases tidy.alone.eq here busy member (List.cons_ne_nil entry' rest')
    · have below := (List.getElem?_eq_some_iff.mp here).1
      exact ⟨entry, rest, n, List.mem_set below _, (List.mem_singleton.mp now).symm⟩
  · intro row listed later e member same
    rw [List.map_append, List.mem_append, not_or] at later
    obtain earlier | now := List.mem_append.mp member
    · exact tidy.later row listed later.1 e earlier same
    · obtain rfl := List.mem_singleton.mp now
      exact ready.first_le tidy.ids listed later.1 same
  · intro id' sent
    rw [List.map_append] at sent
    obtain earlier | now := List.mem_append.mp sent
    · exact tidy.generated id' earlier
    · rw [List.mem_singleton.mp now, id]
      exact tidy.ids.below own stored
  · intro id' positive below
    refine (tidy.once.kept id' positive below).imp_right fun sent => ?_
    rw [List.map_append]
    exact List.mem_append_left _ sent
  · rw [List.map_append]
    refine List.nodup_append.mpr ⟨tidy.once.once, List.nodup_singleton _, ?_⟩
    rintro a sent b now rfl
    exact unsent (List.mem_singleton.mp now ▸ sent)
  · refine List.pairwise_append.mpr ⟨tidy.once.ordered, List.pairwise_singleton _ _, ?_⟩
    intro e sent x now same
    obtain rfl := List.mem_singleton.mp now
    rw [queuedAt]
    exact tidy.later own stored (id ▸ unsent) e sent (same.trans recipient)

theorem rejected (tidy : s.Tidy) {entry : Nat × OutboxEntry} {rest : List (Nat × OutboxEntry)}
    {n : Nat} (here : s.tasks[i]? = some (.sending entry rest n)) :
    Tidy { s with tasks := s.tasks.set i (.bumping entry n) } := by
  refine ⟨tidy.ids, tidy.alone.set here nofun, ?_, ?_, tidy.later, tidy.generated,
    tidy.once.kept, tidy.once.once, tidy.once.ordered⟩
  · intro u member
    obtain rfl | ⟨j, -, there⟩ := mem_set_cases member
    · trivial
    · exact tidy.holds u (List.mem_of_getElem? there)
  · intro row stored sent
    obtain ⟨entry', rest', n', member, same⟩ := tidy.unremoved row stored sent
    exact ⟨entry', rest', n', mem_set_of_ne here member nofun, same⟩

theorem removed (tidy : s.Tidy) {entry : Nat × OutboxEntry} {rest : List (Nat × OutboxEntry)}
    {n : Nat} (here : s.tasks[i]? = some (.removing entry rest n)) :
    Tidy
      { s with
        store := (s.store.delete entry.1).2
        tasks := s.tasks.set i (next rest (n + 1)) } := by
  have busy : held (.removing entry rest n) ≠ [] := List.cons_ne_nil entry rest
  obtain ⟨ready, done⟩ : Ready s.store s.sent rest ∧ entry.1 ∈ s.sent.map Prod.fst :=
    tidy.holds _ (List.mem_of_getElem? here)
  refine ⟨tidy.ids.delete entry.1, tidy.alone.set here fun _ => busy, ?_, ?_, ?_, tidy.generated,
    ?_, tidy.once.once, tidy.once.ordered⟩
  · intro u member
    obtain rfl | ⟨j, apart, there⟩ := mem_set_cases member
    · exact holds_next (ready.delete done) (n + 1)
    · exact holds_of_idle (tidy.alone.idle here busy apart there)
  · intro row stored sent
    obtain ⟨earlier, other⟩ := AutoStore.mem_delete.mp stored
    obtain ⟨entry', rest', n', member, same⟩ := tidy.unremoved row earlier sent
    cases tidy.alone.eq here busy member (List.cons_ne_nil entry' rest')
    exact absurd same.symm other
  · exact fun row stored => tidy.later row (AutoStore.mem_delete.mp stored).1
  · intro id positive below
    obtain listed | sent := tidy.once.kept id positive below
    · obtain ⟨row, stored, rfl⟩ := List.mem_map.mp listed
      by_cases same : row.1 = entry.1
      · exact .inr (same ▸ done)
      · exact .inl (List.mem_map_of_mem (AutoStore.mem_delete.mpr ⟨stored, same⟩))
    · exact .inr sent

theorem bumped (tidy : s.Tidy) {entry : Nat × OutboxEntry} {n : Nat}
    (here : s.tasks[i]? = some (.bumping entry n)) :
    Tidy { s with store := bump entry.1 s.store, tasks := s.tasks.set i (.drained n 1) } := by
  refine ⟨ordered_bump tidy.ids entry.1, tidy.alone.set here id, ?_, ?_, ?_, ?_, ?_,
    tidy.once.once, tidy.once.ordered⟩
  · intro u member
    obtain rfl | ⟨j, -, there⟩ := mem_set_cases member
    · trivial
    · exact (tidy.holds u (List.mem_of_getElem? there)).bump tidy.ids entry.1
  · intro row stored sent
    obtain ⟨row', stored', same, -⟩ := sameEntry_of_mem_bump stored
    obtain ⟨entry', rest, n', member, id⟩ := tidy.unremoved row' stored' (same ▸ sent)
    exact ⟨entry', rest, n', mem_set_of_ne here member nofun, id.trans same.symm⟩
  · intro row stored unsent e sent alike
    obtain ⟨row', stored', same, recipient, queuedAt⟩ := sameEntry_of_mem_bump stored
    rw [queuedAt]
    exact tidy.later row' stored' (same ▸ unsent) e sent (alike.trans recipient)
  · intro id sent
    exact (tidy.generated id sent).trans_eq (nextId_bump entry.1).symm
  · intro id positive below
    refine (tidy.once.kept id positive (nextId_bump entry.1 ▸ below)).imp_left fun listed => ?_
    obtain ⟨row, stored, rfl⟩ := List.mem_map.mp listed
    obtain ⟨row', stored', same, -⟩ := sameEntry_of_mem entry.1 stored tidy.ids
    exact List.mem_map.mpr ⟨row', stored', same.symm⟩

/-- What is allowed keeps the page tidy. -/
theorem step {event : OutboxEvent} {t : OutboxPage} (tidy : s.Tidy) (allowed : Allowed s event)
    (taken : Step s event t) : t.Tidy := by
  cases taken with
  | enqueue | drain => exact tidy.called rfl
  | stored here => exact tidy.stored here (allowed _ here)
  | snapshot => exact tidy.snapshot _ allowed
  | resolved here => exact tidy.resolved here
  | rejected here => exact tidy.rejected here
  | removed here => exact tidy.removed here
  | bumped here => exact tidy.bumped here

end Tidy

/-- In a run in which no drain reads the records while another holds some, and in which what is
stored has no earlier time than what has been sent or is held for its recipient, every entry is sent
once and in order. -/
theorem sent_once_in_order {events : List OutboxEvent} {s : OutboxPage}
    (run : Run (Guarded Step Allowed) .initial events s) : s.OnceInOrder :=
  (run.invariant Tidy (fun _ _ _ tidy taken => tidy.step taken.1 taken.2) .initial).once

/-- An entry of a page, and the page once a drain has let go of it. -/
private def greeting : OutboxEntry := ⟨"bob", "hello", 5, 0⟩

private def queued (tasks : List OutboxTask) : OutboxPage :=
  ⟨⟨2, [(1, greeting)]⟩, .enqueued 1 :: tasks, []⟩

private theorem run_queued : Run (Guarded Step Allowed) .initial
    [.enqueue "bob" "hello" 5, .stored 0] (queued []) := by
  refine .cons ⟨trivial, .enqueue _ _ _ _⟩ (.cons ⟨?_, .stored rfl⟩ (.nil _))
  rintro entry found e (sent | ⟨task, member, holding⟩)
  · cases sent
  · obtain rfl := List.mem_singleton.mp member
    cases holding

private theorem snapshotOf_queued (tasks : List OutboxTask) :
    snapshotOf (queued tasks).store = [(1, greeting)] :=
  List.mergeSort_singleton _

private theorem step_read {tasks : List OutboxTask} {i : Nat}
    (here : (queued tasks).tasks[i]? = some .starting) :
    Step (queued tasks) (.snapshot i)
      { queued tasks with
        tasks := (queued tasks).tasks.set i (.sending (1, greeting) [] 0) } := by
  have step := Step.snapshot here
  rwa [snapshotOf_queued] at step

theorem sent_once_in_order_alone :
    OnceInOrder ⟨⟨2, []⟩, [.enqueued 1, .drained 1 0], [(1, greeting)]⟩ := by
  have idle : ∀ task ∈ (queued [.starting]).tasks, held task = [] := by
    rintro task (_ | ⟨_, _ | ⟨_, none⟩⟩)
    · rfl
    · rfl
    · cases none
  have drained : Run (Guarded Step Allowed) (queued []) [.drain, .snapshot 1, .resolved 1, .removed 1]
      ⟨⟨2, []⟩, [.enqueued 1, .drained 1 0], [(1, greeting)]⟩ :=
    .cons ⟨trivial, .drain _⟩ (.cons ⟨idle, @step_read [.starting] 1 rfl⟩
      (.cons ⟨trivial, .resolved (i := 1) rfl⟩ (.cons ⟨trivial, .removed (i := 1) rfl⟩ (.nil _))))
  exact sent_once_in_order (run_queued.append drained)

/-- Two drains that have read the same entry send it twice. -/
theorem overlapping_drains_send_twice :
    ¬∀ events s, Run Step .initial events s → OnceInOrder s := by
  intro holds
  have overlapping : Run Step (queued [])
      [.drain, .drain, .snapshot 1, .snapshot 2, .resolved 1, .resolved 2]
      ⟨⟨2, [(1, greeting)]⟩, [.enqueued 1, .removing (1, greeting) [] 0,
        .removing (1, greeting) [] 0], [(1, greeting), (1, greeting)]⟩ :=
    .cons (.drain _) (.cons (.drain _)
      (.cons (@step_read [.starting, .starting] 1 rfl)
      (.cons (@step_read [.sending (1, greeting) [] 0, .starting] 2 rfl)
      (.cons (.resolved (i := 1) rfl) (.cons (.resolved (i := 2) rfl) (.nil _))))))
  have once : ([1, 1] : List Nat).Nodup :=
    (holds _ _ (run_queued.unguarded.append overlapping)).once
  exact absurd once (by decide)

end OutboxPage

end FinBit.Web
