import FinBit.Lib.Interleaving
import FinBit.Web.AutoStores

/-! # The server book

Calls of `add`, `remove` and `setDefault` go on side by side. Each reads the whole list in one
transaction and writes in another, so that what it has read may no longer hold when it writes.
-/

namespace FinBit.Web

open FinBit.Lib

/-- Where a call is. -/
inductive BookTask where
  /-- `add` has not read the list. -/
  | listing (url username label : String) (now : Nat)
  | adding (entry : ServerEntry)
  /-- `remove` has not deleted the record. -/
  | deleting (id : Nat)
  /-- It has, and has not read what remains. -/
  | checking
  /-- `setDefault` has not read the list. -/
  | choosing (id : Nat)
  | marking (id : Nat) (all : List (Nat × ServerEntry))
  | finished (result : Except String Result)

/-- A call, or a transaction of the call at a position, which may fail. -/
inductive BookEvent where
  | add (url username label : String) (now : Nat)
  | remove (id : Nat)
  | setDefault (id : Nat)
  | turn (i : Nat)
  | fail (i : Nat) (e : String)

structure BookPage where
  store : AutoStore ServerEntry
  tasks : List BookTask

namespace BookPage

def initial : BookPage := ⟨.new, []⟩

def hasFinished : BookTask → Bool
  | .finished _ => true
  | _ => false

/-- `add` up to its first transaction. -/
def addCalled (url username label : String) (now : Nat) : BookTask :=
  if url = "" then .finished (.error "server_book.add: url required")
  else .listing url username label now

/-- The transaction of `setDefault`. -/
def mark (id : Nat) (all : List (Nat × ServerEntry)) (s : AutoStore ServerEntry) :
    AutoStore ServerEntry :=
  all.foldl (fun s row => s.put (row.1, { row.2 with isDefault := row.1 = id })) s

/-- What `remove` does with what remains. -/
def rebalance (remaining : List (Nat × ServerEntry)) : BookTask :=
  match remaining with
  | [] => .finished (.ok .done)
  | first :: _ =>
    if remaining.any (·.2.isDefault) then .finished (.ok .done) else .choosing first.1

/-- The next transaction of a call. -/
def act (env : PageEnv) (task : BookTask) (s : AutoStore ServerEntry) :
    BookTask × AutoStore ServerEntry :=
  match task with
  | .listing url username label now =>
    (.adding ⟨env.trim url, env.trim username,
      env.trim (if label = "" then env.hostnameOf url else label), now, s.rows.isEmpty⟩, s)
  | .adding entry => (.finished (.ok (.id (s.add entry).1)), (s.add entry).2)
  | .deleting id => (.checking, (s.delete id).2)
  | .checking => (rebalance s.rows, s)
  | .choosing id => (.marking id s.rows, s)
  | .marking id all => (.finished (.ok .done), mark id all s)
  | .finished result => (.finished result, s)

inductive Step (env : PageEnv) : BookPage → BookEvent → BookPage → Prop
  | add (s : BookPage) (url username label : String) (now : Nat) :
      Step env s (.add url username label now)
        { s with tasks := s.tasks ++ [addCalled url username label now] }
  | remove (s : BookPage) (id : Nat) :
      Step env s (.remove id) { s with tasks := s.tasks ++ [.deleting id] }
  | setDefault (s : BookPage) (id : Nat) :
      Step env s (.setDefault id) { s with tasks := s.tasks ++ [.choosing id] }
  | turn {s : BookPage} {i : Nat} {task : BookTask} (here : s.tasks[i]? = some task)
      (unfinished : hasFinished task = false) :
      Step env s (.turn i) ⟨(act env task s.store).2, s.tasks.set i (act env task s.store).1⟩
  | fail {s : BookPage} {i : Nat} {task : BookTask} (here : s.tasks[i]? = some task)
      (unfinished : hasFinished task = false) (e : String) :
      Step env s (.fail i e) { s with tasks := s.tasks.set i (.finished (.error e)) }

/-! ### The programs of the calls -/

/-- What is left of the program of a call. -/
def prog (env : PageEnv) : BookTask → ServerBook.BookProg Result
  | .listing url username label now => do
    let existing ← ServerBook.list
    let entry : ServerEntry :=
      ⟨env.trim url, env.trim username, env.trim (if label = "" then env.hostnameOf url else label),
        now, existing.isEmpty⟩
    return .id (← Prog.transact (AutoStore.add entry))
  | .adding entry => do return .id (← Prog.transact (AutoStore.add entry))
  | .deleting id => ServerBook.remove id
  | .checking => do
    let remaining ← ServerBook.list
    match remaining with
    | [] => return .done
    | first :: _ =>
      if remaining.any (·.2.isDefault) then return .done
      else do
        ServerBook.setDefault first.1
        return .done
  | .choosing id => do ServerBook.setDefault id; return .done
  | .marking id all => do (Prog.transact fun s => ((), mark id all s)); return .done
  | .finished result => .done result

theorem prog_addCalled (env : PageEnv) (url username label : String) (now : Nat) :
    prog env (addCalled url username label now) = (StoreOp.add url username label now).prog env := by
  unfold addCalled
  by_cases empty : url = ""
  · simp only [empty, if_true, StoreOp.prog, ServerBook.add]
    rfl
  · simp only [empty, if_false, StoreOp.prog, ServerBook.add]
    rfl

theorem prog_rebalance (env : PageEnv) (remaining : List (Nat × ServerEntry)) :
    prog env (rebalance remaining) =
      (match remaining with
      | [] => return .done
      | first :: _ =>
        if remaining.any (·.2.isDefault) then return .done
        else do
          ServerBook.setDefault first.1
          return .done : ServerBook.BookProg Result) := by
  cases remaining with
  | nil => rfl
  | cons first others =>
    unfold rebalance
    dsimp only
    by_cases marked : (first :: others).any (·.2.isDefault) = true
    · rw [if_pos marked, if_pos marked]
      rfl
    · rw [if_neg marked, if_neg marked]
      rfl

theorem staged (env : PageEnv) :
    Interleaved.Staged (prog env) (act env) (fun e => .finished (.error e)) hasFinished where
  finished task done := by
    cases task with
    | finished result => exact ⟨result, rfl⟩
    | _ => cases done
  going task unfinished := by
    cases task with
    | checking =>
      exact ⟨_, _, _, rfl, fun _ => rfl, fun s => prog_rebalance env s.rows, fun _ => rfl⟩
    | finished => cases unfinished
    | _ => exact ⟨_, _, _, rfl, fun _ => rfl, fun _ => rfl, fun _ => rfl⟩

/-- The three calls. -/
inductive Called (env : PageEnv) : ServerBook.BookProg Result → Prop
  | add (url username label : String) (now : Nat) :
      Called env (ServerBook.add env url username label now)
  | remove (id : Nat) : Called env (ServerBook.remove id)
  | setDefault (id : Nat) : Called env (do ServerBook.setDefault id; return .done)

def view (env : PageEnv) (s : BookPage) : Interleaved (AutoStore ServerEntry) Result :=
  ⟨s.store, s.tasks.map (prog env)⟩

/-- Whatever the programs of the three calls do side by side, a page does. -/
theorem run_of_interleaved {env : PageEnv} {turns : List (Turn (AutoStore ServerEntry) Result)}
    {v : Interleaved (AutoStore ServerEntry) Result}
    (run : Run (Guarded Interleaved.Step fun _ turn => ∀ p, turn = .start p → Called env p)
      ⟨.new, []⟩ turns v) :
    ∃ events s, Run (Step env) initial events s ∧ v = view env s := by
  have covered : ∀ v turn v' s, v = view env s →
      Guarded Interleaved.Step (fun _ turn => ∀ p, turn = .start p → Called env p) v turn v' →
      ∃ event s', Step env s event s' ∧ True ∧ v' = view env s' := by
    rintro v turn v' s rfl ⟨calls, taken⟩
    cases taken with
    | start p =>
      cases calls p rfl with
      | add url username label now =>
        refine ⟨_, _, .add s url username label now, trivial, ?_⟩
        rw [view, view, List.map_append]
        exact congrArg (fun p => Interleaved.mk s.store (s.tasks.map (prog env) ++ [p]))
          (prog_addCalled env url username label now).symm
      | remove id =>
        refine ⟨_, _, .remove s id, trivial, ?_⟩
        rw [view, view, List.map_append]
        rfl
      | setDefault id =>
        refine ⟨_, _, .setDefault s id, trivial, ?_⟩
        rw [view, view, List.map_append]
        rfl
    | next here =>
      obtain ⟨task, there, unfinished, store, onward, -⟩ := (staged env).stage_of_tx here
      refine ⟨_, _, .turn there unfinished, trivial, ?_⟩
      rw [view, view, List.map_set, onward, store]
    | fail here e =>
      obtain ⟨task, there, unfinished, -, -, thrown⟩ := (staged env).stage_of_tx here
      refine ⟨_, _, .fail there unfinished e, trivial, ?_⟩
      rw [view, view, List.map_set, thrown]
  have start : ⟨.new, []⟩ = view env initial := rfl
  obtain ⟨events, s, book, -, same⟩ :=
    run.related (fun v s => v = view env s) (fun _ _ => True) covered start
  exact ⟨events, s, book, same⟩

/-! ### One default -/

/-- No call is in progress. -/
def Calm (s : BookPage) : Prop := ∀ task ∈ s.tasks, hasFinished task = true

def OneDefault (s : BookPage) : Prop :=
  s.store.rows ≠ [] → ∃! row, row ∈ s.store.rows ∧ row.2.isDefault = true

/-- There has been a record with this key, and there is none. -/
def Gone (id : Nat) (s : BookPage) : Prop :=
  id < s.store.nextId ∧ id ∉ s.store.rows.map Prod.fst

def HasDefault (rows : List (Nat × ServerEntry)) : Prop := ∃ row ∈ rows, row.2.isDefault = true

/-- A call that will see to it that there is a default. -/
def Due (rows : List (Nat × ServerEntry)) : BookTask → Prop
  | .checking => True
  | .choosing id => id ∈ rows.map Prod.fst
  | .marking id all => id ∈ all.map Prod.fst
  | _ => False

/-- What a call has read still holds as far as it matters: `add` gives the flag to a new entry if no
record has it, and keeps it from one if there are records or a removal has yet to look at them;
what `setDefault` has read is still there, and the default is among it if and only if the new one
is. -/
def Current (s : BookPage) : BookTask → Prop
  | .adding entry =>
    if entry.isDefault then ¬HasDefault s.store.rows
    else s.store.rows ≠ [] ∨ .checking ∈ s.tasks
  | .marking id all =>
    (∀ row ∈ all, row.1 ∈ s.store.rows.map Prod.fst) ∧
      ∀ row ∈ s.store.rows, row.2.isDefault = true →
        (row.1 ∈ all.map Prod.fst ↔ id ∈ all.map Prod.fst)
  | _ => True

/-- A call writes what still holds, and a transaction does not fail where a default is due. -/
def Allowed (s : BookPage) : BookEvent → Prop
  | .turn i => ∀ task, s.tasks[i]? = some task → Current s task
  | .fail i _ => ∀ task, s.tasks[i]? = some task → Due s.store.rows task →
      s.store.rows = [] ∨ HasDefault s.store.rows
  | _ => True

/-- At most one record has the flag, and if none has it then a call will give it to one. -/
structure Tidy (s : BookPage) : Prop where
  ids : s.store.Ordered
  read : ∀ id all, .marking id all ∈ s.tasks →
    (all.map Prod.fst).Nodup ∧ ∀ row ∈ all, row.1 < s.store.nextId
  single : ∀ a ∈ s.store.rows, ∀ b ∈ s.store.rows,
    a.2.isDefault = true → b.2.isDefault = true → a = b
  marked : s.store.rows = [] ∨ HasDefault s.store.rows ∨ ∃ task ∈ s.tasks, Due s.store.rows task

section

variable {store : AutoStore ServerEntry} {id : Nat} {all : List (Nat × ServerEntry)}
  {x : Nat × ServerEntry}

/-- A record after marking: one that was not read, or one that was, with its new flag. -/
theorem mem_mark (distinct : (all.map Prod.fst).Nodup) :
    x ∈ (mark id all store).rows ↔
      (x ∈ store.rows ∧ x.1 ∉ all.map Prod.fst) ∨
        ∃ row ∈ all, x = (row.1, { row.2 with isDefault := row.1 = id }) := by
  induction all generalizing store with
  | nil => simp [mark]
  | cons row rest ih =>
    obtain ⟨apart, distinct⟩ := List.nodup_cons.mp distinct
    rw [mark, List.foldl_cons]
    refine (ih distinct).trans ?_
    rw [AutoStore.mem_put, List.map_cons, List.mem_cons, not_or]
    constructor
    · rintro (⟨rfl | ⟨listed, other⟩, behind⟩ | ⟨row', member, rfl⟩)
      · exact .inr ⟨row, List.mem_cons_self, rfl⟩
      · exact .inl ⟨listed, other, behind⟩
      · exact .inr ⟨row', List.mem_cons_of_mem row member, rfl⟩
    · rintro (⟨listed, other, behind⟩ | ⟨row', member, rfl⟩)
      · exact .inl ⟨.inr ⟨listed, other⟩, behind⟩
      · obtain rfl | member := List.mem_cons.mp member
        · exact .inl ⟨.inl rfl, apart⟩
        · exact .inr ⟨row', member, rfl⟩

theorem nextId_mark (id : Nat) (all : List (Nat × ServerEntry)) (store : AutoStore ServerEntry) :
    (mark id all store).nextId = store.nextId := by
  induction all generalizing store with
  | nil => rfl
  | cons row rest ih => exact ih _

theorem ordered_mark (ordered : store.Ordered) (generated : ∀ row ∈ all, row.1 < store.nextId) :
    (mark id all store).Ordered := by
  induction all generalizing store with
  | nil => exact ordered
  | cons row rest ih =>
    obtain ⟨first, others⟩ := List.forall_mem_cons.mp generated
    exact ih (ordered.put first) others

/-- Marking records that are all there adds no key and takes none away. -/
theorem keys_mark (distinct : (all.map Prod.fst).Nodup)
    (there : ∀ row ∈ all, row.1 ∈ store.rows.map Prod.fst) (key : Nat) :
    key ∈ (mark id all store).rows.map Prod.fst ↔ key ∈ store.rows.map Prod.fst := by
  constructor
  · intro listed
    obtain ⟨x, member, rfl⟩ := List.mem_map.mp listed
    obtain ⟨old, -⟩ | ⟨row, read, rfl⟩ := (mem_mark distinct).mp member
    · exact List.mem_map_of_mem old
    · exact there row read
  · intro listed
    obtain ⟨x, member, rfl⟩ := List.mem_map.mp listed
    by_cases read : x.1 ∈ all.map Prod.fst
    · obtain ⟨row, read, same⟩ := List.mem_map.mp read
      exact List.mem_map.mpr ⟨_, (mem_mark distinct).mpr (.inr ⟨row, read, rfl⟩), same⟩
    · exact List.mem_map_of_mem ((mem_mark distinct).mpr (.inl ⟨member, read⟩))

end

theorem Due.mono {rows rows' : List (Nat × ServerEntry)} {task : BookTask} (due : Due rows task)
    (keys : ∀ id ∈ rows.map Prod.fst, id ∈ rows'.map Prod.fst) : Due rows' task := by
  cases task with
  | choosing id => exact keys id due
  | checking | marking => exact due
  | _ => cases due

theorem rebalance_cases (remaining : List (Nat × ServerEntry)) :
    (rebalance remaining = .finished (.ok .done) ∧ (remaining = [] ∨ HasDefault remaining)) ∨
      ∃ id ∈ remaining.map Prod.fst, rebalance remaining = .choosing id := by
  cases remaining with
  | nil => exact .inl ⟨rfl, .inl rfl⟩
  | cons first others =>
    unfold rebalance
    dsimp only
    split
    next marked => exact .inl ⟨rfl, .inr (List.any_eq_true.mp marked)⟩
    next => exact .inr ⟨first.1, List.mem_cons_self, rfl⟩

namespace Tidy

variable {s : BookPage} {i : Nat} {task task' : BookTask}

theorem initial : Tidy initial where
  ids := .new
  read := nofun
  single := nofun
  marked := .inl rfl

theorem called (tidy : s.Tidy) (fresh : ∀ id all, task ≠ .marking id all) :
    Tidy { s with tasks := s.tasks ++ [task] } where
  ids := tidy.ids
  read id all member := by
    obtain earlier | last := List.mem_append.mp member
    · exact tidy.read id all earlier
    · exact absurd (List.mem_singleton.mp last).symm (fresh id all)
  single := tidy.single
  marked := by
    refine tidy.marked.imp_right fun marked => marked.imp_right ?_
    rintro ⟨task, member, due⟩
    exact ⟨task, List.mem_append_left _ member, due⟩

/-- A step of a call that only reads: if a default was due from it, it still is. -/
theorem replaced (tidy : s.Tidy) (here : s.tasks[i]? = some task)
    (read : ∀ id all, task' = .marking id all →
      (all.map Prod.fst).Nodup ∧ ∀ row ∈ all, row.1 < s.store.nextId)
    (passed : Due s.store.rows task →
      s.store.rows = [] ∨ HasDefault s.store.rows ∨ Due s.store.rows task') :
    Tidy { s with tasks := s.tasks.set i task' } where
  ids := tidy.ids
  read id all member := by
    obtain new | ⟨j, -, there⟩ := mem_set_cases member
    · exact read id all new.symm
    · exact tidy.read id all (List.mem_of_getElem? there)
  single := tidy.single
  marked := by
    obtain empty | marked | ⟨u, member, due⟩ := tidy.marked
    · exact .inl empty
    · exact .inr (.inl marked)
    · by_cases same : u = task
      · refine (passed (same ▸ due)).imp_right fun marked => marked.imp_right fun due' => ?_
        exact ⟨task', List.mem_set (List.getElem?_eq_some_iff.mp here).1 _, due'⟩
      · exact .inr (.inr ⟨u, mem_set_of_ne here member same, due⟩)

theorem checked (tidy : s.Tidy) (here : s.tasks[i]? = some .checking) :
    Tidy { s with tasks := s.tasks.set i (rebalance s.store.rows) } := by
  obtain ⟨ended, served⟩ | ⟨id, listed, chosen⟩ := rebalance_cases s.store.rows
  · rw [ended]
    exact tidy.replaced here nofun fun _ => served.imp_right .inl
  · rw [chosen]
    exact tidy.replaced here nofun fun _ => .inr (.inr listed)

theorem chosen (tidy : s.Tidy) {id : Nat} (here : s.tasks[i]? = some (.choosing id)) :
    Tidy { s with tasks := s.tasks.set i (.marking id s.store.rows) } := by
  refine tidy.replaced here (fun id' all same => ?_) fun due => .inr (.inr due)
  cases same
  exact ⟨tidy.ids.nodup, tidy.ids.below⟩

theorem added (tidy : s.Tidy) {entry : ServerEntry} (here : s.tasks[i]? = some (.adding entry))
    (current : Current s (.adding entry)) (result : Except String Result) :
    Tidy ⟨(s.store.add entry).2, s.tasks.set i (.finished result)⟩ := by
  have current : if entry.isDefault = true then ¬HasDefault s.store.rows
    else s.store.rows ≠ [] ∨ .checking ∈ s.tasks := current
  have keys : ∀ id ∈ s.store.rows.map Prod.fst, id ∈ (s.store.add entry).2.rows.map Prod.fst := by
    intro id listed
    obtain ⟨row, member, rfl⟩ := List.mem_map.mp listed
    exact List.mem_map_of_mem (AutoStore.mem_add.mpr (.inl member))
  -- A call that has to see to a default is another one, and goes on.
  have later : (∃ task ∈ s.tasks, Due s.store.rows task) →
      ∃ task ∈ s.tasks.set i (.finished result), Due (s.store.add entry).2.rows task := by
    rintro ⟨task, member, due⟩
    refine ⟨task, mem_set_of_ne here member ?_, due.mono keys⟩
    rintro rfl
    cases due
  refine ⟨tidy.ids.add entry, ?_, ?_, .inr ?_⟩
  · intro id all member
    obtain new | ⟨j, -, there⟩ := mem_set_cases member
    · cases new
    · obtain ⟨distinct, generated⟩ := tidy.read id all (List.mem_of_getElem? there)
      exact ⟨distinct, fun row read => Nat.lt_succ_of_lt (generated row read)⟩
  · intro a left b right flag flag'
    obtain earlier | rfl := AutoStore.mem_add.mp left <;>
      obtain earlier' | rfl := AutoStore.mem_add.mp right
    · exact tidy.single a earlier b earlier' flag flag'
    · rw [if_pos flag'] at current
      exact absurd ⟨a, earlier, flag⟩ current
    · rw [if_pos flag] at current
      exact absurd ⟨b, earlier', flag'⟩ current
    · rfl
  · split at current
    next flag => exact .inl ⟨_, AutoStore.mem_add.mpr (.inr rfl), flag⟩
    next =>
      obtain nonempty | checking := current
      · obtain empty | ⟨row, member, flag⟩ | due := tidy.marked
        · exact absurd empty nonempty
        · exact .inl ⟨row, AutoStore.mem_add.mpr (.inl member), flag⟩
        · exact .inr (later due)
      · exact .inr (later ⟨_, checking, trivial⟩)

theorem deleted (tidy : s.Tidy) {id : Nat} (here : s.tasks[i]? = some (.deleting id)) :
    Tidy ⟨(s.store.delete id).2, s.tasks.set i .checking⟩ := by
  refine ⟨tidy.ids.delete id, ?_, ?_, ?_⟩
  · intro id all member
    obtain new | ⟨j, -, there⟩ := mem_set_cases member
    · cases new
    · exact tidy.read id all (List.mem_of_getElem? there)
  · intro a left b right
    exact tidy.single a (AutoStore.mem_delete.mp left).1 b (AutoStore.mem_delete.mp right).1
  · have below := (List.getElem?_eq_some_iff.mp here).1
    exact .inr (.inr ⟨_, List.mem_set below _, trivial⟩)

theorem remarked (tidy : s.Tidy) {id : Nat} {all : List (Nat × ServerEntry)}
    (here : s.tasks[i]? = some (.marking id all)) (current : Current s (.marking id all))
    (result : Except String Result) :
    Tidy ⟨mark id all s.store, s.tasks.set i (.finished result)⟩ := by
  obtain ⟨distinct, generated⟩ := tidy.read id all (List.mem_of_getElem? here)
  obtain ⟨there, flagged⟩ := current
  have keys := @keys_mark s.store id all distinct there
  refine ⟨ordered_mark tidy.ids generated, ?_, ?_, ?_⟩
  · intro id' all' member
    obtain new | ⟨j, -, at_⟩ := mem_set_cases member
    · cases new
    · rw [nextId_mark]
      exact tidy.read id' all' (List.mem_of_getElem? at_)
  · intro a left b right flag flag'
    obtain ⟨old, outside⟩ | ⟨row, read, rfl⟩ := (mem_mark distinct).mp left <;>
      obtain ⟨old', outside'⟩ | ⟨row', read', rfl⟩ := (mem_mark distinct).mp right
    · exact tidy.single a old b old' flag flag'
    · have chosen : id ∈ all.map Prod.fst := of_decide_eq_true flag' ▸ List.mem_map_of_mem read'
      exact absurd ((flagged a old flag).mpr chosen) outside
    · have chosen : id ∈ all.map Prod.fst := of_decide_eq_true flag ▸ List.mem_map_of_mem read
      exact absurd ((flagged b old' flag').mpr chosen) outside'
    · have same := (of_decide_eq_true flag).trans (of_decide_eq_true flag').symm
      rw [List.inj_on_of_nodup_map distinct read read' same]
  · by_cases chosen : id ∈ all.map Prod.fst
    · obtain ⟨row, read, rfl⟩ := List.mem_map.mp chosen
      exact .inr (.inl ⟨_, (mem_mark distinct).mpr (.inr ⟨row, read, rfl⟩), decide_eq_true rfl⟩)
    · -- No record that has been read has the flag, nor does any get it.
      obtain empty | ⟨row, member, flag⟩ | ⟨task, member, due⟩ := tidy.marked
      · refine .inl (List.eq_nil_iff_forall_not_mem.mpr fun x listed => ?_)
        have key := (keys x.1).mp (List.mem_map_of_mem listed)
        rw [empty] at key
        cases key
      · have outside := fun read => chosen ((flagged row member flag).mp read)
        exact .inr (.inl ⟨row, (mem_mark distinct).mpr (.inl ⟨member, outside⟩), flag⟩)
      · refine .inr (.inr ⟨task, mem_set_of_ne here member ?_, due.mono fun id => (keys id).mpr⟩)
        rintro rfl
        exact chosen due

theorem turn (tidy : s.Tidy) (env : PageEnv) (here : s.tasks[i]? = some task)
    (current : Current s task) :
    Tidy ⟨(act env task s.store).2, s.tasks.set i (act env task s.store).1⟩ := by
  cases task with
  | listing => exact tidy.replaced here nofun False.elim
  | adding => exact tidy.added here current _
  | deleting => exact tidy.deleted here
  | checking => exact tidy.checked here
  | choosing => exact tidy.chosen here
  | marking => exact tidy.remarked here current _
  | finished => exact tidy.replaced here nofun False.elim

/-- What is allowed keeps the book tidy. -/
theorem step {env : PageEnv} {event : BookEvent} {t : BookPage} (tidy : s.Tidy)
    (allowed : Allowed s event) (taken : Step env s event t) : t.Tidy := by
  cases taken with
  | add =>
    refine tidy.called ?_
    unfold addCalled
    split <;> exact nofun
  | remove | setDefault => exact tidy.called nofun
  | turn here => exact tidy.turn env here (allowed _ here)
  | fail here =>
    refine tidy.replaced here nofun fun due => ?_
    exact (allowed _ here due).imp_right .inl

/-- When all calls are over, none has to see to a default any more. -/
theorem oneDefault (tidy : s.Tidy) (calm : s.Calm) : s.OneDefault := by
  intro nonempty
  obtain empty | ⟨row, member, flag⟩ | ⟨task, member, due⟩ := tidy.marked
  · exact absurd empty nonempty
  · exact ⟨row, ⟨member, flag⟩, fun other there =>
      tidy.single other there.1 row member there.2 flag⟩
  · have finished := calm task member
    cases task with
    | finished => cases due
    | _ => cases finished

/-- Nothing brings a record back. -/
theorem gone {env : PageEnv} {event : BookEvent} {t : BookPage} (tidy : s.Tidy)
    (allowed : Allowed s event) (taken : Step env s event t) {id : Nat} (gone : Gone id s) :
    Gone id t := by
  obtain ⟨generated, absent⟩ := gone
  cases taken with
  | add | remove | setDefault | fail => exact ⟨generated, absent⟩
  | @turn _ task here unfinished =>
    have current := allowed _ here
    cases task with
    | listing | checking | choosing | finished => exact ⟨generated, absent⟩
    | adding entry =>
      refine ⟨Nat.lt_succ_of_lt generated, fun listed => ?_⟩
      obtain ⟨row, member, rfl⟩ := List.mem_map.mp listed
      obtain earlier | rfl := AutoStore.mem_add.mp member
      · exact absent (List.mem_map_of_mem earlier)
      · exact Nat.lt_irrefl _ generated
    | deleting id' =>
      refine ⟨generated, fun listed => ?_⟩
      obtain ⟨row, member, rfl⟩ := List.mem_map.mp listed
      exact absent (List.mem_map_of_mem (AutoStore.mem_delete.mp member).1)
    | marking id' all =>
      obtain ⟨distinct, -⟩ := tidy.read id' all (List.mem_of_getElem? here)
      refine ⟨generated.trans_eq (nextId_mark id' all s.store).symm, fun listed => absent ?_⟩
      exact (keys_mark distinct current.1 id).mp listed

end Tidy

/-- In a run whose calls write only what still holds, one entry is the default whenever all calls
are over, and what has been removed stays away. -/
theorem exactly_one_default {env : PageEnv} {before after : List BookEvent} {t s : BookPage}
    (earlier : Run (Guarded (Step env) Allowed) initial before t)
    (later : Run (Guarded (Step env) Allowed) t after s) :
    (s.Calm → s.OneDefault) ∧ ∀ id, Gone id t → Gone id s := by
  have preserved : ∀ s e t, Tidy s → Guarded (Step env) Allowed s e t → Tidy t :=
    fun _ _ _ tidy taken => tidy.step taken.1 taken.2
  have tidy := earlier.invariant Tidy preserved .initial
  refine ⟨(later.invariant Tidy preserved tidy).oneDefault, fun id gone => ?_⟩
  refine (later.invariant (fun s => Tidy s ∧ Gone id s) ?_ ⟨tidy, gone⟩).2
  exact fun s e t both taken =>
    ⟨both.1.step taken.1 taken.2, both.1.gone taken.1 taken.2 both.2⟩

private def bookEnv : PageEnv := ⟨fun _ seed => seed, fun _ sealed => some sealed, id, id⟩

private def relay (url : String) : ServerEntry := ⟨url, "ann", url, 7, true⟩

/-- The first entry is removed, and the next one to be added is the default. -/
theorem exactly_one_default_after_removal :
    (Calm ⟨⟨3, [(2, relay "wss://b")]⟩, [.finished (.ok (.id 1)), .finished (.ok .done),
        .finished (.ok (.id 2))]⟩ →
      OneDefault ⟨⟨3, [(2, relay "wss://b")]⟩, [.finished (.ok (.id 1)), .finished (.ok .done),
        .finished (.ok (.id 2))]⟩) ∧
      ∀ id, Gone id ⟨⟨2, []⟩, [.finished (.ok (.id 1)), .finished (.ok .done)]⟩ →
        Gone id ⟨⟨3, [(2, relay "wss://b")]⟩, [.finished (.ok (.id 1)), .finished (.ok .done),
          .finished (.ok (.id 2))]⟩ := by
  have removed : Run (Guarded (Step bookEnv) Allowed) initial
      [.add "wss://a" "ann" "" 7, .turn 0, .turn 0, .remove 1, .turn 1, .turn 1]
      ⟨⟨2, []⟩, [.finished (.ok (.id 1)), .finished (.ok .done)]⟩ := by
    refine .cons ⟨trivial, .add _ _ _ _ _⟩ (.cons ⟨?_, .turn (i := 0) rfl rfl⟩
      (.cons ⟨?_, .turn (i := 0) rfl rfl⟩ (.cons ⟨trivial, .remove _ _⟩
      (.cons ⟨?_, .turn (i := 1) rfl rfl⟩ (.cons ⟨?_, .turn (i := 1) rfl rfl⟩ (.nil _))))))
    all_goals
      rintro task here
      cases here
      try trivial
    rintro ⟨row, member, -⟩
    cases member
  have added : Run (Guarded (Step bookEnv) Allowed)
      ⟨⟨2, []⟩, [.finished (.ok (.id 1)), .finished (.ok .done)]⟩
      [.add "wss://b" "ann" "" 7, .turn 2, .turn 2]
      ⟨⟨3, [(2, relay "wss://b")]⟩, [.finished (.ok (.id 1)), .finished (.ok .done),
        .finished (.ok (.id 2))]⟩ := by
    refine .cons ⟨trivial, .add _ _ _ _ _⟩ (.cons ⟨?_, .turn (i := 2) rfl rfl⟩
      (.cons ⟨?_, .turn (i := 2) rfl rfl⟩ (.nil _)))
    all_goals
      rintro task here
      cases here
      try trivial
    rintro ⟨row, member, -⟩
    cases member
  exact exactly_one_default removed added

/-- Two calls of `add` that have both read the empty list make two defaults. -/
theorem overlapping_adds_make_two_defaults :
    ¬∀ (env : PageEnv) (before after : List BookEvent) (t s : BookPage),
      Run (Step env) initial before t → Run (Step env) t after s →
        (s.Calm → s.OneDefault) ∧ ∀ id, Gone id t → Gone id s := by
  intro holds
  have both : Run (Step bookEnv) initial
      [.add "wss://a" "ann" "" 7, .add "wss://b" "ann" "" 7, .turn 0, .turn 1, .turn 0, .turn 1]
      ⟨⟨3, [(1, relay "wss://a"), (2, relay "wss://b")]⟩,
        [.finished (.ok (.id 1)), .finished (.ok (.id 2))]⟩ :=
    .cons (.add _ _ _ _ _) (.cons (.add _ _ _ _ _) (.cons (.turn (i := 0) rfl rfl)
      (.cons (.turn (i := 1) rfl rfl) (.cons (.turn (i := 0) rfl rfl)
      (.cons (.turn (i := 1) rfl rfl) (.nil _))))))
  obtain ⟨one, -⟩ := holds _ _ _ _ _ (.nil _) both
  have calm : Calm ⟨⟨3, [(1, relay "wss://a"), (2, relay "wss://b")]⟩,
      [.finished (.ok (.id 1)), .finished (.ok (.id 2))]⟩ := by
    rintro task (_ | ⟨_, _ | ⟨_, none⟩⟩)
    · rfl
    · rfl
    · cases none
  obtain ⟨row, -, unique⟩ := one calm (List.cons_ne_nil _ _)
  have first := unique (1, relay "wss://a") ⟨List.mem_cons_self, rfl⟩
  have second := unique (2, relay "wss://b") ⟨List.mem_cons_of_mem _ List.mem_cons_self, rfl⟩
  cases first.trans second.symm

end BookPage

end FinBit.Web
