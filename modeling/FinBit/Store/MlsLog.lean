import FinBit.Lib.Guards
import FinBit.Lib.SqlView
import FinBit.Store.SqliteStore

/-! # Seed and log of an MLS channel

The client writes the seed of a group when the group is created or joined, and one
record for each call that changes it, numbered from 0 after every seed. The seed
replaces the one before it; the records of the group before it stay in the log. So a
group that takes the place of another one in a channel does not load: the records of
both are read, and the first record of the new one is refused, for its number is taken.
-/

namespace FinBit.Store

open FinBit.Lib Sql SqliteStore

/-! ### The client's side -/

/-- What the client keeps of a channel beside the group. -/
structure ChannelPersistence where
  store : SqliteStore
  /-- Whether the channel has a group. -/
  mls : Bool
  mlsNextSeq : Int64

variable (P : StoreCrypto) (id : Bytes)

def persistMlsSeed (c : ChannelPersistence) (seedBlob : Bytes) (draws : Draws) :
    ChannelPersistence :=
  -- only the row of the state is written; the log keeps what it has
  ⟨c.store.mlsGroupSave P draws (.of id) (.ofVector seedBlob), true, 0⟩

/-- The record is the last one of the live group. -/
def persistMlsLastOp (c : ChannelPersistence) (last : Bytes) (draws : Draws) :
    Except String ChannelPersistence :=
  if c.mls then
    match c.store.mlsGroupOpAppend P draws (.of id) c.mlsNextSeq (.ofVector last) with
    | .error e => .error e
    | .ok store => .ok { c with store, mlsNextSeq := c.mlsNextSeq + 1 }
  -- without a live group there is no last operation to write
  else .ok c

inductive Persist where
  /-- A group was created or joined. -/
  | seed (blob : Bytes) (draws : Draws)
  | lastOp (blob : Bytes) (draws : Draws)

def Persist.blob : Persist → Bytes
  | .seed blob _ => blob
  | .lastOp blob _ => blob

def persist (c : ChannelPersistence) : Persist → Except String ChannelPersistence
  | .seed blob draws => .ok (persistMlsSeed P id c blob draws)
  | .lastOp blob draws => persistMlsLastOp P id c blob draws

/-! ### What is expected -/

/-- The last seed, and the records after it. -/
def lastGroup (calls : List Persist) : Option (Bytes × List Bytes) :=
  calls.foldl (fun group call =>
    match call with
    | .seed blob _ => some (blob, [])
    | .lastOp blob _ => group.map fun g => (g.1, g.2 ++ [blob])) none

/-- The records after the last seed. -/
def lastOps (calls : List Persist) : List Bytes := (lastGroup calls).elim [] Prod.snd

def expectedSnapshot (calls : List Persist) : Option MlsGroupSnapshot :=
  (lastGroup calls).map fun g => ⟨g.1, g.2, Int64.ofNat g.2.length⟩

/-- A seed is written where records of another group have been logged. -/
def Reseeds (calls : List Persist) : Prop :=
  ∃ before blob draws after, calls = before ++ .seed blob draws :: after ∧ lastOps before ≠ []

section Expected

variable {calls : List Persist}

@[simp] theorem lastGroup_seed (blob : Bytes) (draws : Draws) :
    lastGroup (calls ++ [.seed blob draws]) = some (blob, []) := by
  simp [lastGroup]

@[simp] theorem lastGroup_lastOp (blob : Bytes) (draws : Draws) :
    lastGroup (calls ++ [.lastOp blob draws]) =
      (lastGroup calls).map fun g => (g.1, g.2 ++ [blob]) := by
  simp [lastGroup]

@[simp] theorem lastOps_seed (blob : Bytes) (draws : Draws) :
    lastOps (calls ++ [.seed blob draws]) = [] := by
  simp [lastOps]

theorem lastOps_lastOp (blob : Bytes) (draws : Draws) :
    lastOps (calls ++ [.lastOp blob draws]) =
      if (lastGroup calls).isSome then lastOps calls ++ [blob] else [] := by
  unfold lastOps
  rw [lastGroup_lastOp]
  cases lastGroup calls <;> rfl

theorem length_lastOps (calls : List Persist) : (lastOps calls).length ≤ calls.length := by
  induction calls using List.reverseRecOn with
  | nil => exact Nat.le_refl _
  | append_singleton calls call ih =>
    cases call with
    | seed blob draws => simp
    | lastOp blob draws =>
      rw [lastOps_lastOp]
      split <;> simp [ih]

/-- The seed that replaces a group is the last call or comes before it. -/
theorem reseeds_concat (call : Persist) :
    Reseeds (calls ++ [call]) ↔
      Reseeds calls ∨ ((∃ blob draws, call = .seed blob draws) ∧ lastOps calls ≠ []) := by
  constructor
  · rintro ⟨before, blob, draws, after, same, logged⟩
    rcases List.eq_nil_or_concat' after with rfl | ⟨rest, last, rfl⟩
    · right
      obtain ⟨rfl, only⟩ := List.append_inj' same rfl
      exact ⟨⟨blob, draws, List.singleton_inj.mp only⟩, logged⟩
    · left
      rw [← List.cons_append, ← List.append_assoc] at same
      exact ⟨before, blob, draws, rest, (List.append_inj' same rfl).1, logged⟩
  · rintro (⟨before, blob, draws, after, rfl, logged⟩ | ⟨⟨blob, draws, rfl⟩, logged⟩)
    · exact ⟨before, blob, draws, after ++ [call], by simp, logged⟩
    · exact ⟨calls, blob, draws, [], rfl, logged⟩

theorem reseeds_seed (blob : Bytes) (draws : Draws) :
    Reseeds (calls ++ [.seed blob draws]) ↔ Reseeds calls ∨ lastOps calls ≠ [] := by
  simp [reseeds_concat]

theorem reseeds_lastOp (blob : Bytes) (draws : Draws) :
    Reseeds (calls ++ [.lastOp blob draws]) ↔ Reseeds calls := by
  simp [reseeds_concat]

theorem not_reseeds_nil : ¬Reseeds [] := by
  rintro ⟨before, blob, draws, after, nothing, -⟩
  simp at nothing

/-- A group that was replaced has a successor. -/
theorem Reseeds.group (reseeds : Reseeds calls) : (lastGroup calls).isSome = true := by
  induction calls using List.reverseRecOn with
  | nil => exact absurd reseeds not_reseeds_nil
  | append_singleton calls call ih =>
    cases call with
    | seed blob draws => simp
    | lastOp blob draws => simpa using ih ((reseeds_lastOp blob draws).mp reseeds)

end Expected

/-! ### What the two writers do -/

section Writers

variable (s : SqliteStore) (draws : Draws)

/-- The rows of the channel, in the order in which they were written. -/
def channelRows (s : SqliteStore) (id : Bytes) : List (Row (Bytes × Int64) Unit Bytes) :=
  s.db.mlsGroupLog.rows.filter fun r => (Value.blob r.key.1).equals (bindBlob (.of id))

variable {P id}

/-- A column that was written from a filled vector opens again. -/
theorem column_storedValue (key : Option Key) (nonce : Nonce) {blob : Bytes} (filled : blob ≠ [])
    (aad : Bytes) : ∃ stored, column (storedValue P key nonce (.ofVector blob) aad) = some stored ∧
      openValue P key stored aad = some blob := by
  cases key with
  | none => exact ⟨blob, by simp [storedValue, column_ofVector, filled], rfl⟩
  | some key => exact ⟨_, rfl, aeadUnwrap_aeadWrap P key nonce blob aad⟩

theorem mlsGroupSave_eq {seed : Bytes} (filled : seed ≠ []) :
    ∃ stored, openValue P (s.key (·.mlsState)) stored id = some seed ∧
      s.mlsGroupSave P draws (.of id) (.ofVector seed) =
        { s with db.mlsGroupState := s.db.mlsGroupState.upsert ⟨some id, (), stored⟩ } := by
  obtain ⟨stored, bound, opens⟩ :=
    column_storedValue (P := P) (s.key (·.mlsState)) (draws.nonce 0 0) filled id
  refine ⟨stored, opens, ?_⟩
  simp only [mlsGroupSave, Span.of_bytes, bound, column_of]

theorem mlsGroupOpAppend_eq (seq : Int64) {op : Bytes} (filled : op ≠ []) :
    ∃ stored e, openValue P (s.key (·.mlsLog)) stored (mlsLogAad id seq) = some op ∧
      s.mlsGroupOpAppend P draws (.of id) seq (.ofVector op) =
        match s.db.mlsGroupLog.insert ⟨(id, seq), (), stored⟩ with
        | none => .error e
        | some log => .ok { s with db.mlsGroupLog := log } := by
  obtain ⟨stored, bound, opens⟩ :=
    column_storedValue (P := P) (s.key (·.mlsLog)) (draws.nonce 0 0) filled (mlsLogAad id seq)
  refine ⟨stored, "mls_group_op_append: UNIQUE constraint failed: " ++
    "mls_group_log.channel_id, mls_group_log.seq", opens, ?_⟩
  cases inserted : s.db.mlsGroupLog.insert ⟨(id, seq), (), stored⟩ with
  | none => simp only [mlsGroupOpAppend, Span.of_bytes, bound, column_of, inserted]
  | some log => simp only [mlsGroupOpAppend, Span.of_bytes, bound, column_of, inserted]

/-- A record that is appended is the last one of the channel. -/
theorem mlsGroupOpAppend_ok {seq : Int64} {op : Bytes} (filled : op ≠ []) {s' : SqliteStore}
    (appended : s.mlsGroupOpAppend P draws (.of id) seq (.ofVector op) = .ok s') :
    ∃ stored, openValue P (s.key (·.mlsLog)) stored (mlsLogAad id seq) = some op ∧
      channelRows s' id = channelRows s id ++ [⟨(id, seq), (), stored⟩] ∧
      s'.db.mlsGroupState = s.db.mlsGroupState ∧ s'.atRest = s.atRest := by
  obtain ⟨stored, e, opens, eq⟩ := mlsGroupOpAppend_eq s draws seq filled
  rw [eq] at appended
  unfold Table.insert at appended
  split at appended
  · cases appended
  next log inserted =>
    cases appended
    split at inserted
    · cases inserted
      refine ⟨stored, opens, ?_, rfl, rfl⟩
      simp [channelRows, bindBlob]
    · cases inserted

/-- A record is refused where its number is taken. -/
theorem mlsGroupOpAppend_free {seq : Int64} {op : Bytes} (filled : op ≠ [])
    (free : seq ∉ (channelRows s id).map (·.key.2)) :
    ∃ s', s.mlsGroupOpAppend P draws (.of id) seq (.ofVector op) = .ok s' := by
  obtain ⟨stored, e, -, eq⟩ := mlsGroupOpAppend_eq s draws seq filled
  have absent : s.db.mlsGroupLog.has (id, seq) = false := by
    rw [Table.has, List.any_eq_false]
    intro r member same
    -- a row with this primary key would be one of the channel's, with the number taken
    apply free
    have key : r.key = (id, seq) := key_eq_of_clash same
    refine List.mem_map.mpr ⟨r, List.mem_filter.mpr ⟨member, ?_⟩, by rw [key]⟩
    simp [key, bindBlob]
  rw [eq, Table.insert, dif_pos absent]
  exact ⟨_, rfl⟩

end Writers

/-! ### Loading -/

section Loading

variable {P id} {s : SqliteStore}

/-- The greatest of 0, …, n. -/
theorem foldl_max_range (n : Nat) (small : n < 2 ^ 63) :
    ((List.range (n + 1)).map Int64.ofNat).foldl
      (fun maxSeq seq => if maxSeq < seq then seq else maxSeq) (-1) = Int64.ofNat n := by
  induction n with
  | zero => rfl
  | succ n ih =>
    have next : Int64.ofNat n < Int64.ofNat (n + 1) :=
      (Int64.ofNat_lt_iff_lt (by omega) small).mpr (Nat.lt_succ_self n)
    rw [List.range_succ, List.map_append, List.foldl_append, ih (by omega)]
    exact if_pos next

/-- The log holds these records, numbered from 0. -/
structure Logged (P : StoreCrypto) (id : Bytes) (s : SqliteStore) (ops : List Bytes) : Prop where
  numbers : (channelRows s id).map (·.key.2) = (List.range ops.length).map Int64.ofNat
  opens : (channelRows s id).map (fun r =>
    openValue P (s.key (·.mlsLog)) r.value (mlsLogAad id r.key.2)) = ops.map some

variable {ops : List Bytes}

theorem Logged.nextSeq (logged : Logged P id s ops) (few : ops.length < 2 ^ 63) :
    SqliteStore.nextSeq (channelRows s id) = Int64.ofNat ops.length := by
  rw [nextSeq_eq, logged.numbers]
  cases count : ops.length with
  | zero => rfl
  | succ n =>
    rw [foldl_max_range n (by omega), Int64.ofNat_add]
    rfl

/-- The records come back in the order in which they were written. -/
theorem Logged.sorted (logged : Logged P id s ops) (few : ops.length < 2 ^ 63) :
    s.mlsLogRows (.of id) = channelRows s id := by
  -- the numbers ascend in the order of writing, so `ORDER BY seq` changes nothing
  apply List.mergeSort_of_pairwise
  have ascending : ((channelRows s id).map (·.key.2)).Pairwise (· ≤ ·) := by
    rw [logged.numbers, List.pairwise_map]
    apply List.pairwise_lt_range.imp_of_mem
    intro i j left right less
    rw [List.mem_range] at left right
    exact (Int64.ofNat_le_iff_le (by omega) (by omega)).mpr (Nat.le_of_lt less)
  rw [List.pairwise_map] at ascending
  exact ascending.imp fun le => decide_eq_true le

theorem Logged.load (logged : Logged P id s ops) (few : ops.length < 2 ^ 63) {seed : Bytes}
    {r : Row (Option Bytes) Unit Bytes}
    (found : s.db.mlsGroupState.find [bindBlob (.of id)] = some r)
    (opens : openValue P (s.key (·.mlsState)) r.value id = some seed) :
    s.mlsGroupLoad P (.of id) = .ok (some ⟨seed, ops, Int64.ofNat ops.length⟩) := by
  have read : (channelRows s id).mapM (readLogRow P (s.key (·.mlsLog)) id) = .ok ops := by
    have same := logged.opens
    rw [← List.map_id ops, List.map_map] at same
    conv_rhs => rw [← List.map_id ops]
    apply mapM_opened same
    intro row _ op opened
    simp only [readLogRow, opened]
  simp only [mlsGroupLoad, found, Span.of_bytes, opens, logged.sorted few, read,
    logged.nextSeq few]
  rfl

/-- What is loaded has a record for each row of the channel. -/
theorem length_of_load {snapshot : MlsGroupSnapshot}
    (loaded : s.mlsGroupLoad P (.of id) = .ok (some snapshot)) :
    snapshot.ops.length = (channelRows s id).length := by
  unfold mlsGroupLoad at loaded
  split at loaded
  · cases loaded
  · split at loaded
    · cases loaded
    · obtain ⟨ops, read, done⟩ := bind_eq_ok.mp loaded
      cases done
      rw [length_of_mapM read]
      exact List.length_mergeSort _

end Loading

/-! ### Sequences of calls -/

section Runs

variable {P id} {s : SqliteStore} {calls : List Persist}

/-- A store in which the channel has neither a seed nor a record. -/
structure Fresh (s : SqliteStore) (id : Bytes) : Prop where
  seedless : s.db.mlsGroupState.find [bindBlob (.of id)] = none
  recordless : channelRows s id = []

theorem foldlM_concat {c : ChannelPersistence} {call : Persist} {c'' : ChannelPersistence} :
    (calls ++ [call]).foldlM (persist P id) c = .ok c'' ↔
      ∃ c', calls.foldlM (persist P id) c = .ok c' ∧ persist P id c' call = .ok c'' := by
  rw [List.foldlM_append, bind_eq_ok]
  simp only [List.foldlM_cons, List.foldlM_nil, bind_pure]

/-- What the log of the channel has at least, and more than that if a group was replaced. -/
structure Counted (calls : List Persist) (id : Bytes) (c : ChannelPersistence) : Prop where
  mls : c.mls = (lastGroup calls).isSome
  all : (lastOps calls).length ≤ (channelRows c.store id).length
  more : Reseeds calls → (lastOps calls).length < (channelRows c.store id).length

theorem Counted.seed {c : ChannelPersistence} (counted : Counted calls id c) {blob : Bytes}
    (filled : blob ≠ []) (draws : Draws) :
    Counted (calls ++ [.seed blob draws]) id (persistMlsSeed P id c blob draws) := by
  obtain ⟨stored, -, saved⟩ :=
    mlsGroupSave_eq (P := P) c.store draws filled
  have rows : channelRows (persistMlsSeed P id c blob draws).store id = channelRows c.store id := by
    rw [persistMlsSeed, saved]
    rfl
  -- no record belongs to the new group, and whatever was logged is still there
  refine ⟨by simp [persistMlsSeed], by simp, ?_⟩
  rw [reseeds_seed, rows, lastOps_seed, List.length_nil]
  rintro (reseeds | logged)
  · exact Nat.zero_lt_of_lt (counted.more reseeds)
  · exact Nat.lt_of_lt_of_le (List.length_pos_iff.mpr logged) counted.all

theorem Counted.lastOp {c c' : ChannelPersistence} (counted : Counted calls id c) {blob : Bytes}
    (filled : blob ≠ []) {draws : Draws}
    (done : persistMlsLastOp P id c blob draws = .ok c') :
    Counted (calls ++ [.lastOp blob draws]) id c' := by
  unfold persistMlsLastOp at done
  split at done
  next live =>
    have some_group : (lastGroup calls).isSome = true := counted.mls.symm.trans live
    split at done
    · cases done
    next store appended =>
      cases done
      obtain ⟨stored, -, rows, -, -⟩ := mlsGroupOpAppend_ok c.store draws filled appended
      -- both sides grow by the one record
      refine ⟨by simp [live, some_group], ?_, ?_⟩
      · simpa [lastOps_lastOp, some_group, rows] using counted.all
      · rw [reseeds_lastOp]
        simpa [lastOps_lastOp, some_group, rows] using counted.more
  next dead =>
    cases done
    have no_group : (lastGroup calls).isSome = false := by
      rw [← counted.mls]
      simpa using dead
    have no_ops : lastOps calls = [] := by
      unfold lastOps
      rw [Option.isSome_eq_false_iff, Option.isNone_iff_eq_none] at no_group
      rw [no_group]
      rfl
    have more := counted.more
    rw [no_ops] at more
    refine ⟨by simpa using counted.mls, ?_, ?_⟩
    · simp [lastOps_lastOp, no_group]
    · rw [reseeds_lastOp]
      simpa [lastOps_lastOp, no_group] using more

theorem counted_of_run (filled : ∀ call ∈ calls, call.blob ≠ [])
    {c : ChannelPersistence} (ran : calls.foldlM (persist P id) ⟨s, false, 0⟩ = .ok c) :
    Counted calls id c := by
  induction calls using List.reverseRecOn generalizing c with
  | nil =>
    cases ran
    exact ⟨rfl, by simp [lastOps, lastGroup], fun reseeds => absurd reseeds not_reseeds_nil⟩
  | append_singleton calls call ih =>
    obtain ⟨c', earlier, last⟩ := foldlM_concat.mp ran
    have counted := ih (fun call member => filled call (by simp [member])) earlier
    have blob := filled call (by simp)
    cases call with
    | seed seed draws =>
      cases last
      exact counted.seed blob draws
    | lastOp op draws => exact counted.lastOp blob last

/-- The store has the last group, and the client the number of its next record. -/
structure Holds (P : StoreCrypto) (calls : List Persist) (id : Bytes) (c : ChannelPersistence) :
    Prop where
  mls : c.mls = (lastGroup calls).isSome
  nextSeq : c.mls = true → c.mlsNextSeq = Int64.ofNat (lastOps calls).length
  logged : Logged P id c.store (lastOps calls)
  seedless : lastGroup calls = none → c.store.db.mlsGroupState.find [bindBlob (.of id)] = none
  seed : ∀ g, lastGroup calls = some g → ∃ r,
    c.store.db.mlsGroupState.find [bindBlob (.of id)] = some r ∧
      openValue P (c.store.key (·.mlsState)) r.value id = some g.1

/-- A seed that is written while the log is empty. -/
theorem Holds.afterSeed {c : ChannelPersistence} (holds : Holds P calls id c) {blob : Bytes}
    (filled : blob ≠ []) (draws : Draws) (empty : lastOps calls = []) :
    Holds P (calls ++ [.seed blob draws]) id (persistMlsSeed P id c blob draws) := by
  obtain ⟨stored, opens, saved⟩ :=
    mlsGroupSave_eq (P := P) c.store draws filled
  have logged := holds.logged
  rw [empty] at logged
  rw [persistMlsSeed, saved]
  refine ⟨by simp, fun _ => by simp, ?_, by simp, ?_⟩
  · rw [lastOps_seed]
    exact ⟨logged.numbers, logged.opens⟩
  · intro g group
    obtain rfl : (blob, []) = g := by simpa using group
    exact ⟨_, c.store.db.mlsGroupState.find_upsert (r := ⟨some id, (), stored⟩)
      (by simp [columns]), opens⟩

/-- The number of the next record is free. -/
theorem Holds.afterLastOp {c : ChannelPersistence} (holds : Holds P calls id c) {blob : Bytes}
    (filled : blob ≠ []) (draws : Draws) (few : (lastOps calls).length + 1 < 2 ^ 63) :
    ∃ c', persistMlsLastOp P id c blob draws = .ok c' ∧
      Holds P (calls ++ [.lastOp blob draws]) id c' := by
  unfold persistMlsLastOp
  split
  next live =>
    have some_group : (lastGroup calls).isSome = true := holds.mls.symm.trans live
    have number := holds.nextSeq live
    -- the channel has used the numbers below the length of the log, and no other
    have free : c.mlsNextSeq ∉ (channelRows c.store id).map (·.key.2) := by
      rw [holds.logged.numbers, number]
      intro taken
      obtain ⟨i, below, same⟩ := List.mem_map.mp taken
      rw [List.mem_range] at below
      have equal := congrArg Int64.toInt same
      rw [Int64.toInt_ofNat_of_lt (by omega), Int64.toInt_ofNat_of_lt (by omega)] at equal
      omega
    obtain ⟨store, appended⟩ := mlsGroupOpAppend_free (P := P) c.store draws filled free
    obtain ⟨stored, opens, rows, state, keys⟩ := mlsGroupOpAppend_ok c.store draws filled appended
    rw [appended]
    have key (table : TableKeys → Key) : store.key table = c.store.key table := by
      rw [SqliteStore.key, keys]
      rfl
    -- the fields of `Holds`, the two of the log between the counter and the seed
    refine ⟨_, rfl, ?_, ?_, ⟨?_, ?_⟩, ?_, ?_⟩
    · simp [live, some_group]
    · intro _
      simp only [lastOps_lastOp, some_group, if_true, List.length_append, List.length_singleton,
        Int64.ofNat_add, number]
      rfl
    · simp only [lastOps_lastOp, some_group, if_true, rows, List.map_append, holds.logged.numbers,
        List.length_append, List.length_singleton, List.range_succ, List.map_cons, List.map_nil,
        number]
    · simp only [lastOps_lastOp, some_group, if_true, rows, List.map_append, key,
        holds.logged.opens, List.map_cons, List.map_nil, opens]
    · intro none_group
      simp_all
    · intro g group
      rw [lastGroup_lastOp, Option.map_eq_some_iff] at group
      obtain ⟨g', group', rfl⟩ := group
      rw [state, key]
      exact holds.seed g' group'
  next dead =>
    have no_group : lastGroup calls = none := by
      rw [← Option.isNone_iff_eq_none, ← Option.isSome_eq_false_iff, ← holds.mls]
      simpa using dead
    have no_ops : lastOps calls = lastOps (calls ++ [.lastOp blob draws]) := by
      rw [lastOps_lastOp, lastOps, no_group]
      rfl
    refine ⟨c, rfl, by simpa using holds.mls, fun live => absurd live dead, ?_, ?_, by simp [no_group]⟩
    · rw [← no_ops]
      exact holds.logged
    · exact fun _ => holds.seedless no_group

theorem holds_of_run (fresh : Fresh s id) (filled : ∀ call ∈ calls, call.blob ≠ [])
    (few : calls.length < 2 ^ 63) (clean : ¬Reseeds calls) :
    ∃ c, calls.foldlM (persist P id) ⟨s, false, 0⟩ = .ok c ∧ Holds P calls id c := by
  induction calls using List.reverseRecOn with
  | nil =>
    refine ⟨_, rfl, rfl, by simp, ⟨?_, ?_⟩, fun _ => fresh.seedless, by simp [lastGroup]⟩
    · simp [fresh.recordless, lastOps, lastGroup]
    · simp [fresh.recordless, lastOps, lastGroup]
  | append_singleton calls call ih =>
    rw [List.length_append, List.length_singleton] at few
    have earlier : ∀ call ∈ calls, call.blob ≠ [] := fun call member => filled call (by simp [member])
    have blob := filled call (by simp)
    cases call with
    | seed seed draws =>
      rw [reseeds_seed, not_or, ne_eq, Decidable.not_not] at clean
      obtain ⟨c, ran, holds⟩ := ih earlier (by omega) clean.1
      exact ⟨_, foldlM_concat.mpr ⟨c, ran, rfl⟩, holds.afterSeed blob draws clean.2⟩
    | lastOp op draws =>
      rw [reseeds_lastOp] at clean
      obtain ⟨c, ran, holds⟩ := ih earlier (by omega) clean
      have bound := length_lastOps calls
      obtain ⟨c', last, holds'⟩ := holds.afterLastOp blob draws (by omega)
      exact ⟨c', foldlM_concat.mpr ⟨c, ran, last⟩, holds'⟩

theorem Holds.load {c : ChannelPersistence} (holds : Holds P calls id c)
    (few : calls.length < 2 ^ 63) :
    c.store.mlsGroupLoad P (.of id) = .ok (expectedSnapshot calls) := by
  have bound := length_lastOps calls
  have logged := holds.logged
  cases group : lastGroup calls with
  | none => simp [mlsGroupLoad, holds.seedless group, expectedSnapshot, group]
  | some g =>
    obtain ⟨r, found, opens⟩ := holds.seed g group
    have ops : lastOps calls = g.2 := by simp [lastOps, group]
    rw [ops] at logged bound
    rw [logged.load (by omega) found opens, expectedSnapshot, group]
    rfl

end Runs

/-- On a channel without history, the calls all return and a load gives the last seed and
the records after it, exactly if no seed is written over the records of another group. -/
theorem load_after_persist_iff (P : StoreCrypto) (id : Bytes) (s : SqliteStore)
    (calls : List Persist) (fresh : Fresh s id) (filled : ∀ call ∈ calls, call.blob ≠ [])
    (few : calls.length < 2 ^ 63) :
    (∃ c, calls.foldlM (persist P id) ⟨s, false, 0⟩ = .ok c ∧
      c.store.mlsGroupLoad P (.of id) = .ok (expectedSnapshot calls)) ↔ ¬Reseeds calls := by
  constructor
  · -- the load returns every row of the log, which has more of them than the last group
    rintro ⟨c, ran, loaded⟩ reseeds
    have counted := counted_of_run filled ran
    have more := counted.more reseeds
    obtain ⟨g, group⟩ := Option.isSome_iff_exists.mp reseeds.group
    rw [lastOps, group, Option.elim_some] at more
    rw [expectedSnapshot, group, Option.map_some] at loaded
    have length : g.2.length = _ := length_of_load loaded
    omega
  · intro clean
    obtain ⟨c, ran, holds⟩ := holds_of_run (P := P) fresh filled few clean
    exact ⟨c, ran, holds.load few⟩

/-! ### Two channels -/

private def openText : StoreCrypto := .plain

private def noDraws : Draws := .filled 0

private theorem fresh_empty (id : Bytes) : Fresh ⟨.empty, none⟩ id := ⟨rfl, rfl⟩

/-- A group with one record is replaced: its record is loaded with the new seed, and the
first record of the new group is refused. -/
theorem stale_record_loaded :
    ∃ c, [Persist.seed [1] noDraws, .lastOp [2] noDraws, .seed [3] noDraws].foldlM
        (persist openText [9]) ⟨⟨.empty, none⟩, false, 0⟩ = .ok c ∧
      (∃ snapshot, c.store.mlsGroupLoad openText (.of [9]) = .ok (some snapshot) ∧
        snapshot.seed = [3] ∧ snapshot.ops = [[2]]) ∧
      ∃ e, persist openText [9] c (.lastOp [4] noDraws) = .error e := by
  refine ⟨_, rfl, ⟨_, Logged.load (⟨rfl, rfl⟩ : Logged openText [9] _ [[2]]) (by decide) rfl rfl,
    rfl, rfl⟩, _, rfl⟩

/-- A group with two records. -/
theorem load_after_persist_twice :
    ∃ c, [Persist.seed [1] noDraws, .lastOp [2] noDraws, .lastOp [3] noDraws].foldlM
        (persist openText [9]) ⟨⟨.empty, none⟩, false, 0⟩ = .ok c ∧
      c.store.mlsGroupLoad openText (.of [9]) = .ok (some ⟨[1], [[2], [3]], 2⟩) := by
  have seeded : ¬Reseeds ([] ++ [.seed [1] noDraws]) := by
    rw [reseeds_seed]
    simp [not_reseeds_nil, lastOps, lastGroup]
  have first : ¬Reseeds ([.seed [1] noDraws] ++ [.lastOp [2] noDraws]) := by
    rw [reseeds_lastOp]
    exact seeded
  have second : ¬Reseeds ([.seed [1] noDraws, .lastOp [2] noDraws] ++ [.lastOp [3] noDraws]) := by
    rw [reseeds_lastOp]
    exact first
  exact (load_after_persist_iff openText [9] ⟨.empty, none⟩ _ (fresh_empty [9])
    (by simp [Persist.blob]) (by decide)).mpr second

end FinBit.Store
