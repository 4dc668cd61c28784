import FinBit.Crypto.MlsFailures
import FinBit.Desktop.ChannelIndex

/-! # Channels after a restart

The restore loop starts from the rows of `chan_state`. Creating a channel and accepting an
in-band key write the row; completing a Welcome does not, so a channel that was joined in this
way is gone after the next start. A group comes back from its seed and its log, and with it
only what was logged.
-/

namespace FinBit.Desktop

open FinBit.Lib FinBit.Crypto Std Store.SqliteStore

variable {K : Type} {M : Crypto.Mlspp}

/-! ### Records and their numbers -/

/-- The records of a group as they stand in the log. -/
def numbered (ops : List Bytes) : List (Nat × Bytes) := ops.mapIdx fun i op => (i, op)

theorem numbered_concat (ops : List Bytes) (op : Bytes) :
    numbered (ops ++ [op]) = numbered ops ++ [(ops.length, op)] := by
  simp [numbered, List.mapIdx_append]

theorem numbered_values (ops : List Bytes) : (numbered ops).map (·.2) = ops := by
  induction ops using List.reverseRecOn with
  | nil => rfl
  | append_singleton ops op ih => rw [numbered_concat, List.map_append, ih]; rfl

theorem lt_of_mem_numbered {ops : List Bytes} {row : Nat × Bytes} (member : row ∈ numbered ops) :
    row.1 < ops.length := by
  obtain ⟨i, inside, rfl⟩ := List.mem_mapIdx.mp member
  exact inside

/-- The log is read in the order in which it was written. -/
theorem numbered_sorted (ops : List Bytes) :
    (numbered ops).mergeSort (fun a b => a.1 ≤ b.1) = numbered ops := by
  apply List.mergeSort_of_pairwise
  induction ops using List.reverseRecOn with
  | nil => exact List.Pairwise.nil
  | append_singleton ops op ih =>
    rw [numbered_concat, List.pairwise_append]
    refine ⟨ih, List.pairwise_singleton _ _, ?_⟩
    intro row member last only
    rw [List.mem_singleton.mp only]
    exact decide_eq_true (Nat.le_of_lt (lt_of_mem_numbered member))

/-- The number after the last one. -/
theorem numbered_next (ops : List Bytes) :
    ((numbered ops).map (·.1 + 1)).foldl max 0 = ops.length := by
  induction ops using List.reverseRecOn with
  | nil => rfl
  | append_singleton ops op ih =>
    rw [numbered_concat, List.map_append, List.foldl_append, ih]
    simp

namespace ChannelWorker

/-! ### What is stored of a channel -/

/-- Seed and log of a channel give the group that it has. -/
def GroupSaved (store : ChannelTables K) (cs : Channel K M) : Prop :=
  match cs.mls with
  | none => store.mlsGroupState cs.id.1 = none
  | some g => g.Replays ∧ store.mlsGroupState cs.id.1 = some g.seedBlob ∧
      store.mlsGroupLog cs.id.1 = numbered g.opLog ∧ cs.mlsNextSeq = g.opLog.length

/-- There is a row with id and kind of the channel. -/
def RowSaved (store : ChannelTables K) (name : Bytes) (cs : Channel K M) : Prop :=
  ∃ row, store.chanState[name]? = some row ∧ row.channelId = cs.id.1 ∧ row.crypto = cs.crypto

/-- No other channel that has been joined has this id. -/
def Free (c : ChannelWorker K M) (name : Bytes) (id : Bytes32) : Prop :=
  ∀ other cs, other ≠ name → c.channels other = some cs → cs.subscribed = true → cs.id ≠ id

/-- Every channel that has been joined is stored as it is, and nothing else is stored. -/
structure Saved (c : ChannelWorker K M) : Prop where
  rows : ∀ name cs, c.channels name = some cs → cs.subscribed = true → RowSaved c.store name cs
  owners : ∀ n row, c.store.chanState[n]? = some row →
    ∃ cs, c.channels n = some cs ∧ cs.subscribed = true
  apart : ∀ name cs, c.channels name = some cs → cs.subscribed = true → c.Free name cs.id
  groups : ∀ name cs, c.channels name = some cs → cs.subscribed = true → cs.crypto = .kMls →
    GroupSaved c.store cs
  joined : ∀ name cs, c.channels name = some cs → cs.mls ≠ none → cs.subscribed = true
  clean : ∀ id : Bytes32, (∀ name cs, c.channels name = some cs → cs.subscribed = true →
    cs.id ≠ id) → c.store.mlsGroupState id.1 = none ∧ c.store.mlsGroupLog id.1 = []

/-- The tables that matter for a restart are the same. -/
structure SameTables (store store' : ChannelTables K) : Prop where
  rows : store'.chanState = store.chanState
  seeds : store'.mlsGroupState = store.mlsGroupState
  log : store'.mlsGroupLog = store.mlsGroupLog

/-- All that is stored of a channel is the same, if it has been joined at all. -/
structure SameRecord (cs cs' : Channel K M) : Prop where
  subscribed : cs'.subscribed = cs.subscribed
  mls : cs'.mls = cs.mls
  mlsNextSeq : cs'.mlsNextSeq = cs.mlsNextSeq
  joined : cs.subscribed = true → cs'.id = cs.id ∧ cs'.crypto = cs.crypto

section

variable {S : ChannelSetup K M} {c c' : ChannelWorker K M} {name : Bytes} {cs cs' : Channel K M}
  {store : ChannelTables K}

theorem saved_new : (new : ChannelWorker K M).Saved where
  rows := by simp [new]
  owners := by simp [new]
  apart := by simp [new]
  groups := by simp [new]
  joined := by simp [new]
  clean := by simp [new]

/-- A channel is joined, or what is stored of a joined one is written again. Only its own row and
the tables under its own id are touched. -/
theorem Saved.put (saved : c.Saved) (channels : c'.channels = Function.update c.channels name (some cs'))
    (free : c.Free name cs'.id)
    (own : ∀ cs, c.channels name = some cs → cs.subscribed = true → cs.id = cs'.id)
    (joined : cs'.subscribed = true) (row : RowSaved c'.store name cs')
    (others : ∀ n, n ≠ name → c'.store.chanState[n]? = c.store.chanState[n]?)
    (group : cs'.crypto = .kMls → GroupSaved c'.store cs')
    (tables : ∀ id, id ≠ cs'.id.1 → c'.store.mlsGroupState id = c.store.mlsGroupState id ∧
      c'.store.mlsGroupLog id = c.store.mlsGroupLog id) : c'.Saved := by
  have here : c'.channels name = some cs' := by rw [channels, Function.update_self]
  have elsewhere (other : Bytes) (differ : other ≠ name) : c'.channels other = c.channels other := by
    rw [channels, Function.update_of_ne differ]
  constructor
  · intro other x found subscribed
    by_cases same : other = name
    · subst same
      rw [here] at found
      cases found
      exact row
    · rw [elsewhere other same] at found
      obtain ⟨r, stored, matching⟩ := saved.rows other x found subscribed
      exact ⟨r, (others other same).trans stored, matching⟩
  · intro n r stored
    by_cases same : n = name
    · exact ⟨cs', same ▸ here, joined⟩
    · rw [others n same] at stored
      obtain ⟨x, found, subscribed⟩ := saved.owners n r stored
      exact ⟨x, (elsewhere n same).trans found, subscribed⟩
  · intro first x found subscribed second y differ found' subscribed'
    by_cases at' : first = name
    · subst at'
      rw [here] at found
      cases found
      rw [elsewhere second differ] at found'
      exact free second y differ found' subscribed'
    · rw [elsewhere first at'] at found
      by_cases at'' : second = name
      · subst at''
        rw [here] at found'
        cases found'
        exact (free first x at' found subscribed).symm
      · rw [elsewhere second at''] at found'
        exact saved.apart first x found subscribed second y differ found' subscribed'
  · intro other x found subscribed cipher
    by_cases same : other = name
    · subst same
      rw [here] at found
      cases found
      exact group cipher
    · rw [elsewhere other same] at found
      have apart : x.id.1 ≠ cs'.id.1 := fun eq => free other x same found subscribed (Subtype.ext eq)
      have before := saved.groups other x found subscribed cipher
      unfold GroupSaved at before ⊢
      rw [(tables _ apart).1, (tables _ apart).2]
      exact before
  · intro other x found some
    by_cases same : other = name
    · subst same
      rw [here] at found
      cases found
      exact joined
    · exact saved.joined other x ((elsewhere other same).symm.trans found) some
  · intro id nobody
    have apart : id.1 ≠ cs'.id.1 := fun eq => nobody name cs' here joined (Subtype.ext eq.symm)
    rw [(tables _ apart).1, (tables _ apart).2]
    refine saved.clean id fun other x found subscribed => ?_
    by_cases same : other = name
    · subst same
      rw [own x found subscribed]
      exact fun eq => apart (congrArg Subtype.val eq.symm)
    · exact nobody other x ((elsewhere other same).trans found) subscribed

/-- A channel that has not been joined does not matter. -/
theorem Saved.unjoined (saved : c.Saved)
    (channels : c'.channels = Function.update c.channels name (some cs'))
    (tables : SameTables c.store c'.store)
    (before : ∀ cs, c.channels name = some cs → cs.subscribed = false)
    (after : cs'.subscribed = false) (none : cs'.mls = none) : c'.Saved := by
  -- who has been joined after the step had been joined before
  have old (other : Bytes) (x : Channel K M) (found : c'.channels other = some x)
      (subscribed : x.subscribed = true) : c.channels other = some x := by
    rw [channels] at found
    by_cases same : other = name
    · subst same
      rw [Function.update_self] at found
      cases found
      simp [after] at subscribed
    · rwa [Function.update_of_ne same] at found
  have still (other : Bytes) (x : Channel K M) (found : c.channels other = some x)
      (subscribed : x.subscribed = true) : c'.channels other = some x := by
    rw [channels]
    by_cases same : other = name
    · subst same
      simp [before x found] at subscribed
    · exact (Function.update_of_ne same ..).trans found
  constructor
  · intro other x found subscribed
    obtain ⟨r, stored, matching⟩ := saved.rows other x (old other x found subscribed) subscribed
    exact ⟨r, tables.rows ▸ stored, matching⟩
  · intro n r stored
    rw [tables.rows] at stored
    obtain ⟨x, found, subscribed⟩ := saved.owners n r stored
    exact ⟨x, still n x found subscribed, subscribed⟩
  · intro first x found subscribed second y differ found' subscribed'
    exact saved.apart first x (old first x found subscribed) subscribed second y differ
      (old second y found' subscribed') subscribed'
  · intro other x found subscribed cipher
    have before := saved.groups other x (old other x found subscribed) subscribed cipher
    unfold GroupSaved at before ⊢
    rw [tables.seeds, tables.log]
    exact before
  · intro other x found some
    by_cases same : other = name
    · subst same
      rw [channels, Function.update_self] at found
      cases found
      exact absurd none some
    · rw [channels, Function.update_of_ne same] at found
      exact saved.joined other x found some
  · intro id nobody
    rw [tables.seeds, tables.log]
    exact saved.clean id fun other x found subscribed =>
      nobody other x (still other x found subscribed) subscribed

theorem entry_subscribed (joined : (c.entry name).subscribed = true) :
    c.channels name = some (c.entry name) := by
  cases found : c.channels name with
  | none => simp [entry, found, Channel.new] at joined
  | some cs => rw [entry_of found]

/-- A channel that has not been joined has no group. -/
theorem Saved.mls_none (saved : c.Saved) (joined : (c.entry name).subscribed = false) :
    (c.entry name).mls = none := by
  cases found : c.channels name with
  | none => rw [entry, found]; rfl
  | some cs =>
    rw [entry_of found] at joined ⊢
    by_contra some
    simp [saved.joined name cs found some] at joined

/-- A channel changes in ways that are not stored. -/
theorem Saved.amend (saved : c.Saved)
    (channels : c'.channels = Function.update c.channels name (some cs'))
    (tables : SameTables c.store c'.store) (record : SameRecord (c.entry name) cs') : c'.Saved := by
  cases joined : (c.entry name).subscribed with
  | false =>
    refine saved.unjoined channels tables (fun x found => ?_) (record.subscribed.trans joined)
      (record.mls.trans (saved.mls_none joined))
    rwa [entry_of found] at joined
  | true =>
    have here := entry_subscribed joined
    obtain ⟨id, cipher⟩ := record.joined joined
    obtain ⟨r, stored, rowId, rowCipher⟩ := saved.rows name _ here joined
    refine saved.put channels (id ▸ saved.apart name _ here joined) (fun x found _ => ?_)
      (record.subscribed.trans joined)
      ⟨r, tables.rows ▸ stored, by rw [rowId, id], by rw [rowCipher, cipher]⟩
      (fun n _ => by rw [tables.rows]) ?_ (fun id _ => by rw [tables.seeds, tables.log]; simp)
    · rw [id, entry_of found]
    · intro cipher'
      have before := saved.groups name _ here joined (cipher ▸ cipher')
      unfold GroupSaved at before ⊢
      rw [record.mls, id, record.mlsNextSeq, tables.seeds, tables.log]
      exact before

/-- A channel goes, with its row and with the tables under its id. -/
theorem Saved.leave (saved : c.Saved) (here : c.entry name = cs) (clean : (0 : UInt8) ∉ name)
    (free : c.Free name cs.id) :
    ({ c.chanDelete name cs.id with
      channels := Function.update c.channels name none
      chanIdToName := Function.update c.chanIdToName cs.id none } : ChannelWorker K M).Saved := by
  have old (other : Bytes) (x : Channel K M)
      (found : Function.update c.channels name none other = some x) :
      other ≠ name ∧ c.channels other = some x := by
    by_cases same : other = name
    · subst same
      simp at found
    · exact ⟨same, by rwa [Function.update_of_ne same] at found⟩
  have rows (n : Bytes) (differ : n ≠ name) :
      (c.store.chanState.erase (cstr name).val)[n]? = c.store.chanState[n]? := by
    rw [cstr_of_not_mem clean]
    simp [ExtTreeMap.getElem?_erase, Ne.symm differ]
  have tables (id : Bytes) (differ : id ≠ cs.id.1) :
      Function.update c.store.mlsGroupState cs.id.1 none id = c.store.mlsGroupState id ∧
        Function.update c.store.mlsGroupLog cs.id.1 [] id = c.store.mlsGroupLog id :=
    ⟨Function.update_of_ne differ .., Function.update_of_ne differ ..⟩
  constructor
  · intro other x found subscribed
    obtain ⟨differ, before⟩ := old other x found
    obtain ⟨r, stored, matching⟩ := saved.rows other x before subscribed
    exact ⟨r, (rows other differ).trans stored, matching⟩
  · intro n r stored
    by_cases same : n = name
    · subst same
      simp [chanDelete, cstr_of_not_mem clean] at stored
    · obtain ⟨x, found, subscribed⟩ := saved.owners n r ((rows n same).symm.trans stored)
      exact ⟨x, (Function.update_of_ne same ..).trans found, subscribed⟩
  · intro first x found subscribed second y differ found' subscribed'
    exact saved.apart first x (old first x found).2 subscribed second y differ
      (old second y found').2 subscribed'
  · intro other x found subscribed cipher
    obtain ⟨differ, before⟩ := old other x found
    have apart : x.id.1 ≠ cs.id.1 := fun eq =>
      free other x differ before subscribed (Subtype.ext eq)
    have kept := saved.groups other x before subscribed cipher
    unfold GroupSaved at kept ⊢
    dsimp only [chanDelete]
    rw [(tables _ apart).1, (tables _ apart).2]
    exact kept
  · intro other x found some
    exact saved.joined other x (old other x found).2 some
  · intro id nobody
    dsimp only [chanDelete]
    by_cases own : id.1 = cs.id.1
    · rw [own, Function.update_self, Function.update_self]
      exact ⟨rfl, rfl⟩
    · rw [(tables _ own).1, (tables _ own).2]
      refine saved.clean id fun other x found subscribed => ?_
      by_cases same : other = name
      · subst same
        rw [entry_of found] at here
        exact fun eq => own (by rw [← here, eq])
      · exact nobody other x ((Function.update_of_ne same ..).trans found) subscribed

end

/-! ### The condition -/

variable (S : ChannelSetup K M)

/-- The id that the channel has after the operation. -/
def opId (name : Bytes) (op : ChannelOp K M) (cs : Channel K M) : Bytes32 :=
  let id := if unset 3 cs.id then S.channelIdFromName name else cs.id
  if op.rechecks cs = true ∧ unset 2 id = true then S.channelIdFromName name else id

/-- The name is stored as it is, and no other channel is in the way. -/
def Placed (c : ChannelWorker K M) (name : Bytes) (id : Bytes32) : Prop :=
  (0 : UInt8) ∉ name ∧ c.Free name id ∧
    ((c.entry name).subscribed = true → (c.entry name).id = id)

/-- The channel that an envelope is for has a group. -/
def ForGroup (c : ChannelWorker K M) (env : Envelope) : Prop :=
  ∃ gid name, env.recipient = .channelGroupId gid.1 ∧ c.chanIdToName gid = some name ∧
    (c.entry name).crypto = .kMls ∧ (c.entry name).mls ≠ none

/-- What becomes or stays joined has a name without a NUL, an id of its own and a row, and its group
is changed only by calls that are logged, from a log that starts with its seed. -/
def Durable (c : ChannelWorker K M) : ChannelEvent K M → Prop
  | .op name op => c.Placed name (opId S name op (c.entry name)) ∧
    match op with
    | .createLocal useMls _ group => useMls = true →
      c.store.mlsGroupLog (opId S name op (c.entry name)).1 = [] ∧
      ∀ g, MlsGroup.create S.me (opId S name op (c.entry name)) group = .ok g →
        g.seedBlob.length < 2 ^ 32
    | .send _ => (c.entry name).crypto = .kMls → (c.entry name).mls = none
    | .invite _ hasSession => (c.entry name).crypto = .kSenderKeys → hasSession = false →
        (c.entry name).subscribed = true
    | _ => True
  | .payload _ (.channelKey id name _) _ => ∀ sized : id.length = 32, c.Placed name ⟨id, sized⟩
  | .payload _ (.mlsInviteRequest id name) _ => ∀ sized : id.length = 32,
    (c.entry name).subscribed = true → (c.entry name).crypto = .kMls ∧
      (unset 2 (c.entry name).id = true → (c.entry name).id = ⟨id, sized⟩)
  | .payload _ (.mlsWelcome _ name welcome) _ => ∀ join g, (c.entry name).pendingJoin = some join →
    MlsGroup.complete join welcome = .ok g →
      (c.entry name).subscribed = true ∧ (c.entry name).crypto = .kMls ∧
        c.store.mlsGroupLog (c.entry name).id.1 = [] ∧ (MlsStart.join join welcome).Fits g
  | .payload _ (.mlsKeyPackage _ keyPackage) draws =>
    (MlsOp.proposeAdd keyPackage).Fits ∧ (MlsOp.commitPending draws.leafSecret).Fits
  | .payload _ (.mlsCommit id commit) _ => (MlsOp.applyCommit commit).Fits ∧
    ∀ gid name g, gid.1 = id → c.chanIdToName gid = some name → (c.entry name).mls = some g →
      ¬g.TakesProposal (.applyCommit commit)
  | .payload _ (.mlsProposal _ proposal) _ => (MlsOp.handleProposal proposal).Fits
  | .envelope env => ¬c.ForGroup env
  | _ => True

variable {S}

section

variable {c c' : ChannelWorker K M} {name : Bytes} {cs cs' : Channel K M}

/-! ### Operations -/

theorem Placed.own {id : Bytes32} (placed : c.Placed name id) (cs : Channel K M)
    (found : c.channels name = some cs) (subscribed : cs.subscribed = true) : cs.id = id := by
  obtain ⟨-, -, own⟩ := placed
  rw [entry_of found] at own
  exact own subscribed

/-- The group of a channel with an id of its own is stored as it is, whether the channel has been
joined or not. -/
theorem Saved.group_of (saved : c.Saved) (placed : c.Placed name cs'.id)
    (mls : cs'.mls = (c.entry name).mls) (seq : cs'.mlsNextSeq = (c.entry name).mlsNextSeq)
    (cipher : (c.entry name).subscribed = true → (c.entry name).crypto = .kMls) :
    GroupSaved c.store cs' := by
  cases joined : (c.entry name).subscribed with
  | true =>
    have stored := saved.groups name _ (entry_subscribed joined) joined (cipher joined)
    unfold GroupSaved at stored ⊢
    rw [mls, seq, ← placed.2.2 joined]
    exact stored
  | false =>
    rw [GroupSaved, mls, saved.mls_none joined]
    refine (saved.clean cs'.id fun other x found subscribed => ?_).1
    by_cases same : other = name
    · subst same
      rw [entry_of found, subscribed] at joined
      cases joined
    · exact placed.2.1 other x same found subscribed

theorem chanState_persistChannel (clean : (0 : UInt8) ∉ name) (n : Bytes) :
    (c.persistChannel name cs).store.chanState[n]? =
      if name = n then some ⟨cs.id.1, cs.ownDist, cs.crypto⟩ else c.store.chanState[n]? := by
  simp only [ChannelWorker.persistChannel, persistChanSession, persistChanMeta, setChannel,
    ExtTreeMap.getElem?_insert, cstr_of_not_mem clean, Std.compare_eq_iff_eq]

theorem row_persistChannel (clean : (0 : UInt8) ∉ name) :
    RowSaved (c.persistChannel name cs).store name cs :=
  ⟨_, (chanState_persistChannel clean name).trans (if_pos rfl), rfl, rfl⟩

theorem others_persistChannel (clean : (0 : UInt8) ∉ name) {n : Bytes} (differ : n ≠ name) :
    (c.persistChannel name cs).store.chanState[n]? = c.store.chanState[n]? :=
  (chanState_persistChannel clean n).trans (if_neg (Ne.symm differ))

/-- What the operations write that make a channel. -/
theorem Saved.persistChannel (saved : c.Saved) (placed : c.Placed name cs'.id)
    (joined : cs'.subscribed = true) (group : cs'.crypto = .kMls → GroupSaved c.store cs') :
    (c.persistChannel name cs').Saved := by
  refine saved.put rfl placed.2.1 placed.own joined (row_persistChannel placed.1) ?_ group
    fun id differ => ⟨rfl, rfl⟩
  intro n differ
  exact others_persistChannel placed.1 differ

/-- The state after the head of the loop. -/
structure Headed (S : ChannelSetup K M) (name : Bytes) (op : ChannelOp K M)
    (c c₁ : ChannelWorker K M) : Prop where
  saved : c₁.Saved
  placed : c₁.Placed name (opId S name op (c₁.entry name))
  settled : unset 3 (c₁.entry name).id = true → (c₁.entry name).id = S.channelIdFromName name
  sameId : opId S name op (c₁.entry name) = opId S name op (c.entry name)
  entry : ∃ id, c₁.entry name = { c.entry name with id := id }
  store : c₁.store = c.store

theorem rechecks_withId (op : ChannelOp K M) (id : Bytes32) :
    op.rechecks { cs with id := id } = op.rechecks cs := by
  cases op <;> rfl

theorem entry_setChannel : (c.setChannel name cs).entry name = cs := by
  rw [entry, setChannel]
  simp

theorem Saved.headed (saved : c.Saved) {op : ChannelOp K M}
    (placed : c.Placed name (opId S name op (c.entry name))) :
    Headed S name op c (c.ensureId S name) := by
  unfold ChannelWorker.ensureId
  dsimp only
  split
  next blank =>
    have made : opId S name op (c.entry name) = S.channelIdFromName name := by
      simp [opId, blank]
    have same : opId S name op { c.entry name with id := S.channelIdFromName name } =
        opId S name op (c.entry name) := by
      simp [opId, blank, rechecks_withId]
    have now : ((c.setChannel name { c.entry name with id := S.channelIdFromName name }).setIndex
        (S.channelIdFromName name) name).entry name =
        { c.entry name with id := S.channelIdFromName name } := entry_setChannel
    obtain ⟨clean, free, own⟩ := placed
    refine ⟨?_, ⟨clean, ?_, ?_⟩, ?_, ?_, ⟨_, now⟩, rfl⟩
    · refine saved.amend rfl ⟨rfl, rfl, rfl⟩ ⟨rfl, rfl, rfl, fun joined => ⟨?_, rfl⟩⟩
      exact made.symm.trans (own joined).symm
    · intro other x differ found
      rw [now, same]
      exact free other x differ ((Function.update_of_ne differ ..).symm.trans found)
    · intro _
      rw [now, same, made]
    · intro _
      rw [now]
    · rw [now, same]
  next set =>
    exact ⟨saved, placed, fun blank => absurd blank set, rfl, ⟨_, rfl⟩, rfl⟩

/-- An operation that makes no id again leaves the one that the head has made. -/
theorem opId_settled {op : ChannelOp K M} (once : op.rechecks cs = false)
    (settled : unset 3 cs.id = true → cs.id = S.channelIdFromName name) :
    opId S name op cs = cs.id := by
  simp only [opId, once, Bool.false_eq_true, false_and, if_false]
  split
  next blank => exact (settled blank).symm
  · rfl

theorem opId_derived {op : ChannelOp K M} (again : op.rechecks cs = true)
    (settled : unset 3 cs.id = true → cs.id = S.channelIdFromName name) :
    opId S name op cs = (deriveId S name cs).id := by
  have id : (if unset 3 cs.id then S.channelIdFromName name else cs.id) = cs.id := by
    split
    next blank => exact (settled blank).symm
    · rfl
  simp only [opId, id, again, true_and, deriveId]
  split <;> rfl

theorem id_deriveId_of (same : cs.id = cs'.id) :
    (deriveId S name cs).id = (deriveId S name cs').id := by
  simp only [deriveId, same]
  split
  · rfl
  · exact same

/-- An id that is derived once more is not stored by itself. -/
theorem Saved.derived (saved : c.Saved) (placed : c.Placed name (deriveId S name (c.entry name)).id) :
    (c.setChannel name (deriveId S name (c.entry name))).Saved := by
  refine saved.amend rfl ⟨rfl, rfl, rfl⟩ ⟨?_, ?_, ?_, fun joined => ⟨(placed.2.2 joined).symm, ?_⟩⟩
  all_goals
    unfold deriveId
    split <;> rfl

/-- A new group: its seed is written, and there is no log yet under its id. -/
theorem Saved.found (saved : c.Saved) (laws : M.RoundTrips)
    (channels : c'.channels = Function.update c.channels name (some cs'))
    (free : c.Free name cs'.id)
    (own : ∀ cs, c.channels name = some cs → cs.subscribed = true → cs.id = cs'.id)
    {start : MlsStart M} {g : MlsGroup M} (begun : start.begin = .ok g)
    (fits : start.Fits g) (mls : cs'.mls = some g) (seq : cs'.mlsNextSeq = 0)
    (joined : cs'.subscribed = true) (fresh : c.store.mlsGroupLog cs'.id.1 = [])
    (row : RowSaved c'.store name cs')
    (others : ∀ n, n ≠ name → c'.store.chanState[n]? = c.store.chanState[n]?)
    (seeds : c'.store.mlsGroupState =
      Function.update c.store.mlsGroupState cs'.id.1 (some g.seedBlob))
    (log : c'.store.mlsGroupLog = c.store.mlsGroupLog) : c'.Saved := by
  refine saved.put channels free own joined row others (fun _ => ?_) fun id differ => ?_
  · have blank := MlsStart.fresh begun
    rw [GroupSaved, mls]
    refine ⟨MlsStart.replays laws begun fits, ?_, ?_, ?_⟩
    · rw [seeds, Function.update_self]
    · rw [log, fresh, blank]
      rfl
    · rw [seq, blank]
      rfl
  · rw [seeds, log, Function.update_of_ne differ]
    exact ⟨rfl, rfl⟩

theorem Saved.createLocal (saved : c.Saved) (laws : M.RoundTrips) {useMls : Bool}
    {group : CreateDraws M}
    (placed : c.Placed name (if useMls then (deriveId S name cs).id else cs.id))
    (fits : useMls = true → c.store.mlsGroupLog (deriveId S name cs).id.1 = [] ∧
      ∀ g, MlsGroup.create S.me (deriveId S name cs).id group = .ok g →
        g.seedBlob.length < 2 ^ 32) :
    (c.createLocal S name cs useMls group).Saved := by
  unfold ChannelWorker.createLocal
  cases useMls with
  | false =>
    rw [if_pos rfl]
    refine saved.persistChannel placed rfl fun cipher => ?_
    cases cipher
  | true =>
    rw [if_neg (by decide)]
    obtain ⟨fresh, small⟩ := fits rfl
    rw [if_pos rfl] at placed
    have sameId : (deriveId S name { cs with crypto := .kMls }).id = (deriveId S name cs).id := by
      unfold deriveId
      dsimp only
      split <;> rfl
    rw [← sameId] at placed fresh small
    dsimp only
    generalize deriveId S name { cs with crypto := .kMls } = derived at placed fresh small ⊢
    split
    next refused =>
      refine saved.persistChannel placed rfl fun cipher => ?_
      cases cipher
    next g made =>
      have begun : (MlsStart.create S.me derived.id group).begin = .ok g := made
      refine saved.found laws (Function.update_idem ..) placed.2.1 placed.own begun
        ⟨small g made, trivial⟩ rfl rfl rfl fresh (row_persistChannel placed.1) ?_ rfl rfl
      intro n differ
      exact others_persistChannel placed.1 differ

/-- `kSend`, unless it is for a group. -/
theorem Saved.send (saved : c.Saved) (out : ChannelClient.Outgoing)
    (alone : (c.entry name).crypto = .kMls → (c.entry name).mls = none) :
    (c.send S name (c.entry name) out).Saved := by
  unfold ChannelWorker.send
  split
  next g cipher some => simp [alone cipher] at some
  · dsimp only
    split
    · exact saved
    · exact saved.amend rfl ⟨rfl, rfl, rfl⟩ ⟨rfl, rfl, rfl, fun _ => ⟨rfl, rfl⟩⟩

theorem Saved.invite (saved : c.Saved) (draws : ChainDraws K) {hasSession : Bool}
    (placed : c.Placed name (match (c.entry name).crypto with
      | .kMls => (deriveId S name (c.entry name)).id
      | .kSenderKeys => (c.entry name).id))
    (known : (c.entry name).crypto = .kSenderKeys → hasSession = false →
      (c.entry name).subscribed = true) :
    (c.invite S name (c.entry name) draws hasSession).Saved := by
  unfold ChannelWorker.invite
  split
  next cipher =>
    simp only [cipher] at placed
    exact saved.derived placed
  next cipher =>
    simp only [cipher] at placed
    dsimp only
    -- with a chain of its own or with the one that it has
    obtain ⟨session, dist, same⟩ : ∃ session dist, (if (c.entry name).ownDist = [] then
        createOwnSendChain S (c.entry name) draws else c.entry name) =
          { c.entry name with session := session, ownDist := dist } := by
      split
      · exact ⟨_, _, rfl⟩
      · exact ⟨_, _, rfl⟩
    rw [same]
    split
    · refine saved.persistChannel placed rfl fun cipher' => ?_
      cases cipher.symm.trans cipher'
    next waits =>
      rw [Bool.not_eq_true] at waits
      have joined := known cipher waits
      exact saved.amend rfl ⟨rfl, rfl, rfl⟩ ⟨joined.symm, rfl, rfl, fun _ => ⟨rfl, rfl⟩⟩

theorem Saved.perform (saved : c.Saved) (laws : M.RoundTrips) {op : ChannelOp K M}
    (durable : c.Durable S (.op name op)) : (c.perform S name op).Saved := by
  obtain ⟨placed, holds⟩ := durable
  have headed := saved.headed placed
  unfold ChannelWorker.perform
  dsimp only
  generalize c.ensureId S name = c₁ at headed ⊢
  obtain ⟨saved₁, placed₁, settled, sameId, ⟨id, here⟩, store⟩ := headed
  have kept (cs' : Channel K M) (sameId : cs'.id = (c₁.entry name).id)
      (placed : c₁.Placed name (c₁.entry name).id) (joined : cs'.subscribed = true)
      (cipher : cs'.crypto = (c₁.entry name).crypto) (mls : cs'.mls = (c₁.entry name).mls)
      (seq : cs'.mlsNextSeq = (c₁.entry name).mlsNextSeq) : (c₁.persistChannel name cs').Saved := by
    have placed' : c₁.Placed name cs'.id := sameId ▸ placed
    refine saved₁.persistChannel placed' joined fun kind => ?_
    exact saved₁.group_of placed' mls seq fun _ => cipher.symm.trans kind
  cases op with
  | create draws written =>
    rw [opId_settled rfl settled] at placed₁
    dsimp only
    split
    · exact kept _ rfl placed₁ rfl rfl rfl rfl
    · exact saved₁.amend rfl ⟨rfl, rfl, rfl⟩ ⟨rfl, rfl, rfl, fun _ => ⟨rfl, rfl⟩⟩
  | createLocal useMls draws group =>
    dsimp only
    obtain ⟨cs', made, sameId'⟩ : ∃ cs', (if (c₁.entry name).ownDist = [] then
        createOwnSendChain S (c₁.entry name) draws else c₁.entry name) = cs' ∧
          cs'.id = (c₁.entry name).id := by
      split
      · exact ⟨_, rfl, rfl⟩
      · exact ⟨_, rfl, rfl⟩
    rw [made]
    have derived : (deriveId S name cs').id = (deriveId S name (c₁.entry name)).id := by
      rw [id_deriveId_of sameId']
    refine saved₁.createLocal laws ?_ fun mls => ?_
    · cases useMls with
      | false =>
        rw [opId_settled rfl settled] at placed₁
        exact sameId'.symm ▸ placed₁
      | true =>
        rw [opId_derived rfl settled] at placed₁
        exact derived.symm ▸ placed₁
    · subst mls
      have again : opId S name (.createLocal true draws group) (c₁.entry name) =
        (deriveId S name (c₁.entry name)).id := opId_derived rfl settled
      rw [store, derived, ← again, sameId]
      exact holds rfl
  | join file =>
    rw [opId_settled rfl settled] at placed₁
    cases file with
    | none => exact saved₁
    | some dist => exact kept _ rfl placed₁ rfl rfl rfl rfl
  | send out =>
    dsimp only
    split
    · exact saved₁
    · refine saved₁.send out ?_
      rw [here]
      exact holds
  | leave =>
    rw [opId_settled rfl settled] at placed₁
    exact saved₁.leave rfl placed₁.1 placed₁.2.1
  | roomJoin =>
    rw [opId_derived rfl settled] at placed₁
    exact saved₁.derived placed₁
  | roomLeave =>
    rw [opId_derived rfl settled] at placed₁
    exact saved₁.derived placed₁
  | invite draws hasSession =>
    refine saved₁.invite draws ?_ ?_
    · cases cipher : (c₁.entry name).crypto with
      | kMls =>
        rw [opId_derived (by simp only [ChannelOp.rechecks, cipher]) settled] at placed₁
        exact placed₁
      | kSenderKeys =>
        rw [opId_settled (by simp only [ChannelOp.rechecks, cipher]) settled] at placed₁
        exact placed₁
    · rw [here]
      exact holds

/-! ### Payloads and envelopes -/

theorem numbered_new (ops : List Bytes) : (numbered ops).any (·.1 = ops.length) = false := by
  rw [List.any_eq_false]
  intro row member
  simpa using (lt_of_mem_numbered member).ne

/-- The record of a call is appended behind the last one. -/
theorem Saved.logged (saved : c.Saved) {g g' : MlsGroup M} {op : MlsOp}
    (held : (c.entry name).mls = some g) (returned : g.Returns op g') (fits : op.Fits) :
    ((c.setChannel name { c.entry name with mls := some g' }).persistMlsLastOp name
      { c.entry name with mls := some g' }).1.Saved := by
  have joined : (c.entry name).subscribed = true := by
    by_contra not
    rw [Bool.not_eq_true] at not
    simp [saved.mls_none not] at held
  have here := entry_subscribed joined
  have row := saved.rows name _ here joined
  have free := saved.apart name _ here joined
  have own (x : Channel K M) (found : c.channels name = some x) : x.id = (c.entry name).id := by
    rw [entry_of found]
  have stored (cipher : (c.entry name).crypto = .kMls) := saved.groups name _ here joined cipher
  obtain ⟨s, reply, -, rfl⟩ := MlsGroup.returns_iff.mp returned
  simp only [GroupSaved, held] at stored
  unfold persistMlsLastOp
  simp only [Option.bind_some, MlsGroup.operationLog, List.getLast?_concat]
  split
  next taken =>
    refine saved.put rfl free (fun x found _ => own x found) joined row (fun _ _ => rfl)
      (fun cipher => ?_) fun _ _ => ⟨rfl, rfl⟩
    obtain ⟨-, -, log, seq⟩ := stored cipher
    simp [setChannel, log, seq, numbered_new] at taken
  · refine saved.put (Function.update_idem ..) free (fun x found _ => own x found) joined row
      (fun _ _ => rfl) (fun cipher => ?_) fun id differ => ?_
    · obtain ⟨replays, seed, log, seq⟩ := stored cipher
      refine ⟨replays.step returned fits, seed, ?_, ?_⟩
      · dsimp only [setChannel]
        rw [Function.update_self, log, seq, numbered_concat]
      · simp [seq]
    · exact ⟨rfl, Function.update_of_ne differ ..⟩

theorem Saved.mutateMls (saved : c.Saved) (keeps : M.HandleKeeps) {op : MlsOp} (fits : op.Fits)
    (fine : ∀ g, (c.entry name).mls = some g → ¬g.TakesProposal op) :
    (c.mutateMls name op).1.Saved := by
  unfold ChannelWorker.mutateMls
  dsimp only
  split
  · exact saved
  next g held =>
    rcases MlsGroup.mutate_cases g op with ⟨g', ⟨reply, returned⟩, -⟩ | ⟨s, e, -, left⟩
    · rw [returned]
      exact saved.logged held ⟨reply, returned⟩ fits
    · have same := ((MlsGroup.unchanged_iff keeps).mpr (fine g held) _ _ left).1
      dsimp only at same
      rw [left, same]
      exact saved.amend rfl ⟨rfl, rfl, rfl⟩ ⟨rfl, held.symm, rfl, fun _ => ⟨rfl, rfl⟩⟩

/-- `operator[]` makes an entry at most. -/
theorem Saved.touch (saved : c.Saved) (name : Bytes) : (c.setChannel name (c.entry name)).Saved :=
  saved.amend rfl ⟨rfl, rfl, rfl⟩ ⟨rfl, rfl, rfl, fun _ => ⟨rfl, rfl⟩⟩

theorem Saved.withGroup (saved : c.Saved) (id : Bytes32) {handle : Bytes → ChannelWorker K M}
    (handled : ∀ name, c.chanIdToName id = some name → (handle name).Saved) :
    (c.withGroup id handle).Saved := by
  unfold ChannelWorker.withGroup
  split
  · exact saved
  next name found =>
    split
    · exact saved
    split
    · exact saved.touch name
    · exact handled name found

theorem Saved.onMlsKeyPackage (saved : c.Saved) (keeps : M.HandleKeeps) (id : Bytes32)
    {keyPackage leafSecret : Bytes} (fits : (MlsOp.proposeAdd keyPackage).Fits)
    (fits' : (MlsOp.commitPending leafSecret).Fits) :
    (c.onMlsKeyPackage id keyPackage leafSecret).Saved := by
  refine saved.withGroup id fun name _ => ?_
  have proposed : (c.mutateMls name (.proposeAdd keyPackage)).1.Saved := by
    refine saved.mutateMls keeps fits fun g _ => ?_
    rintro ⟨wire, msg, s', other, -⟩
    cases other
  dsimp only
  split
  · refine proposed.mutateMls keeps fits' fun g _ => ?_
    rintro ⟨wire, msg, s', other, -⟩
    cases other
  · exact proposed

/-- A key comes in: the row is written with what it says. -/
theorem Saved.onChannelKey (saved : c.Saved) (senderPub dist : Bytes) {id : Bytes32}
    (placed : c.Placed name id) : (c.onChannelKey S senderPub id name dist).Saved := by
  have stored (n : Bytes) : (c.onChannelKey S senderPub id name dist).store.chanState[n]? =
      if name = n then some ⟨id.1, dist, (c.entry name).crypto⟩ else c.store.chanState[n]? := by
    simp only [ChannelWorker.onChannelKey, persistChanSession, persistChanPeerDist, persistChanMeta,
      setChannel, setIndex, ExtTreeMap.getElem?_insert, cstr_of_not_mem placed.1,
      Std.compare_eq_iff_eq]
  refine saved.put rfl placed.2.1 placed.own rfl ⟨_, (stored name).trans (if_pos rfl), rfl, rfl⟩ ?_
    (fun cipher => ?_) fun _ _ => ⟨rfl, rfl⟩
  · intro n differ
    exact (stored n).trans (if_neg (Ne.symm differ))
  · exact saved.group_of placed rfl rfl fun _ => cipher

theorem Saved.onMlsInviteRequest (saved : c.Saved) {id : Bytes32} {join : Option (JoinerKeys M)}
    (known : (c.entry name).subscribed = true → (c.entry name).crypto = .kMls ∧
      (unset 2 (c.entry name).id = true → (c.entry name).id = id)) :
    (c.onMlsInviteRequest S id name join).Saved := by
  unfold ChannelWorker.onMlsInviteRequest
  dsimp only
  -- the id is taken over at most, and the index is not stored
  by_cases blank : unset 2 (c.entry name).id = true
  · simp only [if_pos blank]
    have record (pending : Option (PendingMlsJoin M)) : SameRecord (c.entry name)
        { c.entry name with id := id, crypto := .kMls, pendingJoin := pending } :=
      ⟨rfl, rfl, rfl, fun joined => ⟨((known joined).2 blank).symm, (known joined).1.symm⟩⟩
    split
    · exact saved.amend rfl ⟨rfl, rfl, rfl⟩ (record _)
    · exact saved.amend rfl ⟨rfl, rfl, rfl⟩ (record _)
  · simp only [if_neg blank]
    have record (pending : Option (PendingMlsJoin M)) : SameRecord (c.entry name)
        { c.entry name with crypto := .kMls, pendingJoin := pending } :=
      ⟨rfl, rfl, rfl, fun joined => ⟨rfl, (known joined).1.symm⟩⟩
    split
    · exact saved.amend rfl ⟨rfl, rfl, rfl⟩ (record _)
    · exact saved.amend rfl ⟨rfl, rfl, rfl⟩ (record _)

/-- A Welcome for a channel that has its row already. -/
theorem Saved.onMlsWelcome (saved : c.Saved) (laws : M.RoundTrips) {id : Bytes32} {welcome : Bytes}
    (known : ∀ join g, (c.entry name).pendingJoin = some join →
      MlsGroup.complete join welcome = .ok g → (c.entry name).subscribed = true ∧
        (c.entry name).crypto = .kMls ∧ c.store.mlsGroupLog (c.entry name).id.1 = [] ∧
          (MlsStart.join join welcome).Fits g) : (c.onMlsWelcome id name welcome).Saved := by
  unfold ChannelWorker.onMlsWelcome
  dsimp only
  split
  · exact saved.touch name
  next join waiting =>
    split
    · exact saved.touch name
    next g completed =>
      obtain ⟨joined, cipher, fresh, fits⟩ := known join g waiting completed
      have here := entry_subscribed joined
      obtain ⟨row, stored, rowId, rowCipher⟩ := saved.rows name _ here joined
      have begun : (MlsStart.join join welcome).begin = .ok g := completed
      have free := saved.apart name _ here joined
      refine saved.found laws (Function.update_idem ..) free (fun x found _ => ?_) begun fits rfl rfl rfl
        fresh ⟨row, stored, rowId, rowCipher.trans cipher⟩ (fun _ _ => rfl) rfl rfl
      rw [entry_of found]

theorem Saved.receive (saved : c.Saved) (laws : M.RoundTrips) (keeps : M.HandleKeeps)
    {senderPub : Bytes} {payload : ChannelPayload} {draws : PayloadDraws M}
    (durable : c.Durable S (.payload senderPub payload draws)) :
    (c.receive S senderPub draws payload).Saved := by
  cases payload with
  | channelKey id name dist =>
    simp only [ChannelWorker.receive]
    split
    next sized => exact saved.onChannelKey senderPub dist (durable sized)
    · exact saved
  | mlsInviteRequest id name =>
    simp only [ChannelWorker.receive]
    split
    next sized => exact saved.onMlsInviteRequest (durable sized)
    · exact saved
  | mlsKeyPackage id keyPackage =>
    simp only [ChannelWorker.receive]
    split
    · exact saved.onMlsKeyPackage keeps _ durable.1 durable.2
    · exact saved
  | mlsWelcome id name welcome =>
    simp only [ChannelWorker.receive]
    split
    · exact saved.onMlsWelcome laws durable
    · exact saved
  | mlsCommit id commit =>
    obtain ⟨fits, fine⟩ := durable
    simp only [ChannelWorker.receive]
    split
    next sized =>
      exact saved.withGroup _ fun name found =>
        saved.mutateMls keeps fits fun g held => fine ⟨id, sized⟩ name g rfl found held
    · exact saved
  | mlsProposal id proposal =>
    simp only [ChannelWorker.receive]
    split
    · refine saved.withGroup _ fun name _ => saved.mutateMls keeps durable fun g _ => ?_
      rintro ⟨wire, msg, s', other, -⟩
      cases other
    · exact saved
  | other => exact saved

theorem openEnvelope_session {env : Envelope} (alone : cs.crypto = .kMls → ¬cs.mls ≠ none) :
    ∃ session pt, openEnvelope S cs env = ({ cs with session := session }, pt) := by
  unfold openEnvelope
  split
  next g cipher held => exact absurd (by simp [held]) (alone cipher)
  · exact ⟨_, _, rfl⟩

/-- An envelope changes the session of a channel, unless it is for a group. -/
theorem Saved.dispatchChannel (saved : c.Saved) {env : Envelope} (alone : ¬c.ForGroup env) :
    (c.dispatchChannel S env).Saved := by
  unfold ChannelWorker.dispatchChannel
  split
  next gid recipient =>
    split
    · exact saved
    split
    next sized =>
      split
      · exact saved
      next name found =>
        dsimp only
        split
        · exact saved.amend rfl ⟨rfl, rfl, rfl⟩ ⟨rfl, rfl, rfl, fun _ => ⟨rfl, rfl⟩⟩
        · have session (s : GroupSession K) : ∃ s' pt, openEnvelope S { c.entry name with session := s }
              env = ({ c.entry name with session := s' }, pt) :=
            openEnvelope_session fun cipher held => alone ⟨⟨gid, sized⟩, name, recipient, found, cipher, held⟩
          obtain ⟨s', pt, opened⟩ := session _
          rw [opened]
          cases pt with
          | none => exact saved.amend rfl ⟨rfl, rfl, rfl⟩ ⟨rfl, rfl, rfl, fun _ => ⟨rfl, rfl⟩⟩
          | some _ => exact saved.amend rfl ⟨rfl, rfl, rfl⟩ ⟨rfl, rfl, rfl, fun _ => ⟨rfl, rfl⟩⟩
    · exact saved
  · exact saved

/-! ### Restart -/

/-- Seed and log are loaded with the number of the next record. -/
theorem mlsGroupLoad_numbered {store : ChannelTables K} {id : Bytes} {g : MlsGroup M}
    (seed : store.mlsGroupState id = some g.seedBlob) (log : store.mlsGroupLog id = numbered g.opLog) :
    mlsGroupLoad store id = some (g.seedBlob, g.opLog, g.opLog.length) := by
  simp only [mlsGroupLoad, seed, log, numbered_sorted, numbered_values, numbered_next]

/-- A group comes back as it was. -/
theorem restoreChannel_group {store : ChannelTables K} {row : StoredChannel} (cipher : row.crypto = .kMls)
    (id : row.channelId = cs.id.1) (group : GroupSaved store cs) :
    (restoreChannel S store name row cs.id).mls = cs.mls ∧
      GroupSaved store (restoreChannel S store name row cs.id) := by
  cases held : cs.mls with
  | none =>
    simp only [GroupSaved, held] at group
    have loaded : mlsGroupLoad store row.channelId = none := by
      simp only [mlsGroupLoad, id, group]
    simp only [restoreChannel, cipher, loaded, GroupSaved]
    exact ⟨trivial, group⟩
  | some g =>
    simp only [GroupSaved, held] at group
    obtain ⟨replays, seed, log, -⟩ := group
    have loaded := mlsGroupLoad_numbered (id ▸ seed) (id ▸ log)
    have rebuilt : MlsGroup.fromSeedAndLog M g.seedBlob g.opLog = .ok g := replays
    simp only [restoreChannel, cipher, loaded, rebuilt, GroupSaved]
    exact ⟨trivial, replays, seed, log, trivial⟩

theorem Saved.restored (saved : c.Saved) (here : c.channels name = some cs)
    (joined : cs.subscribed = true) : ∃ cs', (c.restart S).channels name = some cs' ∧
      cs'.subscribed = true ∧ cs'.id = cs.id ∧ cs'.crypto = cs.crypto ∧
        (cs.crypto = .kMls → cs'.mls = cs.mls ∧ GroupSaved c.store cs') := by
  obtain ⟨row, stored, id, cipher⟩ := saved.rows name cs here joined
  have sized : row.channelId.length = 32 := id ▸ cs.id.2
  have same : (⟨row.channelId, sized⟩ : Bytes32) = cs.id := Subtype.ext id
  refine ⟨_, channels_restart stored sized, rfl, same, cipher, fun kind => ?_⟩
  rw [same]
  exact restoreChannel_group (cipher.trans kind) id (saved.groups name cs here joined kind)

/-- What is there after a restart had been joined before it. -/
theorem Saved.restored_inv (saved : c.Saved) (there : (c.restart S).channels name = some cs') :
    ∃ cs, c.channels name = some cs ∧ cs.subscribed = true ∧ cs'.subscribed = true ∧
      cs'.id = cs.id ∧ cs'.crypto = cs.crypto ∧ (cs.crypto = .kMls → GroupSaved c.store cs') := by
  obtain ⟨row, stored⟩ : ∃ row, c.store.chanState[name]? = some row := by
    rw [← Option.isSome_iff_exists]
    by_contra missing
    rw [Bool.not_eq_true, Option.isSome_eq_false_iff, Option.isNone_iff_eq_none] at missing
    simp [ChannelWorker.restart, missing] at there
  obtain ⟨cs, here, joined⟩ := saved.owners name row stored
  obtain ⟨x, built, subscribed, id, cipher, group⟩ := saved.restored (S := S) here joined
  obtain rfl := Option.some.inj (built.symm.trans there)
  exact ⟨cs, here, joined, subscribed, id, cipher, fun kind => (group kind).2⟩

theorem Saved.restart (saved : c.Saved) : (c.restart S).Saved := by
  constructor
  · intro n x there _
    obtain ⟨cs, here, joined, -, id, cipher, -⟩ := saved.restored_inv there
    obtain ⟨row, stored, rowId, rowCipher⟩ := saved.rows n cs here joined
    exact ⟨row, stored, rowId.trans (congrArg Subtype.val id.symm), rowCipher.trans cipher.symm⟩
  · intro n row stored
    obtain ⟨cs, here, joined⟩ := saved.owners n row stored
    obtain ⟨x, built, subscribed, -⟩ := saved.restored (S := S) here joined
    exact ⟨x, built, subscribed⟩
  · intro n x there _ n' y differ there' _
    obtain ⟨cs, here, joined, -, id, -⟩ := saved.restored_inv there
    obtain ⟨cs', here', joined', -, id', -⟩ := saved.restored_inv there'
    rw [id, id']
    exact saved.apart n cs here joined n' cs' differ here' joined'
  · intro n x there _ kind
    obtain ⟨cs, -, -, -, -, cipher, group⟩ := saved.restored_inv there
    exact group (cipher.symm.trans kind)
  · intro n x there _
    obtain ⟨cs, -, -, subscribed, -⟩ := saved.restored_inv there
    exact subscribed
  · intro id nobody
    refine saved.clean id fun n cs here joined => ?_
    obtain ⟨x, built, subscribed, same, -⟩ := saved.restored (S := S) here joined
    exact same ▸ nobody n x built subscribed

theorem Saved.step (laws : M.RoundTrips) (keeps : M.HandleKeeps) (saved : c.Saved)
    {event : ChannelEvent K M} (taken : Guarded (Step S) (Durable S) c event c') : c'.Saved := by
  obtain ⟨durable, rfl⟩ := taken
  cases event with
  | op name op => exact saved.perform laws durable
  | payload senderPub payload draws => exact saved.receive laws keeps durable
  | envelope env => exact saved.dispatchChannel durable
  | restart => exact saved.restart

end

/-- Every channel that has been joined comes back with its id, its kind and its group. -/
def Survives (S : ChannelSetup K M) (c : ChannelWorker K M) : Prop :=
  ∀ name cs, c.channels name = some cs → cs.subscribed = true →
    ∃ cs', (c.restart S).channels name = some cs' ∧ cs'.id = cs.id ∧ cs'.crypto = cs.crypto ∧
      (cs.crypto = .kMls → cs'.mls = cs.mls)

/-- As long as a channel is joined only where its row is written, and a group changes only where its
log does, every state survives a restart. -/
theorem channels_survive_restart (S : ChannelSetup K M) (laws : M.RoundTrips) (keeps : M.HandleKeeps)
    (events : List (ChannelEvent K M)) (c : ChannelWorker K M)
    (run : Run (Guarded (Step S) (Durable S)) new events c) : c.Survives S := by
  have saved : c.Saved := run.invariant Saved (fun _ _ _ saved taken => saved.step laws keeps taken)
    saved_new
  intro name cs here joined
  obtain ⟨cs', built, -, id, cipher, group⟩ := saved.restored (S := S) here joined
  exact ⟨cs', built, id, cipher, fun kind => (group kind).1⟩

/-! ### A Welcome, and a group with a member -/

private def teamId : Bytes32 := .filled 1

private noncomputable def teamSetup : ChannelSetup Nat Mlspp.tally where
  senderKeys := .nat
  me := zeros
  channelIdFromName _ := teamId
  unprotect s _ := (s, .error "")

private def team : Bytes := ascii "team"

private def host : Bytes := List.replicate 32 9

private def invited : ChannelEvent Nat Mlspp.tally :=
  .payload host (.mlsInviteRequest teamId.1 team) ⟨some ⟨[3], [5], [4], [6]⟩, []⟩

private def welcomed : ChannelEvent Nat Mlspp.tally :=
  .payload host (.mlsWelcome teamId.1 team [1, 7]) ⟨none, []⟩

/-- An invitation is answered and its Welcome arrives: the channel has been joined, and after the next
start it is not there. -/
theorem welcome_lost_at_restart :
    ∃ (S : ChannelSetup Nat Mlspp.tally) (events : List (ChannelEvent Nat Mlspp.tally))
      (c : ChannelWorker Nat Mlspp.tally) (cs : Channel Nat Mlspp.tally),
      Run (Step S) new events c ∧ c.channels (ascii "team") = some cs ∧ cs.subscribed = true ∧
        cs.mls ≠ none ∧ (c.restart S).channels (ascii "team") = none ∧ ¬c.Survives S := by
  let c : ChannelWorker Nat Mlspp.tally := (new.handle teamSetup invited).handle teamSetup welcomed
  obtain ⟨cs, here, joined, group⟩ : ∃ cs, c.channels team = some cs ∧ cs.subscribed = true ∧
      cs.mls.isSome = true := ⟨_, rfl, rfl, rfl⟩
  -- the row of the channel is missing
  have bare : c.store.chanState = ∅ := rfl
  have gone : (c.restart teamSetup).channels team = none := by
    simp [ChannelWorker.restart, bare]
  refine ⟨teamSetup, [invited, welcomed], c, cs, .cons rfl (.cons rfl (.nil _)), here, joined, ?_, gone,
    ?_⟩
  · intro none
    simp [none] at group
  · intro survives
    obtain ⟨cs', built, -⟩ := survives team cs here joined
    cases gone.symm.trans built

private def founded : ChannelEvent Nat Mlspp.tally :=
  .op team (.createLocal true ⟨List.replicate 16 0, 5⟩ tallyDraws)

private def enlarged : ChannelEvent Nat Mlspp.tally :=
  .payload host (.mlsKeyPackage teamId.1 [1, 7]) ⟨none, [9]⟩

/-- A group is created and takes in a member: it comes back with both records. -/
theorem channels_survive_restart_team :
    ∃ (c : ChannelWorker Nat Mlspp.tally) (cs cs' : Channel Nat Mlspp.tally) (g : MlsGroup Mlspp.tally),
      Run (Guarded (Step teamSetup) (Durable teamSetup)) new [founded, enlarged] c ∧
      c.channels (ascii "team") = some cs ∧ cs.mls = some g ∧ g.opLog.length = 2 ∧
      (c.restart teamSetup).channels (ascii "team") = some cs' ∧ cs'.id = cs.id ∧ cs'.mls = some g := by
  let c : ChannelWorker Nat Mlspp.tally := (new.handle teamSetup founded).handle teamSetup enlarged
  obtain ⟨cs, g, here, joined, kind, held, records⟩ : ∃ cs g, c.channels team = some cs ∧
      cs.subscribed = true ∧ cs.crypto = .kMls ∧ cs.mls = some g ∧ g.opLog.length = 2 :=
    ⟨_, _, rfl, rfl, rfl, rfl, rfl⟩
  have first : Durable teamSetup new founded := by
    refine ⟨⟨by decide, ?_, ?_⟩, fun _ => ⟨rfl, fun g made => ?_⟩⟩
    · intro other x differ found
      cases found
    · intro joined
      cases joined
    · obtain ⟨state, -, rfl⟩ := MlsGroup.create_eq_ok.mp made
      change (encodeCreatorSeed teamId.1 zeros.1 [1, 4] [1, 5] zeros.1 [1, 6]).length < 2 ^ 32
      simp [encodeCreatorSeed, encodeSeed, seedHeader, teamId, zeros]
  have second : Durable teamSetup (new.handle teamSetup founded) enlarged := by
    refine ⟨?_, ?_⟩
    · rw [MlsOp.Fits]
      decide
    · rw [MlsOp.Fits]
      decide
  have run : Run (Guarded (Step teamSetup) (Durable teamSetup)) new [founded, enlarged] c :=
    .cons ⟨first, rfl⟩ (.cons ⟨second, rfl⟩ (.nil _))
  obtain ⟨cs', built, id, cipher, group⟩ := channels_survive_restart teamSetup Mlspp.tally_roundTrips
    Mlspp.tally_handleKeeps _ _ run team cs here joined
  exact ⟨c, cs, cs', g, run, here, held, records, built, id, (group kind).trans held⟩

end ChannelWorker

end FinBit.Desktop
