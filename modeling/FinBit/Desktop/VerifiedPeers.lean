import FinBit.Crypto.MlsFacade
import FinBit.Lib.ReadThrough
import FinBit.Lib.Runs
import FinBit.Lib.SqlView
import FinBit.Store.SqliteStore

/-! # The verified mark

A user who has compared the safety number with a peer marks the peer's key. The mark is kept in
the table `peer_verified` and in a map in memory. When another key turns up under a name, the
mark of the old key is taken off: of the one that was learned last, and in the table only.
-/

namespace FinBit.Desktop

open FinBit.Lib FinBit.Crypto Sql Store

structure VerifiedPeers where
  verifiedPeers : Bytes32 → Option Bool
  store : SqliteStore
  /-- `peer_verified`, by `peer_pub`, with `verified_at_ms`; the value is `verified`. -/
  peerVerified : Table (Option Bytes) Int64 Bool

namespace VerifiedPeers

variable (P : StoreCrypto) (w : VerifiedPeers)

/-- After the store has been opened. -/
def opened (store : SqliteStore) (peerVerified : Table (Option Bytes) Int64 Bool) : VerifiedPeers :=
  ⟨fun _ => none, store, peerVerified⟩

/-- `SqliteStore::set_peer_verified`. -/
def storeSetPeerVerified (peerPub : Bytes) (verified : Bool) (atMs : Int64) : VerifiedPeers :=
  { w with peerVerified := w.peerVerified.upsert ⟨column (.of peerPub), atMs, verified⟩ }

/-- `SqliteStore::peer_verified`. -/
def storePeerVerified (peerPub : Bytes) : Bool :=
  match w.peerVerified.find [bindBlob (.of peerPub)] with
  | none => false
  | some row => row.value

/-- The map first, then the store; what the store says is put into the map. -/
def isPeerVerified (peerPub : Bytes) : VerifiedPeers × Bool :=
  if sized : peerPub.length = 32 then
    match w.verifiedPeers ⟨peerPub, sized⟩ with
    | some verified => (w, verified)
    | none =>
      let persisted := w.storePeerVerified peerPub
      ({ w with verifiedPeers :=
          Function.update w.verifiedPeers ⟨peerPub, sized⟩ (some persisted) }, persisted)
  else (w, false)

def setPeerVerified (peerPub : Bytes) (verified : Bool) (nowMs : Int64) : VerifiedPeers :=
  if sized : peerPub.length = 32 then
    { w with verifiedPeers :=
        Function.update w.verifiedPeers ⟨peerPub, sized⟩ (some verified) }.storeSetPeerVerified
      peerPub verified nowMs
  else w

/-- The keys, other than this one, that are cached under the name, the last one learned first. -/
def priorKeys (username : Bytes) (newPub : Bytes32) : List Bytes :=
  (w.store.peerPubkeysForUsername P username).filter fun oldPub =>
    oldPub.length = 32 ∧ oldPub ≠ newPub.1

/-- `detect_pubkey_change`: the loop returns at the first key that differs. -/
def detectPubkeyChange (username : Bytes) (newPub : Bytes32) : VerifiedPeers :=
  if username = [] then w
  else
    match w.priorKeys P username newPub with
    | [] => w
    | oldPub :: _ => w.storeSetPeerVerified oldPub false 0

/-- `cache_peer_name`, which follows where a change is looked for. -/
def cachePeerName (draws : Store.Draws) (nowMs : Int64) (peerPub : Bytes32) (username : Bytes) :
    VerifiedPeers :=
  { w with store := w.store.cachePeerName P draws nowMs (.of peerPub.1) username }

end VerifiedPeers

inductive VerifiedEvent where
  | setPeerVerified (peerPub : Bytes) (verified : Bool) (nowMs : Int64)
  | isPeerVerified (peerPub : Bytes)
  | detectPubkeyChange (username : Bytes) (newPub : Bytes32)
  | cachePeerName (draws : Store.Draws) (nowMs : Int64) (peerPub : Bytes32) (username : Bytes)
  | restart

namespace VerifiedPeers

variable (P : StoreCrypto)

def handle (w : VerifiedPeers) : VerifiedEvent → VerifiedPeers
  | .setPeerVerified peerPub verified nowMs => w.setPeerVerified peerPub verified nowMs
  | .isPeerVerified peerPub => (w.isPeerVerified peerPub).1
  | .detectPubkeyChange username newPub => w.detectPubkeyChange P username newPub
  | .cachePeerName draws nowMs peerPub username => w.cachePeerName P draws nowMs peerPub username
  | .restart => opened w.store w.peerVerified

def Step (w : VerifiedPeers) (event : VerifiedEvent) (w' : VerifiedPeers) : Prop :=
  w' = w.handle P event

/-- What is reported of a key is what is stored of it. -/
def Truthful (w : VerifiedPeers) : Prop :=
  ∀ key : Bytes32, (w.isPeerVerified key.1).2 = w.storePeerVerified key.1

/-- No key under the name but this one is reported as verified. -/
def OnlyNew (w : VerifiedPeers) (username : Bytes) (newPub : Bytes32) : Prop :=
  ∀ oldPub ∈ w.store.peerPubkeysForUsername P username, oldPub ≠ newPub.1 →
    (w.isPeerVerified oldPub).2 = false

/-- Of the keys that another one replaces, only the one learned last is marked, and nothing has
been asked or set of it since the start. -/
def Clearable (w : VerifiedPeers) (username : Bytes) (newPub : Bytes32) : Prop :=
  ∀ oldPub : Bytes32, oldPub.1 ∈ w.priorKeys P username newPub → w.storePeerVerified oldPub.1 = true →
    username ≠ [] ∧ (w.priorKeys P username newPub).head? = some oldPub.1 ∧
      w.verifiedPeers oldPub = none

/-! ### The map as a copy -/

/-- The map and the table, by key. -/
def copies (w : VerifiedPeers) : ReadThrough Bytes32 Bool :=
  ⟨w.verifiedPeers, fun key => w.storePeerVerified key.1⟩

section

variable {P} {w w' : VerifiedPeers}

theorem storePeerVerified_set (peerPub : Bytes) (verified : Bool) (atMs : Int64) (key : Bytes) :
    (w.storeSetPeerVerified peerPub verified atMs).storePeerVerified key =
      if key = peerPub then verified else w.storePeerVerified key := by
  unfold storePeerVerified storeSetPeerVerified
  dsimp only
  by_cases same : key = peerPub
  · subst same
    have found := w.peerVerified.find_upsert (r := ⟨column (.of key), atMs, verified⟩)
      (by simp [columns])
    have bound : columns (column (.of key)) = [bindBlob (.of key)] := rfl
    rw [if_pos rfl, ← bound, found]
  · rw [if_neg same, w.peerVerified.find_upsert_other]
    simp [columns, bindBlob, matchAll, Value.equals, Ne.symm same]

theorem copies_setPeerVerified (peerPub : Bytes32) (verified : Bool) (nowMs : Int64) :
    (w.setPeerVerified peerPub.1 verified nowMs).copies = w.copies.write peerPub verified := by
  unfold setPeerVerified
  rw [dif_pos peerPub.2]
  unfold copies ReadThrough.write
  congr 1
  funext key
  rw [storePeerVerified_set]
  by_cases same : key = peerPub
  · simp [same]
  · rw [Function.update_of_ne same, if_neg fun eq => same (Subtype.ext eq)]
    rfl

/-- What is written to the table goes past the map. -/
theorem copies_storeSet (peerPub : Bytes32) (verified : Bool) (atMs : Int64) :
    (w.storeSetPeerVerified peerPub.1 verified atMs).copies =
      w.copies.writePast peerPub verified := by
  unfold copies ReadThrough.writePast
  congr 1
  funext key
  rw [storePeerVerified_set]
  by_cases same : key = peerPub
  · simp [same]
  · rw [Function.update_of_ne same, if_neg fun eq => same (Subtype.ext eq)]

theorem isPeerVerified_snd (key : Bytes32) : (w.isPeerVerified key.1).2 = w.copies.value key := by
  unfold isPeerVerified ReadThrough.value copies
  rw [dif_pos key.2]
  dsimp only
  cases held : w.verifiedPeers key <;> rfl

theorem copies_isPeerVerified (key : Bytes32) :
    (w.isPeerVerified key.1).1.copies = w.copies.fetch key := by
  unfold isPeerVerified ReadThrough.fetch ReadThrough.value copies
  rw [dif_pos key.2]
  dsimp only
  cases held : w.verifiedPeers key with
  | none => rfl
  | some verified =>
    simp only [Option.getD_some]
    rw [← held, Function.update_eq_self]

theorem isPeerVerified_short {key : Bytes} (short : key.length ≠ 32) :
    w.isPeerVerified key = (w, false) := by
  rw [isPeerVerified, dif_neg short]

theorem truthful_iff : w.Truthful ↔ w.copies.Coherent := by
  unfold Truthful ReadThrough.Coherent
  simp only [isPeerVerified_snd]
  rfl

theorem onlyNew_iff {username : Bytes} {newPub : Bytes32} : w.OnlyNew P username newPub ↔
    ∀ key : Bytes32, key.1 ∈ w.priorKeys P username newPub → w.copies.value key = false := by
  constructor
  · intro only key prior
    obtain ⟨cached, facts⟩ := List.mem_filter.mp prior
    rw [← isPeerVerified_snd]
    exact only key.1 cached (of_decide_eq_true facts).2
  · intro only oldPub cached differ
    by_cases sized : oldPub.length = 32
    · rw [isPeerVerified_snd ⟨oldPub, sized⟩]
      exact only _ (List.mem_filter.mpr ⟨cached, decide_eq_true ⟨sized, differ⟩⟩)
    · rw [isPeerVerified_short sized]

theorem detectPubkeyChange_of_prior {username oldPub : Bytes} {newPub : Bytes32} {rest : List Bytes}
    (named : username ≠ []) (prior : w.priorKeys P username newPub = oldPub :: rest) :
    w.detectPubkeyChange P username newPub = w.storeSetPeerVerified oldPub false 0 := by
  rw [detectPubkeyChange, if_neg named, prior]

/-- What is right after a change has been looked for, exactly. -/
theorem detectPubkeyChange_iff (truthful : w.Truthful) (username : Bytes) (newPub : Bytes32) :
    (w.detectPubkeyChange P username newPub).Truthful ∧
        (w.detectPubkeyChange P username newPub).OnlyNew P username newPub ↔
      w.Clearable P username newPub := by
  have coherent := truthful_iff.mp truthful
  -- a mark that is stored is shown, where nothing is done
  have idle (none : w.OnlyNew P username newPub) : w.Clearable P username newPub := by
    intro key prior marked
    have shown := onlyNew_iff.mp none key prior
    rw [coherent key] at shown
    cases shown.symm.trans marked
  unfold detectPubkeyChange
  split
  next blank =>
    refine ⟨fun after => idle after.2, fun clearable => ⟨truthful, onlyNew_iff.mpr ?_⟩⟩
    intro key prior
    rw [coherent key]
    by_contra marked
    rw [Bool.not_eq_false] at marked
    exact (clearable key prior marked).1 blank
  next named =>
    split
    next nobody =>
      refine ⟨fun after => idle after.2, fun _ => ⟨truthful, onlyNew_iff.mpr ?_⟩⟩
      intro key prior
      simp [nobody] at prior
    next oldPub rest found =>
      have first : oldPub ∈ w.priorKeys P username newPub := by simp [found]
      obtain ⟨-, facts⟩ := List.mem_filter.mp first
      lift oldPub to Bytes32 using (of_decide_eq_true facts).1
      rw [truthful_iff, onlyNew_iff, copies_storeSet, coherent.writePast_iff]
      constructor
      · rintro ⟨agrees, cleared⟩ key prior marked
        have same : key = oldPub := by
          by_contra differ
          have shown := cleared key prior
          rw [ReadThrough.value_writePast_of_ne differ, coherent key] at shown
          cases shown.symm.trans marked
        subst same
        refine ⟨named, by rw [found]; rfl, ?_⟩
        cases held : w.verifiedPeers key with
        | none => rfl
        | some verified =>
          have seen := ReadThrough.coherent_iff.mp coherent key verified held
          rw [agrees verified held] at seen
          cases seen.trans marked
      · intro clearable
        have agrees (verified : Bool) (held : w.verifiedPeers oldPub = some verified) :
            verified = false := by
          by_contra marked
          rw [Bool.not_eq_false] at marked
          have seen := ReadThrough.coherent_iff.mp coherent oldPub verified held
          have absent := (clearable oldPub first (seen.symm.trans marked)).2.2
          cases absent.symm.trans held
        refine ⟨agrees, fun key prior => ?_⟩
        by_cases same : key = oldPub
        · subst same
          rw [(coherent.writePast_iff.mpr agrees) key, ReadThrough.stored_writePast,
            Function.update_self]
        · rw [ReadThrough.value_writePast_of_ne same, coherent key]
          by_contra marked
          rw [Bool.not_eq_false] at marked
          have head := (clearable key prior marked).2.1
          rw [found] at head
          exact same (Subtype.ext (Option.some.inj head).symm)

/-! ### Runs -/

variable (P) in
/-- Keys are replaced only where one mark at most is to be taken off, and the map does not have
it. -/
def Careful (w : VerifiedPeers) : VerifiedEvent → Prop
  | .detectPubkeyChange username newPub => w.Clearable P username newPub
  | _ => True

theorem Truthful.step (truthful : w.Truthful) {event : VerifiedEvent}
    (taken : Guarded (Step P) (Careful P) w event w') : w'.Truthful := by
  obtain ⟨careful, rfl⟩ := taken
  have coherent := truthful_iff.mp truthful
  cases event with
  | setPeerVerified peerPub verified nowMs =>
    by_cases sized : peerPub.length = 32
    · rw [truthful_iff, handle, copies_setPeerVerified ⟨peerPub, sized⟩]
      exact coherent.write
    · rw [handle, setPeerVerified, dif_neg sized]
      exact truthful
  | isPeerVerified peerPub =>
    by_cases sized : peerPub.length = 32
    · rw [truthful_iff, handle, copies_isPeerVerified ⟨peerPub, sized⟩]
      exact coherent.fetch
    · rw [handle, isPeerVerified_short sized]
      exact truthful
  | detectPubkeyChange username newPub =>
    exact ((detectPubkeyChange_iff truthful username newPub).mpr careful).1
  | cachePeerName draws nowMs peerPub username => exact truthful_iff.mpr coherent
  | restart =>
    have reloaded : w.copies.reload.Coherent := ReadThrough.coherent_reload
    exact truthful_iff.mpr reloaded

variable (P) in
/-- As long as keys are replaced with care, what is reported of a key is what is stored of it; and
a replacement leaves no other key of the name marked exactly if it is done with care. -/
theorem verified_mark_follows_key (store : SqliteStore)
    (peerVerified : Table (Option Bytes) Int64 Bool) (events : List VerifiedEvent)
    (run : Run (Guarded (Step P) (Careful P)) (opened store peerVerified) events w) :
    w.Truthful ∧ ∀ username newPub,
      ((w.detectPubkeyChange P username newPub).Truthful ∧
          (w.detectPubkeyChange P username newPub).OnlyNew P username newPub ↔
        w.Clearable P username newPub) := by
  have truthful : w.Truthful := by
    refine run.invariant Truthful (fun _ _ _ before taken => before.step taken) ?_
    exact truthful_iff.mpr fun _ => rfl
  exact ⟨truthful, detectPubkeyChange_iff truthful⟩

end

/-! ### A key that is replaced -/

private def plainText : StoreCrypto := .plain

private def blankDraws : Store.Draws := .filled 0

private def pubkey (b : UInt8) : Bytes32 := .filled b

private def met (b : UInt8) (nowMs : Int64) : VerifiedEvent :=
  .cachePeerName blankDraws nowMs (pubkey b) (ascii "alice")

private def marked (b : UInt8) : VerifiedEvent := .setPeerVerified (pubkey b).1 true 5

private def replaced (b : UInt8) : VerifiedEvent := .detectPubkeyChange (ascii "alice") (pubkey b)

private noncomputable def handled (events : List VerifiedEvent) : VerifiedPeers :=
  events.foldl (handle plainText) (opened ⟨.empty, none⟩ .empty)

private theorem run_handled (events : List VerifiedEvent) (w : VerifiedPeers) :
    Run (Step plainText) w events (events.foldl (handle plainText) w) := by
  induction events generalizing w with
  | nil => exact .nil w
  | cons event events ih => exact .cons rfl (ih _)

private abbrev alice (b : UInt8) (nowMs : Int64) : Row (Option Bytes) Int64 (CString ⊕ Bytes) :=
  ⟨some (pubkey b).1, nowMs, .inl (cstr (ascii "alice"))⟩

private theorem keys_one {s : SqliteStore} (rows : s.db.peerNameCache.rows = [alice 1 0])
    (plain : s.atRest = none) :
    s.peerPubkeysForUsername plainText (ascii "alice") = [(pubkey 1).1] := by
  have named : (cstr (ascii "alice")).val = ascii "alice" := by decide
  simp [SqliteStore.peerPubkeysForUsername, SqliteStore.allCachedPeers, rows, SqliteStore.readName,
    SqliteStore.key, plain, named]

private theorem keys_two {s : SqliteStore} (rows : s.db.peerNameCache.rows = [alice 1 0, alice 2 1])
    (plain : s.atRest = none) :
    s.peerPubkeysForUsername plainText (ascii "alice") = [(pubkey 2).1, (pubkey 1).1] := by
  have named : (cstr (ascii "alice")).val = ascii "alice" := by decide
  have order : ¬(1 : Int64) ≤ 0 := by decide
  simp [SqliteStore.peerPubkeysForUsername, SqliteStore.allCachedPeers, rows, SqliteStore.readName,
    SqliteStore.key, plain, named, List.mergeSort, List.MergeSort.Internal.splitInTwo, order]

private theorem pubkey_ne {b b' : UInt8} (differ : b ≠ b') : (pubkey b).1 ≠ (pubkey b').1 := by
  intro same
  simp [pubkey, differ] at same

private theorem prior_one {w : VerifiedPeers} (rows : w.store.db.peerNameCache.rows = [alice 1 0])
    (plain : w.store.atRest = none) :
    w.priorKeys plainText (ascii "alice") (pubkey 2) = [(pubkey 1).1] := by
  rw [priorKeys, keys_one rows plain]
  simp [pubkey_ne (show (1 : UInt8) ≠ 2 by decide), (pubkey 1).2]

private theorem prior_two {w : VerifiedPeers}
    (rows : w.store.db.peerNameCache.rows = [alice 1 0, alice 2 1])
    (plain : w.store.atRest = none) :
    w.priorKeys plainText (ascii "alice") (pubkey 3) = [(pubkey 2).1, (pubkey 1).1] := by
  rw [priorKeys, keys_two rows plain]
  simp [pubkey_ne (show (1 : UInt8) ≠ 3 by decide), pubkey_ne (show (2 : UInt8) ≠ 3 by decide),
    (pubkey 1).2, (pubkey 2).2]

/-- A key is marked and replaced: the table has lost the mark, and it is still shown. Of two keys
that are replaced, the older one stays marked in the table as well. -/
theorem mark_outlives_key :
    (∃ (events : List VerifiedEvent) (w : VerifiedPeers),
      Run (Step plainText) (opened ⟨.empty, none⟩ .empty) (events ++ [replaced 2]) w ∧
      (w.isPeerVerified (pubkey 1).1).2 = true ∧ w.storePeerVerified (pubkey 1).1 = false) ∧
    ∃ (events : List VerifiedEvent) (w : VerifiedPeers),
      Run (Step plainText) (opened ⟨.empty, none⟩ .empty) (events ++ [replaced 3]) w ∧
      w.Truthful ∧ ¬w.OnlyNew plainText (ascii "alice") (pubkey 3) := by
  have named : ascii "alice" ≠ [] := by decide
  constructor
  · let w := handled [met 1 0, marked 1]
    have cleared : w.handle plainText (replaced 2) = w.storeSetPeerVerified (pubkey 1).1 false 0 :=
      detectPubkeyChange_of_prior named (prior_one rfl rfl)
    have shown : (w.isPeerVerified (pubkey 1).1).2 = true := by
      rw [isPeerVerified_snd]
      rfl
    refine ⟨[met 1 0, marked 1], w.handle plainText (replaced 2),
      (run_handled _ _).append (.cons rfl (.nil _)), ?_, ?_⟩
    · rw [cleared, isPeerVerified_snd, copies_storeSet]
      rw [isPeerVerified_snd] at shown
      exact shown
    · rw [cleared, storePeerVerified_set, if_pos rfl]
  · let w := handled [met 1 0, met 2 1, marked 1, .restart]
    have cleared : w.handle plainText (replaced 3) = w.storeSetPeerVerified (pubkey 2).1 false 0 :=
      detectPubkeyChange_of_prior named (prior_two rfl rfl)
    have kept : w.storePeerVerified (pubkey 1).1 = true := rfl
    have truthful : (w.handle plainText (replaced 3)).Truthful := by
      rw [cleared, truthful_iff]
      exact fun _ => rfl
    refine ⟨[met 1 0, met 2 1, marked 1, .restart], w.handle plainText (replaced 3),
      (run_handled _ _).append (.cons rfl (.nil _)), truthful, ?_⟩
    intro only
    have first : (pubkey 1).1 ∈
        (w.handle plainText (replaced 3)).store.peerPubkeysForUsername plainText (ascii "alice") := by
      rw [cleared]
      exact (keys_two (s := w.store) rfl rfl).symm ▸ .tail _ (.head _)
    have cleared' := only (pubkey 1).1 first (pubkey_ne (by decide))
    rw [truthful, cleared, storePeerVerified_set, if_neg (pubkey_ne (by decide)), kept] at cleared'
    cases cleared'

/-- A marked key is replaced after a restart: it is not shown as marked any more. -/
theorem verified_mark_follows_key_restart :
    ∃ (events : List VerifiedEvent) (w : VerifiedPeers),
      Run (Guarded (Step plainText) (Careful plainText)) (opened ⟨.empty, none⟩ .empty) events w ∧
      w.storePeerVerified (pubkey 1).1 = true ∧ w.Truthful ∧
      (w.detectPubkeyChange plainText (ascii "alice") (pubkey 2)).Truthful ∧
      (w.detectPubkeyChange plainText (ascii "alice") (pubkey 2)).OnlyNew plainText (ascii "alice")
        (pubkey 2) := by
  have run : Run (Guarded (Step plainText) (Careful plainText)) (opened ⟨.empty, none⟩ .empty)
      [met 1 0, marked 1, .restart] (handled [met 1 0, marked 1, .restart]) :=
    .cons ⟨trivial, rfl⟩ (.cons ⟨trivial, rfl⟩ (.cons ⟨trivial, rfl⟩ (.nil _)))
  have prior : (handled [met 1 0, marked 1, .restart]).priorKeys plainText (ascii "alice") (pubkey 2) =
      [(pubkey 1).1] := prior_one rfl rfl
  have clearable : (handled [met 1 0, marked 1, .restart]).Clearable plainText (ascii "alice")
      (pubkey 2) := by
    intro key member _
    rw [prior] at member ⊢
    rw [List.mem_singleton.mp member]
    exact ⟨by decide, rfl, rfl⟩
  obtain ⟨truthful, replacing⟩ := verified_mark_follows_key plainText _ _ _ run
  obtain ⟨truthful', only⟩ := (replacing (ascii "alice") (pubkey 2)).mpr clearable
  exact ⟨_, _, run, rfl, truthful, truthful', only⟩

end VerifiedPeers

end FinBit.Desktop
