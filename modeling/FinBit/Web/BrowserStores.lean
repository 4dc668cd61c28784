import FinBit.Lib.Bytes
import FinBit.Lib.Transactions

/-! # The stores of the web client

The identity vault, the outbox and the server book keep their records in one IndexedDB database,
and each module opens it with a version of its own. Opening with a version below that of the
database is refused, so a module can be used as long as none with a greater version has been.
-/

namespace FinBit.Web

open FinBit.Lib

/-! ### Records -/

/-- The record of the identity vault. -/
structure VaultRecord where
  version : Nat
  username : String
  createdAt : Nat
  sealed : Option Bytes
  seed : Option Bytes

structure OutboxEntry where
  recipient : String
  plaintext : String
  queuedAt : Nat
  attempts : Nat

structure ServerEntry where
  url : String
  username : String
  label : String
  addedAt : Nat
  isDefault : Bool

/-- An object store with generated keys, in the order of its keys. -/
structure AutoStore (α : Type) where
  nextId : Nat
  rows : List (Nat × α)

namespace AutoStore

variable {α : Type}

def new : AutoStore α := ⟨1, []⟩

def add (a : α) (s : AutoStore α) : Nat × AutoStore α :=
  (s.nextId, ⟨s.nextId + 1, s.rows ++ [(s.nextId, a)]⟩)

def getAll (s : AutoStore α) : List (Nat × α) × AutoStore α :=
  (s.rows, s)

def get (s : AutoStore α) (id : Nat) : Option α :=
  s.rows.lookup id

def delete (id : Nat) (s : AutoStore α) : Unit × AutoStore α :=
  ((), { s with rows := s.rows.filter (·.1 ≠ id) })

/-- `put` of a record with its key. -/
def put (row : Nat × α) (s : AutoStore α) : AutoStore α :=
  { s with rows := s.rows.filter (·.1 < row.1) ++ row :: s.rows.filter (row.1 < ·.1) }

end AutoStore

/-! ### The database -/

inductive StoreModule
  | vault
  | outbox
  | serverBook
  deriving DecidableEq

namespace StoreModule

/-- The `DB_VERSION` of each module. -/
def version : StoreModule → Nat
  | vault => 1
  | outbox => 2
  | serverBook => 3

/-- What the object store of a module holds: one record at one key, or records by their ids. -/
abbrev Store : StoreModule → Type
  | vault => Option VaultRecord
  | outbox => AutoStore OutboxEntry
  | serverBook => AutoStore ServerEntry

def empty : (m : StoreModule) → m.Store
  | vault => none
  | outbox => .new
  | serverBook => .new

end StoreModule

/-- The database of a profile; version 0 is none at all. -/
structure Idb where
  version : Nat
  stores : (m : StoreModule) → Option m.Store

namespace Idb

/-- `createObjectStore`. -/
def create (m : StoreModule) (db : Idb) : Except String Idb :=
  if (db.stores m).isSome then .error "ConstraintError"
  else .ok { db with stores := Function.update db.stores m (some m.empty) }

def createMissing (m : StoreModule) (db : Idb) : Except String Idb :=
  if (db.stores m).isSome then .ok db else db.create m

/-- `onupgradeneeded` of each module. -/
def onUpgradeNeeded : StoreModule → Idb → Except String Idb
  -- the vault does not look whether its store is there
  | .vault, db => db.create .vault
  | .outbox, db => do (← db.createMissing .vault).createMissing .outbox
  | .serverBook, db => do
    (← (← db.createMissing .vault).createMissing .outbox).createMissing .serverBook

/-- `openDB` of a module. An upgrade that throws leaves the database as it was. -/
def openDB (m : StoreModule) (db : Idb) : Except String Idb :=
  if m.version < db.version then .error "VersionError"
  else if db.version < m.version then
    match db.onUpgradeNeeded m with
    | .ok upgraded => .ok { upgraded with version := m.version }
    | .error _ => .error "AbortError"
  else .ok db

/-- A transaction on the store of a module. -/
def transact {β : Type} (m : StoreModule) (body : m.Store → β × m.Store) (db : Idb) :
    Except String β × Idb :=
  match db.stores m with
  | none => (.error "NotFoundError", db)
  | some s => (.ok (body s).1, { db with stores := Function.update db.stores m (some (body s).2) })

/-- A program of a module, which opens the database for each transaction; with what it gives,
whether it has been refused because of the version. -/
def run {α : Type} (m : StoreModule) : Prog m.Store α → Idb → Except String α × Idb × Bool
  | .done result, db => (result, db, false)
  | .tx body next, db =>
    match db.openDB m with
    | .error e =>
      let (result, after, refused) := run m (next (.error e)) db
      (result, after, refused || e = "VersionError")
    | .ok opened => run m (next (opened.transact m body).1) (opened.transact m body).2

theorem run_done {α : Type} (m : StoreModule) (result : Except String α) (db : Idb) :
    db.run m (.done result) = (result, db, false) :=
  rfl

theorem run_tx {α β : Type} (m : StoreModule) (body : m.Store → β × m.Store)
    (next : Except String β → Prog m.Store α) (db : Idb) :
    db.run m (.tx body next) =
      match db.openDB m with
      | .error e =>
        let (result, after, refused) := run m (next (.error e)) db
        (result, after, refused || e = "VersionError")
      | .ok opened => run m (next (opened.transact m body).1) (opened.transact m body).2 := by
  rw [run]

end Idb

/-! ### The operations -/

/-- What the modules use besides the database. -/
structure PageEnv where
  /-- `Module.seal_seed` and `Module.open_seed` of the WASM shim. -/
  sealSeed : String → Bytes → Bytes
  openSeed : String → Bytes → Option Bytes
  /-- `String.prototype.trim`. -/
  trim : String → String
  hostnameOf : String → String

inductive Result
  | done
  | status (status : String)
  | message (message : Option String)
  | metadata (metadata : Option (String × Nat))
  | seed (seed : Option Bytes)
  | id (id : Nat)
  | entries (entries : List (Nat × OutboxEntry))
  | counts (sent failed : Nat)
  | servers (servers : List (Nat × ServerEntry))
  | server (server : Option (Nat × ServerEntry))

namespace Vault

abbrev VaultProg := Prog (Option VaultRecord)

def readRecord : VaultProg (Option VaultRecord) :=
  .transact fun s => (s, s)

def writeRecord (rec : VaultRecord) : VaultProg Unit :=
  .transact fun _ => ((), some rec)

/-- A seed of a legacy record. -/
def legacySeed (rec : VaultRecord) : Option Bytes :=
  rec.seed.filter (·.length = 32)

def statusOf : Option VaultRecord → String
  | none => "absent"
  | some rec =>
    if rec.sealed.any (· ≠ []) then "locked"
    else if (legacySeed rec).isSome then "legacy"
    else "absent"

def vaultStatus : VaultProg Result :=
  (do return Result.status (statusOf (← readRecord)) : VaultProg Result).handled fun _ =>
    pure (.status "error")

def vaultErrorMessage : VaultProg Result :=
  (do let _ ← readRecord; return Result.message none : VaultProg Result).handled fun e =>
    pure (.message (some e))

def getMetadata : VaultProg Result :=
  (do
    let rec? ← readRecord
    return Result.metadata (rec?.map fun rec => (rec.username, rec.createdAt)) :
      VaultProg Result).handled fun _ => pure (.metadata none)

def createVault (env : PageEnv) (username passphrase : String) (seed : Bytes) (now : Nat) :
    VaultProg Result :=
  if seed.length ≠ 32 then .throw "createVault: seed must be Uint8Array(32)"
  else do
    if passphrase ≠ "" then
      writeRecord ⟨2, username, now, some (env.sealSeed passphrase seed), none⟩
    else writeRecord ⟨1, username, now, none, some seed⟩
    return .done

def unlock (env : PageEnv) (passphrase : String) : VaultProg Result := do
  match ← readRecord with
  | none => return .seed none
  | some rec =>
    match legacySeed rec with
    | some seed => return .seed (some seed)
    | none => return .seed (rec.sealed.bind (env.openSeed passphrase))

def rekey (env : PageEnv) (username passphrase : String) (seed : Bytes) (now : Nat) :
    VaultProg Result :=
  createVault env username passphrase seed now

/-- `signOut` swallows every error. -/
def signOut : VaultProg Result :=
  (do
    (Prog.transact fun _ => ((), none) : VaultProg Unit)
    return Result.done : VaultProg Result).handled fun _ => pure .done

end Vault

namespace Outbox

abbrev OutboxProg := Prog (AutoStore OutboxEntry)

def enqueue (recipient plaintext : String) (now : Nat) : OutboxProg Result := do
  return .id (← Prog.transact (AutoStore.add ⟨recipient, plaintext, now, 0⟩))

def pending : OutboxProg (List (Nat × OutboxEntry)) :=
  .transact AutoStore.getAll

def remove (id : Nat) : OutboxProg Unit :=
  .transact (AutoStore.delete id)

def bumpAttempts (id : Nat) : OutboxProg Unit :=
  .transact fun s =>
    match s.get id with
    | none => ((), s)
    | some entry => ((), s.put (id, { entry with attempts := entry.attempts + 1 }))

/-- The loop of `drain`, up to the first failure. -/
def drainFrom (sends : Nat × OutboxEntry → Bool) :
    List (Nat × OutboxEntry) → Nat → OutboxProg Result
  | [], sent => return .counts sent 0
  | entry :: entries, sent => do
    -- the handler also catches what removing the entry throws
    let removed ← (if sends entry then do remove entry.1; return true else pure false :
      OutboxProg Bool).handled fun _ => pure false
    if removed then drainFrom sends entries (sent + 1)
    else do
      bumpAttempts entry.1
      return .counts sent 1

/-- `drain`, with which of its sends succeed. -/
def drain (sends : Nat × OutboxEntry → Bool) : OutboxProg Result := do
  let items ← pending
  drainFrom sends (items.mergeSort fun a b => a.2.queuedAt ≤ b.2.queuedAt) 0

end Outbox

namespace ServerBook

abbrev BookProg := Prog (AutoStore ServerEntry)

def list : BookProg (List (Nat × ServerEntry)) :=
  .transact AutoStore.getAll

def add (env : PageEnv) (url username label : String) (now : Nat) : BookProg Result :=
  if url = "" then .throw "server_book.add: url required"
  else do
    let existing ← list
    let entry : ServerEntry :=
      ⟨env.trim url, env.trim username, env.trim (if label = "" then env.hostnameOf url else label),
        now, existing.isEmpty⟩
    return .id (← Prog.transact (AutoStore.add entry))

def setDefault (id : Nat) : BookProg Unit := do
  let all ← list
  Prog.transact fun s =>
    ((), all.foldl (fun s row => s.put (row.1, { row.2 with isDefault := row.1 = id })) s)

def remove (id : Nat) : BookProg Result := do
  (Prog.transact (AutoStore.delete id) : BookProg Unit)
  let remaining ← list
  match remaining with
  | [] => return .done
  | first :: _ =>
    if remaining.any (·.2.isDefault) then return .done
    else do
      setDefault first.1
      return .done

def getDefault : BookProg Result := do
  let all ← list
  return .server ((all.find? (·.2.isDefault)).or all.head?)

end ServerBook

/-- The operations that the modules export. -/
inductive StoreOp
  | vaultStatus
  | vaultErrorMessage
  | getMetadata
  | createVault (username passphrase : String) (seed : Bytes) (now : Nat)
  | unlock (passphrase : String)
  | rekey (username passphrase : String) (seed : Bytes) (now : Nat)
  | signOut
  | enqueue (recipient plaintext : String) (now : Nat)
  | pending
  | drain (sends : Nat × OutboxEntry → Bool)
  | list
  | add (url username label : String) (now : Nat)
  | remove (id : Nat)
  | setDefault (id : Nat)
  | getDefault

namespace StoreOp

def owner : StoreOp → StoreModule
  | vaultStatus | vaultErrorMessage | getMetadata | createVault .. | unlock _ | rekey .. | signOut =>
    .vault
  | enqueue .. | pending | drain _ => .outbox
  | list | add .. | remove _ | setDefault _ | getDefault => .serverBook

def prog (env : PageEnv) : (op : StoreOp) → Prog op.owner.Store Result
  | vaultStatus => Vault.vaultStatus
  | vaultErrorMessage => Vault.vaultErrorMessage
  | getMetadata => Vault.getMetadata
  | createVault username passphrase seed now => Vault.createVault env username passphrase seed now
  | unlock passphrase => Vault.unlock env passphrase
  | rekey username passphrase seed now => Vault.rekey env username passphrase seed now
  | signOut => Vault.signOut
  | enqueue recipient plaintext now => Outbox.enqueue recipient plaintext now
  | pending => do return .entries (← Outbox.pending)
  | drain sends => Outbox.drain sends
  | list => do return .servers (← ServerBook.list)
  | add url username label now => ServerBook.add env url username label now
  | remove id => ServerBook.remove id
  | setDefault id => do ServerBook.setDefault id; return .done
  | getDefault => ServerBook.getDefault

/-- Whether an operation gets as far as opening the database. -/
def opens : StoreOp → Bool
  | createVault _ _ seed _ | rekey _ _ seed _ => seed.length = 32
  | add url .. => url ≠ ""
  | _ => true

theorem opens_prog (env : PageEnv) (op : StoreOp) : (op.prog env).opens = op.opens := by
  cases op with
  | createVault username passphrase seed now | rekey username passphrase seed now =>
    by_cases hseed : seed.length = 32 <;> by_cases hpass : passphrase = "" <;>
      simp [prog, Vault.rekey, Vault.createVault, opens, hseed, hpass] <;> rfl
  | add url username label now =>
    by_cases hurl : url = "" <;> simp [prog, ServerBook.add, opens, hurl] <;> rfl
  | _ => rfl

end StoreOp

/-! ### Opening the database -/

namespace Idb

/-- What each module would read: a store that is not there yet is an empty one. -/
def contents (db : Idb) (m : StoreModule) : m.Store :=
  (db.stores m).getD m.empty

/-- The databases that the upgrades make: at each version the stores that have come by then. -/
structure WellFormed (db : Idb) : Prop where
  version_le : db.version ≤ 3
  isSome_iff (m : StoreModule) : (db.stores m).isSome ↔ m.version ≤ db.version

/-- `db'` is `db` with a store for `m`, a new one where it had none. -/
structure Created (m : StoreModule) (db db' : Idb) : Prop where
  isSome_iff (m' : StoreModule) : (db'.stores m').isSome ↔ m' = m ∨ (db.stores m').isSome
  contents : db'.contents = db.contents

theorem create_of_isNone {m : StoreModule} {db : Idb} (hnone : (db.stores m).isSome = false) :
    ∃ db', db.create m = .ok db' ∧ Created m db db' := by
  refine ⟨_, by rw [create, hnone]; rfl, ?_, ?_⟩
  · intro m'
    by_cases hm : m' = m
    · subst hm; simp
    · simp [hm]
  · funext m'
    by_cases hm : m' = m
    · -- there was nothing to read, and an empty store reads the same
      subst hm
      rw [Option.isSome_eq_false_iff, Option.isNone_iff_eq_none] at hnone
      simp [contents, hnone]
    · simp [contents, hm]

theorem createMissing_created (m : StoreModule) (db : Idb) :
    ∃ db', db.createMissing m = .ok db' ∧ Created m db db' := by
  cases hsome : (db.stores m).isSome with
  | false => simpa [createMissing, hsome] using create_of_isNone hsome
  | true =>
    refine ⟨db, by rw [createMissing, hsome]; rfl, fun m' => ?_, rfl⟩
    refine ⟨.inr, ?_⟩
    rintro (rfl | h)
    · exact hsome
    · exact h

/-- The upgrade to the version of a module gives the stores up to it and keeps the others. -/
theorem onUpgradeNeeded_ok {m : StoreModule} {db : Idb} (hwf : db.WellFormed)
    (hlt : db.version < m.version) :
    ∃ upgraded, db.onUpgradeNeeded m = .ok upgraded ∧
      (∀ m', (upgraded.stores m').isSome ↔ m'.version ≤ m.version) ∧
      upgraded.contents = db.contents := by
  have hsome := hwf.isSome_iff
  cases m with
  | vault =>
    -- only version 0 is below that of the vault, and there are no stores in it
    have hnone : (db.stores .vault).isSome = false := by
      have := hsome .vault
      simp only [StoreModule.version] at this hlt
      grind
    obtain ⟨db₁, h₁, hc₁⟩ := create_of_isNone hnone
    refine ⟨db₁, h₁, fun m' => ?_, hc₁.contents⟩
    rw [hc₁.isSome_iff, hsome]
    cases m' with
    | vault => simp
    | outbox | serverBook => simp [StoreModule.version] at hlt ⊢; omega
  | outbox =>
    obtain ⟨db₁, h₁, hc₁⟩ := createMissing_created .vault db
    obtain ⟨db₂, h₂, hc₂⟩ := createMissing_created .outbox db₁
    refine ⟨db₂, by simp [onUpgradeNeeded, h₁, h₂, bind, Except.bind], fun m' => ?_,
      hc₂.contents.trans hc₁.contents⟩
    rw [hc₂.isSome_iff, hc₁.isSome_iff, hsome]
    cases m' with
    | vault | outbox => simp [StoreModule.version]
    | serverBook => simp [StoreModule.version] at hlt ⊢; omega
  | serverBook =>
    obtain ⟨db₁, h₁, hc₁⟩ := createMissing_created .vault db
    obtain ⟨db₂, h₂, hc₂⟩ := createMissing_created .outbox db₁
    obtain ⟨db₃, h₃, hc₃⟩ := createMissing_created .serverBook db₂
    refine ⟨db₃, by simp [onUpgradeNeeded, h₁, h₂, h₃, bind, Except.bind], fun m' => ?_,
      hc₃.contents.trans (hc₂.contents.trans hc₁.contents)⟩
    rw [hc₃.isSome_iff, hc₂.isSome_iff, hc₁.isSome_iff, hsome]
    cases m' <;> simp [StoreModule.version] at hlt ⊢

theorem openDB_of_version_le {m : StoreModule} {db : Idb} (hwf : db.WellFormed)
    (hle : db.version ≤ m.version) :
    ∃ opened, db.openDB m = .ok opened ∧ opened.WellFormed ∧ opened.version = m.version ∧
      opened.contents = db.contents := by
  rcases Nat.lt_or_eq_of_le hle with hlt | heq
  · obtain ⟨upgraded, hup, hsome, hcontents⟩ := onUpgradeNeeded_ok hwf hlt
    refine ⟨{ upgraded with version := m.version }, ?_, ⟨?_, hsome⟩, rfl, hcontents⟩
    · simp [openDB, hlt, hup, Nat.not_lt.2 hle]
    · cases m <;> simp [StoreModule.version]
  · exact ⟨db, by simp [openDB, heq], hwf, heq, rfl⟩

theorem openDB_of_version_lt {m : StoreModule} {db : Idb} (hlt : m.version < db.version) :
    db.openDB m = .error "VersionError" := by
  rw [openDB, if_pos hlt]

/-! ### Programs of a module -/

/-- The database with other contents of the store of a module. -/
def store (m : StoreModule) (s : m.Store) (db : Idb) : Idb :=
  { db with stores := Function.update db.stores m (some s) }

@[simp] theorem store_version (m : StoreModule) (s : m.Store) (db : Idb) :
    (db.store m s).version = db.version := rfl

theorem store_contents (m : StoreModule) (s : m.Store) (db : Idb) :
    (db.store m s).contents = Function.update db.contents m s := by
  funext m'
  by_cases hm : m' = m
  · subst hm; simp [contents, store]
  · simp [contents, store, hm]

theorem WellFormed.store {m : StoreModule} {db : Idb} (hwf : db.WellFormed)
    (hle : m.version ≤ db.version) (s : m.Store) : (db.store m s).WellFormed := by
  refine ⟨hwf.version_le, fun m' => ?_⟩
  by_cases hm : m' = m
  · subst hm; simpa [Idb.store] using hle
  · simpa [Idb.store, hm] using hwf.isSome_iff m'

theorem transact_of_version_le {m : StoreModule} {db : Idb} {β : Type} (hwf : db.WellFormed)
    (hle : m.version ≤ db.version) (body : m.Store → β × m.Store) :
    db.transact m body =
      (.ok (body (db.contents m)).1, db.store m (body (db.contents m)).2) := by
  obtain ⟨s, hs⟩ := Option.isSome_iff_exists.1 ((hwf.isSome_iff m).2 hle)
  simp [transact, contents, store, hs]

/-- A program on the database does what it does on a store of its own. -/
structure RunsPrivately {α : Type} (m : StoreModule) (p : Prog m.Store α) (db : Idb) : Prop where
  result : (db.run m p).1 = (p.run (db.contents m)).1
  contents : (db.run m p).2.1.contents = Function.update db.contents m (p.run (db.contents m)).2
  notRefused : (db.run m p).2.2 = false
  wellFormed : (db.run m p).2.1.WellFormed
  version : (db.run m p).2.1.version = if p.opens then m.version else db.version

/-- By induction on the program: every transaction opens the database at the version of the module,
where the first one has left it. -/
theorem runsPrivately {α : Type} {m : StoreModule} (p : Prog m.Store α) {db : Idb}
    (hwf : db.WellFormed) (hle : db.version ≤ m.version) : RunsPrivately m p db := by
  induction p generalizing db with
  | done result =>
    exact ⟨rfl, (Function.update_eq_self m db.contents).symm, rfl, hwf, rfl⟩
  | tx body next ih =>
    obtain ⟨opened, hopen, hwfo, hver, hcontents⟩ := openDB_of_version_le hwf hle
    have htx := transact_of_version_le hwfo hver.ge body
    rw [hcontents] at htx
    have hrun : db.run m (.tx body next) =
        (opened.store m (body (db.contents m)).2).run m (next (.ok (body (db.contents m)).1)) := by
      rw [run_tx, hopen]
      simp only [htx]
    -- the rest of the program finds the version of the module
    have hrest := ih (.ok (body (db.contents m)).1)
      (hwfo.store hver.ge (body (db.contents m)).2) hver.le
    have hown : (opened.store m (body (db.contents m)).2).contents m = (body (db.contents m)).2 := by
      simp [store_contents]
    constructor
    · rw [hrun, hrest.result, hown]; rfl
    · rw [hrun, hrest.contents, hown, store_contents, hcontents, Function.update_idem]; rfl
    · rw [hrun]; exact hrest.notRefused
    · rw [hrun]; exact hrest.wellFormed
    · rw [hrun, hrest.version]
      simp [hver, Prog.opens]

theorem refused_of_version_lt {α : Type} {m : StoreModule} {p : Prog m.Store α} {db : Idb}
    (hopens : p.opens = true) (hlt : m.version < db.version) : (db.run m p).2.2 = true := by
  cases p with
  | done result => cases hopens
  | tx body next =>
    rw [run_tx, openDB_of_version_lt hlt]
    simp

end Idb

/-! ### Sequences of operations -/

/-- A sequence of operations on the database of a profile: what they give, the database they leave,
and whether one of them has been refused because of the version. -/
def session (env : PageEnv) : List StoreOp → Idb → List (Except String Result) × Idb × Bool
  | [], db => ([], db, false)
  | op :: ops, db =>
    let (result, after, refused) := db.run op.owner (op.prog env)
    let (results, last, refusedLater) := session env ops after
    (result :: results, last, refused || refusedLater)

/-- What the operations give when each module has a store of its own, and so reads what it has
written. -/
def separately (env : PageEnv) :
    List StoreOp → ((m : StoreModule) → m.Store) → List (Except String Result)
  | [], _ => []
  | op :: ops, stores =>
    let (result, s) := (op.prog env).run (stores op.owner)
    result :: separately env ops (Function.update stores op.owner s)

/-- The versions that the operations open the database with. -/
def openedVersions (ops : List StoreOp) : List Nat :=
  (ops.filter StoreOp.opens).map fun op => op.owner.version

/-- No operation is refused because of the version, and the modules read what they have written. -/
def Usable (env : PageEnv) (ops : List StoreOp) (db : Idb) : Prop :=
  (session env ops db).2.2 = false ∧ (session env ops db).1 = separately env ops db.contents

/-- The first operation is not refused and gives what it gives on a store of its own, and so do the
others after it. -/
theorem usable_cons {env : PageEnv} {op : StoreOp} {ops : List StoreOp} {db : Idb} :
    Usable env (op :: ops) db ↔
      ((db.run op.owner (op.prog env)).2.2 = false ∧
        (session env ops (db.run op.owner (op.prog env)).2.1).2.2 = false) ∧
      (db.run op.owner (op.prog env)).1 = ((op.prog env).run (db.contents op.owner)).1 ∧
        (session env ops (db.run op.owner (op.prog env)).2.1).1 =
          separately env ops (Function.update db.contents op.owner
            ((op.prog env).run (db.contents op.owner)).2) := by
  simp [Usable, session, separately]

theorem usable_nil {env : PageEnv} {db : Idb} : Usable env [] db :=
  ⟨rfl, rfl⟩

theorem usable_cons_of_version_le {env : PageEnv} {op : StoreOp} {ops : List StoreOp} {db : Idb}
    (hwf : db.WellFormed) (hle : db.version ≤ op.owner.version) :
    Usable env (op :: ops) db ↔ Usable env ops (db.run op.owner (op.prog env)).2.1 := by
  have hstep := Idb.runsPrivately (op.prog env) hwf hle
  rw [usable_cons]
  simp [Usable, hstep.notRefused, hstep.result, hstep.contents]

/-- An operation that does not open the database gives what it gives on any store. -/
theorem usable_cons_of_not_opens {env : PageEnv} {op : StoreOp} {ops : List StoreOp} {db : Idb}
    (h : op.opens = false) : Usable env (op :: ops) db ↔ Usable env ops db := by
  rw [← StoreOp.opens_prog env] at h
  rw [usable_cons]
  cases hp : op.prog env with
  | done result => simp [Usable, Idb.run_done, Prog.run]
  | tx body next => simp [hp, Prog.opens] at h

theorem not_usable_cons {env : PageEnv} {op : StoreOp} {ops : List StoreOp} {db : Idb}
    (hopens : op.opens = true) (hlt : op.owner.version < db.version) :
    ¬ Usable env (op :: ops) db := by
  rw [← StoreOp.opens_prog env] at hopens
  rw [usable_cons]
  rintro ⟨⟨hrefused, -⟩, -⟩
  rw [Idb.refused_of_version_lt hopens hlt] at hrefused
  cases hrefused

/-- The stores can be used exactly as long as no module opens the database after one with a greater
version. -/
theorem usable_iff (env : PageEnv) (db : Idb) (hwf : db.WellFormed) (ops : List StoreOp) :
    Usable env ops db ↔ (db.version :: openedVersions ops).IsChain (· ≤ ·) := by
  induction ops generalizing db with
  | nil => exact iff_of_true usable_nil (.singleton _)
  | cons op ops ih =>
    cases hopens : op.opens with
    | false =>
      rw [usable_cons_of_not_opens hopens, ih db hwf]
      simp [openedVersions, hopens]
    | true =>
      -- from here on the database has the version of this module
      have hversions : openedVersions (op :: ops) = op.owner.version :: openedVersions ops := by
        simp [openedVersions, hopens]
      rw [hversions, List.isChain_cons_cons]
      by_cases hle : db.version ≤ op.owner.version
      · have hstep := Idb.runsPrivately (op.prog env) hwf hle
        rw [usable_cons_of_version_le hwf hle, ih _ hstep.wellFormed, hstep.version,
          StoreOp.opens_prog, if_pos hopens]
        exact ⟨fun h => ⟨hle, h⟩, And.right⟩
      · -- the refusal is seen whatever comes after it
        refine iff_of_false ?_ fun h => hle h.1
        exact not_usable_cons hopens (Nat.lt_of_not_le hle)

/-- A profile that has no database yet. -/
def Idb.fresh : Idb :=
  ⟨0, fun _ => none⟩

theorem Idb.fresh_wellFormed : Idb.fresh.WellFormed :=
  ⟨by simp [fresh], fun m => by cases m <;> simp [fresh, StoreModule.version]⟩

private def plainPage : PageEnv :=
  ⟨fun _ seed => seed, fun _ sealed => some sealed, id, id⟩

/-- Once the server book has been read, the vault cannot be. -/
theorem not_usable_in_any_order :
    ¬ ∀ (env : PageEnv) (db : Idb), db.WellFormed → ∀ ops, Usable env ops db := by
  intro h
  obtain ⟨hrefused, -⟩ := h plainPage .fresh Idb.fresh_wellFormed [.list, .vaultStatus]
  exact absurd hrefused (by decide)

theorem usable_iff_vault_then_book :
    Usable plainPage [.createVault "ann" "" (List.replicate 32 7) 5, .list] .fresh ↔
      (0 :: openedVersions [.createVault "ann" "" (List.replicate 32 7) 5, .list]).IsChain
        (· ≤ ·) :=
  usable_iff plainPage .fresh Idb.fresh_wellFormed _

end FinBit.Web
