import FinBit.Lib.NonceAead
import FinBit.Web.Vault

/-! # The vault of the desktop client

The seed of the identity under a passphrase, in the format of the web client. A file can also hold
several such blobs one behind the other: a decoy beside the real identity, or any number of personas.
Every blob of it is then tried, also when one has been opened already, so that the time that it takes
does not tell which passphrase it was.
-/

namespace FinBit.Desktop

open FinBit.Lib FinBit.Web

def kVaultV1Bytes : Nat := 104
def kVaultBlobBytes : Nat := 105
def kVaultDualBytes : Nat := 2 * kVaultBlobBytes

/-- `numeric_limits<size_t>::max()`. -/
def desktopSizeMax : UInt64 := 0xFFFFFFFFFFFFFFFF

/-- What the vault uses of Qt and of libsodium. -/
structure VaultPrimitives where
  /-- `normalized(NormalizationForm_C)`, in UTF-8. -/
  ppBytes : String → Bytes
  /-- Argon2id of a passphrase, a salt and the limits. -/
  pwhash : Bytes → Bytes → UInt64 → UInt64 → Option Bytes
  /-- XChaCha20-Poly1305. -/
  aead : NonceAead

/-- A call of `crypto_pwhash`, apart from the passphrase. -/
structure Derivation where
  salt : Bytes
  opslimit : UInt64
  memlimit : UInt64

/-- The work factors that `open_seed` accepts. -/
def Acceptable (ops mem : UInt64) : Prop :=
  mem ≤ kMaxMemlimit ∧ kMinMemlimit ≤ mem ∧ kMinOpslimit ≤ ops

instance Acceptable.decidable (ops mem : UInt64) : Decidable (Acceptable ops mem) :=
  inferInstanceAs (Decidable (_ ∧ _ ∧ _))

section

variable (V : VaultPrimitives)

/-- `seal_seed`. -/
def sealSeed (draws : VaultDraws) (passphrase : String) (seed : Bytes) (opslimit memlimit : UInt64) :
    Except String Bytes :=
  if passphrase.isEmpty then .error "seal_seed: passphrase must not be empty"
  else
    let opslimit := if opslimit = 0 then opslimitModerate else opslimit
    let memlimit := if memlimit = 0 then memlimitModerate else memlimit
    match V.pwhash (V.ppBytes passphrase) draws.salt opslimit memlimit with
    | none => .error "seal_seed: argon2id derivation failed (out of memory?)"
    | some kdfOut =>
      let aad := vaultHeader draws.salt opslimit memlimit
      .ok (aad ++ (draws.nonce ++ V.aead.encrypt kdfOut draws.nonce aad seed))

/-- `open_seed`, with the derivations that it makes. -/
def openSeedCounted (passphrase : String) (blob : Bytes) : Option Bytes × List Derivation :=
  let v2 := blob.length = kVaultBlobBytes ∧ blob.head? = some kVaultVersion
  let v1 := blob.length = kVaultV1Bytes
  if ¬v1 ∧ ¬v2 then (none, [])
  else
    let salt := blob.drop (if v2 then 1 else 0)
    let opsbuf := salt.drop 16
    let membuf := opsbuf.drop 8
    let nonce := membuf.drop 8
    let ct := nonce.drop 24
    let ops := getU64BE opsbuf
    let mem := getU64BE membuf
    if mem > desktopSizeMax ∨ mem > kMaxMemlimit ∨ mem < kMinMemlimit ∨ ops < kMinOpslimit then
      (none, [])
    else
      match V.pwhash (V.ppBytes passphrase) (salt.take 16) ops mem with
      | none => (none, [⟨salt.take 16, ops, mem⟩])
      | some kdfOut =>
        let aad := if v2 then blob.take (1 + 16 + 8 + 8) else []
        (V.aead.decrypt kdfOut (nonce.take 24) aad ct, [⟨salt.take 16, ops, mem⟩])

/-- `open_seed`. -/
def openSeed (passphrase : String) (blob : Bytes) : Option Bytes := (openSeedCounted V passphrase blob).1

/-- `seal_seed_dual`; the first draws are for the real seed. -/
def sealSeedDual (realDraws decoyDraws : VaultDraws) (realPassphrase : String) (realSeed : Bytes)
    (decoyPassphrase : String) (decoySeed : Bytes) (opslimit memlimit : UInt64) :
    Except String Bytes := do
  let real ← sealSeed V realDraws realPassphrase realSeed opslimit memlimit
  let decoy ← sealSeed V decoyDraws decoyPassphrase decoySeed opslimit memlimit
  if real.length ≠ kVaultBlobBytes ∨ decoy.length ≠ kVaultBlobBytes then
    throw "seal_seed_dual: unexpected blob size"
  return real ++ decoy

/-- `open_seed_dual`. -/
def openSeedDual (passphrase : String) (blob : Bytes) : Option Bytes × List Derivation :=
  if blob.length = kVaultBlobBytes ∨ blob.length = kVaultV1Bytes then openSeedCounted V passphrase blob
  else if blob.length ≠ kVaultDualBytes then (none, [])
  else
    let a := openSeedCounted V passphrase (blob.take kVaultBlobBytes)
    let b := openSeedCounted V passphrase (blob.drop kVaultBlobBytes)
    (if a.1.isSome then a.1 else b.1, a.2 ++ b.2)

/-- What is drawn, typed and kept for a persona. -/
structure Persona where
  draws : VaultDraws
  passphrase : String
  seed : Bytes

/-- The loop of `seal_seeds_multi`. -/
def sealSlots (opslimit memlimit : UInt64) : List Persona → Bytes → Except String Bytes
  | [], out => .ok out
  | p :: rest, out =>
    match sealSeed V p.draws p.passphrase p.seed opslimit memlimit with
    | .error e => .error e
    | .ok slot =>
      if slot.length ≠ kVaultBlobBytes then .error "seal_seeds_multi: unexpected slot size"
      else sealSlots opslimit memlimit rest (out ++ slot)

/-- `seal_seeds_multi`; passphrases and seeds come in pairs. -/
def sealSeedsMulti (personas : List Persona) (opslimit memlimit : UInt64) : Except String Bytes :=
  if personas = [] then
    .error "seal_seeds_multi: passphrases and seeds must be same non-zero length"
  else sealSlots V opslimit memlimit personas []

/-- The slot of a blob. -/
def slotAt (blob : Bytes) (i : Nat) : Bytes := (blob.drop (i * kVaultBlobBytes)).take kVaultBlobBytes

/-- The loop of `open_seed_multi`: the first match, after all slots. -/
def trySlots (passphrase : String) (blob : Bytes) :
    List Nat → Option Bytes × List Derivation → Option Bytes × List Derivation
  | [], found => found
  | i :: rest, (matched, made) =>
    let s := openSeedCounted V passphrase (slotAt blob i)
    trySlots passphrase blob rest (if s.1.isSome && matched.isNone then s.1 else matched, made ++ s.2)

/-- `open_seed_multi`. -/
def openSeedMulti (passphrase : String) (blob : Bytes) : Option Bytes × List Derivation :=
  if blob.length = kVaultBlobBytes ∨ blob.length = kVaultV1Bytes then openSeedCounted V passphrase blob
  else if blob.length < kVaultBlobBytes ∨ blob.length % kVaultBlobBytes ≠ 0 then (none, [])
  else trySlots V passphrase blob (List.range (blob.length / kVaultBlobBytes)) (none, [])

end

/-! ### One blob -/

variable {V : VaultPrimitives}

/-- The derivations for a blob. -/
def blobWork (blob : Bytes) : List Derivation :=
  let v2 := blob.length = kVaultBlobBytes ∧ blob.head? = some kVaultVersion
  let v1 := blob.length = kVaultV1Bytes
  if ¬v1 ∧ ¬v2 then []
  else
    let salt := blob.drop (if v2 then 1 else 0)
    let ops := getU64BE (salt.drop 16)
    let mem := getU64BE ((salt.drop 16).drop 8)
    if Acceptable ops mem then [⟨salt.take 16, ops, mem⟩] else []

theorem refused_iff {ops mem : UInt64} :
    (mem > desktopSizeMax ∨ mem > kMaxMemlimit ∨ mem < kMinMemlimit ∨ ops < kMinOpslimit) ↔
      ¬Acceptable ops mem := by
  have most : ¬mem > desktopSizeMax := by
    rw [gt_iff_lt, UInt64.lt_iff_toNat_lt]
    have bound := mem.toNat_lt
    change ¬18446744073709551615 < mem.toNat
    omega
  simp only [most, false_or, Acceptable, not_and_or, UInt64.not_le, gt_iff_lt]

/-- They do not depend on the passphrase. -/
theorem openSeedCounted_work (passphrase : String) (blob : Bytes) :
    (openSeedCounted V passphrase blob).2 = blobWork blob := by
  rw [openSeedCounted, blobWork]
  dsimp only
  split
  · rfl
  · simp only [refused_iff]
    generalize List.drop _ blob = salt
    by_cases accepted : Acceptable (getU64BE (salt.drop 16)) (getU64BE ((salt.drop 16).drop 8))
    · rw [if_neg (not_not_intro accepted), if_pos accepted]
      cases V.pwhash (V.ppBytes passphrase) (salt.take 16) (getU64BE (salt.drop 16))
        (getU64BE ((salt.drop 16).drop 8)) <;> rfl
    · rw [if_pos accepted, if_neg accepted]

/-- What `seal_seed` returns. -/
theorem sealSeed_eq_ok_iff {draws : VaultDraws} {passphrase : String} {seed blob : Bytes}
    {opslimit memlimit : UInt64} :
    sealSeed V draws passphrase seed opslimit memlimit = .ok blob ↔ passphrase.isEmpty = false ∧
      ∃ key, V.pwhash (V.ppBytes passphrase) draws.salt
          (if opslimit = 0 then opslimitModerate else opslimit)
          (if memlimit = 0 then memlimitModerate else memlimit) = some key ∧
        blob = vaultHeader draws.salt (if opslimit = 0 then opslimitModerate else opslimit)
            (if memlimit = 0 then memlimitModerate else memlimit) ++
          (draws.nonce ++ V.aead.encrypt key draws.nonce
            (vaultHeader draws.salt (if opslimit = 0 then opslimitModerate else opslimit)
              (if memlimit = 0 then memlimitModerate else memlimit)) seed) := by
  rw [sealSeed]
  cases passphrase.isEmpty with
  | true => simp
  | false =>
    rw [if_neg Bool.false_ne_true]
    dsimp only
    cases V.pwhash (V.ppBytes passphrase) draws.salt
        (if opslimit = 0 then opslimitModerate else opslimit)
        (if memlimit = 0 then memlimitModerate else memlimit) with
    | none => simp
    | some key => simp [eq_comm]

/-- A blob of the current format, field by field. -/
theorem openSeedCounted_header {draws : VaultDraws} {ops mem : UInt64} {ct : Bytes}
    (passphrase : String) (sized : ct.length = 48) :
    openSeedCounted V passphrase (vaultHeader draws.salt ops mem ++ (draws.nonce ++ ct)) =
      if Acceptable ops mem then
        ((V.pwhash (V.ppBytes passphrase) draws.salt ops mem).bind fun key =>
          V.aead.decrypt key draws.nonce (vaultHeader draws.salt ops mem) ct, [⟨draws.salt, ops, mem⟩])
      else (none, []) := by
  have header := length_vaultHeader draws.salt_length ops mem
  generalize whole : vaultHeader draws.salt ops mem ++ (draws.nonce ++ ct) = blob
  have length : blob.length = kVaultBlobBytes := by
    rw [← whole, List.length_append, header, List.length_append, draws.nonce_length, sized]
    rfl
  have v2 : blob.length = kVaultBlobBytes ∧ blob.head? = some kVaultVersion := by
    refine ⟨length, ?_⟩
    rw [← whole, vaultHeader]
    rfl
  have aad : blob.take (1 + 16 + 8 + 8) = vaultHeader draws.salt ops mem := by
    rw [← whole]
    exact List.take_left' header
  have salted : blob.drop 1 = draws.salt ++ (be64 ops ++ (be64 mem ++ (draws.nonce ++ ct))) := by
    rw [← whole, vaultHeader, List.cons_append, List.drop_one, List.tail_cons, List.append_assoc,
      List.append_assoc]
  rw [openSeedCounted]
  dsimp only
  rw [if_neg (fun neither => neither.2 v2), if_pos v2, if_pos v2, aad, salted]
  simp only [List.take_left' draws.salt_length, List.drop_left' draws.salt_length,
    List.drop_left' (length_be64 _), getU64BE_be64_append, List.take_left' draws.nonce_length,
    List.drop_left' draws.nonce_length, refused_iff]
  by_cases accepted : Acceptable ops mem
  · rw [if_neg (not_not_intro accepted), if_pos accepted]
    cases V.pwhash (V.ppBytes passphrase) draws.salt ops mem <;> rfl
  · rw [if_pos accepted, if_neg accepted]

/-- The work factors that a call of `seal_seed` uses. -/
def opslimitOf (opslimit : UInt64) : UInt64 := if opslimit = 0 then opslimitModerate else opslimit
def memlimitOf (memlimit : UInt64) : UInt64 := if memlimit = 0 then memlimitModerate else memlimit

/-- The derivation for a blob that was sealed. -/
def sealedWork (draws : VaultDraws) (opslimit memlimit : UInt64) : List Derivation :=
  if Acceptable (opslimitOf opslimit) (memlimitOf memlimit) then
    [⟨draws.salt, opslimitOf opslimit, memlimitOf memlimit⟩]
  else []

/-- A sealed seed opens under its passphrase if the work factors were ones that are accepted. -/
theorem openSeed_sealed {draws : VaultDraws} {passphrase : String} {seed blob : Bytes}
    {opslimit memlimit : UInt64} (sized : seed.length = 32)
    (sealed : sealSeed V draws passphrase seed opslimit memlimit = .ok blob) :
    blobWork blob = sealedWork draws opslimit memlimit ∧
      ∀ passphrase', V.ppBytes passphrase' = V.ppBytes passphrase → openSeed V passphrase' blob =
        if Acceptable (opslimitOf opslimit) (memlimitOf memlimit) then some seed else none := by
  obtain ⟨-, key, derived, rfl⟩ := sealSeed_eq_ok_iff.mp sealed
  rw [← opslimitOf, ← memlimitOf] at derived ⊢
  have ct := V.aead.length_encrypt key draws.nonce
    (vaultHeader draws.salt (opslimitOf opslimit) (memlimitOf memlimit)) seed
  rw [sized] at ct
  constructor
  · rw [← openSeedCounted_work (V := V) passphrase, openSeedCounted_header passphrase ct, sealedWork]
    split
    · rfl
    · rfl
  · intro passphrase' same
    rw [openSeed, openSeedCounted_header passphrase' ct, same, derived, Option.bind_some,
      V.aead.decrypt_encrypt]
    split
    · rfl
    · rfl

/-! ### Several blobs in one -/

theorem trySlots_eq (passphrase : String) (blob : Bytes) (l : List Nat) (matched : Option Bytes)
    (made : List Derivation) :
    trySlots V passphrase blob l (matched, made) =
      (matched.or (l.findSome? fun i => openSeed V passphrase (slotAt blob i)),
        made ++ l.flatMap fun i => blobWork (slotAt blob i)) := by
  induction l generalizing matched made with
  | nil => simp [trySlots]
  | cons i rest ih =>
    rw [trySlots, ih, openSeedCounted_work, ← openSeed, List.findSome?_cons, List.flatMap_cons,
      List.append_assoc]
    cases matched with
    | some first => simp
    | none => cases openSeed V passphrase (slotAt blob i) <;> simp

/-- The blobs of a file, one behind the other. -/
def slots (blob : Bytes) : List Bytes :=
  (List.range (blob.length / kVaultBlobBytes)).map (slotAt blob)

theorem slots_flatten {l : List Bytes} (sized : ∀ slot ∈ l, slot.length = kVaultBlobBytes) :
    slots l.flatten = l ∧ l.flatten.length = l.length * kVaultBlobBytes := by
  induction l with
  | nil => exact ⟨rfl, rfl⟩
  | cons slot rest ih =>
    obtain ⟨here, others⟩ := List.forall_mem_cons.mp sized
    obtain ⟨split, length⟩ := ih others
    have whole : (slot :: rest).flatten.length = (rest.length + 1) * kVaultBlobBytes := by
      rw [List.flatten_cons, List.length_append, here, length]
      ring
    refine ⟨?_, whole⟩
    have count : (slot :: rest).flatten.length / kVaultBlobBytes = rest.length + 1 := by
      rw [whole, Nat.mul_div_cancel _ (by decide)]
    have count' : rest.flatten.length / kVaultBlobBytes = rest.length := by
      rw [length, Nat.mul_div_cancel _ (by decide)]
    rw [slots, count, List.range_succ_eq_map, List.map_cons, List.map_map]
    rw [slots, count'] at split
    have first : slotAt (slot :: rest).flatten 0 = slot := by
      rw [slotAt, Nat.zero_mul, List.drop_zero, List.flatten_cons, List.take_left' here]
    have behind : ∀ i, slotAt (slot :: rest).flatten (i + 1) = slotAt rest.flatten i := by
      intro i
      have offset : (i + 1) * kVaultBlobBytes = slot.length + i * kVaultBlobBytes := by
        rw [here]
        ring
      rw [slotAt, slotAt, List.flatten_cons, offset, List.drop_length_add_append]
    rw [first]
    exact congrArg (List.cons slot) ((List.map_congr_left fun i _ => behind i).trans split)

theorem openSeedMulti_eq (passphrase : String) (blob : Bytes) :
    openSeedMulti V passphrase blob =
      if blob.length = kVaultBlobBytes ∨ blob.length = kVaultV1Bytes then
        (openSeed V passphrase blob, blobWork blob)
      else if blob.length < kVaultBlobBytes ∨ blob.length % kVaultBlobBytes ≠ 0 then (none, [])
      else ((slots blob).findSome? (openSeed V passphrase), (slots blob).flatMap blobWork) := by
  rw [openSeedMulti]
  split
  · rw [← openSeedCounted_work (V := V) passphrase blob]
    rfl
  · split
    · rfl
    · rw [trySlots_eq, slots, Option.none_or, List.nil_append, List.findSome?_map, List.flatMap_map]
      rfl

/-- A single blob or several: the first that opens. -/
theorem openSeedMulti_flatten {l : List Bytes} (sized : ∀ slot ∈ l, slot.length = kVaultBlobBytes)
    (some_ : l ≠ []) (passphrase : String) :
    openSeedMulti V passphrase l.flatten =
      (l.findSome? (openSeed V passphrase), l.flatMap blobWork) := by
  obtain ⟨split, length⟩ := slots_flatten sized
  rw [openSeedMulti_eq]
  cases l with
  | nil => exact absurd rfl some_
  | cons slot rest =>
    cases rest with
    | nil =>
      have here := sized slot List.mem_cons_self
      rw [List.flatten_cons, List.flatten_nil, List.append_nil, if_pos (.inl here)]
      simp
    | cons next rest =>
      have single : ¬((slot :: next :: rest).flatten.length = kVaultBlobBytes ∨
          (slot :: next :: rest).flatten.length = kVaultV1Bytes) := by
        rw [length, List.length_cons, List.length_cons, kVaultBlobBytes, kVaultV1Bytes]
        omega
      have multiple : ¬((slot :: next :: rest).flatten.length < kVaultBlobBytes ∨
          (slot :: next :: rest).flatten.length % kVaultBlobBytes ≠ 0) := by
        rw [length, List.length_cons, List.length_cons, kVaultBlobBytes]
        omega
      rw [if_neg single, if_neg multiple, split]

theorem sealSlots_eq_ok {opslimit memlimit : UInt64} {personas : List Persona} {out blob : Bytes}
    (sealed : sealSlots V opslimit memlimit personas out = .ok blob) :
    ∃ l : List Bytes, blob = out ++ l.flatten ∧
      List.Forall₂ (fun p slot => sealSeed V p.draws p.passphrase p.seed opslimit memlimit = .ok slot ∧
        slot.length = kVaultBlobBytes) personas l := by
  induction personas generalizing out with
  | nil =>
    cases sealed
    exact ⟨[], (List.append_nil _).symm, .nil⟩
  | cons p rest ih =>
    rw [sealSlots] at sealed
    cases made : sealSeed V p.draws p.passphrase p.seed opslimit memlimit with
    | error e =>
      rw [made] at sealed
      cases sealed
    | ok slot =>
      rw [made] at sealed
      dsimp only at sealed
      split at sealed
      · cases sealed
      next sized =>
        obtain ⟨l, whole, each⟩ := ih sealed
        refine ⟨slot :: l, ?_, .cons ⟨made, Decidable.not_not.mp sized⟩ each⟩
        rw [whole, List.flatten_cons, List.append_assoc]

/-- A vault of personas opens to the first one that has the passphrase, and to none if no one has it;
the work is one derivation for each persona, whatever the passphrase. -/
theorem personas_open (V : VaultPrimitives) (personas : List Persona) (opslimit memlimit : UInt64)
    (blob : Bytes) (passphrase : String) (seeds : ∀ p ∈ personas, p.seed.length = 32)
    (sealed : sealSeedsMulti V personas opslimit memlimit = .ok blob)
    (foreign : ∀ p ∈ personas, ∀ slot, sealSeed V p.draws p.passphrase p.seed opslimit memlimit = .ok slot →
      V.ppBytes p.passphrase ≠ V.ppBytes passphrase → openSeed V passphrase slot = none) :
    openSeedMulti V passphrase blob =
      (if Acceptable (opslimitOf opslimit) (memlimitOf memlimit) then
        (personas.find? fun p => V.ppBytes p.passphrase = V.ppBytes passphrase).map Persona.seed
      else none, personas.flatMap fun p => sealedWork p.draws opslimit memlimit) := by
  rw [sealSeedsMulti] at sealed
  split at sealed
  · cases sealed
  next some_ =>
    obtain ⟨l, whole, each⟩ := sealSlots_eq_ok sealed
    have sized : ∀ slot ∈ l, slot.length = kVaultBlobBytes := by
      clear seeds foreign sealed whole some_
      induction each with
      | nil => exact fun slot member => absurd member List.not_mem_nil
      | cons here _ ih => exact List.forall_mem_cons.mpr ⟨here.2, ih⟩
    have slots_some : l ≠ [] := by
      rintro rfl
      cases each
      exact some_ rfl
    rw [whole, List.nil_append, openSeedMulti_flatten sized slots_some]
    clear sealed whole some_ sized slots_some
    -- slot by slot, beside the personas
    induction each with
    | nil => simp
    | @cons p slot personas l here _ ih =>
      obtain ⟨seed, seeds⟩ := List.forall_mem_cons.mp seeds
      obtain ⟨other, foreign⟩ := List.forall_mem_cons.mp foreign
      obtain ⟨work, opens⟩ := openSeed_sealed seed here.1
      have later := ih seeds foreign
      obtain ⟨value, rest⟩ := Prod.mk.inj later
      rw [List.findSome?_cons, List.flatMap_cons, List.flatMap_cons, work, rest, value]
      refine congrArg (·, _) ?_
      by_cases same : V.ppBytes p.passphrase = V.ppBytes passphrase
      · rw [opens passphrase same.symm, List.find?_cons_of_pos (by simpa using same)]
        by_cases accepted : Acceptable (opslimitOf opslimit) (memlimitOf memlimit)
        · simp only [if_pos accepted, Option.map_some]
        · simp only [if_neg accepted]
      · rw [other slot here.1 same, List.find?_cons_of_neg (by simpa using same)]

/-- A key derivation that returns the passphrase. -/
def openVaults : VaultPrimitives := ⟨ascii, fun passphrase _ _ _ => some passphrase, .plain⟩

/-- Draws that come out as one octet again and again. -/
def steadyDraws (salt nonce : UInt8) : VaultDraws :=
  ⟨List.replicate 16 salt, List.replicate 24 nonce, List.length_replicate, List.length_replicate⟩

def twoPersonas : List Persona :=
  [⟨steadyDraws 1 2, "a", List.replicate 32 7⟩, ⟨steadyDraws 3 4, "b", List.replicate 32 8⟩]

theorem personas_open_second : openSeedMulti openVaults "b"
    ((sealSeedsMulti openVaults twoPersonas 0 0).toOption.getD []) =
      (some (List.replicate 32 8), [⟨List.replicate 16 1, 3, 268435456⟩,
        ⟨List.replicate 16 3, 3, 268435456⟩]) := by
  refine personas_open openVaults twoPersonas 0 0 _ "b" (by decide) rfl ?_
  intro p member slot sealed differ
  obtain rfl | later := List.mem_cons.mp member
  · obtain rfl := Except.ok.inj sealed
    decide
  · obtain rfl := List.mem_singleton.mp later
    exact absurd rfl differ

/-- The two ways to read a vault of a real and a decoy identity, or a single one, agree. -/
theorem openSeedDual_eq (passphrase : String) {blob : Bytes}
    (size : blob.length = kVaultBlobBytes ∨ blob.length = kVaultV1Bytes ∨ blob.length = kVaultDualBytes) :
    openSeedDual V passphrase blob = openSeedMulti V passphrase blob := by
  rw [openSeedDual]
  by_cases single : blob.length = kVaultBlobBytes ∨ blob.length = kVaultV1Bytes
  · rw [if_pos single, openSeedMulti, if_pos single]
  · have dual : blob.length = kVaultDualBytes := by grind
    rw [kVaultDualBytes, kVaultBlobBytes] at dual
    have halves : ∀ slot ∈ [blob.take kVaultBlobBytes, blob.drop kVaultBlobBytes],
        slot.length = kVaultBlobBytes := by
      simp [dual, kVaultBlobBytes]
    have whole : [blob.take kVaultBlobBytes, blob.drop kVaultBlobBytes].flatten = blob := by simp
    have both := openSeedMulti_flatten (V := V) halves (List.cons_ne_nil _ _) passphrase
    rw [whole] at both
    rw [if_neg single, if_neg (by simp [dual, kVaultDualBytes, kVaultBlobBytes]), both]
    dsimp only
    rw [openSeedCounted_work, openSeedCounted_work, ← openSeed, ← openSeed, List.findSome?_cons,
      List.findSome?_cons, List.findSome?_nil, List.flatMap_cons, List.flatMap_cons, List.flatMap_nil,
      List.append_nil]
    cases openSeed V passphrase (blob.take kVaultBlobBytes) with
    | some seed => rfl
    | none => cases openSeed V passphrase (blob.drop kVaultBlobBytes) <;> rfl

/-! ### With the web client -/

/-- The same primitives, as the web client has them. -/
def webCrypto (V : VaultPrimitives) : VaultCrypto :=
  ⟨V.pwhash, V.aead.encrypt, V.aead.decrypt, V.aead.length_encrypt⟩

/-- The two clients seal alike, and open the same blobs to the same seeds, whatever the blob: one that the
other has sealed, one of the older format, or no vault at all. -/
theorem vaults_interchange (V : VaultPrimitives)
    (named : ∀ passphrase, V.ppBytes passphrase = [] ↔ passphrase.isEmpty = true) :
    (∀ draws passphrase seed, seed.length = 32 →
      Web.sealSeed (webCrypto V) draws (V.ppBytes passphrase) seed =
        sealSeed V draws passphrase seed 0 0) ∧
    ∀ passphrase blob, openSeed V passphrase blob =
      match Web.openSeed (webCrypto V) (V.ppBytes passphrase) blob with
      | .ok seed => seed
      | .error _ => none := by
  constructor
  · intro draws passphrase seed sized
    rw [Web.sealSeed, sealSeedWithParams, sealSeed, if_neg (not_not_intro sized)]
    by_cases blank : V.ppBytes passphrase = []
    · rw [if_pos blank, if_pos ((named passphrase).mp blank)]
    · rw [if_neg blank, if_neg (mt (named passphrase).mpr blank)]
      rfl
  · intro passphrase blob
    rw [openSeed, openSeedCounted, Web.openSeed]
    dsimp only
    have v1 : kV1Bytes = kVaultV1Bytes := rfl
    have v2 : kV2Bytes = kVaultBlobBytes := rfl
    rw [v1, v2]
    split
    · rfl
    · rw [openFields]
      -- a limit that the web client cannot represent is above the bound of both
      have bounded : ∀ ops mem : UInt64, (mem > sizeMax ∨ mem > kMaxMemlimit ∨ mem < kMinMemlimit ∨
          ops < kMinOpslimit) ↔ ¬Acceptable ops mem := by
        intro ops mem
        have above : mem > sizeMax → mem > kMaxMemlimit := fun large =>
          UInt64.lt_trans (by decide : kMaxMemlimit < sizeMax) large
        rw [← refused_iff]
        constructor
        · rintro (large | rest)
          · exact .inr (.inl (above large))
          · exact .inr rest
        · rintro (large | rest)
          · exact .inr (.inl (UInt64.lt_trans (by decide : kMaxMemlimit < desktopSizeMax) large))
          · exact .inr rest
      simp only [bounded, refused_iff]
      generalize List.drop _ blob = salt
      split
      · rfl
      · simp only [webCrypto]
        cases V.pwhash (V.ppBytes passphrase) (salt.take 16) (getU64BE (salt.drop 16))
          (getU64BE ((salt.drop 16).drop 8)) <;> rfl

theorem vaults_interchange_ascii :
    Web.sealSeed (webCrypto openVaults) ⟨List.replicate 16 1, List.replicate 24 2, rfl, rfl⟩ (ascii "a")
        (List.replicate 32 7) =
      sealSeed openVaults ⟨List.replicate 16 1, List.replicate 24 2, rfl, rfl⟩ "a"
        (List.replicate 32 7) 0 0 := by
  refine (vaults_interchange openVaults fun passphrase => ?_).1 _ "a" _ rfl
  change ascii passphrase = [] ↔ _
  rw [ascii, List.map_eq_nil_iff, String.toList_eq_nil_iff, String.isEmpty_iff]

end FinBit.Desktop
