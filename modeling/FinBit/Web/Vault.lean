import FinBit.Lib.Reader

/-! # The vault of the web client

The seed of the identity is kept under a passphrase. A blob of the current format is a version octet,
the salt and the parameters of the key derivation, a nonce and the ciphertext; all that stands before
the nonce is associated data. The older format has no version octet and authenticates nothing besides
the ciphertext, and only the length and the first octet tell the two apart.
-/

namespace FinBit.Web

open FinBit.Lib

/-- `crypto_pwhash` with Argon2id and XChaCha20-Poly1305, whose tag is 16 octets. -/
structure VaultCrypto where
  /-- From a passphrase, a salt and the limits; it may fail. -/
  pwhash : Bytes → Bytes → UInt64 → UInt64 → Option Bytes
  /-- Under a key and a nonce, with associated data. -/
  encrypt : Bytes → Bytes → Bytes → Bytes → Bytes
  decrypt : Bytes → Bytes → Bytes → Bytes → Option Bytes
  length_encrypt : ∀ key nonce aad plaintext,
    (encrypt key nonce aad plaintext).length = plaintext.length + 16

/-- What `seal_seed` draws. -/
structure VaultDraws where
  salt : Bytes
  nonce : Bytes
  salt_length : salt.length = 16
  nonce_length : nonce.length = 24

def kV1Bytes : Nat := 16 + 8 + 8 + 24 + 32 + 16
def kV2Bytes : Nat := 1 + kV1Bytes
def kVaultVersion : UInt8 := 2

def kMinOpslimit : UInt64 := 2
def kMinMemlimit : UInt64 := 64 * 1024 * 1024
def kMaxMemlimit : UInt64 := 1024 * 1024 * 1024

/-- `numeric_limits<size_t>::max()` of the 32-bit target. -/
def sizeMax : UInt64 := 0xFFFFFFFF

/-- `crypto_pwhash_OPSLIMIT_MODERATE`. -/
def opslimitModerate : UInt64 := 3

/-- `crypto_pwhash_MEMLIMIT_MODERATE`. -/
def memlimitModerate : UInt64 := 268435456

/-- What stands before the nonce. -/
def vaultHeader (salt : Bytes) (opslimit memlimit : UInt64) : Bytes :=
  kVaultVersion :: (salt ++ (be64 opslimit ++ be64 memlimit))

section

variable (P : VaultCrypto)

/-- `seal_seed_with_params`. -/
def sealSeedWithParams (draws : VaultDraws) (passphrase seed : Bytes) (opslimit memlimit : UInt64) :
    Except String Bytes :=
  if seed.length ≠ 32 then .error "seal_seed: seed must be 32 bytes"
  else if passphrase = [] then .error "seal_seed: passphrase must not be empty"
  else
    match P.pwhash passphrase draws.salt opslimit memlimit with
    | none => .error "seal_seed: argon2id derivation failed (out of memory?)"
    | some kdfOut =>
      let aad := vaultHeader draws.salt opslimit memlimit
      .ok (aad ++ (draws.nonce ++ P.encrypt kdfOut draws.nonce aad seed))

/-- `seal_seed`. -/
def sealSeed (draws : VaultDraws) (passphrase seed : Bytes) : Except String Bytes :=
  sealSeedWithParams P draws passphrase seed opslimitModerate memlimitModerate

/-- `get_u64_be`. -/
def getU64BE (p : Bytes) : UInt64 := UInt64.ofNat (beNat (p.take 8))

/-- `open_seed` from the salt on, which is where the two formats are alike. -/
def openFields (passphrase aad salt : Bytes) : Except String (Option Bytes) :=
  let opsbuf := salt.drop 16
  let membuf := opsbuf.drop 8
  let nonce := membuf.drop 8
  let ct := nonce.drop 24
  let ops := getU64BE opsbuf
  let mem := getU64BE membuf
  if mem > sizeMax ∨ mem > kMaxMemlimit ∨ mem < kMinMemlimit ∨ ops < kMinOpslimit then .ok none
  else
    match P.pwhash passphrase (salt.take 16) ops mem with
    | none => .error "open_seed: argon2id derivation failed (out of memory?)"
    | some kdfOut => .ok (P.decrypt kdfOut (nonce.take 24) aad ct)

/-- `open_seed`; it returns a seed or null, or it throws. -/
def openSeed (passphrase blob : Bytes) : Except String (Option Bytes) :=
  let v2 := blob.length = kV2Bytes ∧ blob.head? = some kVaultVersion
  let v1 := blob.length = kV1Bytes
  if ¬v1 ∧ ¬v2 then .ok none
  else
    let aad := if v2 then blob.take (1 + 16 + 8 + 8) else []
    openFields P passphrase aad (blob.drop (if v2 then 1 else 0))

/-- A call of `seal_seed` that has returned. -/
structure SealCall where
  draws : VaultDraws
  passphrase : Bytes
  seed : Bytes
  blob : Bytes
  returned : sealSeed P draws passphrase seed = .ok blob

variable {P} in
/-- The key of a call, its nonce, its associated data and its ciphertext, with the seed. -/
def SealCall.Encrypted (call : SealCall P) (key nonce aad ct pt : Bytes) : Prop :=
  P.pwhash call.passphrase call.draws.salt opslimitModerate memlimitModerate = some key ∧
    nonce = call.draws.nonce ∧
    aad = vaultHeader call.draws.salt opslimitModerate memlimitModerate ∧
    ct = P.encrypt key nonce aad pt ∧ pt = call.seed

/-- The cipher opens exactly what the calls have encrypted. -/
def OpensOnlySealed (calls : List (SealCall P)) : Prop :=
  ∀ key nonce aad ct pt, P.decrypt key nonce aad ct = some pt ↔
    ∃ call ∈ calls, call.Encrypted key nonce aad ct pt

end

variable {P : VaultCrypto}

theorem getU64BE_be64_append (n : UInt64) (rest : Bytes) : getU64BE (be64 n ++ rest) = n := by
  have small := n.toNat_lt
  rw [getU64BE, List.take_left' (length_be64 n), be64, beNat_beBytes, Nat.mod_eq_of_lt (by omega),
    UInt64.ofNat_toNat]

theorem length_vaultHeader {salt : Bytes} (sized : salt.length = 16) (opslimit memlimit : UInt64) :
    (vaultHeader salt opslimit memlimit).length = 33 := by
  simp only [vaultHeader, List.length_cons, List.length_append, length_be64, sized]

/-- What a call returns, and under which key. -/
theorem SealCall.blob_eq (call : SealCall P) :
    call.seed.length = 32 ∧ ∃ key,
      P.pwhash call.passphrase call.draws.salt opslimitModerate memlimitModerate = some key ∧
        let aad := vaultHeader call.draws.salt opslimitModerate memlimitModerate
        call.blob = aad ++ (call.draws.nonce ++ P.encrypt key call.draws.nonce aad call.seed) := by
  have returned := call.returned
  unfold sealSeed sealSeedWithParams at returned
  split at returned
  · cases returned
  next sized =>
    split at returned
    · cases returned
    · split at returned
      · cases returned
      next key derived =>
        exact ⟨Decidable.not_not.mp sized, key, derived, (Except.ok.inj returned).symm⟩

/-- The fields are read where they were written. -/
theorem openFields_append {salt nonce : Bytes} {ops mem : UInt64} (salt_length : salt.length = 16)
    (nonce_length : nonce.length = 24) (passphrase aad ct : Bytes) :
    openFields P passphrase aad (salt ++ (be64 ops ++ (be64 mem ++ (nonce ++ ct)))) =
      if mem > sizeMax ∨ mem > kMaxMemlimit ∨ mem < kMinMemlimit ∨ ops < kMinOpslimit then .ok none
      else
        match P.pwhash passphrase salt ops mem with
        | none => .error "open_seed: argon2id derivation failed (out of memory?)"
        | some kdfOut => .ok (P.decrypt kdfOut nonce aad ct) := by
  simp only [openFields, List.take_left' salt_length, List.drop_left' salt_length,
    List.drop_left' (length_be64 _), getU64BE_be64_append, List.take_left' nonce_length,
    List.drop_left' nonce_length]

/-- A seed comes out of the cipher. -/
theorem decrypt_of_openFields {passphrase aad salt seed : Bytes}
    (opened : openFields P passphrase aad salt = .ok (some seed)) :
    ∃ key, P.decrypt key ((salt.drop 32).take 24) aad (salt.drop 56) = some seed := by
  unfold openFields at opened
  dsimp only at opened
  split at opened
  · cases opened
  · split at opened
    · cases opened
    next key _ =>
      simp only [List.drop_drop] at opened
      exact ⟨key, Except.ok.inj opened⟩

/-- A blob of the current format. -/
theorem openSeed_header {salt rest : Bytes} {ops mem : UInt64} (salt_length : salt.length = 16)
    (rest_length : rest.length = 72) (passphrase : Bytes) :
    openSeed P passphrase (vaultHeader salt ops mem ++ rest) =
      openFields P passphrase (vaultHeader salt ops mem)
        (salt ++ (be64 ops ++ (be64 mem ++ rest))) := by
  have header_length := length_vaultHeader salt_length ops mem
  have v2 : (vaultHeader salt ops mem ++ rest).length = kV2Bytes ∧
      (vaultHeader salt ops mem ++ rest).head? = some kVaultVersion := by
    rw [List.length_append, header_length, rest_length]
    exact ⟨rfl, rfl⟩
  have aad : (vaultHeader salt ops mem ++ rest).take (1 + 16 + 8 + 8) = vaultHeader salt ops mem :=
    List.take_left' header_length
  have salted : (vaultHeader salt ops mem ++ rest).drop 1 =
      salt ++ (be64 ops ++ (be64 mem ++ rest)) := by
    rw [vaultHeader, List.cons_append, List.drop_one, List.tail_cons, List.append_assoc,
      List.append_assoc]
  rw [openSeed, if_neg (fun neither => neither.2 v2), if_pos v2, if_pos v2, aad, salted]

/-- The blob of a call is opened with its passphrase. -/
theorem openSeed_blob {calls : List (SealCall P)} (aead : OpensOnlySealed P calls)
    {call : SealCall P} (made : call ∈ calls) :
    openSeed P call.passphrase call.blob = .ok (some call.seed) := by
  obtain ⟨sized, key, derived, blob⟩ := call.blob_eq
  generalize aad_eq : vaultHeader call.draws.salt opslimitModerate memlimitModerate = aad at blob
  have ct_length := P.length_encrypt key call.draws.nonce aad call.seed
  have rest_length :
      (call.draws.nonce ++ P.encrypt key call.draws.nonce aad call.seed).length = 72 := by
    rw [List.length_append, call.draws.nonce_length, ct_length, sized]
  have opened := (aead key call.draws.nonce aad _ call.seed).mpr
    ⟨call, made, derived, rfl, aad_eq.symm, rfl, rfl⟩
  have allowed : ¬(memlimitModerate > sizeMax ∨ memlimitModerate > kMaxMemlimit ∨
      memlimitModerate < kMinMemlimit ∨ opslimitModerate < kMinOpslimit) := by decide
  rw [blob, ← aad_eq, openSeed_header call.draws.salt_length (aad_eq ▸ rest_length),
    openFields_append call.draws.salt_length call.draws.nonce_length, if_neg allowed, derived,
    aad_eq]
  exact congrArg Except.ok opened

/-- Whatever opens is the blob of a call. -/
theorem blob_of_openSeed {calls : List (SealCall P)} (aead : OpensOnlySealed P calls)
    {passphrase blob seed : Bytes} (opened : openSeed P passphrase blob = .ok (some seed)) :
    ∃ call ∈ calls, call.blob = blob := by
  unfold openSeed at opened
  dsimp only at opened
  by_cases v2 : blob.length = kV2Bytes ∧ blob.head? = some kVaultVersion
  · rw [if_neg (fun neither => neither.2 v2), if_pos v2, if_pos v2] at opened
    obtain ⟨key, decrypted⟩ := decrypt_of_openFields opened
    obtain ⟨call, made, derived, nonce, aad, ct, same⟩ := (aead _ _ _ _ _).mp decrypted
    obtain ⟨-, key', derived', whole⟩ := call.blob_eq
    obtain rfl := Option.some.inj (derived.symm.trans derived')
    refine ⟨call, made, ?_⟩
    rw [whole, ← aad, ← nonce, ← same, ← ct, List.drop_drop, List.drop_drop]
    have cut := List.take_append_drop 24 (blob.drop 33)
    rw [List.drop_drop] at cut
    exact (congrArg (blob.take 33 ++ ·) cut).trans (List.take_append_drop 33 blob)
  · -- nothing was encrypted without associated data, so the blob is not of the older format
    split at opened
    · cases opened
    · obtain ⟨key, decrypted⟩ := decrypt_of_openFields opened
      obtain ⟨call, -, -, -, aad, -⟩ := (aead _ _ _ _ _).mp decrypted
      cases aad

/-- A sealed seed is returned for its passphrase, and no passphrase opens a blob that was not sealed:
not one with other octets, cut off or longer, and not one without the version octet. -/
theorem vault_opens_only_unmodified (P : VaultCrypto) (calls : List (SealCall P))
    (aead : OpensOnlySealed P calls) :
    (∀ call ∈ calls, openSeed P call.passphrase call.blob = .ok (some call.seed)) ∧
      ∀ passphrase blob, (∀ call ∈ calls, blob ≠ call.blob) →
        ∀ seed, openSeed P passphrase blob ≠ .ok (some seed) := by
  refine ⟨fun call made => openSeed_blob aead made, fun passphrase blob other seed opened => ?_⟩
  obtain ⟨call, made, same⟩ := blob_of_openSeed aead opened
  exact other call made same.symm

/-! ### A vault -/

private def savedSeed : Bytes := List.replicate 32 7

private def savedDraws : VaultDraws := ⟨List.replicate 16 1, List.replicate 24 2, rfl, rfl⟩

private def savedHeader : Bytes := vaultHeader savedDraws.salt opslimitModerate memlimitModerate

/-- A key derivation that repeats the salt, and a cipher that has encrypted one seed. -/
private def oneVault : VaultCrypto where
  pwhash _ salt _ _ := some (salt ++ salt)
  encrypt _ _ _ plaintext := plaintext ++ List.replicate 16 0
  decrypt key nonce aad ct :=
    if key = savedDraws.salt ++ savedDraws.salt ∧ nonce = savedDraws.nonce ∧ aad = savedHeader ∧
      ct = savedSeed ++ List.replicate 16 0 then some savedSeed else none
  length_encrypt _ _ _ plaintext := by rw [List.length_append, List.length_replicate]

private def savedCall : SealCall oneVault where
  draws := savedDraws
  passphrase := ascii "correct horse"
  seed := savedSeed
  blob := savedHeader ++ (savedDraws.nonce ++ (savedSeed ++ List.replicate 16 0))
  returned := rfl

private theorem opensOnlySealed_oneVault : OpensOnlySealed oneVault [savedCall] := by
  intro key nonce aad ct pt
  constructor
  · intro opened
    unfold oneVault at opened
    dsimp only at opened
    split at opened
    next made =>
      obtain ⟨rfl, rfl, rfl, rfl⟩ := made
      cases opened
      exact ⟨savedCall, List.mem_singleton_self _, rfl, rfl, rfl, rfl, rfl⟩
    · cases opened
  · rintro ⟨call, made, derived, rfl, rfl, rfl, rfl⟩
    obtain rfl := List.mem_singleton.mp made
    exact if_pos ⟨(Option.some.inj derived).symm, rfl, rfl, rfl⟩

theorem vault_without_version_refused :
    openSeed oneVault savedCall.passphrase savedCall.blob = .ok (some savedSeed) ∧
      ∀ passphrase seed, openSeed oneVault passphrase savedCall.blob.tail ≠ .ok (some seed) := by
  have vault := vault_opens_only_unmodified oneVault [savedCall] opensOnlySealed_oneVault
  refine ⟨vault.1 savedCall (List.mem_singleton_self _), fun passphrase => ?_⟩
  refine vault.2 passphrase _ fun call made same => ?_
  rw [List.mem_singleton.mp made] at same
  cases congrArg List.length same

end FinBit.Web
