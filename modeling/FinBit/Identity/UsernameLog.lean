import FinBit.Lib.Bytes
import FinBit.Lib.Guards

/-! # Username claims

The grammar of usernames, the canonical bytes of a `UserClaim` and the checks
that stand before a signature is made or verified. The signature primitive
itself stays outside: `buildClaimMessage` is the byte string that `build_claim`
hands to `crypto_sign_detached`, `appendClaimMessage` the one that `append_claim`
hands to `crypto_sign_verify_detached`, when it gets that far.
-/

namespace FinBit.Identity

open FinBit.Lib

abbrev kUsernameMinBytes : Nat := 3
abbrev kUsernameMaxBytes : Nat := 32
abbrev kAcceptedClockSkewMs : UInt64 := 5 * 60 * 1000

private def edgeBad (c : UInt8) : Bool := c = 0x2e || c = 0x2d

def usernameChar (c : UInt8) : Bool :=
  (0x61 ≤ c && c ≤ 0x7a) || (0x30 ≤ c && c ≤ 0x39) || c = 0x2e || c = 0x5f || c = 0x2d

/-- `is_valid_username`: 3 to 32 of `[a-z0-9._-]`, no dot or dash at an edge. -/
def isValidUsername (candidate : Bytes) : Bool :=
  if candidate.length < kUsernameMinBytes || candidate.length > kUsernameMaxBytes then false
  else if candidate.head?.any edgeBad || candidate.getLast?.any edgeBad then false
  else candidate.all usernameChar

structure UserClaim where
  username : Bytes
  pubkey : Bytes
  timestampMs : UInt64
  nonce : Bytes
  signature : Bytes

def kCanonicalMagic : Bytes := ascii "fb.identity.UserClaim:v1\n"

def canonicalSigningBytes (username pubkey : Bytes) (timestampMs : UInt64) (nonce : Bytes) :
    Except String Bytes :=
  if pubkey.length ≠ 32 then
    .error "canonical_signing_bytes: pubkey must be 32 bytes (Ed25519)"
  else if nonce.length ≠ 16 then
    .error "canonical_signing_bytes: nonce must be 16 bytes"
  else
    .ok (kCanonicalMagic ++ (be16 username.length ++ (username ++ ([32] ++ (pubkey ++
      (be64 timestampMs ++ ([16] ++ nonce)))))))

/-- What `build_claim` signs, for the nonce it drew. -/
def buildClaimMessage (username sigPub sigPriv : Bytes) (timestampMs : UInt64) (nonce : Bytes) :
    Except String Bytes :=
  if ¬ isValidUsername username then
    .error ("build_claim: username failed validation (length 3..32, " ++
      "[a-z0-9._-], no leading/trailing dot or dash)")
  else if sigPub.length ≠ 32 then
    .error "build_claim: sig_pub must be 32 bytes"
  else if sigPriv.length ≠ 64 then
    .error "build_claim: sig_priv must be 64 bytes"
  else canonicalSigningBytes username sigPub timestampMs nonce

/-- What `verify_claim_signature` checks the signature against. -/
def verifyClaimMessage (c : UserClaim) : Option Bytes :=
  if c.pubkey.length ≠ 32 then none
  else if c.signature.length ≠ 64 then none
  else if c.nonce.length ≠ 16 then none
  else (canonicalSigningBytes c.username c.pubkey c.timestampMs c.nonce).toOption

theorem isValidUsername_length {candidate : Bytes} (valid : isValidUsername candidate) :
    3 ≤ candidate.length ∧ candidate.length ≤ 32 := by
  by_contra outside
  have short : candidate.length < 3 ∨ candidate.length > 32 := by omega
  simp [isValidUsername, short] at valid

theorem isValidUsername_all {candidate : Bytes} (valid : isValidUsername candidate) :
    candidate.all usernameChar = true := by
  unfold isValidUsername at valid
  split at valid
  · contradiction
  · split at valid
    · contradiction
    · exact valid

/-- A username is a C string. -/
theorem isValidUsername_cstr {candidate : Bytes} (valid : isValidUsername candidate) :
    (cstr candidate).val = candidate := by
  apply cstr_of_not_mem
  intro zero
  have allowed := List.all_eq_true.mp (isValidUsername_all valid) 0 zero
  revert allowed
  decide

/-- Everything the layout of a claim says about its canonical bytes. -/
theorem canonicalSigningBytes_ok {username pubkey nonce m : Bytes} {timestampMs : UInt64}
    (built : canonicalSigningBytes username pubkey timestampMs nonce = .ok m) :
    kCanonicalMagic <+: m ∧ m.length = 85 + username.length := by
  simp only [canonicalSigningBytes, ite_error_eq_ok, ne_eq, Decidable.not_not] at built
  obtain ⟨keyed, nonced, built⟩ := built
  cases built
  refine ⟨List.prefix_append _ _, ?_⟩
  have magic : kCanonicalMagic.length = 25 := by decide
  simp only [List.length_append, length_be16, length_be64, List.length_singleton, keyed, nonced,
    magic]
  omega

end FinBit.Identity
