import FinBit.Handshake.Hybrid
import FinBit.Identity.UsernameLog
import FinBit.P2P.ProviderRecords

/-! # The roles of the identity key

One Ed25519 key signs the relay's login challenge, two raw public keys, three
kinds of records and the sealed-sender claim. A signature says nothing about the
role it was made for, so the roles are apart only as far as no byte string
signed in one of them is a byte string that the verifier of another one would
check.

`Signs` and `Checks` collect, for each role and each verifier, the byte strings
that reach the signature primitive. Most pairs are kept apart by a magic prefix
or by length; `overlap` lists the pairs that are not.
-/

namespace FinBit.Handshake

open FinBit.Lib FinBit.Identity FinBit.P2P

/-! ### Shapes of messages -/

/-- What is known of a family of byte strings: a prefix and bounds on the length. -/
structure Shape where
  magic : Bytes
  least : Nat
  most : Option Nat

namespace Shape

/-- The lengths exclude each other, or neither prefix extends the other. -/
def apart (s t : Shape) : Bool :=
  s.most.any (· < t.least) || t.most.any (· < s.least) ||
    (!s.magic.isPrefixOf t.magic && !t.magic.isPrefixOf s.magic)

end Shape

/-! ### Signers and verifiers -/

inductive Role where
  | challenge | signedPrekey | kemKey | usernameClaim | providerRecord
  | prekeyRecordV1 | prekeyRecordV2 | sealedSender
  deriving DecidableEq

inductive Verifier where
  | relayChallenge | prekeyRecordSpk | prekeyRecordKem | bundleKem | usernameLog
  | providerStore | prekeyStoreV1 | prekeyStoreV2 | sealedSender
  deriving DecidableEq

def Verifier.role : Verifier → Role
  | .relayChallenge => .challenge
  | .prekeyRecordSpk => .signedPrekey
  | .prekeyRecordKem => .kemKey
  | .bundleKem => .kemKey
  | .usernameLog => .usernameClaim
  | .providerStore => .providerRecord
  | .prekeyStoreV1 => .prekeyRecordV1
  | .prekeyStoreV2 => .prekeyRecordV2
  | .sealedSender => .sealedSender

/-- `ByteDecode₁₂` of FIPS 203: three bytes hold two coefficients. -/
def decode12 : Bytes → List Nat
  | b₀ :: b₁ :: b₂ :: rest =>
    (b₀.toNat + 256 * (b₁.toNat % 16)) :: (b₁.toNat / 16 + 16 * b₂.toNat) :: decode12 rest
  | _ => []

/-- The type and modulus check of FIPS 203 on an ML-KEM-768 public key: 1152
bytes of coefficients below 3329, then a 32-byte seed. -/
def isMlKem768Pub (m : Bytes) : Bool :=
  m.length = kPqPubBytes && (decode12 (m.take 1152)).all (· < 3329)

/-- The byte strings that an honest client signs in each role. -/
def Signs : Role → Bytes → Prop
  | .challenge, m => m.length = 32
  | .signedPrekey, m => m.length = 32
  | .kemKey, m => isMlKem768Pub m
  | .usernameClaim, m => ∃ username sigPub sigPriv timestampMs nonce,
      buildClaimMessage username sigPub sigPriv timestampMs nonce = .ok m
  | .providerRecord, m => ∃ sigPub sigPriv addresses publishedAtMs ttlMs relays nonce,
      buildRecordMessage sigPub sigPriv addresses publishedAtMs ttlMs relays nonce = .ok m
  | .prekeyRecordV1, m => ∃ sigPub sigPriv spk spkSig publishedAtMs ttlMs pqPub pqSig nonce,
      pqPresent pqPub pqSig = false ∧ buildPrekeyRecordMessage sigPub sigPriv spk spkSig
        publishedAtMs ttlMs pqPub pqSig nonce = .ok m
  | .prekeyRecordV2, m => ∃ sigPub sigPriv spk spkSig publishedAtMs ttlMs pqPub pqSig nonce,
      pqPresent pqPub pqSig = true ∧ buildPrekeyRecordMessage sigPub sigPriv spk spkSig
        publishedAtMs ttlMs pqPub pqSig nonce = .ok m
  | .sealedSender, m => ∃ envelopeId timestampMs recipient, envelopeId.length = 16 ∧
      recipient.length = 32 ∧ m = sealedSenderSigInput envelopeId timestampMs recipient

private def zeros (n : Nat) : Bytes := List.replicate n 0

@[simp] private theorem length_zeros (n : Nat) : (zeros n).length = n := List.length_replicate

end FinBit.Handshake
