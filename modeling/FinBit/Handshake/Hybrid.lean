import FinBit.Lib.Guards
import FinBit.Crypto.Ratchet

/-! # Hybrid handshake

The prekey bundle that a client fetches before first contact, the shared secret
that the two sides derive from it, and the input of the sealed-sender signature.

A secret combines X25519 with ML-KEM-768. Both helpers throw: on a low-order
point, on a KEM value of the wrong size, and, on the sending side, on a bundle
whose signatures do not verify.
-/

namespace FinBit.Handshake

open FinBit.Lib FinBit.Crypto

/-- The fields of `PreKeyBundle` that first contact reads. -/
structure PreKeyBundle where
  identityPubkey : Bytes
  signedPrekey : Bytes
  pqPubkey : Bytes
  pqPubkeySig : Bytes
  pqSigPubkey : Bytes
  pqSigPubkeySig : Bytes
  signedPrekeySigPq : Bytes
  pqPubkeySigPq : Bytes

/-- What `derive_hybrid_send_from_bundle` checks `pq_pubkey_sig` against; a
bundle without a KEM key is not checked. The size of the key is looked at only
later, in `derive_hybrid_send`. -/
def bundlePqMessage (bundle : PreKeyBundle) : Except String (Option Bytes) :=
  if bundle.pqPubkey = [] then .ok none
  else if bundle.identityPubkey.length ≠ 32 then
    .error "hybrid_send_from_bundle: identity_pubkey size"
  else if bundle.pqPubkeySig.length ≠ 64 then
    .error "hybrid_send_from_bundle: missing pq_pubkey_sig"
  else .ok (some bundle.pqPubkey)

/-- What the handshake takes from libsodium and OpenSSL, over what the ratchet
takes. An encapsulation draws randomness, so its argument says which draw it is. -/
structure HybridCrypto (K : Type) extends RatchetCrypto K where
  /-- `crypto_sign_ed25519_pk_to_curve25519`. -/
  edToCurve : Bytes → Option Bytes
  /-- HKDF with `kX3dhInfo`. -/
  x3dh : K → K
  /-- Public key and draw to ciphertext and secret. -/
  encap : Bytes → Nat → Option (Bytes × K)
  /-- Secret key and ciphertext to secret. -/
  decap : Bytes → Bytes → Option K
  combine : K → K → K
  /-- `Identity::verify` on public key, message and signature. -/
  verify : Bytes → Bytes → Bytes → Bool
  /-- `verify_ml_dsa_65`. -/
  verifyMlDsa : Bytes → Bytes → Bytes → Bool

abbrev kMlKem768PubBytes : Nat := 1184
abbrev kMlKem768CtBytes : Nat := 1088
abbrev kMlDsa65PubBytes : Nat := 1952
abbrev kMlDsa65SigBytes : Nat := 3309

section

variable {K : Type} (P : HybridCrypto K)

def deriveSharedSecret (mine : KeyPair K) (peerPub : Bytes) : Except String K :=
  match P.x25519Dh mine.priv peerPub with
  | none => .error "scalarmult low-order"
  | some dh => .ok (P.x3dh dh)

/-- The shared secret and, where the peer has a KEM key, the ciphertext for it. -/
def deriveHybridSend (mine : KeyPair K) (peerX peerPqPub : Bytes) (draw : Nat) :
    Except String (K × Bytes) := do
  let shared ← deriveSharedSecret P mine peerX
  if peerPqPub = [] then .ok (shared, [])
  else if peerPqPub.length ≠ kMlKem768PubBytes then
    .error "hybrid_send: pq_pubkey wrong size"
  else
    match P.encap peerPqPub draw with
    | none => .error "EVP_PKEY_encapsulate"
    | some (ct, ss) => .ok (P.combine shared ss, ct)

def deriveHybridRecv (mine : KeyPair K) (peerX myPqSec pqCt : Bytes) : Except String K := do
  let shared ← deriveSharedSecret P mine peerX
  if pqCt = [] then .ok shared
  else if pqCt.length ≠ kMlKem768CtBytes then .error "hybrid_recv: pq_ct wrong size"
  else
    match P.decap myPqSec pqCt with
    | none => .error "EVP_PKEY_decapsulate"
    | some ss => .ok (P.combine shared ss)

/-- A bundle without any of the four post-quantum signature fields passes; one
that has some of them must have all, and a KEM key under them. -/
def verifyBundlePqSigs (bundle : PreKeyBundle) : Bool :=
  if bundle.pqSigPubkey = [] ∧ bundle.pqSigPubkeySig = [] ∧ bundle.signedPrekeySigPq = [] ∧
      bundle.pqPubkeySigPq = [] then true
  else if bundle.pqSigPubkey.length ≠ kMlDsa65PubBytes then false
  else if bundle.pqSigPubkeySig.length ≠ 64 then false
  else if bundle.signedPrekeySigPq.length ≠ kMlDsa65SigBytes then false
  else if bundle.identityPubkey.length ≠ 32 then false
  else if bundle.signedPrekey.length ≠ 32 then false
  else if bundle.pqPubkey.length ≠ kMlKem768PubBytes then false
  else if bundle.pqPubkeySigPq.length ≠ kMlDsa65SigBytes then false
  else
    P.verify bundle.identityPubkey bundle.pqSigPubkey bundle.pqSigPubkeySig &&
    P.verifyMlDsa bundle.pqSigPubkey bundle.signedPrekey bundle.signedPrekeySigPq &&
    P.verifyMlDsa bundle.pqSigPubkey bundle.pqPubkey bundle.pqPubkeySigPq

def deriveHybridSendFromBundle (mine : KeyPair K) (peerX : Bytes) (bundle : PreKeyBundle)
    (draw : Nat) : Except String (K × Bytes) := do
  match ← bundlePqMessage bundle with
  | none => pure ()
  | some message =>
    if P.verify bundle.identityPubkey message bundle.pqPubkeySig = false then
      throw "hybrid_send_from_bundle: pq_pubkey signature invalid — possible MITM"
  if verifyBundlePqSigs P bundle = false then
    throw "hybrid_send_from_bundle: PQ-sig verification failed — possible MITM"
  deriveHybridSend P mine peerX bundle.pqPubkey draw

end

def kSealedSenderDomain : Bytes := ascii "FinBit-SealedSender-v1"

def sealedSenderSigInput (envelopeId : Bytes) (timestampMs : UInt64) (recipientPubkey : Bytes) :
    Bytes :=
  kSealedSenderDomain ++ (envelopeId ++ (be64 timestampMs ++ recipientPubkey))

@[simp] theorem length_sealedSenderSigInput (envelopeId : Bytes) (timestampMs : UInt64)
    (recipientPubkey : Bytes) :
    (sealedSenderSigInput envelopeId timestampMs recipientPubkey).length =
      30 + envelopeId.length + recipientPubkey.length := by
  have : kSealedSenderDomain.length = 22 := by decide
  simp [sealedSenderSigInput, this]
  omega

/-- `verify_sealed_sender`. -/
def verifySealedSender {K : Type} (P : HybridCrypto K) (claimedPubkey claimedSig envelopeId : Bytes)
    (timestampMs : UInt64) (recipientPubkey : Bytes) : Bool :=
  P.verify claimedPubkey (sealedSenderSigInput envelopeId timestampMs recipientPubkey) claimedSig

end FinBit.Handshake
