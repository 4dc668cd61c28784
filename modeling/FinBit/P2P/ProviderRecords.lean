import FinBit.Lib.Bytes
import FinBit.Lib.Guards

/-! # Provider and prekey records

The two record types that the DHT stores, with their canonical signing bytes and
the checks that `build_record`, `build_prekey_record` and the two `put`
functions make before a signature is made or verified. As for username claims,
a `…Message` function yields the byte string handed to the signature primitive.
-/

namespace FinBit.P2P

open FinBit.Lib

abbrev kRecordClockSkewMs : UInt64 := 5 * 60 * 1000
abbrev kMaxAddressesPerRecord : Nat := 16
abbrev kMaxAddressBytes : Nat := 128
/-- ML-KEM-768 public key size. -/
abbrev kPqPubBytes : Nat := 1184

/-! ### Provider records -/

structure ProviderRecord where
  publisherPubkey : Bytes
  addresses : List Bytes
  publishedAtMs : UInt64
  ttlMs : UInt64
  nonce : Bytes
  signature : Bytes
  offlineRelays : List Bytes

def kProviderMagic : Bytes := ascii "fb.p2p.ProviderRecord:v1\n"

/-- The length-prefixed addresses, in order. -/
def addressBytes (addresses : List Bytes) : Bytes :=
  addresses.flatMap fun addr => be16 addr.length ++ addr

def canonicalSigningBytes (publisherPubkey : Bytes) (addresses : List Bytes)
    (publishedAtMs ttlMs : UInt64) (nonce : Bytes) (offlineRelays : List Bytes) :
    Except String Bytes :=
  if publisherPubkey.length ≠ 32 then
    .error "ProviderRecord: publisher_pubkey must be 32 bytes (Ed25519)"
  else if nonce.length ≠ 16 then
    .error "ProviderRecord: nonce must be 16 bytes"
  else if addresses.length > kMaxAddressesPerRecord then
    .error "ProviderRecord: too many addresses (max 16)"
  else if addresses.any (·.length > kMaxAddressBytes) then
    .error "ProviderRecord: address exceeds 128 bytes"
  else if offlineRelays.any (·.length ≠ 32) then
    .error "ProviderRecord: offline_relays entry must be 32B"
  else
    .ok (kProviderMagic ++ ([32] ++ (publisherPubkey ++ (be16 addresses.length ++
      (addressBytes addresses ++ (be64 publishedAtMs ++ (be64 ttlMs ++ ([16] ++ (nonce ++
      (be16 offlineRelays.length ++ offlineRelays.flatten))))))))))

/-- What `build_record` signs, for the nonce it drew. -/
def buildRecordMessage (sigPub sigPriv : Bytes) (addresses : List Bytes)
    (publishedAtMs ttlMs : UInt64) (offlineRelays : List Bytes) (nonce : Bytes) :
    Except String Bytes :=
  if sigPub.length ≠ 32 then
    .error "build_record: sig_pub must be 32 bytes"
  else if sigPriv.length ≠ 64 then
    .error "build_record: sig_priv must be 64 bytes"
  else if addresses = [] then
    .error ("build_record: address list cannot be empty (a record with " ++
      "no reachable addresses is meaningless)")
  else if offlineRelays.any (·.length ≠ 32) then
    .error "build_record: offline_relays entry must be 32B"
  else canonicalSigningBytes sigPub addresses publishedAtMs ttlMs nonce offlineRelays

/-- What `verify_record_signature` checks the signature against. -/
def verifyRecordMessage (r : ProviderRecord) : Option Bytes :=
  if r.publisherPubkey.length ≠ 32 then none
  else if r.signature.length ≠ 64 then none
  else if r.nonce.length ≠ 16 then none
  else if r.addresses = [] then none
  else if r.addresses.length > kMaxAddressesPerRecord then none
  else if r.addresses.any (·.length > kMaxAddressBytes) then none
  else if r.offlineRelays.any (·.length ≠ 32) then none
  else (canonicalSigningBytes r.publisherPubkey r.addresses r.publishedAtMs r.ttlMs r.nonce
    r.offlineRelays).toOption

/-- `record_expired`, in 64-bit arithmetic. -/
def recordExpired (r : ProviderRecord) (now : UInt64) : Bool := r.publishedAtMs + r.ttlMs ≤ now

theorem canonicalSigningBytes_ok {publisherPubkey nonce m : Bytes} {addresses relays : List Bytes}
    {publishedAtMs ttlMs : UInt64}
    (built : canonicalSigningBytes publisherPubkey addresses publishedAtMs ttlMs nonce relays =
      .ok m) : kProviderMagic <+: m ∧ 95 ≤ m.length := by
  simp only [canonicalSigningBytes, ite_error_eq_ok, ne_eq, Decidable.not_not] at built
  obtain ⟨keyed, nonced, -, -, -, built⟩ := built
  cases built
  refine ⟨List.prefix_append _ _, ?_⟩
  have magic : kProviderMagic.length = 25 := by decide
  simp only [List.length_append, length_be16, length_be64, List.length_singleton, keyed, nonced,
    magic]
  omega

structure PrekeyRecord where
  publisherPubkey : Bytes
  signedPrekey : Bytes
  signedPrekeySignature : Bytes
  publishedAtMs : UInt64
  ttlMs : UInt64
  nonce : Bytes
  signature : Bytes
  pqPubkey : Bytes
  pqPubkeySig : Bytes

def kPrekeyMagic : Bytes := ascii "fb.p2p.PrekeyRecord:v1\n"
def kPrekeyMagicV2 : Bytes := ascii "fb.p2p.PrekeyRecord:v2\n"

/-- The PQ fields are all-or-nothing; either one being present selects v2. -/
def pqPresent (pqPubkey pqPubkeySig : Bytes) : Bool := pqPubkey ≠ [] || pqPubkeySig ≠ []

def prekeyCanonicalSigningBytes (publisherPubkey signedPrekey signedPrekeySignature : Bytes)
    (publishedAtMs ttlMs : UInt64) (nonce pqPubkey pqPubkeySig : Bytes) : Except String Bytes :=
  let body := [32] ++ (publisherPubkey ++ ([32] ++ (signedPrekey ++ ([64] ++
    (signedPrekeySignature ++ (be64 publishedAtMs ++ (be64 ttlMs ++ ([16] ++ nonce))))))))
  if publisherPubkey.length ≠ 32 then
    .error "PrekeyRecord: pubkey must be 32B"
  else if signedPrekey.length ≠ 32 then
    .error "PrekeyRecord: signed_prekey must be 32B (X25519 pub)"
  else if signedPrekeySignature.length ≠ 64 then
    .error "PrekeyRecord: signed_prekey_signature must be 64B"
  else if nonce.length ≠ 16 then
    .error "PrekeyRecord: nonce must be 16B"
  else if pqPresent pqPubkey pqPubkeySig then
    if pqPubkey.length ≠ kPqPubBytes then
      .error "PrekeyRecord: pq_pubkey must be 1184B (ML-KEM-768)"
    else if pqPubkeySig.length ≠ 64 then
      .error "PrekeyRecord: pq_pubkey_sig must be 64B"
    else
      .ok (kPrekeyMagicV2 ++ (body ++ (be16 kPqPubBytes ++ (pqPubkey ++ ([64] ++ pqPubkeySig)))))
  else .ok (kPrekeyMagic ++ body)

/-- What `build_prekey_record` signs, for the nonce it drew. -/
def buildPrekeyRecordMessage (sigPub sigPriv signedPrekey signedPrekeySignature : Bytes)
    (publishedAtMs ttlMs : UInt64) (pqPubkey pqPubkeySig nonce : Bytes) : Except String Bytes :=
  if sigPub.length ≠ 32 then
    .error "build_prekey_record: sig_pub must be 32B"
  else if sigPriv.length ≠ 64 then
    .error "build_prekey_record: sig_priv must be 64B"
  else
    prekeyCanonicalSigningBytes sigPub signedPrekey signedPrekeySignature publishedAtMs ttlMs
      nonce pqPubkey pqPubkeySig

/-- The messages of the verifications in `verify_prekey_record_signature`: the
record itself, the signed prekey alone, and the KEM key alone when present. -/
structure PrekeyChecks where
  record : Bytes
  signedPrekey : Bytes
  pqPubkey : Option Bytes

def verifyPrekeyRecordMessages (r : PrekeyRecord) : Option PrekeyChecks :=
  let pq := pqPresent r.pqPubkey r.pqPubkeySig
  if r.publisherPubkey.length ≠ 32 then none
  else if r.signedPrekey.length ≠ 32 then none
  else if r.signedPrekeySignature.length ≠ 64 then none
  else if r.signature.length ≠ 64 then none
  else if r.nonce.length ≠ 16 then none
  else if pq ∧ r.pqPubkey.length ≠ kPqPubBytes then none
  else if pq ∧ r.pqPubkeySig.length ≠ 64 then none
  else
    (prekeyCanonicalSigningBytes r.publisherPubkey r.signedPrekey r.signedPrekeySignature
      r.publishedAtMs r.ttlMs r.nonce r.pqPubkey r.pqPubkeySig).toOption.map fun record =>
        { record, signedPrekey := r.signedPrekey, pqPubkey := if pq then some r.pqPubkey else none }

def prekeyExpired (r : PrekeyRecord) (now : UInt64) : Bool := r.publishedAtMs + r.ttlMs ≤ now

theorem prekeyCanonicalSigningBytes_ok {publisherPubkey signedPrekey spkSig nonce pqPub pqSig
    m : Bytes} {publishedAtMs ttlMs : UInt64}
    (built : prekeyCanonicalSigningBytes publisherPubkey signedPrekey spkSig publishedAtMs ttlMs
      nonce pqPub pqSig = .ok m) :
    if pqPresent pqPub pqSig then kPrekeyMagicV2 <+: m ∧ m.length = 1438
    else kPrekeyMagic <+: m ∧ m.length = 187 := by
  have magic : kPrekeyMagic.length = 23 := by decide
  have magicV2 : kPrekeyMagicV2.length = 23 := by decide
  simp only [prekeyCanonicalSigningBytes, ite_error_eq_ok, ne_eq, Decidable.not_not] at built
  obtain ⟨keyed, spk, sig, nonced, built⟩ := built
  split at built
  next present =>
    simp only [ite_error_eq_ok, Decidable.not_not] at built
    obtain ⟨pq, pqSigned, built⟩ := built
    cases built
    refine if_pos present ▸ ⟨List.prefix_append _ _, ?_⟩
    simp [keyed, spk, sig, nonced, pq, pqSigned, magicV2, kPqPubBytes]
  next absent =>
    cases built
    refine if_neg absent ▸ ⟨List.prefix_append _ _, ?_⟩
    simp [keyed, spk, sig, nonced, magic]

end FinBit.P2P
