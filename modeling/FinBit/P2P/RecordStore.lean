import Std.Data.ExtTreeMap
import FinBit.P2P.ProviderRecords

/-! # Record stores

`ProviderStore` and `PrekeyStore`: two maps of records by publisher that share every
step of `put` and `get` and differ in the fields they check and sign. A `RecordKind`
is what one of them brings.

The two `verify_…` functions call a function that throws on fields of the wrong size.
They check every size before, so they never throw themselves.
-/

namespace FinBit.P2P

open FinBit.Lib Std

/-- `crypto_sign_verify_detached` on public key, message and signature. -/
abbrev SignVerify := Bytes → Bytes → Bytes → Bool

inductive PutResult where
  | accepted
  | alreadyKnown
  | rejectedFormat
  | rejectedClock
  | rejectedExpired
  | rejectedSig
  deriving DecidableEq

/-! ### Signatures -/

section

variable (verify : SignVerify)

def verifyRecordSignature (r : ProviderRecord) : Except String Bool :=
  if r.publisherPubkey.length ≠ 32 then .ok false
  else if r.signature.length ≠ 64 then .ok false
  else if r.nonce.length ≠ 16 then .ok false
  else if r.addresses = [] then .ok false
  else if r.addresses.length > kMaxAddressesPerRecord then .ok false
  else if r.addresses.any (·.length > kMaxAddressBytes) then .ok false
  else if r.offlineRelays.any (·.length ≠ 32) then .ok false
  else
    match canonicalSigningBytes r.publisherPubkey r.addresses r.publishedAtMs r.ttlMs r.nonce
        r.offlineRelays with
    | .error e => .error e
    | .ok signingBytes => .ok (verify r.publisherPubkey signingBytes r.signature)

def verifyPrekeyRecordSignature (r : PrekeyRecord) : Except String Bool :=
  let pq := pqPresent r.pqPubkey r.pqPubkeySig
  if r.publisherPubkey.length ≠ 32 then .ok false
  else if r.signedPrekey.length ≠ 32 then .ok false
  else if r.signedPrekeySignature.length ≠ 64 then .ok false
  else if r.signature.length ≠ 64 then .ok false
  else if r.nonce.length ≠ 16 then .ok false
  else if pq ∧ r.pqPubkey.length ≠ kPqPubBytes then .ok false
  else if pq ∧ r.pqPubkeySig.length ≠ 64 then .ok false
  else
    match prekeyCanonicalSigningBytes r.publisherPubkey r.signedPrekey r.signedPrekeySignature
        r.publishedAtMs r.ttlMs r.nonce r.pqPubkey r.pqPubkeySig with
    | .error e => .error e
    | .ok signingBytes =>
      -- the outer signature, that of the signed prekey, and that of the KEM key if there is one
      .ok (verify r.publisherPubkey signingBytes r.signature &&
        verify r.publisherPubkey r.signedPrekey r.signedPrekeySignature &&
        (!pq || verify r.publisherPubkey r.pqPubkey r.pqPubkeySig))

/-- The checks cover everything that `canonicalSigningBytes` throws over, and what is
verified then is the message that `verifyRecordMessage` gives. -/
theorem verifyRecordSignature_eq (r : ProviderRecord) :
    verifyRecordSignature verify r =
      .ok ((verifyRecordMessage r).any fun m => verify r.publisherPubkey m r.signature) := by
  unfold verifyRecordSignature verifyRecordMessage
  apply ite_ok_false_eq
  intro keyed
  apply ite_ok_false_eq
  intro signed
  apply ite_ok_false_eq
  intro nonced
  apply ite_ok_false_eq
  intro addressed
  apply ite_ok_false_eq
  intro few
  apply ite_ok_false_eq
  intro short
  apply ite_ok_false_eq
  intro relays
  -- all sizes are right, so the bytes to sign are there
  simp only [canonicalSigningBytes, keyed, nonced, few, short, relays, if_false]
  rfl

theorem verifyPrekeyRecordSignature_eq (r : PrekeyRecord) :
    verifyPrekeyRecordSignature verify r =
      .ok ((verifyPrekeyRecordMessages r).any fun checks =>
        verify r.publisherPubkey checks.record r.signature &&
        verify r.publisherPubkey checks.signedPrekey r.signedPrekeySignature &&
        checks.pqPubkey.all fun key => verify r.publisherPubkey key r.pqPubkeySig) := by
  unfold verifyPrekeyRecordSignature verifyPrekeyRecordMessages
  dsimp only
  apply ite_ok_false_eq
  intro keyed
  apply ite_ok_false_eq
  intro spk
  apply ite_ok_false_eq
  intro spkSig
  apply ite_ok_false_eq
  intro signed
  apply ite_ok_false_eq
  intro nonced
  apply ite_ok_false_eq
  intro pqSized
  apply ite_ok_false_eq
  intro pqSigned
  -- the sizes of the KEM fields only matter where they are present
  cases present : pqPresent r.pqPubkey r.pqPubkeySig with
  | false =>
    simp only [prekeyCanonicalSigningBytes, keyed, spk, spkSig, nonced, present,
      Bool.false_eq_true, if_false]
    simp [Except.toOption]
  | true =>
    rw [present] at pqSized pqSigned
    simp only [true_and] at pqSized pqSigned
    simp only [prekeyCanonicalSigningBytes, keyed, spk, spkSig, nonced, present, pqSized,
      pqSigned, if_false, if_true]
    simp [Except.toOption]

end

/-! ### Stores -/

/-- What a store needs to know of its records. -/
structure RecordKind (R : Type) where
  publisherPubkey : R → Bytes
  nonce : R → Bytes
  publishedAtMs : R → UInt64
  expired : R → UInt64 → Bool
  /-- The format checks at the head of `put`. -/
  wellFormed : R → Bool
  verifySignature : R → Except String Bool

/-- `by_publisher`: records by publisher and then by `record_key`. -/
abbrev RecordStore (R : Type) := ExtTreeMap Bytes (ExtTreeMap Bytes R)

section

variable {R : Type} (kind : RecordKind R)

/-- `record_key` and `prekey_record_key`. -/
def RecordKind.recordKey (record : R) : Bytes := kind.publisherPubkey record ++ kind.nonce record

def RecordStore.put (store : RecordStore R) (record : R) (now : UInt64) :
    Except String (RecordStore R × PutResult) :=
  if kind.wellFormed record = false then .ok (store, .rejectedFormat)
  else if kind.publishedAtMs record > now + kRecordClockSkewMs then .ok (store, .rejectedClock)
  else if kind.expired record now then .ok (store, .rejectedExpired)
  else
    match kind.verifySignature record with
    | .error e => .error e
    | .ok false => .ok (store, .rejectedSig)
    | .ok true =>
      let bucket := store[kind.publisherPubkey record]?.getD ∅
      -- `try_emplace`: a record that is there stays
      if kind.recordKey record ∈ bucket then .ok (store, .alreadyKnown)
      else
        .ok (store.insert (kind.publisherPubkey record)
          (bucket.insert (kind.recordKey record) record), .accepted)

/-- `ProviderStore::get` and `PrekeyStore::get_all`. -/
def RecordStore.get (store : RecordStore R) (publisherPubkey : Bytes) (now : UInt64) : List R :=
  ((store[publisherPubkey]?.getD ∅).toList.map Prod.snd).filter fun record =>
    !kind.expired record now

/-- `PrekeyStore::get_latest`: of records with the same date the first one stays. -/
def RecordStore.getLatest (store : RecordStore R) (publisherPubkey : Bytes) (now : UInt64) :
    Option R :=
  ((store[publisherPubkey]?.getD ∅).toList.map Prod.snd).foldl
    (fun best record =>
      if kind.expired record now then best
      else
        match best with
        | none => some record
        | some b => if kind.publishedAtMs record > kind.publishedAtMs b then some record else best)
    none

/-- `prune_expired`, with the number of records that it drops. -/
def RecordStore.pruneExpired (store : RecordStore R) (now : UInt64) : RecordStore R × Nat :=
  ((store.map fun _ bucket => bucket.filter fun _ record => !kind.expired record now).filter
      fun _ bucket => !bucket.isEmpty,
    (store.toList.map fun (_, bucket) =>
      (bucket.toList.filter fun (_, record) => kind.expired record now).length).sum)

/-- A store whose records can be verified without an exception takes any record
without one. -/
theorem RecordStore.not_fails_put (safe : ∀ record, ¬Fails (kind.verifySignature record))
    (store : RecordStore R) (record : R) (now : UInt64) : ¬Fails (store.put kind record now) := by
  unfold RecordStore.put
  simp only [fails_ite_ok, not_and]
  -- past format, clock and expiry
  intro _ _ _
  obtain ⟨verified, result⟩ := not_fails_iff.mp (safe record)
  rw [result]
  cases verified with
  | false => exact not_fails_ok _
  | true => simp only [fails_ite_ok, not_fails_ok, and_false, not_false_eq_true]

end

section

variable (verify : SignVerify)

/-- `ProviderStore`. -/
def providerKind : RecordKind ProviderRecord where
  publisherPubkey := ProviderRecord.publisherPubkey
  nonce := ProviderRecord.nonce
  publishedAtMs := ProviderRecord.publishedAtMs
  expired := recordExpired
  wellFormed r :=
    r.publisherPubkey.length = 32 && r.signature.length = 64 && r.nonce.length = 16 &&
    r.addresses ≠ [] && r.addresses.length ≤ kMaxAddressesPerRecord &&
    r.addresses.all (·.length ≤ kMaxAddressBytes)
  verifySignature := verifyRecordSignature verify

/-- `PrekeyStore`. -/
def prekeyKind : RecordKind PrekeyRecord where
  publisherPubkey := PrekeyRecord.publisherPubkey
  nonce := PrekeyRecord.nonce
  publishedAtMs := PrekeyRecord.publishedAtMs
  expired := prekeyExpired
  wellFormed r :=
    r.publisherPubkey.length = 32 && r.signedPrekey.length = 32 &&
    r.signedPrekeySignature.length = 64 && r.signature.length = 64 && r.nonce.length = 16
  verifySignature := verifyPrekeyRecordSignature verify

theorem providerKind_safe (r : ProviderRecord) : ¬Fails ((providerKind verify).verifySignature r) := by
  change ¬Fails (verifyRecordSignature verify r)
  rw [verifyRecordSignature_eq]
  exact not_fails_ok _

theorem prekeyKind_safe (r : PrekeyRecord) : ¬Fails ((prekeyKind verify).verifySignature r) := by
  change ¬Fails (verifyPrekeyRecordSignature verify r)
  rw [verifyPrekeyRecordSignature_eq]
  exact not_fails_ok _

end

end FinBit.P2P
