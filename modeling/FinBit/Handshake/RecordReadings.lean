import FinBit.Handshake.Hybrid
import FinBit.Identity.UsernameLog
import FinBit.Lib.Reader
import FinBit.P2P.ProviderRecords

/-! # One reading of signed records

The canonical bytes of username claims, provider records and prekey records are read in one way
only: whatever has the same bytes is the same record, so that a signature fixes every field.
-/

namespace FinBit.Handshake

open FinBit.Lib FinBit.Identity FinBit.P2P

/-! ### Fields -/

/-- As many addresses are read as there are. -/
theorem addressBytes_append_inj {as as' : List Bytes} {rest rest' : Bytes}
    (count : as.length = as'.length) (short : ∀ a ∈ as, a.length < 65536)
    (short' : ∀ a ∈ as', a.length < 65536)
    (same : addressBytes as ++ rest = addressBytes as' ++ rest') : as = as' ∧ rest = rest' := by
  induction as generalizing as' with
  | nil =>
    obtain rfl := List.eq_nil_of_length_eq_zero count.symm
    exact ⟨rfl, same⟩
  | cons a as ih =>
    cases as' with
    | nil => cases count
    | cons a' as' =>
      obtain ⟨a_short, as_short⟩ := List.forall_mem_cons.mp short
      obtain ⟨a_short', as_short'⟩ := List.forall_mem_cons.mp short'
      simp only [addressBytes, List.flatMap_cons, List.append_assoc] at same
      obtain ⟨prefix_, behind⟩ := fixed_inj (length_be16 _) (length_be16 _) same
      obtain ⟨rfl, others⟩ := fixed_inj (be16_inj a_short a_short' prefix_) rfl behind
      obtain ⟨rfl, last⟩ := ih (Nat.succ.inj count) as_short as_short' others
      exact ⟨rfl, last⟩

/-- Relays are read in their length of 32 octets. -/
theorem flatten_inj {rs rs' : List Bytes} (sized : ∀ r ∈ rs, r.length = 32)
    (sized' : ∀ r ∈ rs', r.length = 32) (same : rs.flatten = rs'.flatten) : rs = rs' := by
  induction rs generalizing rs' with
  | nil =>
    cases rs' with
    | nil => rfl
    | cons r' rs' =>
      have none := List.append_eq_nil_iff.mp (List.flatten_cons ▸ same.symm)
      have length := sized' r' List.mem_cons_self
      rw [none.1] at length
      cases length
  | cons r rs ih =>
    obtain ⟨r_sized, rs_sized⟩ := List.forall_mem_cons.mp sized
    cases rs' with
    | nil =>
      have none := List.append_eq_nil_iff.mp (List.flatten_cons ▸ same)
      rw [none.1] at r_sized
      cases r_sized
    | cons r' rs' =>
      obtain ⟨r_sized', rs_sized'⟩ := List.forall_mem_cons.mp sized'
      obtain ⟨rfl, behind⟩ := fixed_inj r_sized r_sized' (by simpa using same)
      rw [ih rs_sized rs_sized' behind]

/-! ### Records -/

/-- The fields of a record that its signature is over. A prekey record without the fields for
post-quantum keys is of version 1. -/
inductive SignedRecord
  | claim (username pubkey : Bytes) (timestampMs : UInt64) (nonce : Bytes)
  | provider (publisherPubkey : Bytes) (addresses : List Bytes) (publishedAtMs ttlMs : UInt64)
      (nonce : Bytes) (offlineRelays : List Bytes)
  | prekey (publisherPubkey signedPrekey signedPrekeySignature : Bytes)
      (publishedAtMs ttlMs : UInt64) (nonce pqPubkey pqPubkeySig : Bytes)

/-- The bytes that are signed, where the code makes any. -/
def signedBytes : SignedRecord → Except String Bytes
  | .claim username pubkey timestampMs nonce =>
    Identity.canonicalSigningBytes username pubkey timestampMs nonce
  | .provider publisherPubkey addresses publishedAtMs ttlMs nonce offlineRelays =>
    P2P.canonicalSigningBytes publisherPubkey addresses publishedAtMs ttlMs nonce offlineRelays
  | .prekey publisherPubkey signedPrekey signedPrekeySignature publishedAtMs ttlMs nonce pqPubkey
      pqPubkeySig =>
    prekeyCanonicalSigningBytes publisherPubkey signedPrekey signedPrekeySignature publishedAtMs
      ttlMs nonce pqPubkey pqPubkeySig

theorem claim_inj {username username' pubkey pubkey' nonce nonce' m : Bytes}
    {timestampMs timestampMs' : UInt64}
    (left : Identity.canonicalSigningBytes username pubkey timestampMs nonce = .ok m)
    (right : Identity.canonicalSigningBytes username' pubkey' timestampMs' nonce' = .ok m) :
    username = username' ∧ pubkey = pubkey' ∧ timestampMs = timestampMs' ∧ nonce = nonce' := by
  simp only [Identity.canonicalSigningBytes, ite_error_eq_ok, ne_eq, Decidable.not_not] at left right
  obtain ⟨keyed, nonced, left⟩ := left
  obtain ⟨keyed', nonced', right⟩ := right
  have bytes := List.append_cancel_left (Except.ok.inj (left.trans right.symm))
  obtain ⟨-, name⟩ := fixed_inj (length_be16 _) (length_be16 _) bytes
  -- everything behind the username has a known length
  obtain ⟨rfl, key⟩ := List.append_inj' name (by simp [keyed, keyed', nonced, nonced'])
  obtain ⟨rfl, time⟩ := fixed_inj keyed keyed' (List.append_cancel_left key)
  obtain ⟨rfl, last⟩ := be64_append_inj time
  exact ⟨rfl, rfl, rfl, List.append_cancel_left last⟩

theorem provider_inj {publisherPubkey publisherPubkey' nonce nonce' m : Bytes}
    {addresses addresses' relays relays' : List Bytes}
    {publishedAtMs publishedAtMs' ttlMs ttlMs' : UInt64}
    (left : P2P.canonicalSigningBytes publisherPubkey addresses publishedAtMs ttlMs nonce relays =
      .ok m)
    (right : P2P.canonicalSigningBytes publisherPubkey' addresses' publishedAtMs' ttlMs' nonce'
      relays' = .ok m) :
    publisherPubkey = publisherPubkey' ∧ addresses = addresses' ∧ publishedAtMs = publishedAtMs' ∧
      ttlMs = ttlMs' ∧ nonce = nonce' ∧ relays = relays' := by
  simp only [P2P.canonicalSigningBytes, ite_error_eq_ok, ne_eq, Decidable.not_not, List.any_eq_true,
    decide_eq_true_eq, not_exists, not_and, Nat.not_lt, gt_iff_lt] at left right
  obtain ⟨keyed, nonced, few, short, sized, left⟩ := left
  obtain ⟨keyed', nonced', few', short', sized', right⟩ := right
  unfold kMaxAddressesPerRecord at few few'
  unfold kMaxAddressBytes at short short'
  have bytes := List.append_cancel_left (Except.ok.inj (left.trans right.symm))
  obtain ⟨rfl, listed⟩ := fixed_inj keyed keyed' (List.append_cancel_left bytes)
  obtain ⟨count, named⟩ := fixed_inj (length_be16 _) (length_be16 _) listed
  obtain ⟨rfl, published⟩ := addressBytes_append_inj (be16_inj (by omega) (by omega) count)
    (fun a a_mem => (short a a_mem).trans_lt (by decide))
    (fun a a_mem => (short' a a_mem).trans_lt (by decide)) named
  obtain ⟨rfl, lasting⟩ := be64_append_inj published
  obtain ⟨rfl, drawn⟩ := be64_append_inj lasting
  obtain ⟨rfl, relayed⟩ := fixed_inj nonced nonced' (List.append_cancel_left drawn)
  obtain ⟨-, last⟩ := fixed_inj (length_be16 _) (length_be16 _) relayed
  exact ⟨rfl, rfl, rfl, rfl, rfl, flatten_inj sized sized' last⟩

/-- The part of the bytes of a prekey record that both versions have. -/
def prekeyBody (publisherPubkey signedPrekey signedPrekeySignature : Bytes)
    (publishedAtMs ttlMs : UInt64) (nonce : Bytes) : Bytes :=
  [32] ++ (publisherPubkey ++ ([32] ++ (signedPrekey ++ ([64] ++
    (signedPrekeySignature ++ (be64 publishedAtMs ++ (be64 ttlMs ++ ([16] ++ nonce))))))))

theorem pq_absent {pqPub pqSig : Bytes} (absent : pqPresent pqPub pqSig = false) :
    pqPub = [] ∧ pqSig = [] := by
  simpa [pqPresent] using absent

theorem prekeyBody_append_inj {publisherPubkey publisherPubkey' spk spk' spkSig spkSig' nonce nonce'
    rest rest' : Bytes} {publishedAtMs publishedAtMs' ttlMs ttlMs' : UInt64}
    (keyed : publisherPubkey.length = 32) (keyed' : publisherPubkey'.length = 32)
    (spked : spk.length = 32) (spked' : spk'.length = 32)
    (signed : spkSig.length = 64) (signed' : spkSig'.length = 64)
    (nonced : nonce.length = 16) (nonced' : nonce'.length = 16)
    (same : prekeyBody publisherPubkey spk spkSig publishedAtMs ttlMs nonce ++ rest =
      prekeyBody publisherPubkey' spk' spkSig' publishedAtMs' ttlMs' nonce' ++ rest') :
    publisherPubkey = publisherPubkey' ∧ spk = spk' ∧ spkSig = spkSig' ∧
      publishedAtMs = publishedAtMs' ∧ ttlMs = ttlMs' ∧ nonce = nonce' ∧ rest = rest' := by
  simp only [prekeyBody, List.append_assoc] at same
  obtain ⟨rfl, key⟩ := fixed_inj keyed keyed' (List.append_cancel_left same)
  obtain ⟨rfl, sig⟩ := fixed_inj spked spked' (List.append_cancel_left key)
  obtain ⟨rfl, published⟩ := fixed_inj signed signed' (List.append_cancel_left sig)
  obtain ⟨rfl, lasting⟩ := be64_append_inj published
  obtain ⟨rfl, drawn⟩ := be64_append_inj lasting
  obtain ⟨rfl, last⟩ := fixed_inj nonced nonced' (List.append_cancel_left drawn)
  exact ⟨rfl, rfl, rfl, rfl, rfl, rfl, last⟩

theorem prekey_inj {publisherPubkey publisherPubkey' spk spk' spkSig spkSig' nonce nonce' pqPub
    pqPub' pqSig pqSig' m : Bytes} {publishedAtMs publishedAtMs' ttlMs ttlMs' : UInt64}
    (left : prekeyCanonicalSigningBytes publisherPubkey spk spkSig publishedAtMs ttlMs nonce pqPub
      pqSig = .ok m)
    (right : prekeyCanonicalSigningBytes publisherPubkey' spk' spkSig' publishedAtMs' ttlMs' nonce'
      pqPub' pqSig' = .ok m) :
    publisherPubkey = publisherPubkey' ∧ spk = spk' ∧ spkSig = spkSig' ∧
      publishedAtMs = publishedAtMs' ∧ ttlMs = ttlMs' ∧ nonce = nonce' ∧ pqPub = pqPub' ∧
      pqSig = pqSig' := by
  have shape := prekeyCanonicalSigningBytes_ok left
  have shape' := prekeyCanonicalSigningBytes_ok right
  simp only [prekeyCanonicalSigningBytes, ite_error_eq_ok, ne_eq, Decidable.not_not] at left right
  obtain ⟨keyed, spked, signed, nonced, left⟩ := left
  obtain ⟨keyed', spked', signed', nonced', right⟩ := right
  cases present : pqPresent pqPub pqSig <;> cases present' : pqPresent pqPub' pqSig' <;>
    simp only [present, present', if_true, if_false, Bool.false_eq_true] at shape shape' left right
  · -- both of version 1, with nothing behind the nonce
    have bytes := List.append_cancel_left (Except.ok.inj (left.trans right.symm))
    have padded : prekeyBody publisherPubkey spk spkSig publishedAtMs ttlMs nonce ++ [] =
        prekeyBody publisherPubkey' spk' spkSig' publishedAtMs' ttlMs' nonce' ++ [] :=
      congrArg (· ++ []) bytes
    obtain ⟨rfl, rfl⟩ := pq_absent present
    obtain ⟨rfl, rfl⟩ := pq_absent present'
    obtain ⟨rfl, rfl, rfl, rfl, rfl, rfl, -⟩ :=
      prekeyBody_append_inj keyed keyed' spked spked' signed signed' nonced nonced' padded
    exact ⟨rfl, rfl, rfl, rfl, rfl, rfl, rfl, rfl⟩
  · exact absurd (shape.2.symm.trans shape'.2) (by decide)
  · exact absurd (shape.2.symm.trans shape'.2) (by decide)
  · -- both of version 2
    simp only [ite_error_eq_ok, Decidable.not_not] at left right
    obtain ⟨pq, pqSigned, left⟩ := left
    obtain ⟨pq', pqSigned', right⟩ := right
    have bytes := List.append_cancel_left (Except.ok.inj (left.trans right.symm))
    obtain ⟨rfl, rfl, rfl, rfl, rfl, rfl, last⟩ :=
      prekeyBody_append_inj keyed keyed' spked spked' signed signed' nonced nonced' bytes
    obtain ⟨rfl, pqSigs⟩ := fixed_inj pq pq' (List.append_cancel_left last)
    exact ⟨rfl, rfl, rfl, rfl, rfl, rfl, rfl, List.append_cancel_left pqSigs⟩

/-! ### Readings -/

inductive RecordKind
  | claim
  | provider
  | prekeyV1
  | prekeyV2
  deriving DecidableEq

def SignedRecord.kind : SignedRecord → RecordKind
  | .claim .. => .claim
  | .provider .. => .provider
  | .prekey _ _ _ _ _ _ pqPubkey pqPubkeySig =>
    if pqPresent pqPubkey pqPubkeySig then .prekeyV2 else .prekeyV1

/-- What the bytes of a kind of records begin with. -/
def RecordKind.magic : RecordKind → Bytes
  | .claim => kCanonicalMagic
  | .provider => kProviderMagic
  | .prekeyV1 => kPrekeyMagic
  | .prekeyV2 => kPrekeyMagicV2

/-- No magic extends another. -/
theorem RecordKind.magic_apart {k k' : RecordKind} (inside : k.magic <+: k'.magic) : k = k' := by
  have all : ∀ k k' : RecordKind, k.magic.isPrefixOf k'.magic = true → k = k' := by
    intro k k'
    cases k <;> cases k' <;> decide
  exact all k k' (List.isPrefixOf_iff_prefix.mpr inside)

theorem signedBytes_magic {r : SignedRecord} {m : Bytes} (signed : signedBytes r = .ok m) :
    r.kind.magic <+: m := by
  cases r with
  | claim => exact (Identity.canonicalSigningBytes_ok signed).1
  | provider => exact (P2P.canonicalSigningBytes_ok signed).1
  | prekey _ _ _ _ _ _ pqPubkey pqPubkeySig =>
    have shape := prekeyCanonicalSigningBytes_ok signed
    unfold SignedRecord.kind
    cases present : pqPresent pqPubkey pqPubkeySig <;>
      simp only [present, if_true, if_false, Bool.false_eq_true] at shape ⊢ <;>
      exact shape.1

theorem kind_eq {r r' : SignedRecord} {m : Bytes} (signed : signedBytes r = .ok m)
    (signed' : signedBytes r' = .ok m) : r.kind = r'.kind := by
  obtain inside | inside := List.prefix_or_prefix_of_prefix (signedBytes_magic signed)
    (signedBytes_magic signed')
  · exact RecordKind.magic_apart inside
  · exact (RecordKind.magic_apart inside).symm

theorem prekey_kind (publisherPubkey spk spkSig : Bytes) (publishedAtMs ttlMs : UInt64)
    (nonce pqPub pqSig : Bytes) :
    (SignedRecord.prekey publisherPubkey spk spkSig publishedAtMs ttlMs nonce pqPub pqSig).kind ≠
        .claim ∧
      (SignedRecord.prekey publisherPubkey spk spkSig publishedAtMs ttlMs nonce pqPub pqSig).kind ≠
        .provider := by
  unfold SignedRecord.kind
  cases present : pqPresent pqPub pqSig <;> simp [present]

theorem signedBytes_inj {r r' : SignedRecord} {m : Bytes} (signed : signedBytes r = .ok m)
    (signed' : signedBytes r' = .ok m) : r = r' := by
  have kinds := kind_eq signed signed'
  cases r with
  | claim =>
    cases r' with
    | claim =>
      obtain ⟨rfl, rfl, rfl, rfl⟩ := claim_inj signed signed'
      rfl
    | provider => cases kinds
    | prekey => exact absurd kinds.symm (prekey_kind ..).1
  | provider =>
    cases r' with
    | claim => cases kinds
    | provider =>
      obtain ⟨rfl, rfl, rfl, rfl, rfl, rfl⟩ := provider_inj signed signed'
      rfl
    | prekey => exact absurd kinds.symm (prekey_kind ..).2
  | prekey =>
    cases r' with
    | claim => exact absurd kinds (prekey_kind ..).1
    | provider => exact absurd kinds (prekey_kind ..).2
    | prekey =>
      obtain ⟨rfl, rfl, rfl, rfl, rfl, rfl, rfl, rfl⟩ := prekey_inj signed signed'
      rfl

/-- The bytes of a username claim, of a provider record and of a prekey record of either version
are those of no other record, and the bytes under a sealed sender are those of no other envelope. -/
theorem signed_bytes_one_reading :
    (∀ (r r' : SignedRecord) (m : Bytes), signedBytes r = .ok m → signedBytes r' = .ok m → r = r') ∧
    ∀ (envelopeId envelopeId' : Bytes) (timestampMs timestampMs' : UInt64)
      (recipient recipient' : Bytes), recipient.length = 32 → recipient'.length = 32 →
      sealedSenderSigInput envelopeId timestampMs recipient =
        sealedSenderSigInput envelopeId' timestampMs' recipient' →
      envelopeId = envelopeId' ∧ timestampMs = timestampMs' ∧ recipient = recipient' := by
  refine ⟨fun r r' m => signedBytes_inj, ?_⟩
  intro envelopeId envelopeId' timestampMs timestampMs' recipient recipient' sized sized' same
  -- the envelope id is what the length of the rest leaves
  obtain ⟨rfl, behind⟩ := List.append_inj' (List.append_cancel_left same) (by simp [sized, sized'])
  obtain ⟨rfl, last⟩ := be64_append_inj behind
  exact ⟨rfl, rfl, last⟩

/-- A username claim and its bytes. -/
theorem signed_bytes_one_reading_claim :
    ∃ m, signedBytes (.claim (ascii "abc") (List.replicate 32 1) 5 (List.replicate 16 2)) = .ok m ∧
      ∀ r, signedBytes r = .ok m →
        .claim (ascii "abc") (List.replicate 32 1) 5 (List.replicate 16 2) = r :=
  ⟨_, rfl, fun r signed => signed_bytes_one_reading.1 _ r _ rfl signed⟩

end FinBit.Handshake
