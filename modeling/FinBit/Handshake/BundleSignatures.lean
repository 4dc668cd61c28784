import FinBit.Crypto.RatchetPair
import FinBit.Handshake.Hybrid

/-! # Signatures on a prekey bundle

A publisher signs its KEM key with its Ed25519 identity, and may add an ML-DSA-65
identity: bound to the Ed25519 one, it signs the prekey and the KEM key again. A bundle
without any of these fields is one of an old client and passes; a relay that strips
some of them must not get a sender to fall back to X25519 alone.
-/

namespace FinBit.Handshake

open FinBit.Lib FinBit.Crypto

variable {K : Type}

/-! ### Publishing -/

/-- Key generation and signing, over what a sender takes from the libraries. ML-DSA
draws randomness for each signature. -/
structure SigningCrypto (K : Type) extends HybridCrypto K where
  /-- `Identity::public_key` and `Identity::sign`, from the seed of an identity. -/
  publicKey : Bytes → Bytes
  sign : Bytes → Bytes → Bytes
  derivePqSeedFromIdentitySeed : Bytes → Bytes
  derivePqSigSeedFromIdentitySeed : Bytes → Bytes
  /-- Public and secret key. -/
  keygenMlKem768FromSeed : Bytes → Bytes × Bytes
  keygenMlDsa65FromSeed : Bytes → Bytes × Bytes
  signMlDsa65 : Bytes → Bytes → Nat → Option Bytes

structure PqIdentity where
  pub : Bytes
  sec : Bytes
  pubkeySig : Bytes

structure PqSigIdentity where
  pub : Bytes
  sec : Bytes
  pubkeySig : Bytes

section

variable (P : SigningCrypto K)

def derivePqIdentity (id seed : Bytes) : PqIdentity :=
  let kp := P.keygenMlKem768FromSeed (P.derivePqSeedFromIdentitySeed seed)
  ⟨kp.1, kp.2, P.sign id kp.1⟩

def derivePqSigIdentity (id seed : Bytes) : PqSigIdentity :=
  let kp := P.keygenMlDsa65FromSeed (P.derivePqSigSeedFromIdentitySeed seed)
  ⟨kp.1, kp.2, P.sign id kp.1⟩

/-- The classical identity is not used: its signature is inside `pq` already. -/
def addPqSigFieldsToBundle (bundle : PreKeyBundle) (_classical : Bytes) (pq : PqSigIdentity)
    (spkDraw kemDraw : Nat) : Except String PreKeyBundle :=
  match P.signMlDsa65 pq.sec bundle.signedPrekey spkDraw with
  | none => .error "EVP_DigestSign(ML-DSA-65)"
  | some spkPq =>
    let bundle : PreKeyBundle := { bundle with
      pqSigPubkey := pq.pub
      pqSigPubkeySig := pq.pubkeySig
      signedPrekeySigPq := spkPq }
    if bundle.pqPubkey = [] then .ok bundle
    else
      match P.signMlDsa65 pq.sec bundle.pqPubkey kemDraw with
      | none => .error "EVP_DigestSign(ML-DSA-65)"
      | some kemPq => .ok { bundle with pqPubkeySigPq := kemPq }

/-! ### What is assumed of the primitives -/

/-- The owner of an Ed25519 key has signed the message. -/
def SigningCrypto.Signed (pub message sig : Bytes) : Prop :=
  ∃ secret, P.publicKey secret = pub ∧ P.sign secret message = sig

/-- The owner of an ML-DSA-65 key has signed the message. -/
def SigningCrypto.SignedMlDsa (pub message sig : Bytes) : Prop :=
  ∃ seed draw, (P.keygenMlDsa65FromSeed seed).1 = pub ∧
    P.signMlDsa65 (P.keygenMlDsa65FromSeed seed).2 message draw = some sig

/-- Signatures verify exactly on signed messages, decapsulation inverts encapsulation,
and DH commutes. The sizes are those of the array types that hold the values. -/
structure SigningCrypto.Ideal (pubOf : K → Bytes) : Prop where
  dh : HonestDh P.toRatchetCrypto pubOf
  verify_iff : ∀ pub message sig, P.verify pub message sig = true ↔ P.Signed pub message sig
  verifyMlDsa_iff : ∀ pub message sig,
    P.verifyMlDsa pub message sig = true ↔ P.SignedMlDsa pub message sig
  length_publicKey : ∀ secret, (P.publicKey secret).length = 32
  length_sign : ∀ secret message, (P.sign secret message).length = 64
  length_mlDsaPub : ∀ seed, (P.keygenMlDsa65FromSeed seed).1.length = kMlDsa65PubBytes
  length_mlDsaSig : ∀ {sec message draw sig}, P.signMlDsa65 sec message draw = some sig →
    sig.length = kMlDsa65SigBytes
  length_mlKemPub : ∀ seed, (P.keygenMlKem768FromSeed seed).1.length = kMlKem768PubBytes
  length_ct : ∀ {pub draw ct ss}, P.encap pub draw = some (ct, ss) → ct.length = kMlKem768CtBytes
  decap_encap : ∀ seed draw, ∃ ct ss, P.encap (P.keygenMlKem768FromSeed seed).1 draw = some (ct, ss) ∧
    P.decap (P.keygenMlKem768FromSeed seed).2 ct = some ss

end

/-! ### What a sender accepts -/

/-- None of the four fields of the ML-DSA-65 identity is there. -/
def PreKeyBundle.NoPqSigs (bundle : PreKeyBundle) : Prop :=
  bundle.pqSigPubkey = [] ∧ bundle.pqSigPubkeySig = [] ∧ bundle.signedPrekeySigPq = [] ∧
    bundle.pqPubkeySigPq = []

section

variable (P : HybridCrypto K) (bundle : PreKeyBundle)

/-- All four fields are there, over a KEM key, and verify. -/
structure PqSigsVerify : Prop where
  length_pqSigPubkey : bundle.pqSigPubkey.length = kMlDsa65PubBytes
  length_pqSigPubkeySig : bundle.pqSigPubkeySig.length = 64
  length_signedPrekeySigPq : bundle.signedPrekeySigPq.length = kMlDsa65SigBytes
  length_identityPubkey : bundle.identityPubkey.length = 32
  length_signedPrekey : bundle.signedPrekey.length = 32
  length_pqPubkey : bundle.pqPubkey.length = kMlKem768PubBytes
  length_pqPubkeySigPq : bundle.pqPubkeySigPq.length = kMlDsa65SigBytes
  identity : P.verify bundle.identityPubkey bundle.pqSigPubkey bundle.pqSigPubkeySig = true
  prekey : P.verifyMlDsa bundle.pqSigPubkey bundle.signedPrekey bundle.signedPrekeySigPq = true
  kem : P.verifyMlDsa bundle.pqSigPubkey bundle.pqPubkey bundle.pqPubkeySigPq = true

/-- The classical signature on the KEM key is there and verifies. -/
structure KemSigned : Prop where
  length_identityPubkey : bundle.identityPubkey.length = 32
  length_pqPubkeySig : bundle.pqPubkeySig.length = 64
  identity : P.verify bundle.identityPubkey bundle.pqPubkey bundle.pqPubkeySig = true

variable {P bundle}

theorem verifyBundlePqSigs_iff :
    verifyBundlePqSigs P bundle = true ↔ bundle.NoPqSigs ∨ PqSigsVerify P bundle := by
  unfold verifyBundlePqSigs
  by_cases bare : bundle.NoPqSigs
  · obtain ⟨one, two, three, four⟩ := bare
    simp [one, two, three, four, PreKeyBundle.NoPqSigs]
  · have some_field := bare
    unfold PreKeyBundle.NoPqSigs at some_field
    rw [if_neg some_field]
    simp only [bare, false_or, ite_false_eq_true, not_not, Bool.and_eq_true]
    constructor
    · rintro ⟨one, two, three, four, five, six, seven, ⟨identity, prekey⟩, kem⟩
      exact ⟨one, two, three, four, five, six, seven, identity, prekey, kem⟩
    · rintro ⟨one, two, three, four, five, six, seven, identity, prekey, kem⟩
      exact ⟨one, two, three, four, five, six, seven, ⟨identity, prekey⟩, kem⟩

theorem deriveHybridSendFromBundle_eq_ok {mine : KeyPair K} {peerX : Bytes} {draw : Nat}
    {result : K × Bytes} :
    deriveHybridSendFromBundle P mine peerX bundle draw = .ok result ↔
      (bundle.pqPubkey = [] ∨ KemSigned P bundle) ∧ verifyBundlePqSigs P bundle = true ∧
        deriveHybridSend P mine peerX bundle.pqPubkey draw = .ok result := by
  unfold deriveHybridSendFromBundle bundlePqMessage
  by_cases absent : bundle.pqPubkey = []
  · cases verifyBundlePqSigs P bundle <;>
      simp [absent, bind, Except.bind, throw, throwThe, MonadExceptOf.throw]
  · by_cases sized : bundle.identityPubkey.length = 32 ∧ bundle.pqPubkeySig.length = 64
    · have signed : KemSigned P bundle ↔
          P.verify bundle.identityPubkey bundle.pqPubkey bundle.pqPubkeySig = true :=
        ⟨KemSigned.identity, KemSigned.mk sized.1 sized.2⟩
      rw [signed]
      cases genuine : P.verify bundle.identityPubkey bundle.pqPubkey bundle.pqPubkeySig <;>
        cases verifyBundlePqSigs P bundle <;>
        simp [absent, sized, genuine, bind, Except.bind, throw, throwThe, MonadExceptOf.throw]
    · have unsigned : ¬KemSigned P bundle := fun signed =>
        sized ⟨signed.length_identityPubkey, signed.length_pqPubkeySig⟩
      simp only [unsigned, absent, or_false, false_and, iff_false]
      by_cases identity : bundle.identityPubkey.length = 32
      · have missing : bundle.pqPubkeySig.length ≠ 64 := fun there => sized ⟨identity, there⟩
        simp [identity, missing, bind, Except.bind]
      · simp [identity, bind, Except.bind]

/-- A result without a KEM ciphertext is one for a bundle without a KEM key. -/
theorem deriveHybridSend_classical {mine : KeyPair K} {peerX peerPqPub pqCt : Bytes} {draw : Nat}
    {shared : K} (sized : ∀ {pub draw ct ss}, P.encap pub draw = some (ct, ss) →
      ct.length = kMlKem768CtBytes)
    (sent : deriveHybridSend P mine peerX peerPqPub draw = .ok (shared, pqCt)) :
    pqCt = [] ↔ peerPqPub = [] := by
  unfold deriveHybridSend at sent
  cases derived : deriveSharedSecret P mine peerX with
  | error e =>
    rw [derived] at sent
    cases sent
  | ok classical =>
    rw [derived] at sent
    simp only [bind, Except.bind] at sent
    split at sent
    next absent =>
      cases sent
      simp [absent]
    next present =>
      split at sent
      · cases sent
      · split at sent
        · cases sent
        next ct ss encapsulated =>
          cases sent
          have filled : pqCt ≠ [] := by
            rintro rfl
            cases sized encapsulated
          simp [present, filled]

/-- The receiver of a KEM ciphertext derives what its sender has derived. -/
theorem deriveHybridSend_recv {mine theirs : KeyPair K} {dh ss : K} {pqPub pqSec ct : Bytes}
    {draw : Nat} (ours : P.x25519Dh mine.priv theirs.pub = some dh)
    (other : P.x25519Dh theirs.priv mine.pub = some dh)
    (length_pub : pqPub.length = kMlKem768PubBytes) (length_ct : ct.length = kMlKem768CtBytes)
    (encapsulated : P.encap pqPub draw = some (ct, ss)) (decapsulated : P.decap pqSec ct = some ss) :
    deriveHybridSend P mine theirs.pub pqPub draw = .ok (P.combine (P.x3dh dh) ss, ct) ∧
      deriveHybridRecv P theirs mine.pub pqSec ct = .ok (P.combine (P.x3dh dh) ss) := by
  have pub_there : pqPub ≠ [] := by
    rintro rfl
    cases length_pub
  have ct_there : ct ≠ [] := by
    rintro rfl
    cases length_ct
  constructor
  · simp [deriveHybridSend, deriveSharedSecret, ours, pub_there, length_pub, encapsulated, bind,
      Except.bind]
  · simp [deriveHybridRecv, deriveSharedSecret, other, ct_there, length_ct, decapsulated, bind,
      Except.bind]

end

/-! ### No downgrade in part -/

section

variable {P : SigningCrypto K} {pubOf : K → Bytes}

/-- A bundle that has any of the four fields is accepted only with all its signatures. -/
theorem SigningCrypto.Ideal.accepted_signed (ideal : P.Ideal pubOf) {mine : KeyPair K} {peerX : Bytes}
    {bundle : PreKeyBundle} {draw : Nat} {result : K × Bytes}
    (sent : deriveHybridSendFromBundle P.toHybridCrypto mine peerX bundle draw = .ok result)
    (advertised : ¬bundle.NoPqSigs) :
    bundle.pqPubkey ≠ [] ∧ P.Signed bundle.identityPubkey bundle.pqSigPubkey bundle.pqSigPubkeySig ∧
      P.SignedMlDsa bundle.pqSigPubkey bundle.signedPrekey bundle.signedPrekeySigPq ∧
      P.SignedMlDsa bundle.pqSigPubkey bundle.pqPubkey bundle.pqPubkeySigPq ∧
      P.Signed bundle.identityPubkey bundle.pqPubkey bundle.pqPubkeySig := by
  obtain ⟨classical, sigs, -⟩ := deriveHybridSendFromBundle_eq_ok.mp sent
  have valid := (verifyBundlePqSigs_iff.mp sigs).resolve_left advertised
  -- the KEM key cannot be stripped: its size is checked under the four fields
  have present : bundle.pqPubkey ≠ [] := by
    intro absent
    have sized := valid.length_pqPubkey
    rw [absent] at sized
    cases sized
  have kem := classical.resolve_left present
  exact ⟨present, (ideal.verify_iff _ _ _).mp valid.identity,
    (ideal.verifyMlDsa_iff _ _ _).mp valid.prekey, (ideal.verifyMlDsa_iff _ _ _).mp valid.kem,
    (ideal.verify_iff _ _ _).mp kem.identity⟩

/-- With a KEM key in the bundle, both signatures are made. -/
theorem addPqSigFieldsToBundle_eq_ok {bundle completed : PreKeyBundle} {id : Bytes}
    {pq : PqSigIdentity} {spkDraw kemDraw : Nat} (present : bundle.pqPubkey ≠ []) :
    addPqSigFieldsToBundle P bundle id pq spkDraw kemDraw = .ok completed ↔
      ∃ spkPq kemPq, P.signMlDsa65 pq.sec bundle.signedPrekey spkDraw = some spkPq ∧
        P.signMlDsa65 pq.sec bundle.pqPubkey kemDraw = some kemPq ∧
        { bundle with
          pqSigPubkey := pq.pub
          pqSigPubkeySig := pq.pubkeySig
          signedPrekeySigPq := spkPq
          pqPubkeySigPq := kemPq } = completed := by
  unfold addPqSigFieldsToBundle
  cases P.signMlDsa65 pq.sec bundle.signedPrekey spkDraw with
  | none => simp
  | some spkPq =>
    simp only [present, if_false]
    cases P.signMlDsa65 pq.sec bundle.pqPubkey kemDraw with
    | none => simp
    | some kemPq => simp

/-- A bundle completed by its owner verifies. -/
theorem SigningCrypto.Ideal.completed_verifies (ideal : P.Ideal pubOf) {id kemSeed sigSeed : Bytes}
    {bundle completed : PreKeyBundle} {spkDraw kemDraw : Nat}
    (identity : bundle.identityPubkey = P.publicKey id)
    (prekey : bundle.signedPrekey.length = 32)
    (kem : bundle.pqPubkey = (derivePqIdentity P id kemSeed).pub)
    (signed : bundle.pqPubkeySig = (derivePqIdentity P id kemSeed).pubkeySig)
    (completes : addPqSigFieldsToBundle P bundle id (derivePqSigIdentity P id sigSeed) spkDraw kemDraw =
      .ok completed) :
    completed.pqPubkey = bundle.pqPubkey ∧ KemSigned P.toHybridCrypto completed ∧
      PqSigsVerify P.toHybridCrypto completed := by
  have length_kem : bundle.pqPubkey.length = kMlKem768PubBytes := by
    rw [kem]
    exact ideal.length_mlKemPub _
  have present : bundle.pqPubkey ≠ [] := by
    intro absent
    rw [absent] at length_kem
    cases length_kem
  obtain ⟨spkPq, kemPq, spkSigned, kemSigned, rfl⟩ := (addPqSigFieldsToBundle_eq_ok present).mp completes
  have length_id : bundle.identityPubkey.length = 32 := by
    rw [identity]
    exact ideal.length_publicKey id
  have verifies (message : Bytes) :
      P.verify bundle.identityPubkey message (P.sign id message) = true :=
    (ideal.verify_iff _ _ _).mpr ⟨id, identity.symm, rfl⟩
  refine ⟨rfl, ⟨length_id, ?_, ?_⟩, ⟨ideal.length_mlDsaPub _, ideal.length_sign _ _,
    ideal.length_mlDsaSig spkSigned, length_id, prekey, length_kem,
    ideal.length_mlDsaSig kemSigned, verifies _, ?_, ?_⟩⟩
  · rw [signed]
    exact ideal.length_sign _ _
  · simp only [signed]
    rw [kem]
    exact verifies _
  · exact (ideal.verifyMlDsa_iff _ _ _).mpr ⟨_, spkDraw, rfl, spkSigned⟩
  · exact (ideal.verifyMlDsa_iff _ _ _).mpr ⟨_, kemDraw, rfl, kemSigned⟩

/-- A sender falls back to X25519 alone only for a bundle without any post-quantum
field, and accepts a bundle with ML-DSA-65 fields only with all signatures; a bundle
that its owner has completed is accepted, and both sides derive the same secret. -/
theorem bundle_not_downgraded (ideal : P.Ideal pubOf) :
    (∀ (mine : KeyPair K) (peerX : Bytes) (bundle : PreKeyBundle) (draw : Nat) (shared : K)
        (pqCt : Bytes),
      deriveHybridSendFromBundle P.toHybridCrypto mine peerX bundle draw = .ok (shared, pqCt) →
      (pqCt = [] → bundle.pqPubkey = [] ∧ bundle.NoPqSigs) ∧
      (¬bundle.NoPqSigs →
        P.Signed bundle.identityPubkey bundle.pqSigPubkey bundle.pqSigPubkeySig ∧
        P.SignedMlDsa bundle.pqSigPubkey bundle.signedPrekey bundle.signedPrekeySigPq ∧
        P.SignedMlDsa bundle.pqSigPubkey bundle.pqPubkey bundle.pqPubkeySigPq ∧
        P.Signed bundle.identityPubkey bundle.pqPubkey bundle.pqPubkeySig)) ∧
    ∀ (id kemSeed sigSeed : Bytes) (bundle completed : PreKeyBundle) (spkDraw kemDraw draw : Nat)
        (mine theirs : KeyPair K),
      mine.pub = pubOf mine.priv → theirs.pub = pubOf theirs.priv →
      bundle.identityPubkey = P.publicKey id → bundle.signedPrekey.length = 32 →
      bundle.pqPubkey = (derivePqIdentity P id kemSeed).pub →
      bundle.pqPubkeySig = (derivePqIdentity P id kemSeed).pubkeySig →
      addPqSigFieldsToBundle P bundle id (derivePqSigIdentity P id sigSeed) spkDraw kemDraw =
        .ok completed →
      ∃ shared pqCt,
        deriveHybridSendFromBundle P.toHybridCrypto mine theirs.pub completed draw =
          .ok (shared, pqCt) ∧ pqCt ≠ [] ∧
        deriveHybridRecv P.toHybridCrypto theirs mine.pub (derivePqIdentity P id kemSeed).sec pqCt =
          .ok shared := by
  constructor
  · intro mine peerX bundle draw shared pqCt sent
    refine ⟨?_, fun advertised => (ideal.accepted_signed sent advertised).2⟩
    intro classical
    obtain ⟨-, -, derived⟩ := deriveHybridSendFromBundle_eq_ok.mp sent
    have absent := (deriveHybridSend_classical ideal.length_ct derived).mp classical
    refine ⟨absent, ?_⟩
    by_contra advertised
    exact (ideal.accepted_signed sent advertised).1 absent
  · intro id kemSeed sigSeed bundle completed spkDraw kemDraw draw mine theirs pair pair' identity
      prekey kem signed completes
    obtain ⟨same, kemSigned, sigs⟩ :=
      ideal.completed_verifies identity prekey kem signed completes
    obtain ⟨ct, ss, encapsulated, decapsulated⟩ :=
      ideal.decap_encap (P.derivePqSeedFromIdentitySeed kemSeed) draw
    obtain ⟨dh, ours⟩ := ideal.dh.contributes mine.priv theirs.priv
    have other : P.x25519Dh theirs.priv mine.pub = some dh := by
      rw [pair, ideal.dh.comm, ours]
    rw [← pair'] at ours
    have length_ct := ideal.length_ct encapsulated
    obtain ⟨sent, received⟩ := deriveHybridSend_recv ours other (ideal.length_mlKemPub _)
      length_ct encapsulated decapsulated
    refine ⟨_, ct, deriveHybridSendFromBundle_eq_ok.mpr ⟨.inr kemSigned,
      verifyBundlePqSigs_iff.mpr (.inr sigs), ?_⟩, ?_, received⟩
    · rw [same, kem]
      exact sent
    · rintro rfl
      cases length_ct

end

/-! ### Two clients -/

/-- Cut or filled with zeros to a size. -/
def padded (size : Nat) (b : Bytes) : Bytes := (b ++ List.replicate size 0).take size

@[simp] theorem length_padded (size : Nat) (b : Bytes) : (padded size b).length = size := by
  simp [padded]

/-- The point of a number. -/
def numberPoint (k : Nat) : Bytes := List.replicate 32 (UInt8.ofNat k)

open Classical in
/-- Numbers as keys, seeds as secret keys, and signatures that show what is signed. -/
noncomputable def SigningCrypto.nat : SigningCrypto Nat where
  zero := 0
  x25519Dh a point := some ((UInt8.ofNat a).toNat + (point.headD 0).toNat)
  kdfRk rk dh := (Nat.pair rk dh, Nat.pair rk dh + 1)
  kdfCk := .nat
  aead := .ofCountable Nat
  message := .ofCountable _
  edToCurve := some
  x3dh := id
  encap pub draw := some (List.replicate kMlKem768CtBytes (UInt8.ofNat draw),
    pub.sum.toNat + (UInt8.ofNat draw).toNat)
  decap sec ct := some (sec.sum.toNat + (ct.headD 0).toNat)
  combine := Nat.pair
  verify pub message sig :=
    decide (∃ secret, padded 32 secret = pub ∧ padded 64 (secret ++ message) = sig)
  verifyMlDsa pub message sig := decide (∃ seed, ∃ _draw : Nat, padded kMlDsa65PubBytes seed = pub ∧
    some (padded kMlDsa65SigBytes (seed ++ message)) = some sig)
  publicKey := padded 32
  sign secret message := padded 64 (secret ++ message)
  derivePqSeedFromIdentitySeed seed := 1 :: seed
  derivePqSigSeedFromIdentitySeed seed := 2 :: seed
  keygenMlKem768FromSeed seed := (padded kMlKem768PubBytes seed, padded kMlKem768PubBytes seed)
  keygenMlDsa65FromSeed seed := (padded kMlDsa65PubBytes seed, seed)
  signMlDsa65 sec message _ := some (padded kMlDsa65SigBytes (sec ++ message))

theorem SigningCrypto.nat_ideal : SigningCrypto.nat.Ideal numberPoint where
  dh := by
    constructor
    · simp [numberPoint]
    · intro a b
      simp [SigningCrypto.nat, numberPoint, Nat.add_comm]
    · exact fun a b => ⟨_, rfl⟩
  verify_iff _ _ _ := by
    classical
    exact decide_eq_true_iff
  verifyMlDsa_iff _ _ _ := by
    classical
    exact decide_eq_true_iff
  length_publicKey _ := length_padded _ _
  length_sign _ _ := length_padded _ _
  length_mlDsaPub _ := length_padded _ _
  length_mlDsaSig signed := by
    obtain rfl := Option.some.inj signed
    exact length_padded _ _
  length_mlKemPub _ := length_padded _ _
  length_ct encapsulated := by
    obtain ⟨rfl, -⟩ := Prod.ext_iff.mp (Option.some.inj encapsulated)
    exact List.length_replicate
  decap_encap seed draw := ⟨_, _, rfl, by simp [SigningCrypto.nat, List.head?_replicate]⟩

/-- The bundle of the identity with seed 7 before it is completed. -/
private noncomputable def sevens : PreKeyBundle where
  identityPubkey := padded 32 [7]
  signedPrekey := numberPoint 5
  pqPubkey := (derivePqIdentity SigningCrypto.nat [7] [7]).pub
  pqPubkeySig := (derivePqIdentity SigningCrypto.nat [7] [7]).pubkeySig
  pqSigPubkey := []
  pqSigPubkeySig := []
  signedPrekeySigPq := []
  pqPubkeySigPq := []

private theorem padded_ne_nil {size : Nat} (positive : 0 < size) (b : Bytes) : padded size b ≠ [] := by
  intro empty
  have sized := length_padded size b
  rw [empty] at sized
  exact positive.ne sized

/-- A sender with scalar 3 accepts the completed bundle, and its owner, with scalar 5,
derives the same secret. -/
theorem bundle_not_downgraded_sevens : ∃ completed shared pqCt,
    addPqSigFieldsToBundle SigningCrypto.nat sevens [7]
      (derivePqSigIdentity SigningCrypto.nat [7] [7]) 0 0 = .ok completed ∧
    deriveHybridSendFromBundle SigningCrypto.nat.toHybridCrypto ⟨numberPoint 3, 3⟩ (numberPoint 5)
      completed 0 = .ok (shared, pqCt) ∧ pqCt ≠ [] ∧
    deriveHybridRecv SigningCrypto.nat.toHybridCrypto ⟨numberPoint 5, 5⟩ (numberPoint 3)
      (derivePqIdentity SigningCrypto.nat [7] [7]).sec pqCt = .ok shared ∧
    SigningCrypto.nat.Signed completed.identityPubkey completed.pqSigPubkey
      completed.pqSigPubkeySig := by
  obtain ⟨sound, complete⟩ := bundle_not_downgraded SigningCrypto.nat_ideal
  have present : sevens.pqPubkey ≠ [] := padded_ne_nil (by decide) _
  obtain ⟨completed, completes, advertised⟩ : ∃ completed,
      addPqSigFieldsToBundle SigningCrypto.nat sevens [7]
        (derivePqSigIdentity SigningCrypto.nat [7] [7]) 0 0 = .ok completed ∧
      completed.pqSigPubkey = padded kMlDsa65PubBytes [2, 7] :=
    ⟨_, (addPqSigFieldsToBundle_eq_ok present).mpr ⟨_, _, rfl, rfl, rfl⟩, rfl⟩
  obtain ⟨shared, pqCt, sent, filled, received⟩ := complete [7] [7] [7] sevens completed 0 0 0
    ⟨numberPoint 3, 3⟩ ⟨numberPoint 5, 5⟩ rfl rfl rfl List.length_replicate rfl rfl completes
  refine ⟨completed, shared, pqCt, completes, sent, filled, received, ?_⟩
  refine ((sound _ _ _ _ _ _ sent).2 ?_).1
  rintro ⟨empty, -⟩
  exact padded_ne_nil (by decide) [2, 7] (advertised.symm.trans empty)

end FinBit.Handshake
