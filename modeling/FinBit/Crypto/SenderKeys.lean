import Std.Data.ExtTreeMap
import Mathlib.Logic.Function.Basic
import FinBit.Lib.Ideal

/-! # Sender keys

`GroupSession` holds one symmetric sending chain and, for each peer whose
distribution was installed, a receiving chain with a cache of skipped message
keys. The 32-byte keys are values of an arbitrary type `K`; the HMAC-based key
derivation, XChaCha20-Poly1305 under the all-zero nonce and the two protobuf
messages are the parameters collected in `SenderKeys`.

A `std::map` that is only looked up and assigned is a partial function here; the
skipped-key cache is a tree map, because its least key is evicted.
-/

namespace FinBit.Crypto

open FinBit.Lib Std

variable {K : Type}

/-- `SenderKeysMessage`. -/
structure SenderKeysMessage where
  chainId : Bytes
  index : UInt32
  ciphertext : Bytes

/-- `SenderKeysDistribution`; the seed is `none` when it is not 32 bytes long. -/
structure SenderKeysDistribution (K : Type) where
  chainId : Bytes
  chainSeed : Option K
  startIndex : UInt32

/-- What the module takes from libsodium and protobuf. -/
structure SenderKeys (K : Type) where
  kdf : ChainKdf K
  aead : Aead K
  message : Codec SenderKeysMessage
  distribution : Codec (SenderKeysDistribution K)

abbrev kMaxSkip : Nat := 1000

structure PerPeerChain (K : Type) where
  chainId : Bytes
  chainKey : K
  nextIndex : UInt32
  /-- Message keys by index; every key of the source's map carries `chainId`. -/
  skipped : ExtTreeMap UInt32 K

structure OwnChain (K : Type) where
  chainId : Bytes
  chainKey : K
  nextIndex : UInt32

/-- `own` is absent while `have_own_chain` is false. -/
structure GroupSession (K : Type) where
  own : Option (OwnChain K)
  peers : Bytes → Option (PerPeerChain K)

/-- A default-constructed session. -/
def GroupSession.new : GroupSession K := ⟨none, fun _ => none⟩

def composeAad (chainId : Bytes) (index : UInt32) (outer : Bytes) : Bytes :=
  chainId ++ (be32 index ++ outer)

section

variable (P : SenderKeys K)

/-! ### Sending -/

/-- `create_own_send_chain`, for the chain id and seed it drew. -/
def GroupSession.createOwnSendChain (s : GroupSession K) (chainId : Bytes) (seed : K) :
    GroupSession K × Bytes :=
  ({ s with own := some ⟨chainId, seed, 0⟩ }, P.distribution.encode ⟨chainId, some seed, 0⟩)

def GroupSession.encrypt (s : GroupSession K) (plaintext outerAad : Bytes) :
    Except String (GroupSession K × Bytes) :=
  match s.own with
  | none =>
    .error ("GroupSession::encrypt: own send chain not initialized (call " ++
      "create_own_send_chain first)")
  | some own =>
    let mk := P.kdf.messageKey own.chainKey
    let aad := composeAad own.chainId own.nextIndex outerAad
    let ct := P.aead.encrypt mk aad plaintext
    .ok ({ s with own := some { own with
            nextIndex := own.nextIndex + 1
            chainKey := P.kdf.nextKey own.chainKey } },
      P.message.encode ⟨own.chainId, own.nextIndex, ct⟩)

/-! ### Receiving -/

/-- The chain that `install_peer_distribution` builds from a serialized distribution. -/
def PerPeerChain.ofDistribution (distribution : Bytes) : Except String (PerPeerChain K) :=
  match P.distribution.decode distribution with
  | none => .error "malformed SenderKeysDistribution"
  | some d =>
    match d.chainSeed with
    | none => .error "SenderKeysDistribution wrong field sizes"
    | some seed =>
      if d.chainId.length ≠ 16 then .error "SenderKeysDistribution wrong field sizes"
      else .ok ⟨d.chainId, seed, d.startIndex, ∅⟩

/-- The new chain replaces whatever the peer had. -/
def GroupSession.installPeerDistribution (s : GroupSession K) (peerId distribution : Bytes) :
    Except String (GroupSession K) :=
  (PerPeerChain.ofDistribution P distribution).map fun chain =>
    { s with peers := Function.update s.peers peerId (some chain) }

/-- One pass of the loop in `advance_chain_to`: the cache is bounded by dropping
its least index. -/
def PerPeerChain.skipOne (chain : PerPeerChain K) : PerPeerChain K :=
  let skipped :=
    if chain.skipped.size ≥ kMaxSkip then
      match chain.skipped.minKey? with
      | some least => chain.skipped.erase least
      | none => chain.skipped
    else chain.skipped
  { chain with
    skipped := skipped.insertIfNew chain.nextIndex (P.kdf.messageKey chain.chainKey)
    chainKey := P.kdf.nextKey chain.chainKey
    nextIndex := chain.nextIndex + 1 }

/-- The loop of `advance_chain_to`, which runs while `next_index < target_index`. -/
def PerPeerChain.skipTo (target : UInt32) : Nat → PerPeerChain K → PerPeerChain K
  | 0, chain => chain
  | fuel + 1, chain =>
    if chain.nextIndex < target then skipTo target fuel (chain.skipOne P) else chain

/-- `advance_chain_to`; `none` where it returns false. -/
def PerPeerChain.advanceTo (chain : PerPeerChain K) (target : UInt32) :
    Option (PerPeerChain K) :=
  if target < chain.nextIndex then none
  else if (target - chain.nextIndex).toNat > kMaxSkip then none
  else some (chain.skipTo P target (target - chain.nextIndex).toNat)

/-- The part of `GroupSession::decrypt` that works on the peer's chain. -/
def PerPeerChain.decrypt (chain : PerPeerChain K) (m : SenderKeysMessage) (outerAad : Bytes) :
    PerPeerChain K × Option Bytes :=
  let aad := composeAad m.chainId m.index outerAad
  match chain.skipped[m.index]? with
  | some key =>
    match P.aead.decrypt key aad m.ciphertext with
    | none => (chain, none)
    | some pt => ({ chain with skipped := chain.skipped.erase m.index }, some pt)
  | none =>
    if m.index < chain.nextIndex then (chain, none)
    else
      match chain.advanceTo P m.index with
      | none => (chain, none)
      | some advanced =>
        -- The advance stays even when the ciphertext does not open.
        match P.aead.decrypt (P.kdf.messageKey advanced.chainKey) aad m.ciphertext with
        | none => (advanced, none)
        | some pt =>
          ({ advanced with
              chainKey := P.kdf.nextKey advanced.chainKey
              nextIndex := advanced.nextIndex + 1 }, some pt)

def GroupSession.decrypt (s : GroupSession K) (peerId senderKeysMsg outerAad : Bytes) :
    GroupSession K × Option Bytes :=
  match P.message.decode senderKeysMsg with
  | none => (s, none)
  | some m =>
    if m.chainId.length ≠ 16 then (s, none)
    else
      match s.peers peerId with
      | none => (s, none)
      | some chain =>
        if chain.chainId ≠ m.chainId then (s, none)
        else
          let (chain', pt) := chain.decrypt P m outerAad
          ({ s with peers := Function.update s.peers peerId (some chain') }, pt)

def GroupSession.removePeer (s : GroupSession K) (peerId : Bytes) : GroupSession K :=
  { s with peers := Function.update s.peers peerId none }

/-! ### Calls -/

/-- The calls that change a session; a new own chain comes with the id and seed it draws. -/
inductive SessionCall (K : Type)
  | createOwnSendChain (chainId : Bytes) (seed : K)
  | encrypt (plaintext outerAad : Bytes)
  | installPeerDistribution (peerId distribution : Bytes)
  | decrypt (peerId senderKeysMsg outerAad : Bytes)
  | removePeer (peerId : Bytes)

/-- The session after a call; one that throws leaves it as it was. -/
def GroupSession.perform (s : GroupSession K) : SessionCall K → GroupSession K
  | .createOwnSendChain chainId seed => (s.createOwnSendChain P chainId seed).1
  | .encrypt plaintext outerAad =>
    match s.encrypt P plaintext outerAad with
    | .ok (s', _) => s'
    | .error _ => s
  | .installPeerDistribution peerId distribution =>
    match s.installPeerDistribution P peerId distribution with
    | .ok s' => s'
    | .error _ => s
  | .decrypt peerId senderKeysMsg outerAad => (s.decrypt P peerId senderKeysMsg outerAad).1
  | .removePeer peerId => s.removePeer peerId

/-- What a call returns, or the text that it throws. -/
def GroupSession.result (s : GroupSession K) : SessionCall K → Except String (Option Bytes)
  | .createOwnSendChain chainId seed => .ok (some (s.createOwnSendChain P chainId seed).2)
  | .encrypt plaintext outerAad => (s.encrypt P plaintext outerAad).map fun r => some r.2
  | .installPeerDistribution peerId distribution =>
    (s.installPeerDistribution P peerId distribution).map fun _ => none
  | .decrypt peerId senderKeysMsg outerAad => .ok (s.decrypt P peerId senderKeysMsg outerAad).2
  | .removePeer _ => .ok none

end

/-! ### An instance -/

instance : Countable SenderKeysMessage :=
  Function.Injective.countable (f := fun m => (m.chainId, m.index, m.ciphertext)) <| by
    rintro ⟨⟩ ⟨⟩ same
    simpa using same

instance [Countable K] : Countable (SenderKeysDistribution K) :=
  Function.Injective.countable (f := fun d => (d.chainId, d.chainSeed, d.startIndex)) <| by
    rintro ⟨⟩ ⟨⟩ same
    simpa using same

/-- Sender keys over numbers as keys. -/
noncomputable def SenderKeys.nat : SenderKeys Nat where
  kdf := .nat
  aead := .ofCountable Nat
  message := .ofCountable _
  distribution := .ofCountable _

/-! ### Saving and restoring -/

/-- The fields that `serialize_state` writes; the skipped keys are not among them. -/
structure SavedState (K : Type) where
  own : Option (OwnChain K)
  peers : Bytes → Option (OwnChain K)

def GroupSession.serializeState (s : GroupSession K) : SavedState K where
  own := s.own
  peers id := (s.peers id).map fun chain => ⟨chain.chainId, chain.chainKey, chain.nextIndex⟩

def GroupSession.deserializeState (saved : SavedState K) : GroupSession K where
  own := saved.own
  peers id := (saved.peers id).map fun chain =>
    ⟨chain.chainId, chain.chainKey, chain.nextIndex, ∅⟩

/-! ### What one call does -/

section

variable {P : SenderKeys K}

@[simp] theorem PerPeerChain.skipOne_chainKey (chain : PerPeerChain K) :
    (chain.skipOne P).chainKey = P.kdf.nextKey chain.chainKey := rfl

@[simp] theorem PerPeerChain.skipOne_nextIndex (chain : PerPeerChain K) :
    (chain.skipOne P).nextIndex = chain.nextIndex + 1 := rfl

/-- With one unit of fuel for each missing index the loop ends on the target. -/
theorem PerPeerChain.skipTo_spec {target : UInt32} {fuel : Nat} {chain : PerPeerChain K}
    (distance : chain.nextIndex.toNat + fuel = target.toNat) :
    (chain.skipTo P target fuel).chainId = chain.chainId ∧
    (chain.skipTo P target fuel).chainKey = P.kdf.nextKey^[fuel] chain.chainKey ∧
    (chain.skipTo P target fuel).nextIndex = target := by
  induction fuel generalizing chain with
  | zero => exact ⟨rfl, rfl, UInt32.toNat_inj.mp distance⟩
  | succ fuel ih =>
    have bound := target.toNat_lt
    have below : chain.nextIndex < target := by
      rw [UInt32.lt_iff_toNat_lt]
      omega
    have next : (chain.skipOne P).nextIndex.toNat + fuel = target.toNat := by
      rw [skipOne_nextIndex, UInt32.toNat_add, UInt32.toNat_one, Nat.mod_eq_of_lt (by omega)]
      omega
    obtain ⟨ids, keys, index⟩ := ih next
    simp only [skipTo, if_pos below]
    exact ⟨ids, by rw [keys, skipOne_chainKey, Function.iterate_succ_apply], index⟩

/-- A genuine message at most `kMaxSkip` ahead of the chain opens, and the chain
then stands right behind it. -/
theorem PerPeerChain.decrypt_genuine (chain : PerPeerChain K) (m : SenderKeysMessage)
    (outerAad pt : Bytes) (ahead : Nat) (near : ahead ≤ kMaxSkip)
    (position : chain.nextIndex.toNat + ahead = m.index.toNat)
    (unskipped : chain.skipped[m.index]? = none)
    (genuine : m.ciphertext = P.aead.encrypt
      (P.kdf.messageKey (P.kdf.nextKey^[ahead] chain.chainKey))
      (composeAad m.chainId m.index outerAad) pt) :
    ∃ chain', chain.decrypt P m outerAad = (chain', some pt) ∧
      chain'.chainId = chain.chainId ∧
      chain'.chainKey = P.kdf.nextKey^[ahead + 1] chain.chainKey ∧
      chain'.nextIndex = m.index + 1 ∧ (ahead = 0 → chain'.skipped = chain.skipped) := by
  have notBelow : ¬ m.index < chain.nextIndex := by
    rw [UInt32.lt_iff_toNat_lt]
    omega
  have distance : (m.index - chain.nextIndex).toNat = ahead := by
    rw [UInt32.toNat_sub_of_le _ _ (UInt32.le_iff_toNat_le.mpr (by omega))]
    omega
  obtain ⟨ids, keys, index⟩ := skipTo_spec (P := P) position
  have advanced : chain.advanceTo P m.index = some (chain.skipTo P m.index ahead) := by
    rw [advanceTo, if_neg notBelow, distance, if_neg (by omega)]
  let opened : PerPeerChain K := { chain.skipTo P m.index ahead with
    chainKey := P.kdf.nextKey^[ahead + 1] chain.chainKey
    nextIndex := m.index + 1 }
  refine ⟨opened, ?_, ids, rfl, rfl, ?_⟩
  · simp only [decrypt, unskipped, if_neg notBelow, advanced, keys, genuine,
      Aead.decrypt_encrypt, opened, index, Function.iterate_succ_apply']
  · rintro rfl
    rfl

/-- An index the chain has passed, or one too far ahead, changes nothing. -/
theorem PerPeerChain.decrypt_outside {chain : PerPeerChain K} {m : SenderKeysMessage}
    {outerAad : Bytes} (unskipped : chain.skipped[m.index]? = none)
    (outside : m.index < chain.nextIndex ∨ kMaxSkip < (m.index - chain.nextIndex).toNat) :
    chain.decrypt P m outerAad = (chain, none) := by
  by_cases below : m.index < chain.nextIndex
  · simp [decrypt, unskipped, below]
  · have far : (m.index - chain.nextIndex).toNat > kMaxSkip := outside.resolve_left below
    simp only [decrypt, unskipped, if_neg below, advanceTo, if_pos far]

end

end FinBit.Crypto
