import Mathlib.Data.Countable.Basic
import Mathlib.Logic.Equiv.List
import Mathlib.Logic.Function.Iterate
import FinBit.Lib.Bytes

/-! # Ideal primitives

The libraries under the program (protobuf, libsodium) enter as parameters that
carry the behaviour the program relies on: a codec reads back what it wrote, an
AEAD opens a ciphertext exactly under the key and associated data it was made
with, a chain KDF does not collide. Keys range over an arbitrary type, so these
laws can hold together.

Each structure has an inhabitant, built from an injection of a countable type
into byte strings; closed statements elsewhere are about these.
-/

namespace FinBit.Lib

/-- Serialization of a message type. -/
structure Codec (α : Type*) where
  encode : α → Bytes
  decode : Bytes → Option α
  decode_encode : ∀ a, decode (encode a) = some a

attribute [simp] Codec.decode_encode

theorem Codec.encode_injective {α : Type*} (C : Codec α) : Function.Injective C.encode := by
  intro a b same
  simpa using congrArg C.decode same

/-- Authenticated encryption under a fixed nonce; arguments are the key, the
associated data and the text. -/
structure Aead (K : Type*) where
  encrypt : K → Bytes → Bytes → Bytes
  decrypt : K → Bytes → Bytes → Option Bytes
  decrypt_eq_some_iff : ∀ {k aad ct pt}, decrypt k aad ct = some pt ↔ encrypt k aad pt = ct
  encrypt_inj : ∀ {k k' aad aad' pt pt'}, encrypt k aad pt = encrypt k' aad' pt' →
    k = k' ∧ aad = aad' ∧ pt = pt'

@[simp] theorem Aead.decrypt_encrypt {K : Type*} (A : Aead K) (k : K) (aad pt : Bytes) :
    A.decrypt k aad (A.encrypt k aad pt) = some pt :=
  A.decrypt_eq_some_iff.mpr rfl

/-- A symmetric ratchet: from a chain key, the key of one message and the next
chain key. -/
structure ChainKdf (K : Type*) where
  messageKey : K → K
  nextKey : K → K
  messageKey_injective : Function.Injective messageKey
  nextKey_injective : Function.Injective nextKey

namespace ChainKdf

variable {K : Type*} (kdf : ChainKdf K)

/-- A key that the ratchet never produces, such as one drawn at random. -/
def IsSeed (seed : K) : Prop := ∀ k, kdf.nextKey k ≠ seed

/-- Chains from seeds never meet: equal keys are the same position of one chain. -/
theorem iterate_inj {a b : K} (left : kdf.IsSeed a) (right : kdf.IsSeed b) {i j : Nat}
    (same : kdf.nextKey^[i] a = kdf.nextKey^[j] b) : a = b ∧ i = j := by
  induction i generalizing j with
  | zero =>
    cases j with
    | zero => exact ⟨same, rfl⟩
    | succ j =>
      rw [Function.iterate_succ_apply'] at same
      exact absurd same.symm (left _)
  | succ i ih =>
    cases j with
    | zero =>
      rw [Function.iterate_succ_apply'] at same
      exact absurd same (right _)
    | succ j =>
      rw [Function.iterate_succ_apply', Function.iterate_succ_apply'] at same
      obtain ⟨seeds, steps⟩ := ih (kdf.nextKey_injective same)
      exact ⟨seeds, by omega⟩

end ChainKdf

/-! ### Inhabitants -/

instance countableUInt8 : Countable UInt8 :=
  Function.Injective.countable (f := UInt8.toNat) fun _ _ => UInt8.toNat_inj.mp

instance countableUInt32 : Countable UInt32 :=
  Function.Injective.countable (f := UInt32.toNat) fun _ _ => UInt32.toNat_inj.mp

instance countableUInt64 : Countable UInt64 :=
  Function.Injective.countable (f := UInt64.toNat) fun _ _ => UInt64.toNat_inj.mp

section Countable

variable (α : Type*) [Countable α]

/-- Distinct non-empty byte strings for the values of a countable type. -/
private theorem exists_bytes : ∃ f : α → Bytes, Function.Injective f ∧ ∀ a, f a ≠ [] := by
  obtain ⟨f, injective⟩ := exists_injective_nat α
  refine ⟨fun a => List.replicate (f a + 1) 0, fun a b same => injective ?_, by simp⟩
  simpa using congrArg List.length same

open Classical in
noncomputable def Codec.ofCountable : Codec α where
  encode := (exists_bytes α).choose
  decode := Function.partialInv (exists_bytes α).choose
  decode_encode := Function.partialInv_left (exists_bytes α).choose_spec.1

theorem Codec.ofCountable_encode_ne (a : α) : (Codec.ofCountable α).encode a ≠ [] :=
  (exists_bytes α).choose_spec.2 a

theorem Codec.ofCountable_decode_nil : (Codec.ofCountable α).decode [] = none := by
  apply dif_neg
  rintro ⟨a, empty⟩
  exact (exists_bytes α).choose_spec.2 a empty

open Classical in
noncomputable def Aead.ofCountable : Aead α where
  encrypt k aad pt := (exists_bytes (α × Bytes × Bytes)).choose (k, aad, pt)
  decrypt k aad := Function.partialInv fun pt =>
    (exists_bytes (α × Bytes × Bytes)).choose (k, aad, pt)
  decrypt_eq_some_iff {k aad ct pt} := by
    have injective : Function.Injective fun pt =>
        (exists_bytes (α × Bytes × Bytes)).choose (k, aad, pt) := by
      intro pt pt' same
      simpa using (exists_bytes (α × Bytes × Bytes)).choose_spec.1 same
    exact injective.isPartialInv pt ct
  encrypt_inj same := by
    simpa using (exists_bytes (α × Bytes × Bytes)).choose_spec.1 same

theorem Aead.ofCountable_decrypt_nil (k : α) (aad : Bytes) :
    (Aead.ofCountable α).decrypt k aad [] = none := by
  apply Option.eq_none_iff_forall_ne_some.mpr
  intro pt opened
  exact (exists_bytes (α × Bytes × Bytes)).choose_spec.2 (k, aad, pt)
    ((Aead.ofCountable α).decrypt_eq_some_iff.mp opened)

end Countable

/-- A chain KDF on numbers: odd numbers for messages, even ones for the chain. -/
def ChainKdf.nat : ChainKdf Nat where
  messageKey k := 2 * k + 1
  nextKey k := 2 * k + 2
  messageKey_injective := fun a b same => by dsimp only at same; omega
  nextKey_injective := fun a b same => by dsimp only at same; omega

end FinBit.Lib
