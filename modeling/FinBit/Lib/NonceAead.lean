import FinBit.Lib.Bytes

/-! # Authenticated encryption with a nonce

A cipher that is a function of key, nonce, associated data and text, and opens what it makes and
nothing else. The tag is 16 octets.
-/

namespace FinBit.Lib

/-- Arguments are the key, the nonce, the associated data and the text. -/
structure NonceAead where
  encrypt : Bytes → Bytes → Bytes → Bytes → Bytes
  decrypt : Bytes → Bytes → Bytes → Bytes → Option Bytes
  decrypt_eq_some_iff : ∀ {key nonce aad ct pt},
    decrypt key nonce aad ct = some pt ↔ encrypt key nonce aad pt = ct
  length_encrypt : ∀ key nonce aad pt, (encrypt key nonce aad pt).length = pt.length + 16

namespace NonceAead

variable (A : NonceAead)

@[simp] theorem decrypt_encrypt (key nonce aad pt : Bytes) :
    A.decrypt key nonce aad (A.encrypt key nonce aad pt) = some pt :=
  A.decrypt_eq_some_iff.mpr rfl

/-- What is shorter than a tag does not open. -/
theorem decrypt_short {key nonce aad ct : Bytes} (short : ct.length < 16) :
    A.decrypt key nonce aad ct = none := by
  refine Option.eq_none_iff_forall_ne_some.mpr fun pt opened => ?_
  have sealed := A.decrypt_eq_some_iff.mp opened
  have length := A.length_encrypt key nonce aad pt
  rw [sealed] at length
  omega

/-- Under one key, nonce and associated data, a ciphertext stands for one text. -/
theorem encrypt_inj {key nonce aad pt pt' : Bytes}
    (same : A.encrypt key nonce aad pt = A.encrypt key nonce aad pt') : pt = pt' := by
  have opened := A.decrypt_encrypt key nonce aad pt'
  rw [← same, A.decrypt_encrypt] at opened
  exact Option.some.inj opened

/-- Sixteen octets of the key. -/
def keyTag (key : Bytes) : Bytes := (key ++ List.replicate 16 0).take 16

theorem length_keyTag (key : Bytes) : (keyTag key).length = 16 :=
  List.length_take_of_le (by rw [List.length_append, List.length_replicate]; omega)

/-- The tag is the beginning of the key. -/
def plain : NonceAead where
  encrypt key _ _ pt := keyTag key ++ pt
  decrypt key _ _ ct := if ct.take 16 = keyTag key then some (ct.drop 16) else none
  decrypt_eq_some_iff := by
    intro key _ _ ct pt
    constructor
    · intro opened
      split at opened
      next tag =>
        cases opened
        rw [← tag, List.take_append_drop]
      · cases opened
    · rintro rfl
      rw [if_pos (List.take_left' (length_keyTag key)), List.drop_left' (length_keyTag key)]
  length_encrypt key _ _ pt := by
    rw [List.length_append, length_keyTag, Nat.add_comm]

end NonceAead

end FinBit.Lib
