import Mathlib.Order.Fin.Basic
import FinBit.Lib.BigEndian

/-! # Fingerprints

Two people compare fingerprints by voice or on paper, to make sure that they have each other's public
key. A fingerprint is ten characters, five bits each, of a hash of the key.
-/

namespace FinBit.Crypto.Fingerprint

open FinBit.Lib

abbrev PubKey := Vector UInt8 32

/-- What is used of libsodium. -/
structure Sodium where
  /-- `sodium_init` succeeds. -/
  ready : Bool
  /-- `crypto_generichash` of a public key, with 20 bytes of output. -/
  genericHash : PubKey → Option (Vector UInt8 20)

def kBase32Alphabet : Vector UInt8 32 :=
  ⟨(ascii "0123456789ABCDEFGHJKMNPQRSTVWXYZ").toArray, by decide⟩

/-- The values that `shift` takes. -/
def shifts : List Nat := [45, 40, 35, 30, 25, 20, 15, 10, 5, 0]

/-- Appends a character, with a dash between the two groups. -/
def pushBack (out : Bytes) (letter : UInt8) : Bytes :=
  (if out.length = 5 then out ++ ascii "-" else out) ++ [letter]

/-- The five bits of a word at a place. -/
def index (bits : UInt64) (shift : Nat) : Fin 32 :=
  Fin.ofNat 32 ((bits >>> UInt64.ofNat shift) &&& 0x1F).toNat

/-- The loop over the window. -/
def gather (octets : Bytes) : UInt64 :=
  octets.foldl (fun (bits : UInt64) octet => (bits <<< 8) ||| octet.toUInt64) 0

/-- `Identity::fingerprint`. -/
def fingerprint (sodium : Sodium) (pubkey : PubKey) : Except String Bytes :=
  if sodium.ready = false then throw "libsodium init failed"
  else match sodium.genericHash pubkey with
    | none => throw "crypto_generichash failed"
    | some hash =>
      let window := hash.toList.take 7
      let bits := gather (window.take 5)
      return shifts.foldl (fun out shift => pushBack out (kBase32Alphabet.get (index bits shift))) []

/-! ### What is shown -/

/-- The first bits of a hash, as a number. -/
def firstBits (n : Nat) (hash : Vector UInt8 20) : Nat := beNat hash.toList / 2 ^ (160 - n)

/-- Fifty bits in ten characters, five on each side of a dash. -/
def shown (v : Nat) : Bytes :=
  let letters := shifts.map fun shift => kBase32Alphabet.get (Fin.ofNat 32 (v / 2 ^ shift))
  letters.take 5 ++ ascii "-" ++ letters.drop 5

/-- The letters stand in the order of their codes. -/
theorem letter_inj {i j : Fin 32} : kBase32Alphabet.get i = kBase32Alphabet.get j ↔ i = j := by
  have ascending : StrictMono fun i => (kBase32Alphabet.get i).toNat := by
    rw [Fin.strictMono_iff_lt_succ]
    decide
  exact ⟨fun same => ascending.injective (congrArg UInt8.toNat same), congrArg _⟩

/-- The digits of a number determine it. -/
theorem eq_of_digits {b n v w : Nat} (small : v < b ^ n) (small' : w < b ^ n)
    (same : ∀ i < n, v / b ^ i % b = w / b ^ i % b) : v = w := by
  induction n generalizing v w with
  | zero =>
    rw [Nat.pow_zero, Nat.lt_one_iff] at small small'
    rw [small, small']
  | succ n ih =>
    rw [Nat.pow_succ] at small small'
    have upper : v / b = w / b := by
      refine ih (Nat.div_lt_of_lt_mul (Nat.mul_comm _ b ▸ small))
        (Nat.div_lt_of_lt_mul (Nat.mul_comm _ b ▸ small')) fun i less => ?_
      rw [Nat.div_div_eq_div_mul, Nat.div_div_eq_div_mul, ← Nat.pow_succ']
      exact same (i + 1) (Nat.succ_lt_succ less)
    have lower : v % b = w % b := by
      have last := same 0 (Nat.succ_pos n)
      rwa [Nat.pow_zero, Nat.div_one, Nat.div_one] at last
    rw [← Nat.div_add_mod v b, upper, lower, Nat.div_add_mod]

theorem shown_inj {v w : Nat} (small : v < 2 ^ 50) (small' : w < 2 ^ 50) :
    shown v = shown w ↔ v = w := by
  refine ⟨fun same => ?_, congrArg shown⟩
  obtain ⟨front, back⟩ := List.append_inj same rfl
  obtain ⟨front, -⟩ := List.append_inj front rfl
  have letters := congr (congrArg (· ++ ·) front) back
  simp only [List.take_append_drop] at letters
  refine @eq_of_digits 32 10 v w small small' fun i less => ?_
  -- the digit `i` is the one that is shifted by `5 * i`
  have listed : ∀ i < 10, 5 * i ∈ shifts := by decide
  have digit := letter_inj.mp (List.map_inj_left.mp letters (5 * i) (listed i less))
  rw [Nat.pow_mul] at digit
  exact Fin.val_eq_of_eq digit

theorem index_eq (bits : UInt64) {shift : Nat} (few : shift < 64) :
    index bits shift = Fin.ofNat 32 (bits.toNat / 2 ^ shift) := by
  have mask : ∀ n, n &&& 31 = n % 32 := fun n => Nat.and_two_pow_sub_one_eq_mod n 5
  rw [index, UInt64.toNat_and, UInt64.toNat_shiftRight, Nat.shiftRight_eq_div_pow]
  have small : (UInt64.ofNat shift).toNat % 64 = shift := by
    rw [UInt64.toNat_ofNat', Nat.mod_eq_of_lt (few.trans (by decide)), Nat.mod_eq_of_lt few]
  rw [small]
  refine Fin.ext ?_
  change (_ &&& 31) % 32 = _ % 32
  rw [mask, Nat.mod_mod]

theorem toNat_shift_or {bits : UInt64} (small : bits.toNat < 256 ^ 7) (octet : UInt8) :
    ((bits <<< 8) ||| octet.toUInt64).toNat = 256 * bits.toNat + octet.toNat := by
  have fits : bits.toNat <<< 8 < 2 ^ 64 := by
    rw [Nat.shiftLeft_eq]
    exact Nat.mul_lt_mul_of_pos_right small (by decide)
  rw [UInt64.toNat_or, UInt64.toNat_shiftLeft]
  change bits.toNat <<< 8 % 2 ^ 64 ||| octet.toUInt64.toNat = _
  rw [Nat.mod_eq_of_lt fits, UInt8.toNat_toUInt64, shiftLeft_or octet.toNat_lt, Nat.mul_comm]
  rfl

/-- The loop over the window puts the octets one behind the other. -/
theorem toNat_gather {octets : Bytes} (few : octets.length ≤ 8) :
    (gather octets).toNat = beNat octets := by
  have step : ∀ bits : UInt64, bits.toNat < 256 ^ (8 - octets.length) →
      (octets.foldl (fun (bits : UInt64) octet => (bits <<< 8) ||| octet.toUInt64) bits).toNat =
        octets.foldl (fun n octet => 256 * n + octet.toNat) bits.toNat := by
    induction octets with
    | nil => exact fun _ _ => rfl
    | cons octet octets ih =>
      intro bits small
      rw [List.length_cons] at few small
      have word : bits.toNat < 256 ^ 7 :=
        small.trans_le (Nat.pow_le_pow_right (by decide) (Nat.sub_le_of_le_add (by omega)))
      have next : 8 - octets.length = 8 - (octets.length + 1) + 1 := by omega
      rw [List.foldl_cons, List.foldl_cons, ih (by omega), toNat_shift_or word]
      rw [toNat_shift_or word, next, Nat.pow_succ]
      have octet_lt := octet.toNat_lt
      omega
  exact step 0 (Nat.pow_pos (by decide))

/-- The dash comes after the fifth of ten characters. -/
theorem foldl_pushBack (letter : Nat → UInt8) : (shifts.map letter).foldl pushBack [] =
    (shifts.map letter).take 5 ++ ascii "-" ++ (shifts.map letter).drop 5 := by
  have dash : ascii "-" = [45] := by decide
  simp [shifts, pushBack, dash]

/-- The characters that are shown for a word. -/
theorem letters_eq (bits : UInt64) :
    shifts.foldl (fun out shift => pushBack out (kBase32Alphabet.get (index bits shift))) [] =
      shown bits.toNat := by
  have letters : shifts.map (fun shift => kBase32Alphabet.get (index bits shift)) =
      shifts.map fun shift => kBase32Alphabet.get (Fin.ofNat 32 (bits.toNat / 2 ^ shift)) := by
    refine List.map_congr_left fun shift member => ?_
    have few : ∀ shift ∈ shifts, shift < 64 := by decide
    rw [index_eq bits (few shift member)]
  rw [← List.foldl_map, letters, foldl_pushBack, shown]

/-- What the fingerprint of a key is: the first forty bits of its hash. -/
theorem fingerprint_eq {sodium : Sodium} {pubkey : PubKey} {hash : Vector UInt8 20}
    (ready : sodium.ready = true) (hashed : sodium.genericHash pubkey = some hash) :
    fingerprint sodium pubkey = .ok (shown (firstBits 40 hash)) := by
  have size : (hash.toList.take 5).length = 5 := by
    rw [List.length_take, Vector.length_toList]
    rfl
  have window : (hash.toList.take 7).take 5 = hash.toList.take 5 := by
    rw [List.take_take]
    rfl
  have first : beNat (hash.toList.take 5) = firstBits 40 hash := by
    have rest := beNat_lt (hash.toList.drop 5)
    rw [List.length_drop, Vector.length_toList] at rest
    have split : beNat hash.toList =
        beNat (hash.toList.take 5) * 256 ^ 15 + beNat (hash.toList.drop 5) := by
      have parts := foldl_octets (hash.toList.drop 5) (beNat (hash.toList.take 5))
      rw [beNat, ← List.foldl_append, List.take_append_drop, ← beNat, List.length_drop,
        Vector.length_toList] at parts
      exact parts
    rw [firstBits, split]
    omega
  rw [fingerprint, if_neg (by simp [ready]), hashed]
  change Except.ok _ = _
  rw [letters_eq, window, toNat_gather (by rw [size]; decide), first]

/-! ### Two keys with one fingerprint -/

def oneKey : PubKey :=
  ⟨#[0xad, 0x82, 0xc0, 0x0b, 0xaa, 0x31, 0xf0, 0xb8,
    0xaa, 0x15, 0xba, 0xf9, 0x86, 0xdd, 0x4c, 0xcd,
    0xe2, 0xbf, 0x6c, 0x63, 0x5f, 0xe3, 0x26, 0x0e,
    0x88, 0x91, 0x59, 0x39, 0x8a, 0xe2, 0xfa, 0x06], rfl⟩

def oneHash : Vector UInt8 20 :=
  ⟨#[0xd6, 0x7d, 0x08, 0xed, 0x4a, 0x4a, 0x21, 0x6a,
    0x45, 0x77, 0x12, 0xa4, 0x43, 0x8d, 0x83, 0x50,
    0x12, 0x50, 0xc0, 0x8c], rfl⟩

def otherKey : PubKey :=
  ⟨#[0xb6, 0x99, 0x6b, 0x48, 0x33, 0xd5, 0x99, 0x52,
    0xbd, 0x71, 0xf7, 0xf1, 0xbb, 0xaf, 0x0a, 0x1e,
    0x44, 0x87, 0xbf, 0xb2, 0x99, 0x01, 0x27, 0xa9,
    0x35, 0x68, 0xb4, 0x8b, 0xa1, 0x0d, 0xfd, 0xe5], rfl⟩

def otherHash : Vector UInt8 20 :=
  ⟨#[0xd6, 0x7d, 0x08, 0xed, 0x4a, 0xcd, 0x18, 0xc0,
    0x9d, 0xbc, 0xa9, 0x0b, 0x4b, 0x58, 0xb2, 0xa3,
    0x90, 0xd7, 0xd0, 0x1d], rfl⟩

/-- BLAKE2b-160 at these two keys. -/
def twoHashes : Sodium where
  ready := true
  genericHash key :=
    if key = oneKey then some oneHash else if key = otherKey then some otherHash else none

theorem hashed_oneKey : twoHashes.genericHash oneKey = some oneHash := by
  simp [twoHashes]

theorem hashed_otherKey : twoHashes.genericHash otherKey = some otherHash := by
  have apart : otherKey ≠ oneKey := fun same => absurd (congrArg (·.head) same) (by decide)
  simp [twoHashes, apart]

/-- The hashes differ in the first 50 bits, and the fingerprints do not. -/
theorem fingerprint_twoHashes :
    firstBits 50 oneHash ≠ firstBits 50 otherHash ∧
      fingerprint twoHashes oneKey = .ok (ascii "00TSY-GHVAA") ∧
      fingerprint twoHashes otherKey = .ok (ascii "00TSY-GHVAA") := by
  refine ⟨by decide, ?_, ?_⟩
  · rw [fingerprint_eq rfl hashed_oneKey]
    decide
  · rw [fingerprint_eq rfl hashed_otherKey]
    decide

/-- The fingerprints of two keys differ exactly if their hashes differ in the first 40 bits, and what
is shown are the first 50 bits of a hash only where all of these are zero. -/
theorem fingerprint_ne_iff {sodium : Sodium} {pubkey pubkey' : PubKey}
    {hash hash' : Vector UInt8 20} (ready : sodium.ready = true)
    (hashed : sodium.genericHash pubkey = some hash)
    (hashed' : sodium.genericHash pubkey' = some hash') :
    (fingerprint sodium pubkey ≠ fingerprint sodium pubkey' ↔
        firstBits 40 hash ≠ firstBits 40 hash') ∧
      (fingerprint sodium pubkey = .ok (shown (firstBits 50 hash)) ↔ firstBits 50 hash = 0) := by
  have size : ∀ hash : Vector UInt8 20, beNat hash.toList < 2 ^ 160 := by
    intro hash
    have bound := beNat_lt hash.toList
    rw [Vector.length_toList] at bound
    exact bound.trans_eq (by decide)
  have small : ∀ hash : Vector UInt8 20, firstBits 40 hash < 2 ^ 50 ∧ firstBits 50 hash < 2 ^ 50 := by
    intro hash
    have bound := size hash
    constructor <;> rw [firstBits] <;> omega
  rw [fingerprint_eq ready hashed, fingerprint_eq ready hashed']
  constructor
  · rw [Ne, Except.ok.injEq, shown_inj (small hash).1 (small hash').1]
  · rw [Except.ok.injEq, shown_inj (small hash).1 (small hash).2]
    -- two zeros are shown in front, and the last ten bits are not
    have bound := size hash
    rw [firstBits, firstBits]
    omega

theorem fingerprint_ne_iff_twoHashes :
    (fingerprint twoHashes oneKey ≠ fingerprint twoHashes otherKey ↔
        firstBits 40 oneHash ≠ firstBits 40 otherHash) ∧
      (fingerprint twoHashes oneKey = .ok (shown (firstBits 50 oneHash)) ↔
        firstBits 50 oneHash = 0) :=
  fingerprint_ne_iff rfl hashed_oneKey hashed_otherKey

end FinBit.Crypto.Fingerprint
