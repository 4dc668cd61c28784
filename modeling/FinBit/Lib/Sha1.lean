import FinBit.Lib.Reader

/-! # SHA-1

The hash function of RFC 3174, of messages that are strings of octets: padding to whole blocks of 64
octets, and 80 steps for each block.
-/

namespace FinBit.Lib.Sha1

/-! ### Words -/

/-- The circular left shift. -/
def S (n X : UInt32) : UInt32 := (X <<< n) ||| (X >>> (32 - n))

def f (t : Nat) (B C D : UInt32) : UInt32 :=
  if t < 20 then (B &&& C) ||| (~~~B &&& D)
  else if t < 40 then B ^^^ C ^^^ D
  else if t < 60 then (B &&& C) ||| (B &&& D) ||| (C &&& D)
  else B ^^^ C ^^^ D

def K (t : Nat) : UInt32 :=
  if t < 20 then 0x5A827999
  else if t < 40 then 0x6ED9EBA1
  else if t < 60 then 0x8F1BBCDC
  else 0xCA62C1D6

/-- The word that four octets spell. -/
def word (octets : Bytes) : UInt32 := UInt32.ofNat (beNat octets)

/-! ### Padding -/

/-- A one, as many zeros as are needed, and the length in bits. -/
def pad (message : Bytes) : Bytes :=
  message ++ (0x80 :: List.replicate ((119 - message.length % 64) % 64) 0) ++
    beBytes 8 (8 * message.length)

theorem length_pad (message : Bytes) : (pad message).length % 64 = 0 := by
  rw [pad, List.length_append, List.length_append, List.length_cons, List.length_replicate,
    length_beBytes]
  omega

/-- The `n`th block. -/
def block (message : Bytes) (n : Nat) : Bytes := ((pad message).drop (64 * n)).take 64

/-! ### The digest -/

structure Buffer where
  A : UInt32
  B : UInt32
  C : UInt32
  D : UInt32
  E : UInt32

def initial : Buffer := ⟨0x67452301, 0xEFCDAB89, 0x98BADCFE, 0x10325476, 0xC3D2E1F0⟩

/-- The words of a block, and those that are made of them. -/
def W (block : Bytes) (t : Nat) : UInt32 :=
  if t < 16 then word ((block.drop (4 * t)).take 4)
  else S 1 (W block (t - 3) ^^^ W block (t - 8) ^^^ W block (t - 14) ^^^ W block (t - 16))

theorem W_of_lt {block : Bytes} {t : Nat} (input : t < 16) :
    W block t = word ((block.drop (4 * t)).take 4) := by
  rw [W, if_pos input]

theorem W_of_le {block : Bytes} {t : Nat} (later : 16 ≤ t) :
    W block t =
      S 1 (W block (t - 3) ^^^ W block (t - 8) ^^^ W block (t - 14) ^^^ W block (t - 16)) := by
  rw [W, if_neg (Nat.not_lt.mpr later)]

def step (t : Nat) (W : UInt32) (s : Buffer) : Buffer where
  A := S 5 s.A + f t s.B s.C s.D + s.E + W + K t
  B := s.A
  C := S 30 s.B
  D := s.C
  E := s.D

/-- The first `t` steps for a block. -/
def steps (block : Bytes) : Nat → Buffer → Buffer
  | 0, s => s
  | t + 1, s => step t (W block t) (steps block t s)

def process (H : Buffer) (block : Bytes) : Buffer :=
  let s := steps block 80 H
  ⟨H.A + s.A, H.B + s.B, H.C + s.C, H.D + s.D, H.E + s.E⟩

def Buffer.octets (H : Buffer) : Bytes :=
  be32 H.A ++ be32 H.B ++ be32 H.C ++ be32 H.D ++ be32 H.E

/-- The hash of a message. -/
def sha1 (message : Bytes) : Bytes :=
  ((List.range ((pad message).length / 64)).foldl
    (fun H n => process H (block message n)) initial).octets

/-! ### Shifts and masks -/

theorem and_255 (n : Nat) : n &&& 255 = n % 256 := Nat.and_two_pow_sub_one_eq_mod n 8

theorem toNat_shiftLeft_octet (octet : UInt8) {i : Nat} (place : i ≤ 24) :
    (octet.toUInt32 <<< UInt32.ofNat i).toNat = octet.toNat <<< i := by
  have small := octet.toNat_lt
  have fits : octet.toNat <<< i < 2 ^ 32 := by
    rw [Nat.shiftLeft_eq]
    calc octet.toNat * 2 ^ i
        ≤ 255 * 2 ^ 24 := Nat.mul_le_mul (by omega) (Nat.pow_le_pow_right (by decide) place)
      _ < 2 ^ 32 := by decide
  have amount : (UInt32.ofNat i).toNat % 32 = i := by
    rw [UInt32.toNat_ofNat', Nat.mod_eq_of_lt (by omega), Nat.mod_eq_of_lt (by omega)]
  rw [UInt32.toNat_shiftLeft, amount, UInt8.toNat_toUInt32, Nat.mod_eq_of_lt fits]

/-- Four octets shifted into their places are the word that they spell. -/
theorem shifted_eq_word (p q r s : UInt8) :
    (p.toUInt32 <<< 24) ||| (q.toUInt32 <<< 16) ||| (r.toUInt32 <<< 8) ||| s.toUInt32 =
      word [p, q, r, s] := by
  have small : ∀ octet : UInt8, octet.toNat < 256 := UInt8.toNat_lt
  have first := small p
  have second := small q
  have third := small r
  have fourth := small s
  refine UInt32.toNat_inj.mp ?_
  have high : (p.toUInt32 <<< 24).toNat = p.toNat <<< 24 := toNat_shiftLeft_octet p (by decide)
  have upper : (q.toUInt32 <<< 16).toNat = q.toNat <<< 16 := toNat_shiftLeft_octet q (by decide)
  have lower : (r.toUInt32 <<< 8).toNat = r.toNat <<< 8 := toNat_shiftLeft_octet r (by decide)
  -- one octet after the other, each into the zeros that the shifts have left
  have two : p.toNat <<< 24 ||| q.toNat <<< 16 = (p.toNat * 256 + q.toNat) <<< 16 := by
    rw [shiftLeft_or (by rw [Nat.shiftLeft_eq]; omega), Nat.shiftLeft_eq, Nat.shiftLeft_eq]
    omega
  have three : (p.toNat * 256 + q.toNat) <<< 16 ||| r.toNat <<< 8 =
      ((p.toNat * 256 + q.toNat) * 256 + r.toNat) <<< 8 := by
    rw [shiftLeft_or (by rw [Nat.shiftLeft_eq]; omega), Nat.shiftLeft_eq, Nat.shiftLeft_eq]
    omega
  rw [UInt32.toNat_or, UInt32.toNat_or, UInt32.toNat_or, high, upper, lower, two, three,
    UInt8.toNat_toUInt32, shiftLeft_or fourth, word, UInt32.toNat_ofNat']
  change _ = (256 * (256 * (256 * (256 * 0 + p.toNat) + q.toNat) + r.toNat) + s.toNat) % 2 ^ 32
  omega

/-- An octet of a word, shifted down and masked. -/
theorem shifted_eq_octet (x : UInt32) {i : Nat} (place : i < 4) :
    ((x >>> UInt32.ofNat (8 * i)) &&& 0xff).toUInt8 = UInt8.ofNat (x.toNat / 256 ^ i) := by
  have amount : (UInt32.ofNat (8 * i)).toNat % 32 = 8 * i := by
    rw [UInt32.toNat_ofNat', Nat.mod_eq_of_lt (by omega), Nat.mod_eq_of_lt (by omega)]
  have power : 2 ^ (8 * i) = 256 ^ i := by rw [Nat.pow_mul]
  refine UInt8.toNat_inj.mp ?_
  rw [UInt32.toNat_toUInt8, UInt32.toNat_and, UInt32.toNat_shiftRight, amount,
    Nat.shiftRight_eq_div_pow, power, UInt8.toNat_ofNat']
  change (_ &&& 255) % 256 = _
  rw [and_255, Nat.mod_mod]

end FinBit.Lib.Sha1
