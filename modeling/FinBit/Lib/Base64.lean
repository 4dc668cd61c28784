import FinBit.Lib.Reader

/-! # Base64

The encoding of RFC 4648, with padding. `decode` is strict: what it accepts is exactly what `encode`
writes, so the bits that are not used have to be zero.
-/

namespace FinBit.Lib.Base64

/-- `A` to `Z`, `a` to `z`, `0` to `9`, `+` and `/`. -/
def digit (v : Nat) : UInt8 :=
  if v < 26 then UInt8.ofNat (65 + v)
  else if v < 52 then UInt8.ofNat (97 + (v - 26))
  else if v < 62 then UInt8.ofNat (48 + (v - 52))
  else if v = 62 then 43
  else 47

/-- The padding. -/
def pad : UInt8 := 61

def encode : Bytes → Bytes
  | a :: b :: c :: rest =>
    digit (a.toNat / 4) :: digit (a.toNat % 4 * 16 + b.toNat / 16) ::
      digit (b.toNat % 16 * 4 + c.toNat / 64) :: digit (c.toNat % 64) :: encode rest
  | [a, b] =>
    [digit (a.toNat / 4), digit (a.toNat % 4 * 16 + b.toNat / 16), digit (b.toNat % 16 * 4), pad]
  | [a] => [digit (a.toNat / 4), digit (a.toNat % 4 * 16), pad, pad]
  | [] => []

/-- The value of a digit. -/
def value (c : UInt8) : Option Nat := (List.range 64).find? fun v => digit v = c

/-- Two digits before two of padding. -/
def decodeOne (p q : UInt8) : Option Bytes := do
  let v ← value p
  let w ← value q
  if w % 16 = 0 then some [UInt8.ofNat (v * 4 + w / 16)] else none

/-- Three digits before one of padding. -/
def decodeTwo (p q r : UInt8) : Option Bytes := do
  let v ← value p
  let w ← value q
  let x ← value r
  if x % 4 = 0 then some [UInt8.ofNat (v * 4 + w / 16), UInt8.ofNat (w % 16 * 16 + x / 4)] else none

def decodeThree (p q r s : UInt8) : Option Bytes := do
  let v ← value p
  let w ← value q
  let x ← value r
  let y ← value s
  return [UInt8.ofNat (v * 4 + w / 16), UInt8.ofNat (w % 16 * 16 + x / 4), UInt8.ofNat (x % 4 * 64 + y)]

def decode : Bytes → Option Bytes
  | [] => some []
  | p :: q :: r :: s :: rest =>
    if rest = [] ∧ s = pad then
      if r = pad then decodeOne p q else decodeTwo p q r
    else do
      let octets ← decodeThree p q r s
      let others ← decode rest
      return octets ++ others
  | _ => none

/-! ### Digits -/

/-- The place of a digit in the alphabet. -/
def place (c : UInt8) : Nat :=
  if 97 ≤ c then c.toNat - 71
  else if 65 ≤ c then c.toNat - 65
  else if 48 ≤ c then c.toNat + 4
  else if c = 43 then 62
  else 63

theorem place_digit : ∀ v < 64, place (digit v) = v := by
  decide

theorem digit_inj {v w : Nat} (small : v < 64) (small' : w < 64) (same : digit v = digit w) :
    v = w := by
  rw [← place_digit v small, same, place_digit w small']

theorem digit_ne_pad {v : Nat} (small : v < 64) : digit v ≠ pad := by
  have all : ∀ v < 64, digit v ≠ pad := by decide
  exact all v small

theorem value_eq_some_iff {c : UInt8} {v : Nat} : value c = some v ↔ v < 64 ∧ digit v = c := by
  rw [value]
  constructor
  · intro found
    have member := List.mem_range.mp (List.mem_of_find?_eq_some found)
    have holds := List.find?_some found
    exact ⟨member, of_decide_eq_true holds⟩
  · rintro ⟨small, rfl⟩
    cases found : (List.range 64).find? fun w => digit w = digit v with
    | none =>
      have absent := List.find?_eq_none.mp found v (List.mem_range.mpr small)
      exact absurd (decide_eq_true rfl) absent
    | some w =>
      have member := List.mem_range.mp (List.mem_of_find?_eq_some found)
      have holds := List.find?_some found
      rw [digit_inj member small (of_decide_eq_true holds)]

theorem value_digit {v : Nat} (small : v < 64) : value (digit v) = some v :=
  value_eq_some_iff.mpr ⟨small, rfl⟩

/-! ### Round trips -/

theorem octet_eq {n : Nat} {a : UInt8} (same : n = a.toNat) : UInt8.ofNat n = a := by
  rw [same, UInt8.ofNat_toNat]

theorem toNat_octet {n : Nat} (small : n < 256) : (UInt8.ofNat n).toNat = n := by
  rw [UInt8.toNat_ofNat']
  exact Nat.mod_eq_of_lt small

theorem decodeOne_digits (a : UInt8) :
    decodeOne (digit (a.toNat / 4)) (digit (a.toNat % 4 * 16)) = some [a] := by
  have octet := a.toNat_lt
  rw [decodeOne, value_digit (by omega), value_digit (by omega)]
  change (if a.toNat % 4 * 16 % 16 = 0 then _ else _) = _
  rw [if_pos (by omega), octet_eq (a := a) (by omega)]

theorem decodeTwo_digits (a b : UInt8) :
    decodeTwo (digit (a.toNat / 4)) (digit (a.toNat % 4 * 16 + b.toNat / 16))
      (digit (b.toNat % 16 * 4)) = some [a, b] := by
  have octet := a.toNat_lt
  have octet' := b.toNat_lt
  rw [decodeTwo, value_digit (by omega), value_digit (by omega), value_digit (by omega)]
  change (if b.toNat % 16 * 4 % 4 = 0 then _ else _) = _
  rw [if_pos (by omega), octet_eq (a := a) (by omega), octet_eq (a := b) (by omega)]

theorem decodeThree_digits (a b c : UInt8) :
    decodeThree (digit (a.toNat / 4)) (digit (a.toNat % 4 * 16 + b.toNat / 16))
      (digit (b.toNat % 16 * 4 + c.toNat / 64)) (digit (c.toNat % 64)) = some [a, b, c] := by
  have octet := a.toNat_lt
  have octet' := b.toNat_lt
  have octet'' := c.toNat_lt
  rw [decodeThree, value_digit (by omega), value_digit (by omega), value_digit (by omega),
    value_digit (by omega)]
  refine congrArg some (congr (congrArg List.cons ?_) (congr (congrArg List.cons ?_)
    (congrArg (fun c => [c]) ?_))) <;> exact octet_eq (by omega)

theorem digits_of_decodeOne {p q : UInt8} {bytes : Bytes} (decoded : decodeOne p q = some bytes) :
    ∃ a : UInt8, bytes = [a] ∧ p = digit (a.toNat / 4) ∧ q = digit (a.toNat % 4 * 16) := by
  simp only [decodeOne, Option.bind_eq_bind, Option.bind_eq_some_iff, value_eq_some_iff] at decoded
  obtain ⟨v, ⟨v_small, rfl⟩, w, ⟨w_small, rfl⟩, decoded⟩ := decoded
  split at decoded
  next unused =>
    cases decoded
    have octet := toNat_octet (show v * 4 + w / 16 < 256 by omega)
    refine ⟨_, rfl, ?_, ?_⟩ <;> rw [octet] <;> congr 1 <;> omega
  next => cases decoded

theorem digits_of_decodeTwo {p q r : UInt8} {bytes : Bytes}
    (decoded : decodeTwo p q r = some bytes) :
    ∃ a b : UInt8, bytes = [a, b] ∧ p = digit (a.toNat / 4) ∧
      q = digit (a.toNat % 4 * 16 + b.toNat / 16) ∧ r = digit (b.toNat % 16 * 4) := by
  simp only [decodeTwo, Option.bind_eq_bind, Option.bind_eq_some_iff, value_eq_some_iff] at decoded
  obtain ⟨v, ⟨v_small, rfl⟩, w, ⟨w_small, rfl⟩, x, ⟨x_small, rfl⟩, decoded⟩ := decoded
  split at decoded
  next unused =>
    cases decoded
    have octet := toNat_octet (show v * 4 + w / 16 < 256 by omega)
    have octet' := toNat_octet (show w % 16 * 16 + x / 4 < 256 by omega)
    refine ⟨_, _, rfl, ?_, ?_, ?_⟩ <;> simp only [octet, octet'] <;> congr 1 <;> omega
  next => cases decoded

theorem digits_of_decodeThree {p q r s : UInt8} {bytes : Bytes}
    (decoded : decodeThree p q r s = some bytes) :
    ∃ a b c : UInt8, bytes = [a, b, c] ∧ p = digit (a.toNat / 4) ∧
      q = digit (a.toNat % 4 * 16 + b.toNat / 16) ∧ r = digit (b.toNat % 16 * 4 + c.toNat / 64) ∧
        s = digit (c.toNat % 64) := by
  simp only [decodeThree, Option.bind_eq_bind, Option.bind_eq_some_iff, value_eq_some_iff] at decoded
  obtain ⟨v, ⟨v_small, rfl⟩, w, ⟨w_small, rfl⟩, x, ⟨x_small, rfl⟩, y, ⟨y_small, rfl⟩, decoded⟩ :=
    decoded
  cases decoded
  have octet := toNat_octet (show v * 4 + w / 16 < 256 by omega)
  have octet' := toNat_octet (show w % 16 * 16 + x / 4 < 256 by omega)
  have octet'' := toNat_octet (show x % 4 * 64 + y < 256 by omega)
  refine ⟨_, _, _, rfl, ?_, ?_, ?_, ?_⟩ <;> simp only [octet, octet', octet''] <;> congr 1 <;> omega

theorem decode_encode (bytes : Bytes) : decode (encode bytes) = some bytes := by
  induction bytes using encode.induct with
  | case1 a b c rest ih =>
    have unpadded := digit_ne_pad (Nat.mod_lt c.toNat (show 0 < 64 by decide))
    rw [encode, decode, if_neg fun padded => unpadded padded.2, decodeThree_digits, ih]
    rfl
  | case2 a b =>
    have octet := b.toNat_lt
    have unpadded := digit_ne_pad (show b.toNat % 16 * 4 < 64 by omega)
    rw [encode, decode, if_pos ⟨rfl, rfl⟩, if_neg unpadded]
    exact decodeTwo_digits a b
  | case3 a =>
    rw [encode, decode, if_pos ⟨rfl, rfl⟩, if_pos rfl]
    exact decodeOne_digits a
  | case4 => rfl

theorem encode_of_decode {text bytes : Bytes} (decoded : decode text = some bytes) :
    encode bytes = text := by
  induction text using decode.induct generalizing bytes with
  | case1 =>
    cases decoded
    rfl
  | case2 p q s rest last =>
    obtain ⟨rfl, rfl⟩ := last
    rw [decode, if_pos ⟨rfl, rfl⟩, if_pos rfl] at decoded
    obtain ⟨a, rfl, rfl, rfl⟩ := digits_of_decodeOne decoded
    rfl
  | case3 p q r s rest last unpadded =>
    obtain ⟨rfl, rfl⟩ := last
    rw [decode, if_pos ⟨rfl, rfl⟩, if_neg unpadded] at decoded
    obtain ⟨a, b, rfl, rfl, rfl, rfl⟩ := digits_of_decodeTwo decoded
    rfl
  | case4 p q r s rest more ih =>
    rw [decode, if_neg more] at decoded
    obtain ⟨octets, first, decoded⟩ := Option.bind_eq_some_iff.mp decoded
    obtain ⟨others, later, joined⟩ := Option.bind_eq_some_iff.mp decoded
    obtain ⟨a, b, c, rfl, rfl, rfl, rfl, rfl⟩ := digits_of_decodeThree first
    obtain rfl := Option.some.inj joined
    change encode (a :: b :: c :: others) = _
    rw [encode, ih later]
  | case5 text not_empty short =>
    rw [decode] at decoded
    · cases decoded
    · exact not_empty
    · exact short

/-- What is accepted, and as what. -/
theorem decode_eq_some_iff {text bytes : Bytes} :
    decode text = some bytes ↔ encode bytes = text := by
  constructor
  · exact encode_of_decode
  · rintro rfl
    exact decode_encode bytes

/-- Only digits and padding are written. -/
theorem mem_encode {bytes : Bytes} {c : UInt8} (member : c ∈ encode bytes) :
    c = pad ∨ ∃ v < 64, c = digit v := by
  induction bytes using encode.induct with
  | case1 a b c rest ih =>
    have small_a := a.toNat_lt
    have small_b := b.toNat_lt
    have small_c := c.toNat_lt
    rw [encode] at member
    simp only [List.mem_cons] at member
    obtain rfl | rfl | rfl | rfl | later := member
    · exact .inr ⟨_, by omega, rfl⟩
    · exact .inr ⟨_, by omega, rfl⟩
    · exact .inr ⟨_, by omega, rfl⟩
    · exact .inr ⟨_, by omega, rfl⟩
    · exact ih later
  | case2 a b =>
    have small_a := a.toNat_lt
    have small_b := b.toNat_lt
    rw [encode] at member
    simp only [List.mem_cons, List.not_mem_nil, or_false] at member
    obtain rfl | rfl | rfl | rfl := member
    · exact .inr ⟨_, by omega, rfl⟩
    · exact .inr ⟨_, by omega, rfl⟩
    · exact .inr ⟨_, by omega, rfl⟩
    · exact .inl rfl
  | case3 a =>
    have small_a := a.toNat_lt
    rw [encode] at member
    simp only [List.mem_cons, List.not_mem_nil, or_false] at member
    obtain rfl | rfl | rfl | rfl := member
    · exact .inr ⟨_, by omega, rfl⟩
    · exact .inr ⟨_, by omega, rfl⟩
    · exact .inl rfl
    · exact .inl rfl
  | case4 => cases member

theorem length_le_length_encode (bytes : Bytes) : bytes.length ≤ (encode bytes).length := by
  induction bytes using encode.induct with
  | case1 a b c rest ih =>
    rw [encode]
    simp only [List.length_cons]
    omega
  | case2 a b => exact Nat.le_of_ble_eq_true rfl
  | case3 a => exact Nat.le_of_ble_eq_true rfl
  | case4 => exact Nat.le_refl _

theorem length_encode_le (bytes : Bytes) : (encode bytes).length ≤ 4 * bytes.length := by
  induction bytes using encode.induct with
  | case1 a b c rest ih =>
    rw [encode]
    simp only [List.length_cons]
    omega
  | case2 a b => exact Nat.le_of_ble_eq_true rfl
  | case3 a => exact Nat.le_of_ble_eq_true rfl
  | case4 => exact Nat.le_refl _

end FinBit.Lib.Base64
