import FinBit.Lib.Bytes

/-! # UTF-8

A text is a list of characters. The decoder takes an octet at a time and never fails: where an octet
cannot go on, a replacement character stands for what was begun, and the octet is taken afresh.
-/

namespace FinBit.Lib

/-- The octets of a text. -/
def utf8 (text : List Char) : Bytes := text.flatMap String.utf8EncodeChar

@[simp] theorem utf8_nil : utf8 [] = [] := rfl

@[simp] theorem utf8_cons (c : Char) (text : List Char) :
    utf8 (c :: text) = String.utf8EncodeChar c ++ utf8 text := rfl

@[simp] theorem utf8_append (text behind : List Char) :
    utf8 (text ++ behind) = utf8 text ++ utf8 behind := List.flatMap_append

/-- A character of seven bits is one octet. -/
theorem utf8EncodeChar_ascii {c : Char} (small : c.val.toNat < 128) :
    String.utf8EncodeChar c = [UInt8.ofNat c.val.toNat] := by
  have within : c.val.toNat ≤ 0x7f := by omega
  unfold String.utf8EncodeChar
  exact if_pos within

/-- The octets of any other character have eight bits. -/
theorem utf8EncodeChar_high {c : Char} (large : 128 ≤ c.val.toNat) :
    ∀ b ∈ String.utf8EncodeChar c, 0x80 ≤ b.toNat := by
  intro b member
  unfold String.utf8EncodeChar at member
  simp only [show ¬c.val.toNat ≤ 0x7f by omega, if_false] at member
  repeat' split at member
  all_goals
    simp only [List.mem_cons, List.not_mem_nil, or_false] at member
    rcases member with rfl | member
    · rw [UInt8.toNat_ofNat']
      omega
    · repeat' rcases member with rfl | member
      all_goals
        rw [UInt8.toNat_ofNat']
        omega

/-- What stands for octets that are no text. -/
def replacement : Char := '\uFFFD'

/-- Where the decoder stands: the octets still owed, the bits read so far, and the least and the
greatest octet that may come next. -/
structure Utf8Decoder where
  needed : Nat
  codePoint : Nat
  lower : Nat
  upper : Nat
  deriving DecidableEq

namespace Utf8Decoder

/-- Between two characters. -/
def start : Utf8Decoder := ⟨0, 0, 0x80, 0xBF⟩

/-- The first octet of a character. -/
def lead (b : Nat) : List Char × Utf8Decoder :=
  if b ≤ 0x7F then ([Char.ofNat b], start)
  else if 0xC2 ≤ b ∧ b ≤ 0xDF then ([], ⟨1, b % 0x20, 0x80, 0xBF⟩)
  else if 0xE0 ≤ b ∧ b ≤ 0xEF then
    ([], ⟨2, b % 0x10, if b = 0xE0 then 0xA0 else 0x80, if b = 0xED then 0x9F else 0xBF⟩)
  else if 0xF0 ≤ b ∧ b ≤ 0xF4 then
    ([], ⟨3, b % 0x08, if b = 0xF0 then 0x90 else 0x80, if b = 0xF4 then 0x8F else 0xBF⟩)
  else ([replacement], start)

/-- The next octet. -/
def step (d : Utf8Decoder) (b : Nat) : List Char × Utf8Decoder :=
  if d.needed = 0 then lead b
  else if d.lower ≤ b ∧ b ≤ d.upper then
    let codePoint := d.codePoint * 64 + b % 64
    if d.needed = 1 then ([Char.ofNat codePoint], start)
    else ([], ⟨d.needed - 1, codePoint, 0x80, 0xBF⟩)
  else
    -- the octet that does not belong is taken again
    (replacement :: (lead b).1, (lead b).2)

def run : Utf8Decoder → Bytes → List Char
  | d, [] => if d.needed = 0 then [] else [replacement]
  | d, b :: bs => (d.step b.toNat).1 ++ run (d.step b.toNat).2 bs

end Utf8Decoder

/-- The text of octets. -/
def utf8Decode (octets : Bytes) : List Char := Utf8Decoder.start.run octets

namespace Utf8Decoder

/-- A further octet that is not the last. -/
theorem step_more {needed codePoint lower upper b : Nat} (more : 2 ≤ needed) (low : lower ≤ b)
    (high : b ≤ upper) : step ⟨needed, codePoint, lower, upper⟩ b =
      ([], ⟨needed - 1, codePoint * 64 + b % 64, 0x80, 0xBF⟩) := by
  have owed : needed ≠ 0 := by omega
  have others : needed ≠ 1 := by omega
  simp only [step, owed, others, low, high, and_self, ↓reduceIte]

theorem step_last {codePoint lower upper b : Nat} (low : lower ≤ b) (high : b ≤ upper) :
    step ⟨1, codePoint, lower, upper⟩ b = ([Char.ofNat (codePoint * 64 + b % 64)], start) := by
  simp only [step, low, high, and_self, ↓reduceIte, Nat.one_ne_zero]

theorem run_cons_ofNat {d : Utf8Decoder} {n : Nat} (small : n < 256) (rest : Bytes) :
    d.run (UInt8.ofNat n :: rest) = (d.step n).1 ++ (d.step n).2.run rest := by
  rw [run, UInt8.toNat_ofNat', Nat.mod_eq_of_lt small]

theorem lead_two {n : Nat} (low : 0xC2 ≤ n) (high : n ≤ 0xDF) :
    lead n = ([], ⟨1, n % 0x20, 0x80, 0xBF⟩) := by
  have wide : ¬n ≤ 0x7F := by omega
  rw [lead, if_neg wide, if_pos ⟨low, high⟩]

theorem lead_three {n : Nat} (low : 0xE0 ≤ n) (high : n ≤ 0xEF) :
    lead n =
      ([], ⟨2, n % 0x10, if n = 0xE0 then 0xA0 else 0x80, if n = 0xED then 0x9F else 0xBF⟩) := by
  have wide : ¬n ≤ 0x7F := by omega
  have wider : ¬(0xC2 ≤ n ∧ n ≤ 0xDF) := by omega
  rw [lead, if_neg wide, if_neg wider, if_pos ⟨low, high⟩]

theorem lead_four {n : Nat} (low : 0xF0 ≤ n) (high : n ≤ 0xF4) :
    lead n =
      ([], ⟨3, n % 0x08, if n = 0xF0 then 0x90 else 0x80, if n = 0xF4 then 0x8F else 0xBF⟩) := by
  have wide : ¬n ≤ 0x7F := by omega
  have wider : ¬(0xC2 ≤ n ∧ n ≤ 0xDF) := by omega
  have widest : ¬(0xE0 ≤ n ∧ n ≤ 0xEF) := by omega
  rw [lead, if_neg wide, if_neg wider, if_neg widest, if_pos ⟨low, high⟩]

/-- The octets of a character give the character back. -/
theorem run_char (c : Char) (rest : Bytes) :
    start.run (String.utf8EncodeChar c ++ rest) = c :: start.run rest := by
  have whole : Char.ofNat c.val.toNat = c := Char.ofNat_toNat c
  have valid : c.val.toNat < 0xD800 ∨ 0xDFFF < c.val.toNat ∧ c.val.toNat < 0x110000 := c.valid
  have fresh : ∀ n, start.step n = lead n := fun _ => rfl
  rw [String.utf8EncodeChar]
  generalize c.val.toNat = v at whole valid
  -- the cases are the lengths of the encoding
  split_ifs with one two three
  · rw [List.singleton_append, run_cons_ofNat (by omega), fresh, lead, if_pos one, whole]
    rfl
  · rw [List.cons_append, List.singleton_append, run_cons_ofNat (by omega), fresh,
      lead_two (by omega) (by omega), run_cons_ofNat (by omega), step_last (by omega) (by omega)]
    have bits : (v / 64 % 0x20 + 0xc0) % 0x20 * 64 + (v % 0x40 + 0x80) % 64 = v := by omega
    rw [bits, whole]
    rfl
  · rw [List.cons_append, List.cons_append, List.singleton_append, run_cons_ofNat (by omega), fresh,
      lead_three (by omega) (by omega), run_cons_ofNat (by omega),
      step_more (by omega) (by split_ifs <;> omega) (by split_ifs <;> omega),
      run_cons_ofNat (by omega), step_last (by omega) (by omega)]
    have bits : ((v / 4096 % 0x10 + 0xe0) % 0x10 * 64 + (v / 64 % 0x40 + 0x80) % 64) * 64 +
        (v % 0x40 + 0x80) % 64 = v := by omega
    rw [bits, whole]
    rfl
  · rw [List.cons_append, List.cons_append, List.cons_append, List.singleton_append,
      run_cons_ofNat (by omega), fresh, lead_four (by omega) (by omega), run_cons_ofNat (by omega),
      step_more (by omega) (by split_ifs <;> omega) (by split_ifs <;> omega),
      run_cons_ofNat (by omega), step_more (by omega) (by omega) (by omega),
      run_cons_ofNat (by omega), step_last (by omega) (by omega)]
    have bits : (((v / 262144 % 0x08 + 0xf0) % 0x08 * 64 + (v / 4096 % 0x40 + 0x80) % 64) * 64 +
        (v / 64 % 0x40 + 0x80) % 64) * 64 + (v % 0x40 + 0x80) % 64 = v := by omega
    rw [bits, whole]
    rfl

end Utf8Decoder

theorem utf8Decode_utf8_append (text : List Char) (rest : Bytes) :
    utf8Decode (utf8 text ++ rest) = text ++ utf8Decode rest := by
  induction text with
  | nil => rfl
  | cons c text ih =>
    rw [utf8_cons, List.append_assoc, utf8Decode, Utf8Decoder.run_char, List.cons_append]
    exact congrArg _ ih

/-- Decoding gives back what was encoded. -/
@[simp] theorem utf8Decode_utf8 (text : List Char) : utf8Decode (utf8 text) = text := by
  have decoded := utf8Decode_utf8_append text []
  rwa [List.append_nil, show utf8Decode [] = [] from rfl, List.append_nil] at decoded

end FinBit.Lib
