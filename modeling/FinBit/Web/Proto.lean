import Mathlib.Data.Nat.Bitwise
import FinBit.Lib.Utf8
import FinBit.Lib.Varints

/-! # The wire format of the web client

`finbit_proto.js` reads and writes protobuf messages by hand. An index beyond the end of a buffer
reads as `undefined`, which is zero for the bit operations, and `subarray` cuts its bounds off at the
end, so the reader does not notice where a field is incomplete. Offsets are natural numbers: those at
which the numbers of the language round lie behind every buffer.
-/

namespace FinBit.Web.Proto

open FinBit.Lib

/-! ### Numbers of the language -/

/-- A `Number` that is no fraction. -/
inductive JsNumber where
  | nat (n : Nat)
  | infinity
  | nan
  deriving DecidableEq

/-- `Number(n)` of a `BigInt`: 53 bits are kept, and a tie goes to the even neighbour. -/
def toNumber (n : Nat) : JsNumber :=
  if n < 2 ^ 53 then .nat n
  else
    let unit := 2 ^ (n.log2 - 52)
    let kept := n / unit
    let dropped := n % unit
    let kept := if unit < 2 * dropped ∨ unit = 2 * dropped ∧ kept % 2 = 1 then kept + 1 else kept
    if kept * unit < 2 ^ 1024 then .nat (kept * unit) else .infinity

/-- The conversion to 32 bits that comes before a bit operation. -/
def JsNumber.toInt32 : JsNumber → Int
  | .nat n => (n : Int).bmod (2 ^ 32)
  | _ => 0

/-! ### Writing -/

/-- `encodeVarint`. -/
def encodeVarint (v : Nat) : Bytes :=
  if 0x80 ≤ v then UInt8.ofNat (v % 128 + 128) :: encodeVarint (v / 128) else [UInt8.ofNat v]
termination_by v
decreasing_by omega

def writeTag (fieldNum wireType : Nat) : Bytes := encodeVarint (fieldNum * 8 + wireType)

/-- `writeBytes`; `null` is no value. -/
def writeBytes (fieldNum : Nat) : Option Bytes → Bytes
  | none => []
  | some bytes => writeTag fieldNum 2 ++ (encodeVarint bytes.length ++ bytes)

def writeString (fieldNum : Nat) (s : List Char) : Bytes :=
  if s = [] then [] else writeBytes fieldNum (some (utf8 s))

def writeUint32 (fieldNum n : Nat) : Bytes :=
  if n = 0 then [] else writeTag fieldNum 0 ++ encodeVarint n

def writeUint64 (fieldNum n : Nat) : Bytes := writeUint32 fieldNum n

/-! ### Reading -/

/-- The loop of `decodeVarint`, over what is left of the buffer. -/
def varintLoop : Bytes → Nat → Nat → Nat → Nat × Nat
  | [], v, _, off =>
    -- `undefined` has no continuation bit
    (v, off + 1)
  | b :: rest, v, shift, off =>
    let v := v ||| (b.toNat &&& 0x7f) <<< shift
    if b.toNat &&& 0x80 = 0 then (v, off + 1) else varintLoop rest v (shift + 7) (off + 1)

def decodeVarint (buf : Bytes) (off : Nat) : Nat × Nat := varintLoop (buf.drop off) 0 0 off

/-- `buf.subarray`. -/
def subarray (buf : Bytes) (start stop : Nat) : Bytes := (buf.drop start).take (stop - start)

def parseLD (buf : Bytes) (off : Nat) : Bytes × Nat :=
  let (n, after) := decodeVarint buf off
  (subarray buf after (after + n), after + n)

inductive FieldValue where
  | bigint (n : Nat)
  | bytes (b : Bytes)
  deriving DecidableEq

/-- An object whose keys are field numbers. -/
abbrev Fields := Int → Option FieldValue

def Fields.set (fields : Fields) (fnum : Int) (value : FieldValue) : Fields :=
  fun k => if k = fnum then some value else fields k

/-- `Number(tag) & 7`. -/
def wireType (tag : Nat) : Nat := ((toNumber tag).toInt32 % 8).toNat

/-- `Number(tag) >> 3`. -/
def fieldNumber (tag : Nat) : Int := (toNumber tag).toInt32 / 8

theorem lt_varintLoop (rest : Bytes) (v shift off : Nat) : off < (varintLoop rest v shift off).2 := by
  induction rest generalizing v shift off with
  | nil => exact Nat.lt_succ_self off
  | cons b rest ih =>
    rw [varintLoop]
    split
    · exact Nat.lt_succ_self off
    · exact Nat.lt_of_succ_lt (ih _ _ (off + 1))

theorem lt_decodeVarint (buf : Bytes) (off : Nat) : off < (decodeVarint buf off).2 :=
  lt_varintLoop _ 0 0 off

/-- The loop of `parseFields`. -/
def parseLoop (buf : Bytes) (fields : Fields) (off : Nat) : Except String Fields :=
  if off < buf.length then
    let tag := (decodeVarint buf off).1
    let afterTag := (decodeVarint buf off).2
    let fnum := fieldNumber tag
    let wt := wireType tag
    if wt = 0 then
      parseLoop buf (fields.set fnum (.bigint (decodeVarint buf afterTag).1))
        (decodeVarint buf afterTag).2
    else if wt = 2 then
      parseLoop buf (fields.set fnum (.bytes (parseLD buf afterTag).1)) (parseLD buf afterTag).2
    else .error s!"unsupported wire type {wt} for field {fnum}"
  else .ok fields
termination_by buf.length - off
decreasing_by
  · have tag := lt_decodeVarint buf off
    have value := lt_decodeVarint buf (decodeVarint buf off).2
    omega
  · have tag := lt_decodeVarint buf off
    have value := lt_decodeVarint buf (decodeVarint buf off).2
    simp only [parseLD]
    omega

def parseFields (buf : Bytes) : Except String Fields := parseLoop buf (fun _ => none) 0

/-! ### Reading numbers -/

theorem continuation_iff (b : UInt8) : b.toNat &&& 0x80 = 0 ↔ b.toNat < 128 := by
  have small := b.toNat_lt
  have bit : b.toNat &&& 0x80 = (b.toNat.testBit 7).toNat * 2 ^ 7 := Nat.and_two_pow b.toNat 7
  rw [bit, Nat.testBit_eq_decide_div_mod_eq]
  by_cases set : b.toNat / 2 ^ 7 % 2 = 1
  · rw [decide_eq_true set]
    exact iff_of_false (by decide) (by omega)
  · rw [decide_eq_false set]
    exact iff_of_true (by decide) (by omega)

/-- The bits of an octet go above those that have been read. -/
theorem merge_eq {v shift : Nat} (b : UInt8) (below : v < 2 ^ shift) :
    v ||| (b.toNat &&& 0x7f) <<< shift = v + b.toNat % 128 * 2 ^ shift := by
  have low : b.toNat &&& 0x7f = b.toNat % 128 := Nat.and_two_pow_sub_one_eq_mod b.toNat 7
  rw [low, Nat.or_comm, ← Nat.shiftLeft_add_eq_or_of_lt below, Nat.shiftLeft_eq, Nat.add_comm]

theorem merge_lt {v shift : Nat} (b : UInt8) (below : v < 2 ^ shift) :
    v + b.toNat % 128 * 2 ^ shift < 2 ^ (shift + 7) := by
  have low : b.toNat % 128 + 1 ≤ 128 := Nat.mod_lt _ (by decide)
  have scaled := Nat.mul_le_mul_right (2 ^ shift) low
  rw [Nat.succ_mul] at scaled
  rw [Nat.pow_add]
  omega

/-- The bits of the octets behind one. -/
theorem merge_rest (v low rest shift : Nat) :
    v + low * 2 ^ shift + rest * 2 ^ (shift + 7) = v + (low + 128 * rest) * 2 ^ shift := by
  rw [Nat.pow_add, Nat.add_mul, Nat.mul_assoc 128, ← Nat.mul_assoc rest]
  omega

theorem varintLoop_terminated {octets : Bytes} (ends : Terminated octets) (rest : Bytes)
    {v shift : Nat} (below : v < 2 ^ shift) (off : Nat) :
    varintLoop (octets ++ rest) v shift off =
      (v + varintValue octets * 2 ^ shift, off + octets.length) := by
  induction ends generalizing v shift off with
  | @last b clear =>
    rw [List.singleton_append, varintLoop, merge_eq b below]
    exact if_pos ((continuation_iff b).mpr clear)
  | @more b octets set ends ih =>
    have continues : ¬b.toNat &&& 0x80 = 0 := fun clear =>
      absurd ((continuation_iff b).mp clear) (Nat.not_lt.mpr set)
    rw [List.cons_append, varintLoop, if_neg continues, merge_eq b below, ih (merge_lt b below),
      merge_rest, varintValue, List.length_cons, Nat.add_right_comm, Nat.add_assoc]

theorem varintLoop_unterminated {octets : Bytes} (open_ : Unterminated octets) {v shift : Nat}
    (below : v < 2 ^ shift) (off : Nat) :
    varintLoop octets v shift off =
      (v + varintValue octets * 2 ^ shift, off + octets.length + 1) := by
  induction octets generalizing v shift off with
  | nil =>
    rw [varintLoop, varintValue, Nat.zero_mul]
    rfl
  | cons b octets ih =>
    have continues : ¬b.toNat &&& 0x80 = 0 := fun clear =>
      absurd ((continuation_iff b).mp clear) (Nat.not_lt.mpr (open_ b List.mem_cons_self))
    rw [varintLoop, if_neg continues, merge_eq b below,
      ih (fun b' member => open_ b' (List.mem_cons_of_mem b member)) (merge_lt b below),
      merge_rest, varintValue, List.length_cons, Nat.add_right_comm off 1]
    rfl

/-- A number that ends is read, and the reader stands behind it. -/
theorem decodeVarint_some {buf behind : Bytes} {off : Nat}
    (ends : (frontVarint (buf.drop off)).2 = some behind) :
    (decodeVarint buf off).1 = (frontVarint (buf.drop off)).1 ∧
      (decodeVarint buf off).2 + behind.length = buf.length ∧
      buf.drop (decodeVarint buf off).2 = behind := by
  unfold decodeVarint
  obtain ⟨octets, rest, split, terminated⟩ | open_ := terminated_or_unterminated (buf.drop off)
  · rw [split, frontVarint_terminated terminated] at ends ⊢
    obtain rfl := Option.some.inj ends
    rw [varintLoop_terminated terminated rest Nat.zero_lt_one]
    have length := congrArg List.length split
    have nonempty := List.length_pos_iff.mpr terminated.ne_nil
    rw [List.length_drop, List.length_append] at length
    refine ⟨by rw [Nat.zero_add, Nat.pow_zero, Nat.mul_one], by dsimp only; omega, ?_⟩
    dsimp only
    rw [← List.drop_drop, split, List.drop_left]
  · rw [frontVarint_unterminated open_] at ends
    cases ends

/-- Where a number does not end, the reader stands beyond the end of the buffer. -/
theorem decodeVarint_none {buf : Bytes} {off : Nat} (cut : (frontVarint (buf.drop off)).2 = none) :
    (decodeVarint buf off).1 = (frontVarint (buf.drop off)).1 ∧
      buf.length < (decodeVarint buf off).2 := by
  unfold decodeVarint
  obtain ⟨octets, rest, split, terminated⟩ | open_ := terminated_or_unterminated (buf.drop off)
  · rw [split, frontVarint_terminated terminated] at cut
    cases cut
  · rw [frontVarint_unterminated open_, varintLoop_unterminated open_ Nat.zero_lt_one]
    refine ⟨by rw [Nat.zero_add, Nat.pow_zero, Nat.mul_one], ?_⟩
    rw [List.length_drop]
    dsimp only
    omega

end FinBit.Web.Proto
