import Mathlib.Logic.Relation
import FinBit.Lib.Bytes

/-! # Key derivation

`hkdf_expand` makes as many octets of a pseudo-random key as are asked for, in blocks of 32 that each
depend on the one before. RFC 5869 numbers the blocks with one octet, which is enough for 255 of them.
-/

namespace FinBit.Crypto.Hkdf

open FinBit.Lib

/-- HMAC-SHA256 of a key and a message. -/
abbrev Hmac := Bytes → Bytes → Vector UInt8 32

/-- The variables of the loop. -/
structure Expansion where
  okm : Bytes
  t : Bytes
  tLen : Nat
  off : Nat
  counter : UInt8

section

variable (hmac : Hmac) (prk : Vector UInt8 32) (info : Bytes)

/-- The body of the loop. -/
def pass (okmLen : Nat) (s : Expansion) : Expansion :=
  let counter := s.counter + 1
  let carried := if 0 < s.tLen then s.t.take s.tLen else []
  let t := (hmac prk.toList (carried ++ info ++ [counter])).toList
  let take := min 32 (okmLen - s.off)
  -- `memcpy` to the offset
  let okm := s.okm.take s.off ++ t.take take ++ s.okm.drop (s.off + take)
  ⟨okm, t, 32, s.off + take, counter⟩

theorem off_pass (okmLen : Nat) (s : Expansion) :
    (pass hmac prk info okmLen s).off = s.off + min 32 (okmLen - s.off) :=
  rfl

def expandLoop (okmLen : Nat) (s : Expansion) : Expansion :=
  if s.off < okmLen then expandLoop okmLen (pass hmac prk info okmLen s) else s
termination_by okmLen - s.off
decreasing_by
  rw [off_pass]
  omega

def start (okmLen : Nat) : Expansion := ⟨List.replicate okmLen 0, List.replicate 32 0, 0, 0, 0⟩

/-- `hkdf_expand`. -/
def hkdfExpand (okmLen : Nat) : Except String Bytes :=
  if okmLen = 0 ∨ 255 * 32 < okmLen then throw "hkdf_expand: okm_len out of range (1..8160)"
  else return (expandLoop hmac prk info okmLen (start okmLen)).okm

/-! ### The blocks -/

/-- `T(i)`. -/
def block : Nat → Bytes
  | 0 => []
  | i + 1 => (hmac prk.toList (block i ++ info ++ [UInt8.ofNat (i + 1)])).toList

/-- `T(1) || T(2) || ... || T(n)`. -/
def blocks (n : Nat) : Bytes := (List.range n).flatMap fun i => block hmac prk info (i + 1)

/-- The states of the loop. -/
def Reached (okmLen : Nat) : Expansion → Prop :=
  Relation.ReflTransGen (fun s s' => s.off < okmLen ∧ s' = pass hmac prk info okmLen s)
    (start okmLen)

/-- What RFC 5869 says. -/
structure Rfc5869 : Prop where
  expands : ∀ okmLen, 1 ≤ okmLen → okmLen ≤ 8160 → ∀ n, okmLen ≤ 32 * n →
    hkdfExpand hmac prk info okmLen = .ok ((blocks hmac prk info n).take okmLen)
  shorter : ∀ okmLen okmLen', 1 ≤ okmLen → okmLen ≤ okmLen' → okmLen' ≤ 8160 →
    ∃ okm more, hkdfExpand hmac prk info okmLen = .ok okm ∧ okm.length = okmLen ∧
      hkdfExpand hmac prk info okmLen' = .ok (okm ++ more)
  counted : ∀ okmLen, okmLen ≤ 8160 → ∀ s, Reached hmac prk info okmLen s → s.off < okmLen →
    (s.counter + 1).toNat = s.counter.toNat + 1
  rejects : ∀ okmLen, okmLen = 0 ∨ 8160 < okmLen →
    hkdfExpand hmac prk info okmLen = .error "hkdf_expand: okm_len out of range (1..8160)"

end

variable {hmac : Hmac} {prk : Vector UInt8 32} {info : Bytes} {okmLen : Nat} {s : Expansion}

theorem length_block (i : Nat) : (block hmac prk info (i + 1)).length = 32 := by
  rw [block, Vector.length_toList]

theorem blocks_succ (n : Nat) :
    blocks hmac prk info (n + 1) = blocks hmac prk info n ++ block hmac prk info (n + 1) := by
  rw [blocks, List.range_succ, List.flatMap_append, List.flatMap_singleton]
  rfl

theorem length_blocks (n : Nat) : (blocks hmac prk info n).length = 32 * n := by
  induction n with
  | zero => rfl
  | succ n ih => rw [blocks_succ, List.length_append, ih, length_block, Nat.mul_succ]

/-- More blocks begin with the same octets. -/
theorem take_blocks {n m : Nat} (more : n ≤ m) (enough : okmLen ≤ 32 * n) :
    (blocks hmac prk info m).take okmLen = (blocks hmac prk info n).take okmLen := by
  induction m, more using Nat.le_induction with
  | base => rfl
  | succ m more ih =>
    have within : okmLen ≤ (blocks hmac prk info m).length := by
      rw [length_blocks]
      omega
    rw [blocks_succ, List.take_append_of_le_length within, ih]

/-- After so many passes. -/
structure Expanded (hmac : Hmac) (prk : Vector UInt8 32) (info : Bytes) (okmLen n : Nat)
    (s : Expansion) : Prop where
  counter : s.counter.toNat = n
  off : s.off = min (32 * n) okmLen
  carried : s.t.take s.tLen = block hmac prk info n
  okm : s.okm = (blocks hmac prk info n).take okmLen ++ List.replicate (okmLen - s.off) 0

theorem expanded_start (hmac : Hmac) (prk : Vector UInt8 32) (info : Bytes) (okmLen : Nat) :
    Expanded hmac prk info okmLen 0 (start okmLen) := by
  constructor
  · rfl
  · rw [Nat.mul_zero, Nat.zero_min]
    rfl
  · rfl
  · exact (List.take_nil ▸ List.nil_append _).symm

namespace Expanded

variable {n : Nat}

/-- The offset is at the end of the blocks so far as long as there is something left to do. -/
theorem off_eq (inv : Expanded hmac prk info okmLen n s) (more : s.off < okmLen) :
    s.off = 32 * n := by
  have off := inv.off
  omega

theorem next_counter (inv : Expanded hmac prk info okmLen n s) (more : s.off < okmLen)
    (short : okmLen ≤ 8160) : (s.counter + 1).toNat = n + 1 := by
  have place := inv.off_eq more
  rw [UInt8.toNat_add, inv.counter]
  exact Nat.mod_eq_of_lt (by change n + 1 < 256; omega)

theorem pass (inv : Expanded hmac prk info okmLen n s) (more : s.off < okmLen)
    (short : okmLen ≤ 8160) : Expanded hmac prk info okmLen (n + 1) (pass hmac prk info okmLen s) := by
  have place := inv.off_eq more
  have counter := inv.next_counter more short
  have carried : (if 0 < s.tLen then s.t.take s.tLen else []) = block hmac prk info n := by
    rw [← inv.carried]
    split
    · rfl
    next empty => rw [Nat.eq_zero_of_not_pos empty, List.take_zero]
  have next : s.counter + 1 = UInt8.ofNat (n + 1) := by
    rw [← counter, UInt8.ofNat_toNat]
  -- what is written is the next block, or as much of it as there is room for
  have written : (FinBit.Crypto.Hkdf.pass hmac prk info okmLen s).t = block hmac prk info (n + 1) := by
    rw [FinBit.Crypto.Hkdf.pass, carried, next, block]
  have whole : (blocks hmac prk info n).length = s.off := by rw [length_blocks, place]
  have size : (block hmac prk info (n + 1)).length = 32 := length_block n
  constructor
  · exact counter
  · rw [off_pass, place]
    omega
  · change (FinBit.Crypto.Hkdf.pass hmac prk info okmLen s).t.take 32 = _
    rw [written, ← size, List.take_length]
  · change s.okm.take s.off ++
      (FinBit.Crypto.Hkdf.pass hmac prk info okmLen s).t.take (min 32 (okmLen - s.off)) ++
        s.okm.drop (s.off + min 32 (okmLen - s.off)) = _
    have before : (blocks hmac prk info n).take okmLen = blocks hmac prk info n :=
      List.take_of_length_le (by omega)
    rw [written, inv.okm, before, List.take_left' whole, ← List.drop_drop, List.drop_left' whole,
      List.drop_replicate, off_pass, Nat.sub_sub, blocks_succ, List.take_append, before, whole,
      List.take_eq_take_min (i := okmLen - s.off), size, Nat.min_comm 32]

/-- The loop ends with as many octets of the blocks as were asked for. -/
theorem loop (inv : Expanded hmac prk info okmLen n s) (short : okmLen ≤ 8160) :
    ∃ n, Expanded hmac prk info okmLen n (expandLoop hmac prk info okmLen s) ∧
      okmLen ≤ (expandLoop hmac prk info okmLen s).off := by
  induction s using expandLoop.induct hmac prk info okmLen generalizing n with
  | case1 s more ih =>
    rw [expandLoop, if_pos more]
    exact ih (inv.pass more short)
  | case2 s done =>
    rw [expandLoop, if_neg done]
    exact ⟨n, inv, Nat.le_of_not_lt done⟩

theorem reached (reached : Reached hmac prk info okmLen s) (short : okmLen ≤ 8160) :
    ∃ n, Expanded hmac prk info okmLen n s := by
  induction reached with
  | refl => exact ⟨0, expanded_start hmac prk info okmLen⟩
  | tail _ step ih =>
    obtain ⟨n, inv⟩ := ih
    obtain ⟨more, rfl⟩ := step
    exact ⟨n + 1, inv.pass more short⟩

end Expanded

theorem hkdfExpand_eq {n : Nat} (some_octets : 1 ≤ okmLen) (short : okmLen ≤ 8160)
    (enough : okmLen ≤ 32 * n) :
    hkdfExpand hmac prk info okmLen = .ok ((blocks hmac prk info n).take okmLen) := by
  have within : ¬(okmLen = 0 ∨ 255 * 32 < okmLen) := by omega
  rw [hkdfExpand, if_neg within]
  obtain ⟨m, inv, done⟩ := (expanded_start hmac prk info okmLen).loop short
  have enough' : okmLen ≤ 32 * m := by
    have off := inv.off
    omega
  refine congrArg Except.ok ?_
  rw [inv.okm, Nat.sub_eq_zero_of_le done, List.replicate_zero, List.append_nil]
  obtain more | more := Nat.le_total n m
  · exact take_blocks more enough
  · exact (take_blocks more enough').symm

/-- `hkdf_expand` is the function of RFC 5869. -/
theorem hkdfExpand_rfc5869 (hmac : Hmac) (prk : Vector UInt8 32) (info : Bytes) :
    Rfc5869 hmac prk info := by
  constructor
  · exact fun okmLen some_octets short n enough => hkdfExpand_eq some_octets short enough
  · intro okmLen okmLen' some_octets le short
    have enough : okmLen' ≤ 32 * okmLen' := by omega
    refine ⟨_, ((blocks hmac prk info okmLen').take okmLen').drop okmLen,
      hkdfExpand_eq (n := okmLen') some_octets (le.trans short) (le.trans enough), ?_, ?_⟩
    · rw [List.length_take, length_blocks]
      omega
    · rw [hkdfExpand_eq (some_octets.trans le) short enough]
      refine congrArg Except.ok ?_
      have first : (blocks hmac prk info okmLen').take okmLen =
          ((blocks hmac prk info okmLen').take okmLen').take okmLen := by
        rw [List.take_take, Nat.min_eq_left le]
      rw [first, List.take_append_drop]
  · intro okmLen short s reached more
    obtain ⟨n, inv⟩ := Expanded.reached reached short
    rw [inv.next_counter more short, inv.counter]
  · intro okmLen outside
    rw [hkdfExpand, if_pos outside]
    rfl

end FinBit.Crypto.Hkdf
