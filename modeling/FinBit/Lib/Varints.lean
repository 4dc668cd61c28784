import FinBit.Lib.Bytes

/-! # Base-128 integers

A number is written seven bits to an octet, the lowest first, and every octet but the last has its
highest bit set. The number in front of a byte string ends within it, or the octets run out before.
-/

namespace FinBit.Lib

/-- The octets of a number that ends: the last has its highest bit clear, and no other has. -/
inductive Terminated : Bytes → Prop
  | last {b : UInt8} (clear : b.toNat < 128) : Terminated [b]
  | more {b : UInt8} {octets : Bytes} (set : 128 ≤ b.toNat) (rest : Terminated octets) :
      Terminated (b :: octets)

/-- Octets of a number that do not end it. -/
def Unterminated (octets : Bytes) : Prop := ∀ b ∈ octets, 128 ≤ b.toNat

/-- The number that octets spell. -/
def varintValue : Bytes → Nat
  | [] => 0
  | b :: octets => b.toNat % 128 + 128 * varintValue octets

/-- The number in front of a byte string and what is behind it, or none if it does not end. -/
def frontVarint : Bytes → Nat × Option Bytes
  | [] => (0, none)
  | b :: rest =>
    if b.toNat < 128 then (b.toNat, some rest)
    else (b.toNat % 128 + 128 * (frontVarint rest).1, (frontVarint rest).2)

theorem frontVarint_terminated {octets : Bytes} (ends : Terminated octets) (rest : Bytes) :
    frontVarint (octets ++ rest) = (varintValue octets, some rest) := by
  induction ends with
  | @last b clear =>
    rw [List.singleton_append, frontVarint, if_pos clear, varintValue, varintValue,
      Nat.mod_eq_of_lt clear]
    rfl
  | @more b octets set ends ih =>
    rw [List.cons_append, frontVarint, if_neg (Nat.not_lt.mpr set), ih, varintValue]

theorem frontVarint_unterminated {octets : Bytes} (open_ : Unterminated octets) :
    frontVarint octets = (varintValue octets, none) := by
  induction octets with
  | nil => rfl
  | cons b octets ih =>
    have set := open_ b List.mem_cons_self
    rw [frontVarint, if_neg (Nat.not_lt.mpr set),
      ih fun b' member => open_ b' (List.mem_cons_of_mem b member), varintValue]

/-- A byte string begins with a number that ends, or none of its octets ends one. -/
theorem terminated_or_unterminated (b : Bytes) :
    (∃ octets rest, b = octets ++ rest ∧ Terminated octets) ∨ Unterminated b := by
  induction b with
  | nil => exact .inr nofun
  | cons x b ih =>
    by_cases clear : x.toNat < 128
    · exact .inl ⟨[x], b, rfl, .last clear⟩
    · have set := Nat.not_lt.mp clear
      obtain ⟨octets, rest, rfl, ends⟩ | open_ := ih
      · exact .inl ⟨x :: octets, rest, rfl, .more set ends⟩
      · exact .inr (List.forall_mem_cons.mpr ⟨set, open_⟩)

theorem Terminated.ne_nil {octets : Bytes} (ends : Terminated octets) : octets ≠ [] := by
  cases ends <;> exact List.cons_ne_nil _ _

end FinBit.Lib
