import Mathlib.Tactic.Ring
import FinBit.Lib.Bytes

/-! # Readers

Binary formats whose fields carry their length in front; integers are little-endian, or
big-endian at the end of this module. A reader consumes the front of a byte string and throws one fixed text where it
runs out. Each writer comes with the rule that its reader gives back what was written
and leaves the rest; the rule for a length is that it fits the width it was cast to.
-/

namespace FinBit.Lib

/-! ### Writers -/

/-- The low `w` octets of `n`, least significant first. -/
def leBytes : Nat → Nat → Bytes
  | 0, _ => []
  | w + 1, n => UInt8.ofNat n :: leBytes w (n / 256)

/-- The number that octets spell, least significant first. -/
def leNat : Bytes → Nat
  | [] => 0
  | b :: bs => b.toNat + 256 * leNat bs

@[simp] theorem length_leBytes (w n : Nat) : (leBytes w n).length = w := by
  induction w generalizing n with
  | zero => rfl
  | succ w ih => simp [leBytes, ih]

theorem leNat_leBytes (w n : Nat) : leNat (leBytes w n) = n % 256 ^ w := by
  induction w generalizing n with
  | zero => simp [leBytes, leNat, Nat.mod_one]
  | succ w ih =>
    -- the first octet is the remainder, the others spell the quotient
    have octet : (UInt8.ofNat n).toNat = n % 256 := UInt8.toNat_ofNat'
    rw [leBytes, leNat, ih, octet, Nat.pow_succ, Nat.mul_comm (256 ^ w), Nat.mod_mul]

/-- A field behind its length, which is cast to `w` octets. -/
def framed (w : Nat) (b : Bytes) : Bytes := leBytes w b.length ++ b

@[simp] theorem length_framed (w : Nat) (b : Bytes) : (framed w b).length = w + b.length := by
  simp [framed]

/-! ### Readers -/

abbrev Reader := StateT Bytes (Except String)

namespace Reader

variable (truncated : String)

/-- The next `n` octets. -/
def take (n : Nat) : Reader Bytes := fun b =>
  if n ≤ b.length then .ok (b.take n, b.drop n) else .error truncated

/-- The next integer of `w` octets. -/
def uint (w : Nat) : Reader Nat := do
  return leNat (← take truncated w)

/-- The next field and its length of `w` octets. -/
def field (w : Nat) : Reader Bytes := do
  let n ← uint truncated w
  take truncated n

/-- A number of fields. -/
def fields (w : Nat) : Nat → Reader (List Bytes)
  | 0 => return []
  | n + 1 => do
    let b ← field truncated w
    return b :: (← fields w n)

variable {truncated}

/-- A reader goes on where the one before it has stopped. -/
theorem run_bind_ok {α β : Type} {first : Reader α} {next : α → Reader β} {b rest : Bytes} {a : α}
    (done : first.run b = .ok (a, rest)) : (first >>= next).run b = (next a).run rest := by
  rw [StateT.run_bind, done]
  rfl

theorem run_bind_error {α β : Type} {first : Reader α} {next : α → Reader β} {b : Bytes} {e : String}
    (thrown : first.run b = .error e) : (first >>= next).run b = .error e := by
  rw [StateT.run_bind, thrown]
  rfl

/-- What is parsed from a field leaves the input alone. -/
theorem run_liftM {α : Type} {parsed : Except String α} {a : α} (ok : parsed = .ok a) (b : Bytes) :
    (liftM parsed : Reader α).run b = .ok (a, b) := by
  subst ok
  rfl

theorem run_take {n : Nat} {b : Bytes} (sized : b.length = n) (rest : Bytes) :
    (take truncated n).run (b ++ rest) = .ok (b, rest) := by
  subst sized
  have enough : b.length ≤ (b ++ rest).length := by simp
  change (if b.length ≤ (b ++ rest).length then _ else _) = _
  rw [if_pos enough, List.take_left, List.drop_left]

/-- Any octets spell a number. -/
theorem run_uint_append {w : Nat} {b : Bytes} (sized : b.length = w) (rest : Bytes) :
    (uint truncated w).run (b ++ rest) = .ok (leNat b, rest) := by
  rw [uint, run_bind_ok (run_take sized rest)]
  rfl

@[simp] theorem run_uint (w n : Nat) (rest : Bytes) :
    (uint truncated w).run (leBytes w n ++ rest) = .ok (n % 256 ^ w, rest) := by
  rw [run_uint_append (length_leBytes w n), leNat_leBytes]

@[simp] theorem run_uint_one (b : UInt8) (rest : Bytes) :
    (uint truncated 1).run (b :: rest) = .ok (b.toNat, rest) :=
  run_uint_append (b := [b]) rfl rest

theorem run_field {w : Nat} {b : Bytes} (fits : b.length < 256 ^ w) (rest : Bytes) :
    (field truncated w).run (framed w b ++ rest) = .ok (b, rest) := by
  rw [framed, List.append_assoc]
  rw [field, run_bind_ok (run_uint w b.length _), Nat.mod_eq_of_lt fits]
  exact run_take rfl rest

/-- The last field of an input. -/
theorem run_field_last {w : Nat} {b : Bytes} (fits : b.length < 256 ^ w) :
    (field truncated w).run (framed w b) = .ok (b, []) := by
  rw [← List.append_nil (framed w b)]
  exact run_field fits []

theorem run_fields {w : Nat} {bs : List Bytes} (fit : ∀ b ∈ bs, b.length < 256 ^ w) (rest : Bytes) :
    (fields truncated w bs.length).run (bs.flatMap (framed w) ++ rest) = .ok (bs, rest) := by
  induction bs with
  | nil => rfl
  | cons b bs ih =>
    have first := fit b List.mem_cons_self
    have others := ih fun b' member => fit b' (List.mem_cons_of_mem b member)
    rw [List.flatMap_cons, List.append_assoc, List.length_cons]
    rw [fields, run_bind_ok (run_field first _), run_bind_ok others]
    rfl

end Reader

/-! ### Big-endian integers -/

/-- The number that octets spell, most significant first. -/
def beNat (b : Bytes) : Nat := b.foldl (fun n octet => 256 * n + octet.toNat) 0

theorem foldl_beBytes (w n high : Nat) :
    (beBytes w n).foldl (fun n octet => 256 * n + octet.toNat) high =
      high * 256 ^ w + n % 256 ^ w := by
  induction w generalizing high with
  | zero => simp [beBytes, Nat.mod_one]
  | succ w ih =>
    have octet : (UInt8.ofNat (n / 256 ^ w)).toNat = n / 256 ^ w % 256 := UInt8.toNat_ofNat'
    have split : n % 256 ^ (w + 1) = n % 256 ^ w + 256 ^ w * (n / 256 ^ w % 256) := by
      rw [Nat.pow_succ, Nat.mod_mul]
    rw [beBytes, List.foldl_cons, ih, octet, split]
    ring

theorem beNat_beBytes (w n : Nat) : beNat (beBytes w n) = n % 256 ^ w := by
  rw [beNat, foldl_beBytes, Nat.zero_mul, Nat.zero_add]

theorem be64_inj {n n' : UInt64} (same : be64 n = be64 n') : n = n' := by
  have small := n.toNat_lt
  have small' := n'.toNat_lt
  have numbers := congrArg beNat same
  rw [be64, be64, beNat_beBytes, beNat_beBytes, Nat.mod_eq_of_lt (by omega),
    Nat.mod_eq_of_lt (by omega)] at numbers
  exact UInt64.toNat_inj.mp numbers

theorem be16_inj {n n' : Nat} (small : n < 65536) (small' : n' < 65536) (same : be16 n = be16 n') :
    n = n' := by
  have numbers := congrArg beNat same
  rwa [be16, be16, beNat_beBytes, beNat_beBytes, Nat.mod_eq_of_lt (by omega),
    Nat.mod_eq_of_lt (by omega)] at numbers

theorem be16_eq {n : Nat} {high low : UInt8} (spelled : n = 256 * high.toNat + low.toNat) :
    be16 n = [high, low] := by
  have high_lt := high.toNat_lt
  have low_lt := low.toNat_lt
  have first : UInt8.ofNat (n / 256 ^ 1) = high := by
    rw [← UInt8.toNat_inj, UInt8.toNat_ofNat', spelled]
    omega
  have second : UInt8.ofNat (n / 256 ^ 0) = low := by
    rw [← UInt8.toNat_inj, UInt8.toNat_ofNat', spelled]
    omega
  rw [be16, beBytes, beBytes, beBytes, first, second]

theorem be16_spells {n : Nat} (small : n < 65536) :
    ∃ high low : UInt8, be16 n = [high, low] ∧ n = 256 * high.toNat + low.toNat := by
  refine ⟨_, _, rfl, ?_⟩
  rw [UInt8.toNat_ofNat', UInt8.toNat_ofNat', Nat.pow_one, Nat.pow_zero, Nat.div_one]
  omega

/-- Numbers of which one is shifted beyond the other. -/
theorem shiftLeft_or {a b i : Nat} (small : b < 2 ^ i) : a <<< i ||| b = a * 2 ^ i + b := by
  rw [← Nat.shiftLeft_add_eq_or_of_lt small, Nat.shiftLeft_eq]

/-- A field of a known length is read, and what is behind it. -/
theorem fixed_inj {n : Nat} {a a' rest rest' : Bytes} (length : a.length = n) (length' : a'.length = n)
    (same : a ++ rest = a' ++ rest') : a = a' ∧ rest = rest' :=
  List.append_inj same (length.trans length'.symm)

theorem be64_append_inj {n n' : UInt64} {rest rest' : Bytes}
    (same : be64 n ++ rest = be64 n' ++ rest') : n = n' ∧ rest = rest' := by
  obtain ⟨first, behind⟩ := fixed_inj (length_be64 n) (length_be64 n') same
  exact ⟨be64_inj first, behind⟩

namespace Reader

variable (truncated : String)

/-- The next big-endian integer of `w` octets. -/
def beUint (w : Nat) : Reader Nat := do
  return beNat (← take truncated w)

variable {truncated}

end Reader

end FinBit.Lib
