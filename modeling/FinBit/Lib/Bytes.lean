import Mathlib.Data.List.TakeWhile
import Mathlib.Data.UInt
import Mathlib.Tactic.Common

/-! # Byte strings

Byte strings are lists of octets. `beBytes` is the fixed-width big-endian
encoding that every wire layout uses. `Span` is a C++ view on a byte string,
where the view of an empty container may carry a null pointer; `CString` is what
is left of a byte string once it has passed through a NUL-terminated interface.
-/

namespace FinBit.Lib

abbrev Bytes := List UInt8

/-- The bytes of an ASCII literal. -/
def ascii (s : String) : Bytes := s.toList.map fun c => UInt8.ofNat c.toNat

theorem ascii_append (s t : String) : ascii (s ++ t) = ascii s ++ ascii t := by
  rw [ascii, String.toList_append, List.map_append, ← ascii, ← ascii]

/-- A text that is written out, octet by octet. -/
theorem ascii_ofList (text : List Char) :
    ascii (String.ofList text) = text.map fun c => UInt8.ofNat c.toNat := by
  rw [ascii, String.toList_ofList]

theorem ascii_ne_nil (c : Char) (text : List Char) : ascii (String.ofList (c :: text)) ≠ [] := by
  rw [ascii_ofList]
  exact List.cons_ne_nil _ _

/-! ### Big-endian integers -/

/-- The low `w` octets of `n`, most significant first. -/
def beBytes : Nat → Nat → Bytes
  | 0, _ => []
  | w + 1, n => UInt8.ofNat (n / 256 ^ w) :: beBytes w n

@[simp] theorem length_beBytes (w n : Nat) : (beBytes w n).length = w := by
  induction w with
  | zero => rfl
  | succ w ih => simp [beBytes, ih]

/-- `append_be16`; the argument is cast to 16 bits. -/
def be16 (n : Nat) : Bytes := beBytes 2 n

/-- `append_be32`. -/
def be32 (n : UInt32) : Bytes := beBytes 4 n.toNat

/-- `append_be64`. -/
def be64 (n : UInt64) : Bytes := beBytes 8 n.toNat

@[simp] theorem length_be16 (n : Nat) : (be16 n).length = 2 := length_beBytes 2 n
@[simp] theorem length_be64 (n : UInt64) : (be64 n).length = 8 := length_beBytes 8 _

/-! ### Spans and C strings -/

/-- A `std::span`: only an empty one may have a null data pointer. -/
structure Span where
  bytes : Bytes
  isNull : Bool
  null_empty : isNull = true → bytes = []
  deriving DecidableEq

/-- The view of a non-null buffer. -/
def Span.of (bytes : Bytes) : Span := ⟨bytes, false, by simp⟩

/-- The view of a `std::vector`: an empty one has no buffer. -/
def Span.ofVector (bytes : Bytes) : Span := ⟨bytes, bytes.isEmpty, by simp⟩

@[simp] theorem Span.of_bytes (b : Bytes) : (Span.of b).bytes = b := rfl

/-- A byte string without a NUL. -/
def CString := { b : Bytes // (0 : UInt8) ∉ b }

instance : DecidableEq CString := inferInstanceAs (DecidableEq (Subtype _))

private theorem zero_not_mem_takeWhile (b : Bytes) :
    (0 : UInt8) ∉ b.takeWhile (· ≠ 0) := by
  intro member
  simpa using List.mem_takeWhile_imp member

/-- What `s.c_str()` denotes with length `-1`: everything before the first NUL. -/
def cstr (b : Bytes) : CString := ⟨b.takeWhile (· ≠ 0), zero_not_mem_takeWhile b⟩

@[simp] theorem cstr_val (c : CString) : cstr c.val = c := by
  apply Subtype.ext
  apply List.takeWhile_eq_self_iff.mpr
  intro x member
  have : x ≠ 0 := fun h => c.property (h ▸ member)
  simpa using this

theorem cstr_of_not_mem {b : Bytes} (clean : (0 : UInt8) ∉ b) : (cstr b).val = b :=
  congrArg Subtype.val (cstr_val ⟨b, clean⟩)

end FinBit.Lib
