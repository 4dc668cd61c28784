import Mathlib.Dynamics.PeriodicPts.Defs
import Mathlib.NumberTheory.Divisors
import Mathlib.Data.Fintype.EquivFin
import Mathlib.Data.Nat.Bitwise
import FinBit.Lib.Bytes
import FinBit.Lib.LogTables

/-! # The tables of GF(256)

Shares are computed octet by octet in the field of 256 elements, by tables of the powers of 3 and
their exponents. The tables are filled in one loop, and the operations that are defined by them are
those of a field.
-/

namespace FinBit.Crypto

open FinBit.Lib

/-! ### The tables -/

/-- The loop of `GfTables` after some rounds, with its `x`. -/
structure GfLoop where
  logTable : Bytes
  expTable : Bytes
  x : UInt8

/-- The next power: `x` times 3. -/
def timesThree (x : UInt8) : UInt8 :=
  let y := x.toUInt16
  let y2 := y <<< 1
  let y2 := if y2 &&& 0x100 ≠ 0 then y2 ^^^ 0x11b else y2
  let y := y2 ^^^ y
  let y := if y &&& 0x100 ≠ 0 then y ^^^ 0x11b else y
  y.toUInt8

def GfLoop.round (s : GfLoop) (i : Nat) : GfLoop :=
  ⟨s.logTable.set s.x.toNat (UInt8.ofNat i), s.expTable.set i s.x, timesThree s.x⟩

def gfLoop (rounds : Nat) : GfLoop :=
  (List.range rounds).foldl GfLoop.round ⟨List.replicate 256 0, List.replicate 256 0, 1⟩

structure GfTables where
  logTable : Bytes
  expTable : Bytes

/-- `GfTables()`. -/
def gf : GfTables :=
  let s := gfLoop 255
  ⟨s.logTable, s.expTable.set 255 (s.expTable.getD 0 0)⟩

def gfMul (a b : UInt8) : UInt8 :=
  if a = 0 ∨ b = 0 then 0
  else
    let la := (gf.logTable.getD a.toNat 0).toNat
    let lb := (gf.logTable.getD b.toNat 0).toNat
    gf.expTable.getD ((la + lb) % 255) 0

def gfDiv (a b : UInt8) : Except String UInt8 :=
  if a = 0 then .ok 0
  else if b = 0 then .error "GF(256) divide by zero (duplicate x-coords?)"
  else
    let la := (gf.logTable.getD a.toNat 0).toNat
    let lb := (gf.logTable.getD b.toNat 0).toNat
    .ok (gf.expTable.getD ((la + 255 - lb) % 255) 0)

/-! ### The powers of 3 -/

/-- What is taken off a double that is too large. -/
def reduction (x : UInt8) : UInt8 :=
  if x &&& 0x80 = 0 then 0 else 0x1b

theorem highBit_cases (x : UInt8) : x &&& 0x80 = 0 ∨ x &&& 0x80 = 0x80 := by
  have masked : (x &&& 0x80).toNat = (x.toNat.testBit 7).toNat * 2 ^ 7 := by
    rw [UInt8.toNat_and]
    exact Nat.and_two_pow _ 7
  rw [← UInt8.toNat_inj, ← UInt8.toNat_inj, masked]
  cases x.toNat.testBit 7 with
  | false => exact Or.inl rfl
  | true => exact Or.inr rfl

theorem and_xor_carry (a b : UInt16) :
    (a ^^^ b) &&& 0x100 = (a &&& 0x100) ^^^ (b &&& 0x100) := by
  rw [← UInt16.toBitVec_inj]
  ext i
  simp [Bool.and_xor_distrib_right]

theorem timesThree_eq (x : UInt8) : timesThree x = (x <<< 1) ^^^ x ^^^ reduction x := by
  -- the double is too large if the high bit is set
  have carry : (x.toUInt16 <<< 1) &&& (0x100 : UInt16) = (x &&& 0x80).toUInt16 <<< 1 := by
    rw [UInt8.toUInt16_and, UInt16.shiftLeft_and]
    rfl
  have octet : x.toUInt16 &&& (0x100 : UInt16) = 0 := by
    rw [← UInt16.toNat_inj, UInt16.toNat_and, UInt8.toNat_toUInt16]
    exact (Nat.and_two_pow _ 8).trans (by rw [Nat.testBit_lt_two_pow x.toNat_lt]; rfl)
  have doubled : (x.toUInt16 <<< 1).toUInt8 = x <<< 1 := by
    rw [UInt16.toUInt8_shiftLeft _ 1 (by decide), UInt8.toUInt8_toUInt16]
    rfl
  obtain low | high := highBit_cases x
  · rw [low] at carry
    have carried : (x.toUInt16 <<< 1) &&& (0x100 : UInt16) = 0 := carry
    simp [timesThree, reduction, carried, and_xor_carry, octet, low, doubled]
  · rw [high] at carry
    have carried : (x.toUInt16 <<< 1) &&& (0x100 : UInt16) = 0x100 := carry
    have modulus : (0x11b : UInt16) &&& (0x100 : UInt16) = 0x100 := rfl
    simp [timesThree, reduction, carried, and_xor_carry, octet, high, doubled, modulus]
    ac_rfl

/-- The high bit of a sum is that of one of the two, or none when both have it. -/
theorem reduction_xor (a b : UInt8) : reduction (a ^^^ b) = reduction a ^^^ reduction b := by
  have sum : (a ^^^ b) &&& 0x80 = (a &&& 0x80) ^^^ (b &&& 0x80) := by
    rw [← UInt8.toBitVec_inj]
    ext i
    simp [Bool.and_xor_distrib_right]
  unfold reduction
  rw [sum]
  obtain left | left := highBit_cases a <;> obtain right | right := highBit_cases b <;>
    rw [left, right] <;> decide

theorem timesThree_xor (a b : UInt8) :
    timesThree (a ^^^ b) = timesThree a ^^^ timesThree b := by
  rw [timesThree_eq, timesThree_eq, timesThree_eq, UInt8.shiftLeft_xor, reduction_xor]
  ac_rfl

set_option maxRecDepth 100000 in
theorem period : timesThree^[255] 1 = 1 ∧ timesThree^[85] 1 ≠ 1 ∧ timesThree^[51] 1 ≠ 1 ∧
    timesThree^[15] 1 ≠ 1 := by
  decide +kernel

/-- The powers of 3 come back to 1 after 255 steps and not before. -/
theorem minimalPeriod_timesThree : Function.minimalPeriod timesThree 1 = 255 := by
  obtain ⟨whole, not85, not51, not15⟩ := period
  have divides : Function.minimalPeriod timesThree 1 ∣ 255 :=
    Function.IsPeriodicPt.minimalPeriod_dvd whole
  have early (n : ℕ) (other : timesThree^[n] 1 ≠ 1) : ¬Function.minimalPeriod timesThree 1 ∣ n :=
    fun multiple => other (Function.isPeriodicPt_iff_minimalPeriod_dvd.mpr multiple)
  -- every other divisor of 255 divides 85, 51 or 15
  have proper : ∀ d ∈ Nat.divisors 255, d ∣ 85 ∨ d ∣ 51 ∨ d ∣ 15 ∨ d = 255 := by decide
  obtain multiple | multiple | multiple | found :=
    proper _ (Nat.mem_divisors.mpr ⟨divides, by decide⟩)
  · exact absurd multiple (early 85 not85)
  · exact absurd multiple (early 51 not51)
  · exact absurd multiple (early 15 not15)
  · exact found

/-- The power of 3 with this exponent. -/
def power (i : ℕ) : UInt8 :=
  timesThree^[i] 1

theorem power_injOn {i j : ℕ} (i_lt : i < 255) (j_lt : j < 255) (same : power i = power j) : i = j :=
  (Function.iterate_eq_iterate_iff_of_lt_minimalPeriod
    (by rwa [minimalPeriod_timesThree]) (by rwa [minimalPeriod_timesThree])).mp same

theorem timesThree_zero : timesThree 0 = 0 := by decide

theorem power_succ (i : ℕ) : power (i + 1) = timesThree (power i) :=
  Function.iterate_succ_apply' timesThree i 1

theorem timesThree_last : timesThree (power 254) = power 0 := by
  rw [← power_succ, power, period.1, power, Function.iterate_zero_apply]

theorem power_ne_zero (i : ℕ) : power i ≠ 0 := by
  intro zero
  -- zero is never left, but some later power is 1
  have later : power (254 * i + i) = timesThree^[254 * i] 0 := by
    rw [power, Function.iterate_add_apply, ← zero, power]
  have one : power (254 * i + i) = 1 := by
    have multiple : Function.minimalPeriod timesThree 1 ∣ 254 * i + i :=
      minimalPeriod_timesThree ▸ ⟨i, by omega⟩
    exact Function.isPeriodicPt_iff_minimalPeriod_dvd.mpr multiple
  rw [one, Function.iterate_fixed timesThree_zero] at later
  cases later

/-- Every octet but zero is a power. -/
theorem exists_power {x : UInt8} (nonzero : x ≠ 0) : ∃ i, i < 255 ∧ power i = x := by
  let powers : Finset (Fin 256) := (Finset.range 255).image fun i => (power i).toFin
  have inside : powers ⊆ Finset.univ.erase 0 := by
    intro y y_mem
    obtain ⟨i, -, rfl⟩ := Finset.mem_image.mp y_mem
    refine Finset.mem_erase.mpr ⟨fun zero => power_ne_zero i ?_, Finset.mem_univ _⟩
    exact UInt8.toFin_inj.mp zero
  have card : powers.card = 255 := by
    rw [Finset.card_image_of_injOn, Finset.card_range]
    intro i i_mem j j_mem same
    exact power_injOn (Finset.mem_range.mp i_mem) (Finset.mem_range.mp j_mem)
      (UInt8.toFin_inj.mp same)
  have all : powers = Finset.univ.erase 0 := by
    refine Finset.eq_of_subset_of_card_le inside ?_
    rw [card, Finset.card_erase_of_mem (Finset.mem_univ _), Finset.card_univ, Fintype.card_fin]
  have x_mem : x.toFin ∈ powers := by
    rw [all, Finset.mem_erase]
    exact ⟨fun zero => nonzero (UInt8.toFin_inj.mp zero), Finset.mem_univ _⟩
  obtain ⟨i, i_mem, same⟩ := Finset.mem_image.mp x_mem
  exact ⟨i, Finset.mem_range.mp i_mem, UInt8.toFin_inj.mp same⟩

/-! ### The loop -/

/-- What the loop has filled in after some rounds. -/
structure Filled (s : GfLoop) (rounds : ℕ) : Prop where
  x : s.x = power rounds
  logLength : s.logTable.length = 256
  expLength : s.expTable.length = 256
  exp : ∀ i < rounds, s.expTable.getD i 0 = power i
  log : ∀ i < rounds, s.logTable.getD (power i).toNat 0 = UInt8.ofNat i

theorem getD_set (table : Bytes) (i j : ℕ) (octet : UInt8) (inside : i < table.length) :
    (table.set i octet).getD j 0 = if i = j then octet else table.getD j 0 := by
  rw [List.getD_eq_getElem?_getD, List.getElem?_set, List.getD_eq_getElem?_getD]
  split
  · exact Option.getD_some
  · rfl

theorem Filled.round {s : GfLoop} {rounds : ℕ} (filled : Filled s rounds) (more : rounds < 255) :
    Filled (s.round rounds) (rounds + 1) := by
  have x_lt : s.x.toNat < s.logTable.length := filled.logLength ▸ s.x.toNat_lt
  have rounds_lt : rounds < s.expTable.length := by
    rw [filled.expLength]
    omega
  refine ⟨?_, ?_, ?_, fun i i_lt => ?_, fun i i_lt => ?_⟩
  · rw [power_succ, ← filled.x]
    rfl
  · rw [GfLoop.round, List.length_set, filled.logLength]
  · rw [GfLoop.round, List.length_set, filled.expLength]
  · rw [GfLoop.round, getD_set _ _ _ _ rounds_lt]
    split
    next last => rw [filled.x, last]
    next other => exact filled.exp i (by omega)
  · rw [GfLoop.round, getD_set _ _ _ _ x_lt, filled.x]
    split
    next same =>
      -- no power comes twice, so no entry is written twice
      rw [power_injOn more (by omega) (UInt8.toNat_inj.mp same)]
    next other => exact filled.log i (by
      have ne : rounds ≠ i := fun last => other (by rw [last])
      omega)

theorem filled_gfLoop {rounds : ℕ} (most : rounds ≤ 255) : Filled (gfLoop rounds) rounds := by
  induction rounds with
  | zero => exact ⟨rfl, List.length_replicate, List.length_replicate, nofun, nofun⟩
  | succ rounds ih =>
    have next : gfLoop (rounds + 1) = (gfLoop rounds).round rounds := by
      rw [gfLoop, List.range_succ, List.foldl_append]
      rfl
    rw [next]
    exact (ih (by omega)).round (by omega)

theorem gf_exp {i : ℕ} (i_lt : i < 255) : gf.expTable.getD i 0 = power i := by
  have filled := filled_gfLoop (Nat.le_refl 255)
  have last : 255 < (gfLoop 255).expTable.length := by
    rw [filled.expLength]
    decide
  rw [gf]
  dsimp only
  rw [getD_set _ _ _ _ last, if_neg (by omega), filled.exp i i_lt]

theorem gf_log {i : ℕ} (i_lt : i < 255) : (gf.logTable.getD (power i).toNat 0).toNat = i := by
  rw [gf]
  dsimp only
  rw [(filled_gfLoop (Nat.le_refl 255)).log i i_lt, UInt8.toNat_ofNat', Nat.mod_eq_of_lt (by omega)]

-- from here on only the two entries above are known of the tables
attribute [irreducible] gf

theorem gf_log_lt {x : UInt8} (nonzero : x ≠ 0) : (gf.logTable.getD x.toNat 0).toNat < 255 := by
  obtain ⟨i, i_lt, rfl⟩ := exists_power nonzero
  rwa [gf_log i_lt]

theorem gf_exp_log {x : UInt8} (nonzero : x ≠ 0) :
    gf.expTable.getD (gf.logTable.getD x.toNat 0).toNat 0 = x := by
  obtain ⟨i, i_lt, rfl⟩ := exists_power nonzero
  rw [gf_log i_lt, gf_exp i_lt]

/-! ### The field -/

/-- An octet as an element of the field. -/
@[ext]
structure Gf where
  octet : UInt8
  deriving DecidableEq

namespace Gf

/-- Addition is exclusive or, and so is subtraction. -/
instance : Add Gf := ⟨fun a b => ⟨a.octet ^^^ b.octet⟩⟩
instance : Zero Gf := ⟨⟨0⟩⟩
instance : Neg Gf := ⟨id⟩

instance : AddCommGroup Gf :=
  { AddGroup.ofLeftAxioms (fun _ _ _ => Gf.ext (UInt8.xor_assoc ..))
      (fun _ => Gf.ext UInt8.zero_xor) (fun _ => Gf.ext UInt8.xor_self) with
    add_comm := fun _ _ => Gf.ext (UInt8.xor_comm ..) }

theorem ne_zero_iff {x : Gf} : x ≠ 0 ↔ x.octet ≠ 0 :=
  not_congr Gf.ext_iff

def step : Gf →+ Gf where
  toFun x := ⟨timesThree x.octet⟩
  map_zero' := Gf.ext timesThree_zero
  map_add' a b := Gf.ext (timesThree_xor a.octet b.octet)

theorem step_mk (x : UInt8) : step ⟨x⟩ = ⟨timesThree x⟩ :=
  rfl

/-- The tables of the source are those of a field. -/
def tables : LogTables Gf where
  step := step
  order := 255
  exp i := ⟨gf.expTable.getD i 0⟩
  log x := (gf.logTable.getD x.octet.toNat 0).toNat
  order_pos := by decide
  exp_zero_ne := by
    rw [gf_exp (by decide)]
    exact ne_zero_iff.mpr (power_ne_zero 0)
  exp_succ i i_lt := by
    rw [gf_exp i_lt, gf_exp (Nat.lt_of_succ_lt i_lt), power_succ, step_mk]
  step_last := by
    have last : 255 - 1 = 254 := rfl
    rw [last, gf_exp (by decide), gf_exp (by decide), step_mk, timesThree_last]
  log_lt _ nonzero := gf_log_lt (ne_zero_iff.mp nonzero)
  exp_log _ nonzero := Gf.ext (gf_exp_log (ne_zero_iff.mp nonzero))
  log_exp i i_lt := by
    rw [gf_exp i_lt]
    exact gf_log i_lt

instance : Field Gf :=
  tables.field

theorem mk_xor (a b : UInt8) : (⟨a ^^^ b⟩ : Gf) = ⟨a⟩ + ⟨b⟩ :=
  rfl

theorem mk_gfMul (a b : UInt8) : (⟨gfMul a b⟩ : Gf) = ⟨a⟩ * ⟨b⟩ := by
  change _ = tables.mul ⟨a⟩ ⟨b⟩
  by_cases zero : a = 0 ∨ b = 0
  · rw [gfMul, if_pos zero]
    obtain rfl | rfl := zero
    · exact (tables.zero_mul _).symm
    · exact (tables.mul_zero _).symm
  · obtain ⟨left, right⟩ := not_or.mp zero
    rw [gfMul, if_neg zero, LogTables.mul_of_ne (ne_zero_iff.mpr left) (ne_zero_iff.mpr right)]
    rfl

end Gf

end FinBit.Crypto
