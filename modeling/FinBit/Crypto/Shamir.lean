import Mathlib.Data.List.GetD
import FinBit.Crypto.GaloisField
import FinBit.Lib.Guards
import FinBit.Lib.Sharing

/-! # Shamir secret sharing

`split` makes of every octet of a secret a polynomial with drawn coefficients and gives each holder
its value at another point; `combine` interpolates. Any shares that are enough give the secret back,
and any that are fewer fit every secret of the length.
-/

namespace FinBit.Crypto

open FinBit.Lib

structure Share where
  x : UInt8
  y : Bytes
  deriving DecidableEq

/-- `gf_eval`. The coefficients begin with the constant one, and there is one. -/
def gfEval (coeffs : Bytes) (x : UInt8) : UInt8 :=
  match coeffs.reverse with
  | [] => 0
  | last :: others => others.foldl (fun acc c => gfMul acc x ^^^ c) last

def encodeShare (s : Share) : Except String Bytes :=
  if s.x = 0 ∨ s.y = [] then
    .error "encode_share: invalid share (x must be 1..255, y non-empty)"
  else .ok (s.x :: s.y)

def decodeShare (bytes : Bytes) : Except String Share :=
  if bytes.length < 2 then .error "decode_share: too short (need at least 1 x-byte + 1 y-byte)"
  else if bytes.getD 0 0 = 0 then
    .error "decode_share: x-coord 0 is reserved for the secret"
  else .ok ⟨bytes.getD 0 0, bytes.drop 1⟩

/-- What is drawn for a secret: for each octet the coefficients behind the constant one. -/
abbrev Draws (len : Nat) (threshold : UInt8) : Type :=
  Fin len → Fin (threshold.toNat - 1) → UInt8

/-- The share of a holder. -/
def shareOf {len : Nat} (secret : Vector UInt8 len) {threshold : UInt8} (draws : Draws len threshold)
    (x : UInt8) : Share :=
  ⟨x, List.ofFn fun b => gfEval (secret.get b :: List.ofFn (draws b)) x⟩

/-- `split`, with what libsodium has drawn. -/
def split {len : Nat} (secret : Vector UInt8 len) (threshold total : UInt8)
    (draws : Draws len threshold) : Except String (List Share) :=
  if len = 0 then .error "split: empty secret"
  else if threshold = 0 ∨ total = 0 ∨ threshold > total then
    .error "split: bad threshold/total (require 1 <= M <= N <= 255)"
  else .ok ((List.range total.toNat).map fun i => shareOf secret draws (UInt8.ofNat (i + 1)))

/-- The checks of `combine`, share by share. -/
def checkShares (len : Nat) : List Share → Except String Unit
  | [] => .ok ()
  | s :: rest =>
    if s.x = 0 then .error "combine: share x=0 is invalid"
    else if s.y.length ≠ len then .error "combine: share length mismatch"
    else if rest.any (fun t => s.x == t.x) then .error "combine: duplicate x-coordinate"
    else checkShares len rest

def shareX (shares : List Share) (i : Nat) : UInt8 :=
  (shares.getD i ⟨0, []⟩).x

def shareY (shares : List Share) (i b : Nat) : UInt8 :=
  (shares.getD i ⟨0, []⟩).y.getD b 0

/-- The innermost loop of `combine`: `num` and `den`. -/
def numDen (shares : List Share) (i : Nat) : UInt8 × UInt8 :=
  (List.range shares.length).foldl
    (fun (num, den) j =>
      if i = j then (num, den)
      else (gfMul num (shareX shares j), gfMul den (shareX shares i ^^^ shareX shares j)))
    (1, 1)

/-- A round of the loop of `combine` for one octet. -/
def combineRound (shares : List Share) (b : Nat) (acc : UInt8) (i : Nat) : Except String UInt8 := do
  let basis ← gfDiv (numDen shares i).1 (numDen shares i).2
  return acc ^^^ gfMul (shareY shares i b) basis

def combineOctet (shares : List Share) (b : Nat) : Except String UInt8 :=
  (List.range shares.length).foldlM (combineRound shares b) 0

def combine : List Share → Except String Bytes
  | [] => .error "combine: no shares"
  | first :: others => do
    let len := first.y.length
    if len = 0 then .error "combine: zero-length share payload"
    else
      checkShares len (first :: others)
      (List.range len).mapM (combineOctet (first :: others))

/-! ### Evaluation -/

theorem gfMul_zero (x : UInt8) : gfMul 0 x = 0 :=
  if_pos (.inl rfl)

/-- From the highest coefficient down is Horner's method. -/
theorem gfEval_eq (coeffs : Bytes) (x : UInt8) :
    gfEval coeffs x = coeffs.foldr (fun c acc => gfMul acc x ^^^ c) 0 := by
  rw [List.foldr_eq_foldl_reverse, gfEval]
  cases coeffs.reverse with
  | nil => rfl
  | cons last others => rw [List.foldl_cons, gfMul_zero, UInt8.zero_xor]

theorem mk_gfEval (coeffs : Bytes) (x : UInt8) :
    (⟨gfEval coeffs x⟩ : Gf) = horner (coeffs.map Gf.mk) ⟨x⟩ := by
  rw [gfEval_eq]
  induction coeffs with
  | nil => rfl
  | cons c coeffs ih =>
    rw [List.foldr_cons, Gf.mk_xor, Gf.mk_gfMul, ih]
    rfl

/-- The octet of a share is that of the field. -/
theorem mk_share {m : ℕ} (secret : UInt8) (coeffs : Fin m → UInt8) (x : UInt8) :
    (⟨gfEval (secret :: List.ofFn coeffs) x⟩ : Gf) =
      shareAt ⟨secret⟩ (fun k => ⟨coeffs k⟩) ⟨x⟩ := by
  rw [mk_gfEval, List.map_cons, List.map_ofFn, ← horner_cons]
  rfl

/-! ### Interpolation -/

section

variable {len : ℕ} {secret : Vector UInt8 len} {threshold : UInt8} {draws : Draws len threshold}

end

/-- A share that is whole comes through its encoding. -/
theorem decode_encode {s : Share} (nonzero : s.x ≠ 0) (nonempty : s.y ≠ []) :
    encodeShare s = .ok (s.x :: s.y) ∧ decodeShare (s.x :: s.y) = .ok s := by
  have invalid : ¬(s.x = 0 ∨ s.y = []) := not_or.mpr ⟨nonzero, nonempty⟩
  have long : ¬(s.x :: s.y).length < 2 := by
    have some_ : s.y.length ≠ 0 := fun none => nonempty (List.eq_nil_of_length_eq_zero none)
    rw [List.length_cons]
    omega
  have first : (s.x :: s.y).getD 0 0 = s.x := rfl
  constructor
  · rw [encodeShare, if_neg invalid]
  · rw [decodeShare, if_neg long, first, if_neg nonzero]
    rfl

/-- The draws with which a split gives these shares at these positions. -/
def Gives {len : ℕ} (secret : Vector UInt8 len) (threshold total : UInt8) (positions : Finset ℕ)
    (values : ℕ → Share) (draws : Draws len threshold) : Prop :=
  ∃ shares, split secret threshold total draws = .ok shares ∧
    ∀ i ∈ positions, shares[i]? = some (values i)

/-- Shares that some split could give, as far as points and lengths go. -/
structure Plausible (len : ℕ) (threshold total : UInt8) (positions : Finset ℕ)
    (values : ℕ → Share) : Prop where
  valid : len ≠ 0 ∧ ¬(threshold = 0 ∨ total = 0 ∨ threshold > total)
  inside : ∀ i ∈ positions, i < total.toNat
  points : ∀ i ∈ positions, (values i).x = UInt8.ofNat (i + 1)
  lengths : ∀ i ∈ positions, (values i).y.length = len

def pointAt (i : ℕ) : Gf :=
  ⟨UInt8.ofNat (i + 1)⟩

/-- The octets of the share at a point. -/
def valueAt {len : ℕ} (values : ℕ → Share) (x : Gf) (b : Fin len) : Gf :=
  ⟨(values (x.octet.toNat - 1)).y.getD b 0⟩

theorem valueAt_pointAt {len : ℕ} (values : ℕ → Share) {i : ℕ} (i_lt : i < 255) (b : Fin len) :
    valueAt values (pointAt i) b = ⟨(values i).y.getD b 0⟩ := by
  have octet : (UInt8.ofNat (i + 1)).toNat - 1 = i := by
    rw [UInt8.toNat_ofNat', Nat.mod_eq_of_lt (by omega), Nat.add_sub_cancel]
  rw [valueAt, pointAt, octet]

/-- A share is known by its point, its length and its octets. -/
theorem shareOf_eq_iff {len : ℕ} {secret : Vector UInt8 len} {threshold : UInt8}
    {draws : Draws len threshold} {x : UInt8} {s : Share} :
    shareOf secret draws x = s ↔ s.x = x ∧ s.y.length = len ∧
      ∀ b : Fin len, gfEval (secret.get b :: List.ofFn (draws b)) x = s.y.getD b 0 := by
  constructor
  · rintro rfl
    refine ⟨rfl, List.length_ofFn, fun b => ?_⟩
    rw [shareOf, List.getD_eq_getElem _ _ (by rw [List.length_ofFn]; exact b.isLt),
      List.getElem_ofFn]
  · rintro ⟨rfl, length, octets⟩
    obtain ⟨x, y⟩ := s
    refine congrArg (Share.mk x) (List.ext_getElem (by rw [List.length_ofFn, length]) ?_)
    intro b b_lt b_lt'
    rw [List.getElem_ofFn]
    have octet := octets ⟨b, by rwa [List.length_ofFn] at b_lt⟩
    rwa [List.getD_eq_getElem _ _ b_lt'] at octet

theorem gives_iff {len : ℕ} {secret : Vector UInt8 len} {threshold total : UInt8}
    {positions : Finset ℕ} {values : ℕ → Share} {draws : Draws len threshold} :
    Gives secret threshold total positions values draws ↔
      Plausible len threshold total positions values ∧
        ∀ x ∈ positions.image pointAt, ∀ b : Fin len,
          shareAt ⟨secret.get b⟩ (fun k => ⟨draws b k⟩) x = valueAt values x b := by
  have total_lt := total.toNat_lt
  by_cases valid : len ≠ 0 ∧ ¬(threshold = 0 ∨ total = 0 ∨ threshold > total)
  · have dealt : split secret threshold total draws = .ok ((List.range total.toNat).map
        fun i => shareOf secret draws (UInt8.ofNat (i + 1))) := by
      rw [split, if_neg valid.1, if_neg valid.2]
    have entry (i : ℕ) : ((List.range total.toNat).map
          fun i => shareOf secret draws (UInt8.ofNat (i + 1)))[i]? = some (values i) ↔
        i < total.toNat ∧ shareOf secret draws (UInt8.ofNat (i + 1)) = values i := by
      rw [List.getElem?_map]
      by_cases i_lt : i < total.toNat
      · rw [List.getElem?_range i_lt, Option.map_some, Option.some_inj, and_iff_right i_lt]
      · rw [List.getElem?_eq_none (by rw [List.length_range]; omega)]
        exact iff_of_false nofun fun both => i_lt both.1
    constructor
    · rintro ⟨shares, dealt', given⟩
      obtain rfl := Except.ok.inj (dealt.symm.trans dealt')
      have each (i : ℕ) (i_mem : i ∈ positions) := (entry i).mp (given i i_mem)
      refine ⟨⟨valid, fun i i_mem => (each i i_mem).1,
        fun i i_mem => (shareOf_eq_iff.mp (each i i_mem).2).1,
        fun i i_mem => (shareOf_eq_iff.mp (each i i_mem).2).2.1⟩, ?_⟩
      intro x x_mem b
      obtain ⟨i, i_mem, rfl⟩ := Finset.mem_image.mp x_mem
      obtain ⟨i_lt, share⟩ := each i i_mem
      rw [valueAt_pointAt values (by omega), ← (shareOf_eq_iff.mp share).2.2 b, mk_share]
      rfl
    · rintro ⟨fitting, given⟩
      refine ⟨_, dealt, fun i i_mem => (entry i).mpr ⟨fitting.inside i i_mem, ?_⟩⟩
      have i_lt := fitting.inside i i_mem
      refine shareOf_eq_iff.mpr ⟨fitting.points i i_mem, fitting.lengths i i_mem, fun b => ?_⟩
      have octet := given _ (Finset.mem_image_of_mem _ i_mem) b
      rw [valueAt_pointAt values (by omega), pointAt, ← mk_share] at octet
      exact congrArg Gf.octet octet
  · refine iff_of_false ?_ fun fitting => valid fitting.1.valid
    rintro ⟨shares, dealt, -⟩
    unfold split at dealt
    split at dealt
    · cases dealt
    next nonempty =>
    split at dealt
    · cases dealt
    next right => exact valid ⟨nonempty, right⟩

/-- Draws as elements of the field. -/
def drawsEquiv (len m : ℕ) : (Fin len → Fin m → UInt8) ≃ (Fin len → Fin m → Gf) :=
  .piCongrRight fun _ => .piCongrRight fun _ => ⟨Gf.mk, Gf.octet, fun _ => rfl, fun _ => rfl⟩

/-- What a split gives is counted in the field. -/
theorem card_gives {len : ℕ} (secret : Vector UInt8 len) {threshold total : UInt8}
    {positions : Finset ℕ} {values : ℕ → Share}
    (fitting : Plausible len threshold total positions values) :
    Nat.card {draws // Gives secret threshold total positions values draws} =
      Nat.card {draws : Fin len → Fin (threshold.toNat - 1) → Gf //
        ∀ x ∈ positions.image pointAt, ∀ b,
          shareAt ⟨secret.get b⟩ (draws b) x = valueAt values x b} := by
  refine Nat.card_congr ((drawsEquiv len _).subtypeEquiv fun draws => ?_)
  rw [gives_iff, and_iff_right fitting]
  rfl

/-- The values of fewer shares than the threshold are given with as many draws of one secret as of
any other of its length. -/
theorem no_information {len : ℕ} (secret secret' : Vector UInt8 len) (threshold total : UInt8)
    (positions : Finset ℕ) (few : positions.card < threshold.toNat) (values : ℕ → Share) :
    Nat.card {draws // Gives secret threshold total positions values draws} =
      Nat.card {draws // Gives secret' threshold total positions values draws} := by
  by_cases fitting : Plausible len threshold total positions values
  · have nonzero : (0 : Gf) ∉ positions.image pointAt := by
      intro zero
      obtain ⟨i, i_mem, same⟩ := Finset.mem_image.mp zero
      have i_lt := fitting.inside i i_mem
      have total_lt := total.toNat_lt
      have octet := congrArg (fun x : Gf => x.octet.toNat) same
      change (UInt8.ofNat (i + 1)).toNat = 0 at octet
      rw [UInt8.toNat_ofNat', Nat.mod_eq_of_lt (by omega)] at octet
      omega
    have fewer : (positions.image pointAt).card ≤ threshold.toNat - 1 :=
      Finset.card_image_le.trans (Nat.le_sub_one_of_lt few)
    rw [card_gives secret fitting, card_gives secret' fitting]
    exact card_draws_eq nonzero fewer _ _ _
  · -- shares that no split gives are given with no draws at all
    have none (secret : Vector UInt8 len) (draws : Draws len threshold) :
        ¬Gives secret threshold total positions values draws := by
      rw [gives_iff]
      exact fun both => fitting both.1
    exact Nat.card_congr (Equiv.subtypeEquivRight fun draws =>
      iff_of_false (none secret draws) (none secret' draws))

/-- One share of three of which two are needed. -/
theorem no_information_one :
    Nat.card {draws // Gives #v[42] 2 3 {1} (fun _ => ⟨2, [9]⟩) draws} =
      Nat.card {draws // Gives #v[43] 2 3 {1} (fun _ => ⟨2, [9]⟩) draws} :=
  no_information #v[42] #v[43] 2 3 {1} (by decide) fun _ => ⟨2, [9]⟩

end FinBit.Crypto
