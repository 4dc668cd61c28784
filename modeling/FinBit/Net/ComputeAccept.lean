import Mathlib.Data.List.GetD
import FinBit.Lib.Sha1

/-! # The accept key of a WebSocket handshake

The server proves that it has read the key of the client: it appends a fixed identifier to it, hashes
the two with SHA-1 and sends the digest back. SHA-1 is written out in `compute_accept`.
-/

namespace FinBit.Net

open FinBit.Lib FinBit.Lib.Sha1

def kMagicGuid : Bytes := ascii "258EAFA5-E914-47DA-95CA-C5AB0DC85B11"

namespace ComputeAccept

/-- `while (msg.size() % 64 != 56) msg.push_back(0)`. -/
def pushZeros (msg : Bytes) : Bytes :=
  if msg.length % 64 ≠ 56 then pushZeros (msg ++ [0]) else msg
termination_by (120 - msg.length % 64) % 64
decreasing_by
  rw [List.length_append, List.length_singleton]
  omega

/-- The message as it is padded. -/
def padded (concat : Bytes) : Bytes :=
  let bitLen := UInt64.ofNat concat.length * 8
  let msg := pushZeros (concat ++ [0x80])
  [7, 6, 5, 4, 3, 2, 1, 0].foldl (fun msg i =>
    msg ++ [((bitLen >>> UInt64.ofNat (i * 8)) &&& 0xff).toUInt8]) msg

/-- The first loop over `w`. -/
def load (msg : Bytes) (off : Nat) (w : List UInt32) : List UInt32 :=
  (List.range 16).foldl (fun w i => w.set i (
    ((msg.getD (off + i * 4) 0).toUInt32 <<< 24) ||| ((msg.getD (off + i * 4 + 1) 0).toUInt32 <<< 16) |||
      ((msg.getD (off + i * 4 + 2) 0).toUInt32 <<< 8) ||| (msg.getD (off + i * 4 + 3) 0).toUInt32)) w

/-- The second one. -/
def extend (w : List UInt32) : List UInt32 :=
  (List.range' 16 64).foldl (fun w i =>
    let v := w.getD (i - 3) 0 ^^^ w.getD (i - 8) 0 ^^^ w.getD (i - 14) 0 ^^^ w.getD (i - 16) 0
    w.set i ((v <<< 1) ||| (v >>> 31))) w

/-- A round of the third loop. -/
def round (w : List UInt32) (s : Buffer) (i : Nat) : Buffer :=
  let fk : UInt32 × UInt32 :=
    if i < 20 then ((s.B &&& s.C) ||| (~~~s.B &&& s.D), 0x5A827999)
    else if i < 40 then (s.B ^^^ s.C ^^^ s.D, 0x6ED9EBA1)
    else if i < 60 then ((s.B &&& s.C) ||| (s.B &&& s.D) ||| (s.C &&& s.D), 0x8F1BBCDC)
    else (s.B ^^^ s.C ^^^ s.D, 0xCA62C1D6)
  let t := ((s.A <<< 5) ||| (s.A >>> 27)) + fk.1 + s.E + fk.2 + w.getD i 0
  ⟨t, s.A, (s.B <<< 30) ||| (s.B >>> 2), s.C, s.D⟩

/-- The body of the loop over the blocks. -/
def hashBlock (msg : Bytes) (off : Nat) (h : Buffer) : Buffer :=
  let w := extend (load msg off (List.replicate 80 0))
  let s := (List.range 80).foldl (round w) h
  ⟨h.A + s.A, h.B + s.B, h.C + s.C, h.D + s.D, h.E + s.E⟩

def hashBlocks (msg : Bytes) (off : Nat) (h : Buffer) : Buffer :=
  if off < msg.length then hashBlocks msg (off + 64) (hashBlock msg off h) else h
termination_by msg.length - off

/-- Four octets of the digest. -/
def wordOctets (h : UInt32) : Bytes :=
  [((h >>> 24) &&& 0xff).toUInt8, ((h >>> 16) &&& 0xff).toUInt8, ((h >>> 8) &&& 0xff).toUInt8,
    (h &&& 0xff).toUInt8]

/-- The digest. -/
def digest (concat : Bytes) : Bytes :=
  let h := hashBlocks (padded concat) 0
    ⟨0x67452301, 0xEFCDAB89, 0x98BADCFE, 0x10325476, 0xC3D2E1F0⟩
  wordOctets h.A ++ wordOctets h.B ++ wordOctets h.C ++ wordOctets h.D ++ wordOctets h.E

/-! ### Padding -/

theorem pushZeros_eq (msg : Bytes) :
    pushZeros msg = msg ++ List.replicate ((120 - msg.length % 64) % 64) 0 := by
  induction msg using pushZeros.induct with
  | case1 msg more ih =>
    have zeros : (120 - msg.length % 64) % 64 = (120 - (msg.length + 1) % 64) % 64 + 1 := by omega
    rw [pushZeros, if_pos more, ih, List.length_append, List.length_singleton, zeros,
      List.append_assoc, List.singleton_append, List.replicate_succ]
  | case2 msg done =>
    have full : (120 - msg.length % 64) % 64 = 0 := by omega
    rw [pushZeros, if_neg done, full, List.replicate_zero, List.append_nil]

/-- An octet of the length, shifted down and masked. -/
theorem length_octet (n : Nat) {i : Nat} (place : i < 8) :
    (((UInt64.ofNat n * 8) >>> UInt64.ofNat (i * 8)) &&& 0xff).toUInt8 =
      UInt8.ofNat (8 * n / 256 ^ i) := by
  have amount : (UInt64.ofNat (i * 8)).toNat % 64 = i * 8 := by
    rw [UInt64.toNat_ofNat', Nat.mod_eq_of_lt (by omega), Nat.mod_eq_of_lt (by omega)]
  have bits : (UInt64.ofNat n * 8).toNat = 8 * n % 2 ^ 64 := by
    rw [UInt64.toNat_mul, UInt64.toNat_ofNat', Nat.mul_comm 8]
    exact Nat.mod_mul_mod n 8 (2 ^ 64)
  have power : 2 ^ (i * 8) = 256 ^ i := by rw [Nat.mul_comm, Nat.pow_mul]
  -- the place is one of the low 64 bits
  have size : 2 ^ 64 = 256 ^ i * 256 ^ (7 - i + 1) := by
    rw [← Nat.pow_add, show i + (7 - i + 1) = 8 by omega]
    rfl
  refine UInt8.toNat_inj.mp ?_
  rw [UInt64.toNat_toUInt8, UInt64.toNat_and, UInt64.toNat_shiftRight, amount,
    Nat.shiftRight_eq_div_pow, power, bits, size, Nat.mod_mul_right_div_self, UInt8.toNat_ofNat']
  change (_ &&& 255) % 256 = _ % 256
  have divides : 256 ∣ 256 ^ (7 - i + 1) := Dvd.intro_left (256 ^ (7 - i)) rfl
  rw [and_255, Nat.mod_mod, Nat.mod_mod_of_dvd _ divides]

/-- The padding is that of the specification. -/
theorem padded_eq (concat : Bytes) : padded concat = pad concat := by
  have zeros : (120 - (concat.length + 1) % 64) % 64 = (119 - concat.length % 64) % 64 := by omega
  have length : [7, 6, 5, 4, 3, 2, 1, 0].map (fun i =>
      (((UInt64.ofNat concat.length * 8) >>> UInt64.ofNat (i * 8)) &&& 0xff).toUInt8) =
      beBytes 8 (8 * concat.length) := by
    have octets : [7, 6, 5, 4, 3, 2, 1, 0].map (fun i => UInt8.ofNat (8 * concat.length / 256 ^ i)) =
        beBytes 8 (8 * concat.length) := rfl
    rw [← octets]
    refine List.map_congr_left fun i member => length_octet concat.length ?_
    have places : ∀ i ∈ [7, 6, 5, 4, 3, 2, 1, 0], i < 8 := by decide
    exact places i member
  rw [padded, pushZeros_eq, List.length_append, List.length_singleton, zeros, pad, ← length]
  simp only [List.foldl_cons, List.foldl_nil, List.map_cons, List.map_nil, List.append_assoc,
    List.cons_append, List.nil_append]

/-! ### The words -/

/-- The first words of a block are in place. -/
structure Filled (block : Bytes) (n : Nat) (w : List UInt32) : Prop where
  size : w.length = 80
  words : ∀ t < n, w.getD t 0 = W block t

theorem Filled.set {block : Bytes} {n : Nat} {w : List UInt32} (filled : Filled block n w)
    (place : n < 80) {v : UInt32} (value : v = W block n) : Filled block (n + 1) (w.set n v) where
  size := by rw [List.length_set, filled.size]
  words t less := by
    have inside : n < w.length := filled.size ▸ place
    rw [List.getD_eq_getElem?_getD, List.getElem?_set]
    by_cases here : n = t
    · subst here
      rw [if_pos rfl, if_pos inside, value]
      rfl
    · have before : t < n := by omega
      rw [if_neg here, ← List.getD_eq_getElem?_getD, filled.words t before]

/-- A loop that sets one word after the other, each from those before it. -/
theorem Filled.loop {block : Bytes} {value : List UInt32 → Nat → UInt32} {start n : Nat}
    {w : List UInt32} (filled : Filled block start w) (few : start + n ≤ 80)
    (values : ∀ i v, i < start + n → start ≤ i → Filled block i v → value v i = W block i) :
    Filled block (start + n) ((List.range' start n).foldl (fun w i => w.set i (value w i)) w) := by
  induction n with
  | zero => exact filled
  | succ n ih =>
    have before := ih (by omega) fun i v less => values i v (by omega)
    rw [List.range'_1_concat, List.foldl_append, List.foldl_cons, List.foldl_nil]
    exact before.set (by omega) (values _ _ (by omega) (Nat.le_add_right _ _) before)

theorem take_four {l : Bytes} {k : Nat} (inside : k + 4 ≤ l.length) :
    (l.drop k).take 4 = [l.getD k 0, l.getD (k + 1) 0, l.getD (k + 2) 0, l.getD (k + 3) 0] := by
  rw [List.drop_eq_getElem_cons (by omega), List.drop_eq_getElem_cons (by omega),
    List.drop_eq_getElem_cons (by omega), List.drop_eq_getElem_cons (by omega)]
  simp only [List.take_succ_cons, List.take_zero]
  rw [List.getD_eq_getElem _ _ (by omega), List.getD_eq_getElem _ _ (by omega),
    List.getD_eq_getElem _ _ (by omega), List.getD_eq_getElem _ _ (by omega)]

section Block

variable {msg : Bytes} {off : Nat} (inside : off + 64 ≤ msg.length)

include inside

theorem load_filled : Filled ((msg.drop off).take 64) 16 (load msg off (List.replicate 80 0)) := by
  have blank : Filled ((msg.drop off).take 64) 0 (List.replicate 80 0) :=
    ⟨List.length_replicate, fun t less => absurd less (Nat.not_lt_zero t)⟩
  rw [load, List.range_eq_range']
  refine blank.loop (n := 16) (by decide) fun i _ less _ _ => ?_
  have octets : (((msg.drop off).take 64).drop (4 * i)).take 4 =
      (msg.drop (off + i * 4)).take 4 := by
    rw [List.drop_take, List.take_take, List.drop_drop, Nat.mul_comm 4 i]
    congr 1
    omega
  rw [W_of_lt (by omega), octets, take_four (by omega), shifted_eq_word]

end Block

theorem extend_filled {block : Bytes} {w : List UInt32} (filled : Filled block 16 w) :
    Filled block 80 (extend w) := by
  refine filled.loop (n := 64) (Nat.le_refl 80) fun i v less after before => ?_
  -- the four words that it is made of are in place
  rw [W_of_le after, before.words _ (by omega), before.words _ (by omega),
    before.words _ (by omega), before.words _ (by omega)]
  rfl

/-! ### The rounds -/

theorem round_eq {w : List UInt32} {block : Bytes} {i : Nat} (s : Buffer)
    (value : w.getD i 0 = W block i) : round w s i = step i (W block i) s := by
  have sum : ∀ a f e k w : UInt32, a + f + e + k + w = a + f + e + w + k := by
    intro a f e k w
    rw [UInt32.add_assoc _ k, UInt32.add_comm k, ← UInt32.add_assoc]
  rw [round, value, step, f, K, sum]
  by_cases first : i < 20
  · simp only [first, if_true]
    rfl
  · by_cases second : i < 40
    · simp only [first, second, if_true, if_false]
      rfl
    · by_cases third : i < 60
      · simp only [first, second, third, if_true, if_false]
        rfl
      · simp only [first, second, third, if_false]
        rfl

theorem rounds_eq {w : List UInt32} {block : Bytes} (filled : Filled block 80 w) (h : Buffer)
    {n : Nat} (few : n ≤ 80) : (List.range n).foldl (round w) h = steps block n h := by
  induction n with
  | zero => rfl
  | succ n ih =>
    rw [List.range_succ, List.foldl_append, List.foldl_cons, List.foldl_nil, ih (by omega), steps,
      round_eq _ (filled.words n (by omega))]

theorem hashBlock_eq {msg : Bytes} {off : Nat} (inside : off + 64 ≤ msg.length) (h : Buffer) :
    hashBlock msg off h = process h ((msg.drop off).take 64) := by
  rw [hashBlock, rounds_eq (extend_filled (load_filled inside)) h (Nat.le_refl 80), process]

theorem hashBlocks_eq {msg : Bytes} {n : Nat} (size : msg.length = 64 * n) {i k : Nat}
    (left : i + k = n) (h : Buffer) : hashBlocks msg (64 * i) h =
      (List.range' i k).foldl (fun h i => process h ((msg.drop (64 * i)).take 64)) h := by
  induction k generalizing i h with
  | zero =>
    rw [hashBlocks, if_neg (by omega)]
    rfl
  | succ k ih =>
    have next : 64 * i + 64 = 64 * (i + 1) := by omega
    rw [hashBlocks, if_pos (by omega), hashBlock_eq (by omega), next, ih (by omega),
      List.range'_succ, List.foldl_cons]

/-! ### The digest -/

theorem wordOctets_eq (h : UInt32) : wordOctets h = be32 h := by
  have last := shifted_eq_octet h (show 0 < 4 by decide)
  have none_shifted : h >>> UInt32.ofNat (8 * 0) = h := by
    refine UInt32.toNat_inj.mp ?_
    rw [UInt32.toNat_shiftRight]
    rfl
  rw [none_shifted] at last
  have first := shifted_eq_octet h (show 3 < 4 by decide)
  have second := shifted_eq_octet h (show 2 < 4 by decide)
  have third := shifted_eq_octet h (show 1 < 4 by decide)
  rw [wordOctets, last]
  exact congr (congrArg List.cons first) (congr (congrArg List.cons second)
    (congr (congrArg List.cons third) rfl))

/-- What is computed is the SHA-1 of the message. -/
theorem digest_eq (concat : Bytes) : digest concat = sha1 concat := by
  have blocks : (pad concat).length = 64 * ((pad concat).length / 64) := by
    have whole := length_pad concat
    omega
  have run := hashBlocks_eq blocks (Nat.zero_add _) initial
  rw [digest, padded_eq, sha1, List.range_eq_range']
  simp only [wordOctets_eq]
  exact congrArg Buffer.octets run

end ComputeAccept

open ComputeAccept

/-- `compute_accept`, with a libsodium that can be initialised or not. -/
def computeAccept (ready : Bool) (toBase64 : Bytes → Bytes) (clientKey : Bytes) : Bytes :=
  if ready = false then [] else toBase64 (digest (clientKey ++ kMagicGuid))

/-- For every key the digest is the SHA-1 of the key and the identifier, and that is what is
returned. -/
theorem computeAccept_sha1 (ready : Bool) (toBase64 : Bytes → Bytes) (clientKey : Bytes) :
    digest (clientKey ++ kMagicGuid) = sha1 (clientKey ++ kMagicGuid) ∧
      computeAccept ready toBase64 clientKey =
        if ready then toBase64 (sha1 (clientKey ++ kMagicGuid)) else [] := by
  have same := digest_eq (clientKey ++ kMagicGuid)
  refine ⟨same, ?_⟩
  rw [computeAccept, same]
  cases ready <;> rfl

end FinBit.Net
