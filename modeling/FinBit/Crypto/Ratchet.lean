import Std.Data.ExtTreeMap
import Mathlib.Logic.Function.Iterate
import Mathlib.Tactic.DeriveCountable
import FinBit.Lib.Ideal

/-! # Double ratchet

`DoubleRatchet` keeps a root key, a sending and a receiving chain, and a cache of
the message keys it has skipped. Public X25519 keys are byte strings, because the
cache is ordered by them; every secret 32-byte value is of an arbitrary type `K`.

`decrypt` changes the state before it knows whether the message is genuine, and
an exception leaves the state as far as it got. So it returns the state it leaves
behind together with its outcome.
-/

namespace FinBit.Crypto

open FinBit.Lib Std

variable {K : Type}

structure RatchetMessage where
  headerDhPub : Bytes
  pn : UInt32
  n : UInt32
  ciphertext : Bytes
  deriving Countable

structure KeyPair (K : Type) where
  pub : Bytes
  priv : K

/-- What the module takes from libsodium and protobuf. -/
structure RatchetCrypto (K : Type) where
  /-- A value-initialised key array. -/
  zero : K
  /-- `crypto_scalarmult`; it fails on a low-order result. -/
  x25519Dh : K → Bytes → Option K
  /-- From a root key and a DH result, the next root key and a chain key. -/
  kdfRk : K → K → K × K
  kdfCk : ChainKdf K
  aead : Aead K
  message : Codec RatchetMessage

/-- The index of a skipped message key: the sender's DH key and the message number. -/
abbrev SkippedIndex := Bytes × UInt32

instance : Ord SkippedIndex := lexOrd

instance : Std.TransOrd SkippedIndex := Std.instTransOrdProd

/-- `DoubleRatchet::State`. -/
@[ext] structure Ratchet (K : Type) where
  dhsPub : Bytes
  dhsPriv : K
  dhrPub : Bytes
  haveDhr : Bool
  rk : K
  cks : K
  ckr : K
  haveCks : Bool
  haveCkr : Bool
  ns : UInt32
  nr : UInt32
  pn : UInt32
  skipped : ExtTreeMap SkippedIndex K

namespace Ratchet

abbrev kMaxSkip : Nat := 1000

def composeAad (headerDhPub : Bytes) (pn n : UInt32) (outer : Bytes) : Bytes :=
  headerDhPub ++ (be32 pn ++ (be32 n ++ outer))

/-- The text of the exception of `x25519_dh`. -/
def lowOrder : String := "crypto_scalarmult produced low-order output"

section

variable (P : RatchetCrypto K)

/-- A default-constructed state. -/
def blank : Ratchet K where
  dhsPub := List.replicate 32 0
  dhsPriv := P.zero
  dhrPub := List.replicate 32 0
  haveDhr := false
  rk := P.zero
  cks := P.zero
  ckr := P.zero
  haveCks := false
  haveCkr := false
  ns := 0
  nr := 0
  pn := 0
  skipped := ∅

/-- `init_alice`, for the key pair it drew. -/
def initAlice (drawn : KeyPair K) (sharedSecret : K) (peerDhPub : Bytes) :
    Except String (Ratchet K) :=
  match P.x25519Dh drawn.priv peerDhPub with
  | none => .error lowOrder
  | some dh =>
    let (newRk, newCk) := P.kdfRk sharedSecret dh
    .ok { blank P with
      dhsPub := drawn.pub
      dhsPriv := drawn.priv
      dhrPub := peerDhPub
      haveDhr := true
      rk := newRk
      cks := newCk
      haveCks := true }

def initBob (sharedSecret : K) (ours : KeyPair K) : Ratchet K :=
  { blank P with
    dhsPub := ours.pub
    dhsPriv := ours.priv
    rk := sharedSecret }

def encrypt (s : Ratchet K) (plaintext outerAad : Bytes) : Except String (Ratchet K × Bytes) :=
  if s.haveCks = false then
    .error ("DoubleRatchet::encrypt: send chain is empty (Bob must receive Alice's first " ++
      "message before he can send)")
  else
    let mk := P.kdfCk.messageKey s.cks
    let aad := composeAad s.dhsPub s.pn s.ns outerAad
    let ct := P.aead.encrypt mk aad plaintext
    .ok ({ s with cks := P.kdfCk.nextKey s.cks, ns := s.ns + 1 },
      P.message.encode ⟨s.dhsPub, s.pn, s.ns, ct⟩)

/-! ### Receiving -/

/-- One pass of the loop in `skip_message_keys`; the cache is bounded by dropping
its least entry. -/
def skipOne (s : Ratchet K) : Ratchet K :=
  let skipped :=
    if s.skipped.size ≥ kMaxSkip then
      match s.skipped.minKey? with
      | some least => s.skipped.erase least
      | none => s.skipped
    else s.skipped
  { s with
    ckr := P.kdfCk.nextKey s.ckr
    skipped := skipped.insertIfNew (s.dhrPub, s.nr) (P.kdfCk.messageKey s.ckr)
    nr := s.nr + 1 }

/-- `skip_message_keys`; `none` where it throws, which is before any change. The
loop runs while `nr < until`. -/
def skipMessageKeys (s : Ratchet K) (until_ : UInt32) : Option (Ratchet K) :=
  if s.haveCkr = false then some s
  else if until_.toNat > s.nr.toNat + kMaxSkip then none
  else some ((skipOne P)^[until_.toNat - s.nr.toNat] s)

/-- `dh_ratchet`, for the key pair it drew. Where `x25519_dh` throws, `error` has
the state that is left behind. -/
def dhRatchet (s : Ratchet K) (headerDhPub : Bytes) (drawn : KeyPair K) :
    Except (Ratchet K) (Ratchet K) :=
  let s := { s with
    pn := s.ns
    ns := 0
    nr := 0
    dhrPub := headerDhPub
    haveDhr := true }
  match P.x25519Dh s.dhsPriv headerDhPub with
  | none => .error s
  | some dh =>
    let s := { s with
      rk := (P.kdfRk s.rk dh).1
      ckr := (P.kdfRk s.rk dh).2
      haveCkr := true
      dhsPub := drawn.pub
      dhsPriv := drawn.priv }
    match P.x25519Dh drawn.priv headerDhPub with
    | none => .error s
    | some dh =>
      .ok { s with
        rk := (P.kdfRk s.rk dh).1
        cks := (P.kdfRk s.rk dh).2
        haveCks := true }

/-- Steps 3 and 4 of `decrypt`: skip to the message and use up its key, whatever
the tag says. -/
def openInChain (s : Ratchet K) (m : RatchetMessage) (outerAad : Bytes) :
    Ratchet K × Option Bytes :=
  match s.skipMessageKeys P m.n with
  | none => (s, none)
  | some s =>
    ({ s with ckr := P.kdfCk.nextKey s.ckr, nr := s.nr + 1 },
      P.aead.decrypt (P.kdfCk.messageKey s.ckr)
        (composeAad m.headerDhPub m.pn m.n outerAad) m.ciphertext)

/-- Whether `decrypt` takes the header for a new key of the peer. -/
def isNewDh (s : Ratchet K) (headerDhPub : Bytes) : Bool :=
  !s.haveDhr || headerDhPub ≠ s.dhrPub

/-- `decrypt` of a parsed message; `error` is an exception. -/
def decryptMessage (s : Ratchet K) (drawn : KeyPair K) (m : RatchetMessage) (outerAad : Bytes) :
    Ratchet K × Except String (Option Bytes) :=
  match s.skipped[(m.headerDhPub, m.n)]? with
  | some key =>
    match P.aead.decrypt key (composeAad m.headerDhPub m.pn m.n outerAad) m.ciphertext with
    | none => (s, .ok none)
    | some pt => ({ s with skipped := s.skipped.erase (m.headerDhPub, m.n) }, .ok (some pt))
  | none =>
    if s.isNewDh m.headerDhPub then
      match s.skipMessageKeys P m.pn with
      | none => (s, .ok none)
      | some s =>
        match s.dhRatchet P m.headerDhPub drawn with
        | .error s => (s, .error lowOrder)
        | .ok s => ((s.openInChain P m outerAad).1, .ok (s.openInChain P m outerAad).2)
    else ((s.openInChain P m outerAad).1, .ok (s.openInChain P m outerAad).2)

/-- Parse a message and check the size of its header key. -/
def parseMessage (ratchetMsg : Bytes) : Option RatchetMessage :=
  (P.message.decode ratchetMsg).filter fun m => m.headerDhPub.length = 32

def decrypt (s : Ratchet K) (drawn : KeyPair K) (ratchetMsg outerAad : Bytes) :
    Ratchet K × Except String (Option Bytes) :=
  match parseMessage P ratchetMsg with
  | none => (s, .ok none)
  | some m => s.decryptMessage P drawn m outerAad

/-- `try_decrypt` restores its snapshot when `decrypt` returns nothing, and not
when it throws. -/
def tryDecrypt (s : Ratchet K) (drawn : KeyPair K) (ratchetMsg outerAad : Bytes) :
    Ratchet K × Except String (Option Bytes) :=
  match s.decrypt P drawn ratchetMsg outerAad with
  | (_, .ok none) => (s, .ok none)
  | attempt => attempt

def headerMatchesRecvChain (s : Ratchet K) (ratchetMsg : Bytes) : Bool :=
  match parseMessage P ratchetMsg with
  | none => false
  | some m =>
    if s.haveDhr = false || s.haveCkr = false then false
    else if m.n > s.nr && m.n.toNat - s.nr.toNat > kMaxSkip then false
    else m.headerDhPub = s.dhrPub

/-! ### What skipping leaves alone -/

@[simp] theorem skipOne_iterate_ckr (s : Ratchet K) (k : Nat) :
    ((skipOne P)^[k] s).ckr = P.kdfCk.nextKey^[k] s.ckr := by
  induction k generalizing s with
  | zero => rfl
  | succ k ih => rw [Function.iterate_succ_apply, Function.iterate_succ_apply, ih]; rfl

@[simp] theorem skipOne_iterate_nr (s : Ratchet K) (k : Nat) :
    ((skipOne P)^[k] s).nr = s.nr + UInt32.ofNat k := by
  induction k generalizing s with
  | zero => simp
  | succ k ih =>
    rw [Function.iterate_succ_apply, ih, UInt32.ofNat_add]
    change s.nr + 1 + _ = _
    rw [UInt32.add_assoc, UInt32.add_comm 1]
    rfl

/-- Every field that the loop does not assign. -/
theorem skipOne_iterate_frame (s : Ratchet K) (k : Nat) :
    (skipOne P)^[k] s = { s with
      ckr := ((skipOne P)^[k] s).ckr
      nr := ((skipOne P)^[k] s).nr
      skipped := ((skipOne P)^[k] s).skipped } := by
  induction k generalizing s with
  | zero => rfl
  | succ k ih =>
    rw [Function.iterate_succ_apply]
    conv_lhs => rw [ih]
    rfl

@[simp] theorem skipOne_iterate_dhrPub (s : Ratchet K) (k : Nat) :
    ((skipOne P)^[k] s).dhrPub = s.dhrPub := by rw [skipOne_iterate_frame]

@[simp] theorem skipOne_iterate_haveDhr (s : Ratchet K) (k : Nat) :
    ((skipOne P)^[k] s).haveDhr = s.haveDhr := by rw [skipOne_iterate_frame]

@[simp] theorem skipOne_iterate_dhsPriv (s : Ratchet K) (k : Nat) :
    ((skipOne P)^[k] s).dhsPriv = s.dhsPriv := by rw [skipOne_iterate_frame]

@[simp] theorem skipOne_iterate_haveCkr (s : Ratchet K) (k : Nat) :
    ((skipOne P)^[k] s).haveCkr = s.haveCkr := by rw [skipOne_iterate_frame]

@[simp] theorem skipOne_iterate_rk (s : Ratchet K) (k : Nat) :
    ((skipOne P)^[k] s).rk = s.rk := by rw [skipOne_iterate_frame]

@[simp] theorem skipOne_iterate_ns (s : Ratchet K) (k : Nat) :
    ((skipOne P)^[k] s).ns = s.ns := by rw [skipOne_iterate_frame]

/-- An index that the loop does not come across is not added to the cache. -/
theorem skipOne_iterate_skipped {s : Ratchet K} {x : SkippedIndex} {k : Nat}
    (absent : s.skipped[x]? = none)
    (avoided : ∀ i < k, (s.dhrPub, s.nr + UInt32.ofNat i) ≠ x) :
    ((skipOne P)^[k] s).skipped[x]? = none := by
  induction k with
  | zero => exact absent
  | succ k ih =>
    have before := ih fun i less => avoided i (by omega)
    rw [Function.iterate_succ_apply', skipOne]
    simp only [skipOne_iterate_dhrPub, skipOne_iterate_nr, ExtTreeMap.getElem?_insertIfNew,
      LawfulEqCmp.compare_eq_iff_eq, avoided k (by omega), false_and, if_false]
    -- eviction only removes
    split
    · split
      · rw [ExtTreeMap.getElem?_erase, before, ite_self]
      · exact before
    · exact before

/-! ### What `decrypt` decides on

A message is `Stopped` when nothing is derived for it; `messageKeyFor` is the key
it is opened with otherwise; `LowOrder` is the one exception. -/

/-- Where `skip_message_keys` throws. -/
def tooFar (s : Ratchet K) (target : UInt32) : Bool :=
  s.haveCkr && target.toNat > s.nr.toNat + kMaxSkip

/-- How many keys `skip_message_keys` skips. -/
def ahead (s : Ratchet K) (target : UInt32) : Nat :=
  if s.haveCkr then target.toNat - s.nr.toNat else 0

/-- The skip limit, as far as it is checked before the state changes. -/
def refuses (s : Ratchet K) (m : RatchetMessage) : Bool :=
  s.tooFar (if s.isNewDh m.headerDhPub then m.pn else m.n)

def Stopped (s : Ratchet K) (ratchetMsg outerAad : Bytes) : Prop :=
  ∀ m, parseMessage P ratchetMsg = some m →
    match s.skipped[(m.headerDhPub, m.n)]? with
    | some key =>
      P.aead.decrypt key (composeAad m.headerDhPub m.pn m.n outerAad) m.ciphertext = none
    | none => s.refuses m = true

/-- Where the message's key stands: in the cache, in a chain that its new DH key
starts, or ahead in the current chain. -/
def messageKeyFor (s : Ratchet K) (drawn : KeyPair K) (m : RatchetMessage) : Option K :=
  match s.skipped[(m.headerDhPub, m.n)]? with
  | some key => some key
  | none =>
    if s.refuses m then none
    else if s.isNewDh m.headerDhPub then
      match P.x25519Dh s.dhsPriv m.headerDhPub, P.x25519Dh drawn.priv m.headerDhPub with
      | some dh, some _ =>
        if m.n.toNat > kMaxSkip then none
        else some (P.kdfCk.messageKey (P.kdfCk.nextKey^[m.n.toNat] (P.kdfRk s.rk dh).2))
      | _, _ => none
    else some (P.kdfCk.messageKey (P.kdfCk.nextKey^[s.ahead m.n] s.ckr))

/-- The tag verifies under the key that stands for the header. -/
def Opens (s : Ratchet K) (drawn : KeyPair K) (ratchetMsg outerAad pt : Bytes) : Prop :=
  ∃ m key, parseMessage P ratchetMsg = some m ∧ s.messageKeyFor P drawn m = some key ∧
    P.aead.decrypt key (composeAad m.headerDhPub m.pn m.n outerAad) m.ciphertext = some pt

/-- The header reaches the DH step with a key of low order. -/
def LowOrder (s : Ratchet K) (drawn : KeyPair K) (ratchetMsg : Bytes) : Prop :=
  ∃ m, parseMessage P ratchetMsg = some m ∧
    s.skipped[(m.headerDhPub, m.n)]? = none ∧ s.refuses m = false ∧
    s.isNewDh m.headerDhPub = true ∧
    (P.x25519Dh s.dhsPriv m.headerDhPub = none ∨ P.x25519Dh drawn.priv m.headerDhPub = none)

theorem messageKeyFor_cases {s : Ratchet K} {drawn : KeyPair K} {m : RatchetMessage} {key : K}
    (stands : s.messageKeyFor P drawn m = some key) :
    s.skipped[(m.headerDhPub, m.n)]? = some key ∨
    s.isNewDh m.headerDhPub = true ∧
      (∃ dh, key = P.kdfCk.messageKey (P.kdfCk.nextKey^[m.n.toNat] (P.kdfRk s.rk dh).2)) ∨
    s.isNewDh m.headerDhPub = false ∧
      key = P.kdfCk.messageKey (P.kdfCk.nextKey^[s.ahead m.n] s.ckr) := by
  unfold messageKeyFor at stands
  split at stands
  next cached => exact .inl (cached.trans stands)
  split at stands
  · cases stands
  split at stands
  next new =>
    split at stands
    next dh _ _ _ =>
      split at stands
      · cases stands
      · exact .inr (.inl ⟨new, dh, (Option.some.inj stands).symm⟩)
    · cases stands
  next known =>
    rw [Bool.not_eq_true] at known
    exact .inr (.inr ⟨known, (Option.some.inj stands).symm⟩)

/-! ### Steps of `decrypt` -/

theorem skipMessageKeys_eq (s : Ratchet K) (target : UInt32) :
    s.skipMessageKeys P target =
      if s.tooFar target then none else some ((skipOne P)^[s.ahead target] s) := by
  cases have_ckr : s.haveCkr <;> simp [skipMessageKeys, tooFar, ahead, have_ckr]

section Chain

variable (s : Ratchet K) (m : RatchetMessage) (outerAad : Bytes)

theorem openInChain_eq : s.openInChain P m outerAad =
    if s.tooFar m.n then (s, none)
    else
      ({ (skipOne P)^[s.ahead m.n] s with
          ckr := P.kdfCk.nextKey^[s.ahead m.n + 1] s.ckr
          nr := s.nr + UInt32.ofNat (s.ahead m.n) + 1 },
        P.aead.decrypt (P.kdfCk.messageKey (P.kdfCk.nextKey^[s.ahead m.n] s.ckr))
          (composeAad m.headerDhPub m.pn m.n outerAad) m.ciphertext) := by
  by_cases far : s.tooFar m.n <;>
    simp [openInChain, skipMessageKeys_eq, far, Function.iterate_succ_apply']

/-- Neither step touches the peer's DH key. -/
theorem openInChain_dhr : (s.openInChain P m outerAad).1.dhrPub = s.dhrPub ∧
    (s.openInChain P m outerAad).1.haveDhr = s.haveDhr := by
  rw [openInChain_eq]
  split <;> simp

/-- A used-up key shows in `nr`, even where the counter wraps. -/
theorem openInChain_fst_eq_iff : (s.openInChain P m outerAad).1 = s ↔ s.tooFar m.n = true := by
  constructor
  · intro same
    by_contra near
    have small : s.ahead m.n ≤ 1000 := by
      simp only [tooFar, Bool.and_eq_true, decide_eq_true_eq, not_and] at near
      unfold ahead
      split
      next have_ckr =>
        have : ¬m.n.toNat > s.nr.toNat + 1000 := near have_ckr
        omega
      · omega
    have count := congrArg (fun t => t.nr.toNat) same
    rw [openInChain_eq, if_neg near] at count
    simp only [UInt32.toNat_add, UInt32.toNat_ofNat', UInt32.reduceToNat] at count
    have := s.nr.toNat_lt
    omega
  · intro far
    rw [openInChain_eq, if_pos far]

end Chain

/-- Both results carry the new key of the peer. -/
theorem dhRatchet_cases (s : Ratchet K) (h : Bytes) (drawn : KeyPair K) :
    (∃ s', s.dhRatchet P h drawn = .error s' ∧ s'.dhrPub = h ∧ s'.haveDhr = true ∧
      (P.x25519Dh s.dhsPriv h = none ∨ P.x25519Dh drawn.priv h = none)) ∨
    (∃ s' dh reply, s.dhRatchet P h drawn = .ok s' ∧ s'.dhrPub = h ∧ s'.haveDhr = true ∧
      P.x25519Dh s.dhsPriv h = some dh ∧ P.x25519Dh drawn.priv h = some reply ∧
      s'.ckr = (P.kdfRk s.rk dh).2 ∧ s'.haveCkr = true ∧ s'.nr = 0) := by
  cases received : P.x25519Dh s.dhsPriv h with
  | none => left; simp [dhRatchet, received]
  | some dh =>
    cases sent : P.x25519Dh drawn.priv h with
    | none => left; simp [dhRatchet, received, sent]
    | some reply => right; simp [dhRatchet, received, sent]

/-- A header that is taken as new is not the recorded one. -/
theorem ne_of_isNewDh {s t : Ratchet K} {h : Bytes} (new : s.isNewDh h = true)
    (taken : t.dhrPub = h) (known : t.haveDhr = true) : t ≠ s := by
  rintro rfl
  simp [isNewDh, taken, known] at new

/-- The ways through `decrypt` once the message has parsed, with the state and the
outcome of each. -/
inductive Attempt (s : Ratchet K) (drawn : KeyPair K) (m : RatchetMessage) (outerAad : Bytes) :
    Ratchet K → Except String (Option Bytes) → Prop
  | wrongTag {key : K} (cached : s.skipped[(m.headerDhPub, m.n)]? = some key)
      (forged : P.aead.decrypt key (composeAad m.headerDhPub m.pn m.n outerAad)
        m.ciphertext = none) : Attempt s drawn m outerAad s (.ok none)
  | fromCache {key : K} {pt : Bytes} (cached : s.skipped[(m.headerDhPub, m.n)]? = some key)
      (genuine : P.aead.decrypt key (composeAad m.headerDhPub m.pn m.n outerAad)
        m.ciphertext = some pt) :
      Attempt s drawn m outerAad { s with skipped := s.skipped.erase (m.headerDhPub, m.n) }
        (.ok (some pt))
  | refused (uncached : s.skipped[(m.headerDhPub, m.n)]? = none) (far : s.refuses m = true) :
      Attempt s drawn m outerAad s (.ok none)
  | threw {t : Ratchet K} (uncached : s.skipped[(m.headerDhPub, m.n)]? = none)
      (near : s.refuses m = false) (new : s.isNewDh m.headerDhPub = true)
      (low : P.x25519Dh s.dhsPriv m.headerDhPub = none ∨
        P.x25519Dh drawn.priv m.headerDhPub = none) (moved : t ≠ s) :
      Attempt s drawn m outerAad t (.error lowOrder)
  | newChain {t : Ratchet K} {dh reply : K}
      (uncached : s.skipped[(m.headerDhPub, m.n)]? = none)
      (near : s.refuses m = false) (new : s.isNewDh m.headerDhPub = true)
      (received : P.x25519Dh s.dhsPriv m.headerDhPub = some dh)
      (sent : P.x25519Dh drawn.priv m.headerDhPub = some reply) (moved : t ≠ s) :
      Attempt s drawn m outerAad t (.ok
        (if m.n.toNat > kMaxSkip then none
        else P.aead.decrypt (P.kdfCk.messageKey (P.kdfCk.nextKey^[m.n.toNat] (P.kdfRk s.rk dh).2))
          (composeAad m.headerDhPub m.pn m.n outerAad) m.ciphertext))
  | sameChain {t : Ratchet K} (uncached : s.skipped[(m.headerDhPub, m.n)]? = none)
      (near : s.refuses m = false) (known : s.isNewDh m.headerDhPub = false) (moved : t ≠ s) :
      Attempt s drawn m outerAad t (.ok
        (P.aead.decrypt (P.kdfCk.messageKey (P.kdfCk.nextKey^[s.ahead m.n] s.ckr))
          (composeAad m.headerDhPub m.pn m.n outerAad) m.ciphertext))

theorem decryptMessage_attempt (s : Ratchet K) (drawn : KeyPair K) (m : RatchetMessage)
    (outerAad : Bytes) :
    Attempt P s drawn m outerAad (s.decryptMessage P drawn m outerAad).1
      (s.decryptMessage P drawn m outerAad).2 := by
  cases cached : s.skipped[(m.headerDhPub, m.n)]? with
  | some key =>
    cases opened : P.aead.decrypt key (composeAad m.headerDhPub m.pn m.n outerAad)
        m.ciphertext with
    | none => simpa [decryptMessage, cached, opened] using Attempt.wrongTag cached opened
    | some pt => simpa [decryptMessage, cached, opened] using Attempt.fromCache cached opened
  | none =>
    cases new : s.isNewDh m.headerDhPub with
    | false =>
      have refuses_eq : s.refuses m = s.tooFar m.n := by simp [refuses, new]
      by_cases far : s.tooFar m.n
      · simpa [decryptMessage, cached, new, openInChain_eq, far] using
          Attempt.refused cached (refuses_eq.trans far)
      · have moved := (openInChain_fst_eq_iff P s m outerAad).not.mpr far
        rw [Bool.not_eq_true] at far
        have outcome : Attempt P s drawn m outerAad _ _ :=
          .sameChain cached (refuses_eq.trans far) new moved
        simpa [decryptMessage, cached, new, openInChain_eq, far] using outcome
    | true =>
      have refuses_eq : s.refuses m = s.tooFar m.pn := by simp [refuses, new]
      by_cases far : s.tooFar m.pn
      · simpa [decryptMessage, cached, new, skipMessageKeys_eq, far] using
          Attempt.refused cached (refuses_eq.trans far)
      · rw [Bool.not_eq_true] at far
        rcases dhRatchet_cases P ((skipOne P)^[s.ahead m.pn] s) m.headerDhPub drawn with
          ⟨t, left, taken, known, low⟩ |
          ⟨t, dh, reply, done, taken, known, received, sent, ckr, have_ckr, nr⟩
        · have moved := ne_of_isNewDh new taken known
          simp only [skipOne_iterate_dhsPriv] at low
          simpa [decryptMessage, cached, new, skipMessageKeys_eq, far, left] using
            Attempt.threw cached (refuses_eq.trans far) new low moved
        · simp only [skipOne_iterate_dhsPriv, skipOne_iterate_rk] at received ckr
          have dhr := openInChain_dhr P t m outerAad
          have moved : (t.openInChain P m outerAad).1 ≠ s :=
            ne_of_isNewDh new (dhr.1.trans taken) (dhr.2.trans known)
          have outcome : Attempt P s drawn m outerAad _ _ :=
            .newChain cached (refuses_eq.trans far) new received sent moved
          have result : (t.openInChain P m outerAad).2 =
              if m.n.toNat > kMaxSkip then none
              else P.aead.decrypt
                (P.kdfCk.messageKey (P.kdfCk.nextKey^[m.n.toNat] (P.kdfRk s.rk dh).2))
                (composeAad m.headerDhPub m.pn m.n outerAad) m.ciphertext := by
            rw [openInChain_eq]
            simp only [tooFar, ahead, have_ckr, nr, ckr]
            by_cases far : m.n.toNat > kMaxSkip <;> simp [far]
          rw [← result] at outcome
          simpa [decryptMessage, cached, new, skipMessageKeys_eq, far, done] using outcome

/-! ### Results about whole calls -/

section Calls

variable (s : Ratchet K) (drawn : KeyPair K) (ratchetMsg outerAad : Bytes)

/-- Only an attempt that came to nothing can leave the state alone. -/
private theorem Attempt.result_of_unmoved {s t : Ratchet K} {drawn : KeyPair K}
    {m : RatchetMessage} {outerAad : Bytes} {result : Except String (Option Bytes)}
    (way : Attempt P s drawn m outerAad t result) (unmoved : t = s) : result = .ok none := by
  cases way with
  | wrongTag => rfl
  | fromCache cached =>
    -- the entry was there and is gone
    have := congrArg (fun t => t.skipped[(m.headerDhPub, m.n)]?) unmoved
    simp [cached] at this
  | refused => rfl
  | threw _ _ _ _ moved => exact absurd unmoved moved
  | newChain _ _ _ _ _ moved => exact absurd unmoved moved
  | sameChain _ _ _ moved => exact absurd unmoved moved

theorem decrypt_snd_of_unmoved (unmoved : (s.decrypt P drawn ratchetMsg outerAad).1 = s) :
    (s.decrypt P drawn ratchetMsg outerAad).2 = .ok none := by
  cases parsed : parseMessage P ratchetMsg with
  | none => simp [decrypt, parsed]
  | some m =>
    simp only [decrypt, parsed] at unmoved ⊢
    exact (decryptMessage_attempt P s drawn m outerAad).result_of_unmoved P unmoved

theorem decrypt_fst_eq_iff :
    (s.decrypt P drawn ratchetMsg outerAad).1 = s ↔ s.Stopped P ratchetMsg outerAad := by
  cases parsed : parseMessage P ratchetMsg with
  | none => simp [decrypt, Stopped, parsed]
  | some m =>
    simp only [decrypt, Stopped, parsed, Option.some.injEq, forall_eq']
    have way := decryptMessage_attempt P s drawn m outerAad
    have unmoved := way.result_of_unmoved P
    generalize s.decryptMessage P drawn m outerAad = outcome at way unmoved ⊢
    obtain ⟨t, result⟩ := outcome
    cases way with
    | wrongTag cached forged => simp [cached, forged]
    | fromCache cached genuine =>
      simp only [reduceCtorEq, Except.ok.injEq, imp_false] at unmoved
      simp [cached, genuine, unmoved]
    | refused uncached far => simp [uncached, far]
    | threw uncached near _ _ moved => simp [uncached, near, moved]
    | newChain uncached near _ _ _ moved => simp [uncached, near, moved]
    | sameChain uncached near _ moved => simp [uncached, near, moved]

theorem decrypt_snd_eq_some_iff (pt : Bytes) :
    (s.decrypt P drawn ratchetMsg outerAad).2 = .ok (some pt) ↔
      s.Opens P drawn ratchetMsg outerAad pt := by
  cases parsed : parseMessage P ratchetMsg with
  | none => simp [decrypt, Opens, parsed]
  | some m =>
    simp only [decrypt, Opens, messageKeyFor, parsed, Option.some.injEq, exists_and_left,
      exists_eq_left']
    have way := decryptMessage_attempt P s drawn m outerAad
    generalize s.decryptMessage P drawn m outerAad = outcome at way ⊢
    obtain ⟨t, result⟩ := outcome
    cases way with
    | wrongTag cached forged => simp [cached, forged]
    | fromCache cached genuine => simp [cached, genuine]
    | refused uncached far => simp [uncached, far]
    | threw uncached near new low moved =>
      rcases low with low | low <;> simp [uncached, near, new, low]
    | newChain uncached near new received sent moved =>
      by_cases far : m.n.toNat > kMaxSkip <;> simp [uncached, near, new, received, sent, far]
    | sameChain uncached near known moved => simp [uncached, near, known]

theorem decrypt_snd_eq_error_iff (e : String) :
    (s.decrypt P drawn ratchetMsg outerAad).2 = .error e ↔
      s.LowOrder P drawn ratchetMsg ∧ e = lowOrder := by
  cases parsed : parseMessage P ratchetMsg with
  | none => simp [decrypt, LowOrder, parsed]
  | some m =>
    simp only [decrypt, LowOrder, parsed, Option.some.injEq, exists_eq_left']
    have way := decryptMessage_attempt P s drawn m outerAad
    generalize s.decryptMessage P drawn m outerAad = outcome at way ⊢
    obtain ⟨t, result⟩ := outcome
    cases way with
    | wrongTag cached forged => simp [cached]
    | fromCache cached genuine => simp [cached]
    | refused uncached far => simp [far]
    | threw uncached near new low moved => simp [uncached, near, new, low, eq_comm (a := e)]
    | newChain uncached near new received sent moved => simp [received, sent]
    | sameChain uncached near known moved => simp [known]

theorem lowOrder_iff : s.LowOrder P drawn ratchetMsg ↔
    ∃ e, (s.decrypt P drawn ratchetMsg outerAad).2 = .error e := by
  simp [decrypt_snd_eq_error_iff]

theorem tryDecrypt_snd :
    (s.tryDecrypt P drawn ratchetMsg outerAad).2 = (s.decrypt P drawn ratchetMsg outerAad).2 := by
  unfold tryDecrypt
  split
  next same => rw [same]
  · rfl

/-- `try_decrypt` keeps the state exactly where it returns nothing. -/
theorem tryDecrypt_fst_eq_iff :
    (s.tryDecrypt P drawn ratchetMsg outerAad).1 = s ↔
      (s.decrypt P drawn ratchetMsg outerAad).2 = .ok none := by
  unfold tryDecrypt
  split
  next same => simp [same]
  next moved =>
    constructor
    · exact decrypt_snd_of_unmoved P s drawn ratchetMsg outerAad
    · intro nothing
      exact (moved _ (Prod.ext rfl nothing)).elim

theorem headerMatchesRecvChain_eq_true_iff :
    s.headerMatchesRecvChain P ratchetMsg = true ↔
      ∃ m, parseMessage P ratchetMsg = some m ∧ s.haveDhr = true ∧ s.haveCkr = true ∧
        m.n.toNat ≤ s.nr.toNat + kMaxSkip ∧ m.headerDhPub = s.dhrPub := by
  cases parsed : parseMessage P ratchetMsg with
  | none => simp [headerMatchesRecvChain, parsed]
  | some m =>
    cases have_dhr : s.haveDhr <;> cases have_ckr : s.haveCkr <;>
      simp [headerMatchesRecvChain, parsed, have_dhr, have_ckr]
    intro _
    have : m.n.toNat ≤ s.nr.toNat ∨ m.n.toNat ≤ 1000 + s.nr.toNat ↔
        m.n.toNat ≤ s.nr.toNat + 1000 := by omega
    exact this

/-- A message tried in the chain that its header names is not opened there again:
either the header still names the chain, or it is out of range by now. -/
theorem decrypt_again (matched : s.headerMatchesRecvChain P ratchetMsg = true) :
    (s.decrypt P drawn ratchetMsg outerAad).1.headerMatchesRecvChain P ratchetMsg = true ∨
      (s.decrypt P drawn ratchetMsg outerAad).1.Stopped P ratchetMsg outerAad := by
  obtain ⟨m, parsed, have_dhr, have_ckr, near, header⟩ :=
    (headerMatchesRecvChain_eq_true_iff P s ratchetMsg).mp matched
  have known : s.isNewDh m.headerDhPub = false := by simp [isNewDh, have_dhr, header]
  have states : (s.decrypt P drawn ratchetMsg outerAad).1 = s ∨
      (s.decrypt P drawn ratchetMsg outerAad).1 =
        { s with skipped := s.skipped.erase (m.headerDhPub, m.n) } ∨
      s.skipped[(m.headerDhPub, m.n)]? = none ∧
        (s.decrypt P drawn ratchetMsg outerAad).1 = (s.openInChain P m outerAad).1 := by
    cases cached : s.skipped[(m.headerDhPub, m.n)]? with
    | none => simp [decrypt, parsed, decryptMessage, cached, known]
    | some key =>
      cases opened : P.aead.decrypt key (composeAad m.headerDhPub m.pn m.n outerAad)
          m.ciphertext <;> simp [decrypt, parsed, decryptMessage, cached, opened]
  rcases states with same | erased | ⟨uncached, advanced⟩
  · rw [same]
    exact .inl matched
  · rw [erased]
    exact .inl matched
  · rw [advanced]
    have in_range : s.tooFar m.n = false := by simpa [tooFar, have_ckr] using near
    rw [openInChain_eq, in_range]
    generalize reached : s.nr + UInt32.ofNat (s.ahead m.n) + 1 = nr'
    by_cases still : m.n.toNat ≤ nr'.toNat + kMaxSkip
    · left
      rw [headerMatchesRecvChain_eq_true_iff]
      exact ⟨m, parsed, by simp [have_dhr], by simp [have_ckr], still, by simp [header]⟩
    · right
      intro m' parsed'
      obtain rfl : m = m' := by simpa using parsed.symm.trans parsed'
      -- every index skipped on the way is below the message's own
      have avoided : ∀ i < s.ahead m.n,
          (s.dhrPub, s.nr + UInt32.ofNat i) ≠ (m.headerDhPub, m.n) := by
        intro i less same
        have index : s.nr + UInt32.ofNat i = m.n := (Prod.ext_iff.mp same).2
        have count := congrArg UInt32.toNat index
        simp only [UInt32.toNat_add, UInt32.toNat_ofNat'] at count
        simp only [ahead, have_ckr, if_true] at less
        have := m.n.toNat_lt
        omega
      have absent := skipOne_iterate_skipped P uncached avoided
      simp only [Bool.false_eq_true, if_false, absent]
      simp only [refuses, isNewDh, tooFar, skipOne_iterate_haveDhr, skipOne_iterate_haveCkr,
        skipOne_iterate_dhrPub, have_dhr, have_ckr, header]
      simpa using still

end Calls

end

end Ratchet

end FinBit.Crypto
