import FinBit.Crypto.RatchetRuns

/-! # The bounds on skipping

Whoever sends a message chooses the counters in its header. They decide how many keys `decrypt`
derives, and how many it keeps, before it knows whether the message is genuine. To count the keys, the
operations are written again with the number of calls of `kdf_ck` beside the result.
-/

namespace FinBit.Crypto.Ratchet

open FinBit.Lib
open Std (ExtTreeMap)

variable {K : Type}

/-! ### Counting -/

theorem toNat_succ_nr {s : Ratchet K} {target : UInt32} (less : s.nr < target) :
    (s.nr + 1).toNat = s.nr.toNat + 1 := by
  have bound := target.toNat_lt
  have less : s.nr.toNat < target.toNat := less
  rw [UInt32.toNat_add]
  exact Nat.mod_eq_of_lt (by change s.nr.toNat + 1 < _; omega)

section

variable (P : RatchetCrypto K)

/-- The loop of `skip_message_keys`. -/
def skipLoop (until_ : UInt32) (s : Ratchet K) (derived : Nat) : Ratchet K × Nat :=
  if s.nr < until_ then skipLoop until_ (skipOne P s) (derived + 1) else (s, derived)
termination_by until_.toNat - s.nr.toNat
decreasing_by
  have next := toNat_succ_nr (s := s) ‹_›
  have less : s.nr.toNat < until_.toNat := ‹_›
  change until_.toNat - (s.nr + 1).toNat < _
  omega

def skipMessageKeysCounted (s : Ratchet K) (until_ : UInt32) : Option (Ratchet K) × Nat :=
  if s.haveCkr = false then (some s, 0)
  else if until_.toNat > s.nr.toNat + kMaxSkip then (none, 0)
  else
    let skipped := skipLoop P until_ s 0
    (some skipped.1, skipped.2)

def openInChainCounted (s : Ratchet K) (m : RatchetMessage) (outerAad : Bytes) :
    (Ratchet K × Option Bytes) × Nat :=
  match s.skipMessageKeysCounted P m.n with
  | (none, derived) => ((s, none), derived)
  | (some s, derived) =>
    (({ s with ckr := P.kdfCk.nextKey s.ckr, nr := s.nr + 1 },
      P.aead.decrypt (P.kdfCk.messageKey s.ckr)
        (composeAad m.headerDhPub m.pn m.n outerAad) m.ciphertext), derived + 1)

def decryptMessageCounted (s : Ratchet K) (drawn : KeyPair K) (m : RatchetMessage)
    (outerAad : Bytes) : (Ratchet K × Except String (Option Bytes)) × Nat :=
  match s.skipped[(m.headerDhPub, m.n)]? with
  | some key =>
    match P.aead.decrypt key (composeAad m.headerDhPub m.pn m.n outerAad) m.ciphertext with
    | none => ((s, .ok none), 0)
    | some pt => (({ s with skipped := s.skipped.erase (m.headerDhPub, m.n) }, .ok (some pt)), 0)
  | none =>
    if s.isNewDh m.headerDhPub then
      match s.skipMessageKeysCounted P m.pn with
      | (none, derived) => ((s, .ok none), derived)
      | (some s, derived) =>
        match s.dhRatchet P m.headerDhPub drawn with
        | .error s => ((s, .error lowOrder), derived)
        | .ok s =>
          let opened := s.openInChainCounted P m outerAad
          ((opened.1.1, .ok opened.1.2), derived + opened.2)
    else
      let opened := s.openInChainCounted P m outerAad
      ((opened.1.1, .ok opened.1.2), opened.2)

def decryptCounted (s : Ratchet K) (drawn : KeyPair K) (ratchetMsg outerAad : Bytes) :
    (Ratchet K × Except String (Option Bytes)) × Nat :=
  match parseMessage P ratchetMsg with
  | none => ((s, .ok none), 0)
  | some m => s.decryptMessageCounted P drawn m outerAad

variable {P} {s : Ratchet K}

/-- The loop skips up to its target, one key each time. -/
theorem skipLoop_eq (target : UInt32) (s : Ratchet K) (derived : Nat) :
    skipLoop P target s derived =
      ((skipOne P)^[target.toNat - s.nr.toNat] s, derived + (target.toNat - s.nr.toNat)) := by
  induction s, derived using skipLoop.induct P target with
  | case1 s derived less ih =>
    have next : (skipOne P s).nr.toNat = s.nr.toNat + 1 := toNat_succ_nr less
    have less' : s.nr.toNat < target.toNat := less
    have pass : target.toNat - s.nr.toNat = target.toNat - (s.nr.toNat + 1) + 1 := by omega
    rw [skipLoop, if_pos less, ih, next, pass, Function.iterate_succ_apply, Nat.add_assoc,
      Nat.add_comm 1]
  | case2 s derived done =>
    have reached : target.toNat ≤ s.nr.toNat := UInt32.not_lt.mp done
    rw [skipLoop, if_neg done, Nat.sub_eq_zero_of_le reached]
    rfl

theorem skipMessageKeysCounted_value (s : Ratchet K) (target : UInt32) :
    (s.skipMessageKeysCounted P target).1 = s.skipMessageKeys P target := by
  rw [skipMessageKeysCounted, skipMessageKeys, skipLoop_eq]
  split
  · rfl
  · split <;> rfl

theorem skipMessageKeysCounted_derived (s : Ratchet K) (target : UInt32) :
    (s.skipMessageKeysCounted P target).2 ≤ kMaxSkip := by
  rw [skipMessageKeysCounted, skipLoop_eq]
  split
  · exact Nat.zero_le _
  · split
    · exact Nat.zero_le _
    next near =>
      change 0 + (target.toNat - s.nr.toNat) ≤ kMaxSkip
      omega

theorem openInChainCounted_value (s : Ratchet K) (m : RatchetMessage) (outerAad : Bytes) :
    (s.openInChainCounted P m outerAad).1 = s.openInChain P m outerAad := by
  have value := skipMessageKeysCounted_value (P := P) s m.n
  rw [openInChainCounted, openInChain, ← value]
  generalize s.skipMessageKeysCounted P m.n = skipped
  obtain ⟨_ | t, derived⟩ := skipped <;> rfl

theorem openInChainCounted_derived (s : Ratchet K) (m : RatchetMessage) (outerAad : Bytes) :
    (s.openInChainCounted P m outerAad).2 ≤ kMaxSkip + 1 := by
  have few := skipMessageKeysCounted_derived (P := P) s m.n
  rw [openInChainCounted]
  generalize s.skipMessageKeysCounted P m.n = skipped at few
  obtain ⟨_ | t, derived⟩ := skipped
  · exact Nat.le_succ_of_le few
  · exact Nat.succ_le_succ few

theorem decryptMessageCounted_value (s : Ratchet K) (drawn : KeyPair K) (m : RatchetMessage)
    (outerAad : Bytes) :
    (s.decryptMessageCounted P drawn m outerAad).1 = s.decryptMessage P drawn m outerAad := by
  have value := skipMessageKeysCounted_value (P := P) s m.pn
  rw [decryptMessageCounted, decryptMessage, ← value]
  generalize s.skipMessageKeysCounted P m.pn = skipped
  cases s.skipped[(m.headerDhPub, m.n)]? with
  | some key =>
    dsimp only
    cases P.aead.decrypt key (composeAad m.headerDhPub m.pn m.n outerAad) m.ciphertext <;> rfl
  | none =>
    dsimp only
    split
    · obtain ⟨_ | t, derived⟩ := skipped
      · rfl
      · dsimp only
        cases t.dhRatchet P m.headerDhPub drawn with
        | error u => rfl
        | ok u => simp only [openInChainCounted_value]
    · simp only [openInChainCounted_value]

theorem decryptMessageCounted_derived (s : Ratchet K) (drawn : KeyPair K) (m : RatchetMessage)
    (outerAad : Bytes) :
    (s.decryptMessageCounted P drawn m outerAad).2 ≤ 2 * kMaxSkip + 1 := by
  have few := skipMessageKeysCounted_derived (P := P) s m.pn
  rw [decryptMessageCounted]
  generalize s.skipMessageKeysCounted P m.pn = skipped at few
  cases s.skipped[(m.headerDhPub, m.n)]? with
  | some key =>
    dsimp only
    split <;> exact Nat.zero_le _
  | none =>
    dsimp only
    split
    · obtain ⟨_ | t, derived⟩ := skipped
      · exact le_trans few (by decide)
      · dsimp only
        cases t.dhRatchet P m.headerDhPub drawn with
        | error u => exact le_trans few (by decide)
        | ok u =>
          -- the old chain to its end, and the new one up to the message
          have more := openInChainCounted_derived (P := P) u m outerAad
          change derived ≤ kMaxSkip at few
          change derived + (u.openInChainCounted P m outerAad).2 ≤ _
          omega
    · exact le_trans (openInChainCounted_derived s m outerAad) (by decide)

theorem decryptCounted_value (s : Ratchet K) (drawn : KeyPair K) (ratchetMsg outerAad : Bytes) :
    (s.decryptCounted P drawn ratchetMsg outerAad).1 = s.decrypt P drawn ratchetMsg outerAad := by
  rw [decryptCounted, decrypt]
  cases parseMessage P ratchetMsg with
  | none => rfl
  | some m => exact decryptMessageCounted_value s drawn m outerAad

theorem decryptCounted_derived (s : Ratchet K) (drawn : KeyPair K) (ratchetMsg outerAad : Bytes) :
    (s.decryptCounted P drawn ratchetMsg outerAad).2 ≤ 2 * kMaxSkip + 1 := by
  rw [decryptCounted]
  cases parseMessage P ratchetMsg with
  | none => exact Nat.zero_le _
  | some m => exact decryptMessageCounted_derived s drawn m outerAad

/-! ### The size of the cache -/

def Capped (s : Ratchet K) : Prop := s.skipped.size ≤ kMaxSkip

namespace Capped

variable {s t : Ratchet K}

/-- Where the cache is full, an entry goes before one comes. -/
theorem skipOne (capped : Capped s) : Capped (Ratchet.skipOne P s) := by
  refine le_trans ExtTreeMap.size_insertIfNew_le ?_
  split
  next full =>
    split
    next least found =>
      have member : s.skipped.contains least = true := ExtTreeMap.contains_minKey? found
      have some_entry : 1 ≤ s.skipped.size := Nat.le_trans (by decide) full
      rw [ExtTreeMap.size_erase, if_pos member, Nat.sub_add_cancel some_entry]
      exact capped
    next none_least =>
      have empty : s.skipped = ∅ := ExtTreeMap.minKey?_eq_none_iff.mp none_least
      rw [empty]
      exact Nat.le_of_ble_eq_true rfl
  next free => exact Nat.lt_of_not_le free

theorem skipMessageKeys (capped : Capped s) {target : UInt32}
    (skipped : s.skipMessageKeys P target = some t) : Capped t := by
  rw [skipMessageKeys_eq] at skipped
  split at skipped
  · cases skipped
  · obtain rfl := Option.some.inj skipped
    generalize s.ahead target = k
    clear skipped
    induction k with
    | zero => exact capped
    | succ k ih =>
      rw [Function.iterate_succ_apply']
      exact ih.skipOne

/-- A DH step leaves the cache alone, also where it throws half-way. -/
theorem dhRatchet (capped : Capped s) (h : Bytes) (drawn : KeyPair K) :
    (∀ t, s.dhRatchet P h drawn = .ok t → Capped t) ∧
      ∀ t, s.dhRatchet P h drawn = .error t → Capped t := by
  rw [Ratchet.dhRatchet]
  dsimp only
  split
  · exact ⟨by rintro t ⟨⟩, by rintro t ⟨rfl⟩; exact capped⟩
  · split
    · exact ⟨by rintro t ⟨⟩, by rintro t ⟨rfl⟩; exact capped⟩
    · exact ⟨by rintro t ⟨rfl⟩; exact capped, by rintro t ⟨⟩⟩

theorem openInChain (capped : Capped s) (m : RatchetMessage) (outerAad : Bytes) :
    Capped (s.openInChain P m outerAad).1 := by
  rw [Ratchet.openInChain]
  split
  · exact capped
  next t skipped =>
    have moved : Capped t := capped.skipMessageKeys skipped
    exact moved

theorem decryptMessage (capped : Capped s) (drawn : KeyPair K) (m : RatchetMessage)
    (outerAad : Bytes) : Capped (s.decryptMessage P drawn m outerAad).1 := by
  rw [Ratchet.decryptMessage]
  split
  · split
    · exact capped
    · exact le_trans ExtTreeMap.size_erase_le capped
  · split
    · split
      · exact capped
      next t skipped =>
        have moved := (capped.skipMessageKeys skipped).dhRatchet (P := P) m.headerDhPub drawn
        split
        next u threw => exact moved.2 u threw
        next u done => exact (moved.1 u done).openInChain m outerAad
    · exact capped.openInChain m outerAad

theorem decrypt (capped : Capped s) (drawn : KeyPair K) (ratchetMsg outerAad : Bytes) :
    Capped (s.decrypt P drawn ratchetMsg outerAad).1 := by
  rw [Ratchet.decrypt]
  split
  · exact capped
  next m _ => exact capped.decryptMessage drawn m outerAad

theorem after (capped : Capped s) (c : Call K) : Capped (s.after P c) := by
  cases c with
  | encrypt plaintext outerAad =>
    rw [Ratchet.after, Ratchet.encrypt]
    cases s.haveCks <;> exact capped
  | decrypt drawn ratchetMsg outerAad => exact capped.decrypt drawn ratchetMsg outerAad
  | tryDecrypt drawn ratchetMsg outerAad =>
    rw [Ratchet.after, Ratchet.tryDecrypt]
    split
    · exact capped
    · exact capped.decrypt drawn ratchetMsg outerAad

end Capped

theorem Session.capped {past : List (Ratchet K)} {s : Ratchet K} (session : Session P past s) :
    Capped s := by
  induction session with
  | alice created =>
    rw [initAlice] at created
    split at created
    · cases created
    · obtain rfl := Except.ok.inj created
      exact Nat.zero_le _
  | bob sharedSecret ours => exact Nat.zero_le _
  | call earlier c ih => exact ih.after c

/-! ### The filter -/

/-- A message of the current chain that is opened was let through by the filter. -/
theorem headerMatches_of_opened {s : Ratchet K} {drawn : KeyPair K} {m : RatchetMessage}
    {ratchetMsg outerAad pt : Bytes} (armed : s.haveCkr = true)
    (parsed : parseMessage P ratchetMsg = some m)
    (uncached : s.skipped[(m.headerDhPub, m.n)]? = none) (known : s.isNewDh m.headerDhPub = false)
    (opened : (s.decrypt P drawn ratchetMsg outerAad).2 = .ok (some pt)) :
    s.headerMatchesRecvChain P ratchetMsg = true := by
  obtain ⟨received, same⟩ : s.haveDhr = true ∧ m.headerDhPub = s.dhrPub := by
    simpa [isNewDh] using known
  -- otherwise skipping would have thrown
  have near : m.n.toNat ≤ s.nr.toNat + kMaxSkip := by
    by_contra far
    have threw : s.skipMessageKeys P m.n = none := by
      rw [Ratchet.skipMessageKeys, if_neg (by simp [armed]), if_pos (Nat.lt_of_not_le far)]
    simp only [Ratchet.decrypt, parsed, Ratchet.decryptMessage, uncached, known,
      Ratchet.openInChain, threw] at opened
    cases opened
  have within : ¬(m.n > s.nr && m.n.toNat - s.nr.toNat > kMaxSkip) = true := by
    rw [Bool.and_eq_true, decide_eq_true_eq, decide_eq_true_eq]
    rintro ⟨-, beyond⟩
    omega
  rw [headerMatchesRecvChain, parsed]
  dsimp only
  rw [if_neg (by simp [received, armed]), if_neg within]
  exact decide_eq_true same

/-- What bounds skipping in a state. -/
structure SkipsBounded (P : RatchetCrypto K) (s : Ratchet K) : Prop where
  kept : s.skipped.size ≤ kMaxSkip
  derived : ∀ drawn ratchetMsg outerAad,
    (s.decryptCounted P drawn ratchetMsg outerAad).1 = s.decrypt P drawn ratchetMsg outerAad ∧
      (s.decryptCounted P drawn ratchetMsg outerAad).2 ≤ 2 * kMaxSkip + 1
  filtered : s.haveCkr = true → ∀ drawn ratchetMsg outerAad m pt,
    parseMessage P ratchetMsg = some m → s.skipped[(m.headerDhPub, m.n)]? = none →
      s.isNewDh m.headerDhPub = false →
        (s.decrypt P drawn ratchetMsg outerAad).2 = .ok (some pt) →
          s.headerMatchesRecvChain P ratchetMsg = true

/-- In every state of a session. -/
theorem session_skipsBounded {past : List (Ratchet K)} {s : Ratchet K}
    (session : Session P past s) : SkipsBounded P s where
  kept := session.capped
  derived drawn ratchetMsg outerAad :=
    ⟨decryptCounted_value s drawn ratchetMsg outerAad,
      decryptCounted_derived s drawn ratchetMsg outerAad⟩
  filtered armed _ _ _ _ _ parsed uncached known opened :=
    headerMatches_of_opened armed parsed uncached known opened

/-- A responder that has not received anything. -/
theorem session_skipsBounded_bob : SkipsBounded octets (initBob octets 0 (octetPair 2)) :=
  session_skipsBounded (.bob 0 (octetPair 2))

end

end FinBit.Crypto.Ratchet
