import FinBit.Crypto.Ratchet

/-! # Sessions of the double ratchet

A session is a `DoubleRatchet` that has been initialised on one side and then used
by any sequence of calls, on any byte strings. Two things are asked of every state
that a session reaches: where the keys come from that `decrypt` opens messages
with, and what a `try_decrypt` that returns no plaintext leaves behind.
-/

namespace FinBit.Crypto.Ratchet

open FinBit.Lib Std

variable {K : Type}

/-- A call of one of the three operations; a key pair may be drawn while decrypting. -/
inductive Call (K : Type)
  | encrypt (plaintext outerAad : Bytes)
  | decrypt (drawn : KeyPair K) (ratchetMsg outerAad : Bytes)
  | tryDecrypt (drawn : KeyPair K) (ratchetMsg outerAad : Bytes)

section

variable (P : RatchetCrypto K)

/-- The state after a call, however it returned. -/
def after (s : Ratchet K) : Call K → Ratchet K
  | .encrypt plaintext outerAad =>
    match s.encrypt P plaintext outerAad with
    | .ok (t, _) => t
    | .error _ => s
  | .decrypt drawn ratchetMsg outerAad => (s.decrypt P drawn ratchetMsg outerAad).1
  | .tryDecrypt drawn ratchetMsg outerAad => (s.tryDecrypt P drawn ratchetMsg outerAad).1

/-- A session with all the states it has been in, the present one first. -/
inductive Session : List (Ratchet K) → Ratchet K → Prop
  | alice {drawn : KeyPair K} {sharedSecret : K} {peerDhPub : Bytes} {s : Ratchet K}
      (created : initAlice P drawn sharedSecret peerDhPub = .ok s) : Session [s] s
  | bob (sharedSecret : K) (ours : KeyPair K) :
      Session [initBob P sharedSecret ours] (initBob P sharedSecret ours)
  | call {past : List (Ratchet K)} {s : Ratchet K} (earlier : Session past s) (c : Call K) :
      Session (s.after P c :: past) (s.after P c)

/-- The state in which `decrypt` reaches step 4, where it derives a message key from
the receive chain; `none` if it returns before. -/
def stepFour (s : Ratchet K) (drawn : KeyPair K) (ratchetMsg : Bytes) : Option (Ratchet K) :=
  match parseMessage P ratchetMsg with
  | none => none
  | some m =>
    match s.skipped[(m.headerDhPub, m.n)]? with
    | some _ => none
    | none =>
      if s.isNewDh m.headerDhPub then
        match s.skipMessageKeys P m.pn with
        | none => none
        | some s =>
          match s.dhRatchet P m.headerDhPub drawn with
          | .error _ => none
          | .ok s => s.skipMessageKeys P m.n
      else s.skipMessageKeys P m.n

/-- A chain key that `kdf_rk` produced in a DH step from one of these states, moved
on along its chain. -/
def FromRatchet (past : List (Ratchet K)) (ck : K) : Prop :=
  ∃ s ∈ past, ∃ headerDhPub dh k, P.x25519Dh s.dhsPriv headerDhPub = some dh ∧
    ck = P.kdfCk.nextKey^[k] (P.kdfRk s.rk dh).2

/-- The header names the recorded key of the peer, and no receive chain was ever
made for it. -/
def Unarmed (s : Ratchet K) (ratchetMsg : Bytes) : Prop :=
  ∃ m, parseMessage P ratchetMsg = some m ∧ s.skipped[(m.headerDhPub, m.n)]? = none ∧
    s.haveDhr = true ∧ s.haveCkr = false ∧ m.headerDhPub = s.dhrPub

/-- What every state of a session satisfies: the receive chain, once there is one,
and the keys skipped in it come from a DH step. -/
structure Keyed (past : List (Ratchet K)) (s : Ratchet K) : Prop where
  chain : s.haveCkr = true → FromRatchet P past s.ckr
  cache : ∀ (x : SkippedIndex) (key : K), s.skipped[x]? = some key →
    ∃ ck, FromRatchet P past ck ∧ key = P.kdfCk.messageKey ck

variable {P}

theorem FromRatchet.next {past : List (Ratchet K)} {ck : K} (from_ : FromRatchet P past ck) :
    FromRatchet P past (P.kdfCk.nextKey ck) := by
  obtain ⟨s, member, h, dh, k, derived, rfl⟩ := from_
  exact ⟨s, member, h, dh, k + 1, derived, by rw [Function.iterate_succ_apply']⟩

theorem FromRatchet.mono {past : List (Ratchet K)} {ck : K} (from_ : FromRatchet P past ck)
    (s : Ratchet K) : FromRatchet P (s :: past) ck := by
  obtain ⟨t, member, rest⟩ := from_
  exact ⟨t, List.mem_cons_of_mem s member, rest⟩

/-- A cached key was cached before, or has just been skipped. -/
theorem skipOne_cached {s : Ratchet K} {x : SkippedIndex} {key : K}
    (cached : (skipOne P s).skipped[x]? = some key) :
    x = (s.dhrPub, s.nr) ∧ key = P.kdfCk.messageKey s.ckr ∨ s.skipped[x]? = some key := by
  simp only [skipOne, ExtTreeMap.getElem?_insertIfNew, LawfulEqCmp.compare_eq_iff_eq] at cached
  rcases ite_eq_iff.mp cached with ⟨⟨here, -⟩, new⟩ | ⟨-, old⟩
  · exact .inl ⟨here.symm, by simpa using new.symm⟩
  · -- eviction only removes
    right
    split at old
    · split at old
      · rw [ExtTreeMap.getElem?_erase] at old
        split at old
        · cases old
        · exact old
      · exact old
    · exact old

namespace Keyed

variable {past : List (Ratchet K)} {s t : Ratchet K}

theorem mono (keyed : Keyed P past s) (t : Ratchet K) : Keyed P (t :: past) s where
  chain armed := (keyed.chain armed).mono t
  cache x key cached := by
    obtain ⟨ck, from_, rfl⟩ := keyed.cache x key cached
    exact ⟨ck, from_.mono t, rfl⟩

/-- Only the receive chain and the cache matter. -/
theorem congr (keyed : Keyed P past s) (armed : t.haveCkr = s.haveCkr) (ckr : t.ckr = s.ckr)
    (skipped : t.skipped = s.skipped) : Keyed P past t where
  chain := by
    rw [armed, ckr]
    exact keyed.chain
  cache := by
    rw [skipped]
    exact keyed.cache

theorem skipOne (keyed : Keyed P past s) (armed : s.haveCkr = true) :
    Keyed P past (Ratchet.skipOne P s) where
  chain _ := (keyed.chain armed).next
  cache x key cached := by
    rcases skipOne_cached cached with ⟨-, rfl⟩ | old
    · exact ⟨s.ckr, keyed.chain armed, rfl⟩
    · exact keyed.cache x key old

theorem skipMessageKeys (keyed : Keyed P past s) {target : UInt32}
    (skipped : s.skipMessageKeys P target = some t) : Keyed P past t := by
  rw [skipMessageKeys_eq] at skipped
  split at skipped
  · cases skipped
  · obtain rfl : (Ratchet.skipOne P)^[s.ahead target] s = t := by simpa using skipped
    cases armed : s.haveCkr with
    | false =>
      have none_ahead : s.ahead target = 0 := by simp [ahead, armed]
      rw [none_ahead]
      exact keyed
    | true =>
      -- one pass of the loop after the other
      generalize s.ahead target = k
      clear skipped
      induction k with
      | zero => exact keyed
      | succ k ih =>
        rw [Function.iterate_succ_apply']
        apply ih.skipOne
        rw [skipOne_iterate_haveCkr, armed]

/-- A DH step makes the chain anew, also where it throws half-way. -/
theorem dhRatchet (keyed : Keyed P past s) {origin : Ratchet K} (member : origin ∈ past)
    (root : s.rk = origin.rk) (priv : s.dhsPriv = origin.dhsPriv) (h : Bytes) (drawn : KeyPair K) :
    (∀ t, s.dhRatchet P h drawn = .ok t → Keyed P past t) ∧
      ∀ t, s.dhRatchet P h drawn = .error t → Keyed P past t := by
  cases received : P.x25519Dh s.dhsPriv h with
  | none =>
    simp only [Ratchet.dhRatchet, received, reduceCtorEq, false_imp_iff, implies_true,
      Except.error.injEq, true_and, forall_eq']
    exact keyed.congr rfl rfl rfl
  | some dh =>
    have from_ : FromRatchet P past (P.kdfRk s.rk dh).2 :=
      ⟨origin, member, h, dh, 0, priv ▸ received, by rw [root]; rfl⟩
    cases sent : P.x25519Dh drawn.priv h with
    | none =>
      simp only [Ratchet.dhRatchet, received, sent, reduceCtorEq, false_imp_iff, implies_true,
        Except.error.injEq, true_and, forall_eq']
      exact ⟨fun _ => from_, keyed.cache⟩
    | some reply =>
      simp only [Ratchet.dhRatchet, received, sent, reduceCtorEq, false_imp_iff, implies_true,
        Except.ok.injEq, and_true, forall_eq']
      exact ⟨fun _ => from_, keyed.cache⟩

theorem openInChain (keyed : Keyed P past s) (m : RatchetMessage) (outerAad : Bytes) :
    Keyed P past (s.openInChain P m outerAad).1 := by
  unfold Ratchet.openInChain
  split
  · exact keyed
  next t skipped =>
    have moved := keyed.skipMessageKeys skipped
    exact ⟨fun armed => (moved.chain armed).next, moved.cache⟩

end Keyed

/-! ### From one call to a session -/

theorem skipMessageKeys_origin {s t : Ratchet K} {target : UInt32}
    (skipped : s.skipMessageKeys P target = some t) :
    t.rk = s.rk ∧ t.dhsPriv = s.dhsPriv ∧ t.haveCkr = s.haveCkr := by
  rw [skipMessageKeys_eq] at skipped
  split at skipped
  · cases skipped
  · obtain rfl : (Ratchet.skipOne P)^[s.ahead target] s = t := by simpa using skipped
    simp

/-- Step 2 of `decrypt`, from a state of the session. -/
theorem Keyed.turn {past : List (Ratchet K)} {s t : Ratchet K} (keyed : Keyed P past s)
    (member : s ∈ past) {target : UInt32} (skipped : s.skipMessageKeys P target = some t)
    (h : Bytes) (drawn : KeyPair K) :
    (∀ u, t.dhRatchet P h drawn = .ok u → Keyed P past u) ∧
      ∀ u, t.dhRatchet P h drawn = .error u → Keyed P past u := by
  obtain ⟨root, priv, -⟩ := skipMessageKeys_origin skipped
  exact (keyed.skipMessageKeys skipped).dhRatchet member root priv h drawn

theorem Keyed.decryptMessage {past : List (Ratchet K)} {s : Ratchet K} (keyed : Keyed P past s)
    (member : s ∈ past) (drawn : KeyPair K) (m : RatchetMessage) (outerAad : Bytes) :
    Keyed P past (s.decryptMessage P drawn m outerAad).1 := by
  unfold Ratchet.decryptMessage
  split
  next key cached =>
    split
    · exact keyed
    · refine ⟨keyed.chain, ?_⟩
      intro x key' cached'
      rw [ExtTreeMap.getElem?_erase] at cached'
      split at cached'
      · cases cached'
      · exact keyed.cache x key' cached'
  next =>
    split
    · split
      · exact keyed
      next t skipped =>
        have turned := keyed.turn member skipped m.headerDhPub drawn
        split
        next u threw => exact turned.2 u threw
        next u done => exact (turned.1 u done).openInChain m outerAad
    · exact keyed.openInChain m outerAad

theorem Keyed.decrypt {past : List (Ratchet K)} {s : Ratchet K} (keyed : Keyed P past s)
    (member : s ∈ past) (drawn : KeyPair K) (ratchetMsg outerAad : Bytes) :
    Keyed P past (s.decrypt P drawn ratchetMsg outerAad).1 := by
  unfold Ratchet.decrypt
  split
  · exact keyed
  next m _ => exact keyed.decryptMessage member drawn m outerAad

theorem Keyed.after {past : List (Ratchet K)} {s : Ratchet K} (keyed : Keyed P past s)
    (member : s ∈ past) (c : Call K) : Keyed P past (s.after P c) := by
  cases c with
  | encrypt plaintext outerAad =>
    cases sending : s.haveCks with
    | false => simpa [Ratchet.after, Ratchet.encrypt, sending] using keyed
    | true =>
      simp only [Ratchet.after, Ratchet.encrypt, sending, Bool.true_eq_false, if_false]
      exact keyed.congr rfl rfl rfl
  | decrypt drawn ratchetMsg outerAad => exact keyed.decrypt member drawn ratchetMsg outerAad
  | tryDecrypt drawn ratchetMsg outerAad =>
    simp only [Ratchet.after, Ratchet.tryDecrypt]
    split
    · exact keyed
    · exact keyed.decrypt member drawn ratchetMsg outerAad

theorem Session.mem {past : List (Ratchet K)} {s : Ratchet K} (session : Session P past s) :
    s ∈ past := by
  cases session <;> simp

theorem Session.keyed {past : List (Ratchet K)} {s : Ratchet K} (session : Session P past s) :
    Keyed P past s := by
  induction session with
  | alice created =>
    -- the initiator starts without a receive chain
    unfold initAlice at created
    split at created
    · cases created
    · obtain rfl := Except.ok.inj created
      constructor <;> simp [blank]
  | bob sharedSecret ours => constructor <;> simp [initBob, blank]
  | call earlier c ih => exact (ih.after earlier.mem c).mono _

/-! ### Step 4 -/

/-- Outside the cache, what `decrypt` returns is what step 4 opens. -/
theorem decrypt_eq_some_cases {s : Ratchet K} {drawn : KeyPair K} {ratchetMsg outerAad pt : Bytes}
    (accepted : (s.decrypt P drawn ratchetMsg outerAad).2 = .ok (some pt)) :
    ∃ m key, parseMessage P ratchetMsg = some m ∧
      P.aead.decrypt key (composeAad m.headerDhPub m.pn m.n outerAad) m.ciphertext = some pt ∧
      (s.skipped[(m.headerDhPub, m.n)]? = some key ∨
        ∃ t, s.stepFour P drawn ratchetMsg = some t ∧ key = P.kdfCk.messageKey t.ckr) := by
  cases parsed : parseMessage P ratchetMsg with
  | none => simp [Ratchet.decrypt, parsed] at accepted
  | some m =>
    -- steps 3 and 4, in whichever state they are reached
    have opens {t : Ratchet K} (opened : (t.openInChain P m outerAad).2 = some pt) :
        ∃ u, t.skipMessageKeys P m.n = some u ∧
          P.aead.decrypt (P.kdfCk.messageKey u.ckr)
            (composeAad m.headerDhPub m.pn m.n outerAad) m.ciphertext = some pt := by
      unfold Ratchet.openInChain at opened
      split at opened
      · cases opened
      next u skipped => exact ⟨u, skipped, opened⟩
    simp only [Ratchet.decrypt, parsed, Ratchet.decryptMessage] at accepted
    cases cached : s.skipped[(m.headerDhPub, m.n)]? with
    | some key =>
      simp only [cached] at accepted
      split at accepted
      · cases accepted
      next opened =>
        obtain rfl := Option.some.inj (Except.ok.inj accepted)
        exact ⟨m, key, rfl, opened, .inl cached⟩
    | none =>
      simp only [cached] at accepted
      split at accepted
      next new =>
        split at accepted
        · cases accepted
        next t skipped =>
          split at accepted
          · cases accepted
          next u ratcheted =>
            obtain ⟨v, reached, opened⟩ := opens (Except.ok.inj accepted)
            exact ⟨m, _, rfl, opened, .inr ⟨v, by
              simp [stepFour, parsed, cached, new, skipped, ratcheted, reached], rfl⟩⟩
      next known =>
        obtain ⟨v, reached, opened⟩ := opens (Except.ok.inj accepted)
        exact ⟨m, _, rfl, opened, .inr ⟨v, by simp [stepFour, parsed, cached, known, reached], rfl⟩⟩

theorem Session.stepFour_keyed {past : List (Ratchet K)} {s t : Ratchet K}
    (session : Session P past s) {drawn : KeyPair K} {ratchetMsg : Bytes}
    (armed : ¬s.Unarmed P ratchetMsg) (reached : s.stepFour P drawn ratchetMsg = some t) :
    t.haveCkr = true ∧ FromRatchet P past t.ckr := by
  unfold stepFour at reached
  split at reached
  · cases reached
  next m parsed =>
    split at reached
    · cases reached
    next uncached =>
      split at reached
      next new =>
        -- the DH step of this very call makes the chain
        split at reached
        · cases reached
        next u skipped =>
          split at reached
          · cases reached
          next v ratcheted =>
            have keyed := (session.keyed.turn session.mem skipped m.headerDhPub drawn).1 v ratcheted
            have made : v.haveCkr = true := by
              rcases dhRatchet_cases P u m.headerDhPub drawn with
                ⟨w, threw, -⟩ | ⟨w, dh, reply, done, -, -, -, -, -, have_ckr, -⟩
              · rw [threw] at ratcheted
                cases ratcheted
              · obtain rfl : w = v := Except.ok.inj (done.symm.trans ratcheted)
                exact have_ckr
            have still : t.haveCkr = true := by
              rw [(skipMessageKeys_origin reached).2.2, made]
            exact ⟨still, (keyed.skipMessageKeys reached).chain still⟩
      next known =>
        have have_ckr : s.haveCkr = true := by
          by_contra none
          simp only [isNewDh, Bool.or_eq_true, Bool.not_eq_true', decide_eq_true_eq, not_or,
            Bool.not_eq_false, Decidable.not_not] at known
          exact armed ⟨m, parsed, uncached, known.1, by simpa using none, known.2⟩
        have still : t.haveCkr = true := by
          rw [(skipMessageKeys_origin reached).2.2, have_ckr]
        exact ⟨still, (session.keyed.skipMessageKeys reached).chain still⟩

/-- In every session, the key of step 4 comes from a chain of `kdf_rk`, and so does
the key of every message that is accepted, unless the header names a peer key that no
receive chain was made for. -/
theorem receive_chain_ratcheted {past : List (Ratchet K)} {s : Ratchet K}
    (session : Session P past s) (drawn : KeyPair K) (ratchetMsg outerAad : Bytes) :
    ((∀ t, s.stepFour P drawn ratchetMsg = some t → t.haveCkr = true ∧ FromRatchet P past t.ckr) ∧
      ∀ pt, (s.decrypt P drawn ratchetMsg outerAad).2 = .ok (some pt) ∨
          (s.tryDecrypt P drawn ratchetMsg outerAad).2 = .ok (some pt) →
        ∃ m ck, parseMessage P ratchetMsg = some m ∧ FromRatchet P past ck ∧
          P.aead.decrypt (P.kdfCk.messageKey ck) (composeAad m.headerDhPub m.pn m.n outerAad)
            m.ciphertext = some pt) ↔
      ¬s.Unarmed P ratchetMsg := by
  constructor
  · rintro ⟨ratcheted, -⟩ ⟨m, parsed, uncached, have_dhr, no_chain, header⟩
    -- nothing is skipped, and step 4 works on the chain key that was never set
    have known : s.isNewDh m.headerDhPub = false := by simp [isNewDh, have_dhr, header]
    have reached : s.stepFour P drawn ratchetMsg = some s := by
      simp [stepFour, parsed, uncached, known, skipMessageKeys, no_chain]
    have := (ratcheted s reached).1
    rw [no_chain] at this
    contradiction
  · intro armed
    refine ⟨fun t reached => session.stepFour_keyed armed reached, ?_⟩
    intro pt accepted
    rw [tryDecrypt_snd, or_self] at accepted
    obtain ⟨m, key, parsed, opened, cached | ⟨t, reached, rfl⟩⟩ := decrypt_eq_some_cases accepted
    · obtain ⟨ck, from_, rfl⟩ := session.keyed.cache _ _ cached
      exact ⟨m, ck, parsed, from_, opened⟩
    · exact ⟨m, t.ckr, parsed, (session.stepFour_keyed armed reached).2, opened⟩

/-! ### Atomicity of `try_decrypt` -/

/-- A `try_decrypt` that returns no plaintext leaves the state alone, unless the
header reaches the DH step with a key of low order. -/
theorem tryDecrypt_atomic (s : Ratchet K) (drawn : KeyPair K) (ratchetMsg outerAad : Bytes) :
    ((∀ pt, (s.tryDecrypt P drawn ratchetMsg outerAad).2 ≠ .ok (some pt)) →
      (s.tryDecrypt P drawn ratchetMsg outerAad).1 = s) ↔ ¬s.LowOrder P drawn ratchetMsg := by
  rw [tryDecrypt_fst_eq_iff, tryDecrypt_snd, lowOrder_iff P s drawn ratchetMsg outerAad]
  cases (s.decrypt P drawn ratchetMsg outerAad).2 with
  | error e => simp
  | ok result => cases result <;> simp

end

/-! ### An instance

Scalars act on the last octet of a point by an odd factor: an honest point is never
of low order, and the point that ends in 0 always is. -/

def octetPoint (scalar : Nat) : Bytes := List.replicate 31 0 ++ [UInt8.ofNat (2 * scalar + 1)]

noncomputable def octets : RatchetCrypto Nat where
  zero := 0
  x25519Dh scalar point :=
    let product := UInt8.ofNat (2 * scalar + 1) * point.getLastD 0
    if product = 0 then none else some product.toNat
  kdfRk rk dh := (Nat.pair rk dh + 1, 2 * Nat.pair rk dh + 1)
  kdfCk := .nat
  aead := .ofCountable Nat
  message := .ofCountable _

private theorem parse_octets {m : RatchetMessage} (size : m.headerDhPub.length = 32) :
    parseMessage octets (octets.message.encode m) = some m := by
  simp [parseMessage, size, Option.filter]

/-- A key pair of each number. -/
def octetPair (scalar : Nat) : KeyPair Nat := ⟨octetPoint scalar, scalar⟩

/-- A message under the key that anyone can compute from the chain key `0`, with the
responder's published key as its header. -/
private noncomputable def forged : RatchetMessage where
  headerDhPub := octetPoint 2
  pn := 0
  n := 0
  ciphertext := octets.aead.encrypt (octets.kdfCk.messageKey 0)
    (composeAad (octetPoint 2) 0 0 []) [42]

/-- An initiator that has not heard from its peer. -/
private noncomputable def fresh : Ratchet Nat :=
  { blank octets with
    dhsPub := octetPoint 1
    dhsPriv := 1
    dhrPub := octetPoint 2
    haveDhr := true
    rk := Nat.pair 0 15 + 1
    cks := 2 * Nat.pair 0 15 + 1
    haveCks := true }

private theorem fresh_created :
    initAlice octets (octetPair 1) 0 (octetPoint 2) = .ok fresh := by
  have agreed : octets.x25519Dh 1 (octetPoint 2) = some 15 := by decide
  simp only [initAlice, octetPair, agreed]
  rfl

/-- A fresh initiator accepts a message that its peer never sent. -/
theorem forged_accepted :
    ∃ s t, Session octets [s] s ∧ s.stepFour octets (octetPair 3) (octets.message.encode forged) =
        some t ∧ t.haveCkr = false ∧
      (s.decrypt octets (octetPair 3) (octets.message.encode forged) []).2 = .ok (some [42]) := by
  have parsed : parseMessage octets (octets.message.encode forged) = some forged :=
    parse_octets (by decide)
  have uncached : fresh.skipped[(forged.headerDhPub, forged.n)]? = none := by simp [fresh, blank]
  have known : fresh.isNewDh forged.headerDhPub = false := by simp [isNewDh, fresh, forged]
  have unskipped : fresh.skipMessageKeys octets forged.n = some fresh := rfl
  refine ⟨fresh, fresh, .alice fresh_created, ?_, rfl, ?_⟩
  · simp [stepFour, parsed, uncached, known, unskipped]
  · simp only [decrypt, parsed, decryptMessage, uncached, known, openInChain, unskipped,
      Bool.false_eq_true, if_false]
    exact congrArg Except.ok (octets.aead.decrypt_encrypt _ _ _)

/-- A responder's first message is opened with a key of its first DH step. -/
theorem receive_chain_ratcheted_bob :
    ∃ t, (initBob octets 0 (octetPair 2)).stepFour octets (octetPair 3)
        (octets.message.encode forged) = some t ∧
      t.haveCkr = true ∧ FromRatchet octets [initBob octets 0 (octetPair 2)] t.ckr := by
  have armed : ¬(initBob octets 0 (octetPair 2)).Unarmed octets (octets.message.encode forged) := by
    rintro ⟨m, -, -, have_dhr, -⟩
    simp [initBob, blank] at have_dhr
  have ratcheted :=
    ((receive_chain_ratcheted (.bob 0 (octetPair 2)) (octetPair 3) _ []).mpr armed).1
  have parsed : parseMessage octets (octets.message.encode forged) = some forged :=
    parse_octets (by decide)
  have uncached : (initBob octets 0 (octetPair 2)).skipped[(forged.headerDhPub, forged.n)]? =
      none := by simp [initBob, blank]
  have received : octets.x25519Dh 2 (octetPoint 2) = some 25 := by decide
  have sent : octets.x25519Dh 3 (octetPoint 2) = some 35 := by decide
  have reached : ∃ t, (initBob octets 0 (octetPair 2)).stepFour octets (octetPair 3)
      (octets.message.encode forged) = some t := by
    have header : forged.headerDhPub = octetPoint 2 := rfl
    have first : forged.pn = 0 ∧ forged.n = 0 := ⟨rfl, rfl⟩
    simp only [stepFour, parsed, uncached]
    simp [isNewDh, skipMessageKeys, initBob, blank, dhRatchet, octetPair, header, first, received,
      sent]
  obtain ⟨t, reached⟩ := reached
  exact ⟨t, reached, ratcheted t reached⟩

/-- A header of low order, which no honest peer sends. -/
private def lowHeader : RatchetMessage := ⟨List.replicate 32 0, 0, 0, []⟩

/-- `try_decrypt` throws, and the responder has lost its way: the key of low order is
recorded as the peer's. -/
theorem low_order_recorded :
    ∃ s t, Session octets [s] s ∧ s.tryDecrypt octets (octetPair 3)
        (octets.message.encode lowHeader) [] = (t, .error lowOrder) ∧
      s.haveDhr = false ∧ t.haveDhr = true := by
  have parsed : parseMessage octets (octets.message.encode lowHeader) = some lowHeader :=
    parse_octets (by decide)
  have low : octets.x25519Dh 2 lowHeader.headerDhPub = none := by decide
  have stuck : (initBob octets 0 (octetPair 2)).dhRatchet octets lowHeader.headerDhPub
      (octetPair 3) = .error { initBob octets 0 (octetPair 2) with
        dhrPub := lowHeader.headerDhPub, haveDhr := true } := by
    simp only [dhRatchet, initBob, octetPair, low]
    rfl
  have uncached : (initBob octets 0 (octetPair 2)).skipped[(lowHeader.headerDhPub, lowHeader.n)]? =
      none := by simp [initBob, blank]
  have new : (initBob octets 0 (octetPair 2)).isNewDh lowHeader.headerDhPub = true := rfl
  have unskipped : (initBob octets 0 (octetPair 2)).skipMessageKeys octets lowHeader.pn =
      some (initBob octets 0 (octetPair 2)) := rfl
  refine ⟨initBob octets 0 (octetPair 2), { initBob octets 0 (octetPair 2) with
    dhrPub := lowHeader.headerDhPub, haveDhr := true }, .bob 0 (octetPair 2), ?_, rfl, rfl⟩
  simp only [tryDecrypt, decrypt, parsed, decryptMessage, uncached, new, unskipped, if_true, stuck]

end FinBit.Crypto.Ratchet
