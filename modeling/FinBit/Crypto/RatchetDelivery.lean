import FinBit.Crypto.SkippedKeys
import FinBit.Crypto.Conversation

/-! # Delivery

Whatever the network does, the first delivery of a message returns its plaintext and
later ones return nothing. A receiver meets a message in one of four ways: it has been
delivered before, its key is in the cache, it lies ahead in the chain that the receiver
is in, or it is from the peer's next chain.
-/

namespace FinBit.Crypto

open FinBit.Lib Std

variable {K : Type}

/-! ### The cache of a party -/

section Cache

variable {P : RatchetCrypto K} {pubOf : K → Bytes} {G : Chains K} {s top : Nat}
  {cache : ExtTreeMap SkippedIndex K} {Seen Seen' : Nat → Nat → Prop} {got : Nat → Nat} {c i : Nat}

/-- The peer's chains are the same ones two chains on. -/
theorem Chains.Cached.add_two (cached : G.Cached P pubOf s cache Seen got) :
    G.Cached P pubOf (s + 2) cache Seen got := by
  simpa only [Chains.Cached, Nat.add_mod_right] using cached

/-- Opening the next message of a chain leaves nothing behind. -/
theorem Chains.Cached.use (cached : G.Cached P pubOf s cache Seen got) (next : got c = i)
    (grows : ∀ j n, Seen' j n ↔ (j, n) = (c, i) ∨ Seen j n) :
    G.Cached P pubOf s cache Seen' (Function.update got c (i + 1)) := by
  intro h n key
  rw [cached]
  apply exists_congr
  intro j
  have passed_iff : n.toNat < Function.update got c (i + 1) j ∧ ¬Seen' j n.toNat ↔
      n.toNat < got j ∧ ¬Seen j n.toNat := by
    rw [grows]
    by_cases here : j = c
    · subst here
      simp only [Function.update_self, Prod.mk.injEq, true_and, not_or, next]
      constructor
      · rintro ⟨low, other, unseen⟩
        exact ⟨by omega, unseen⟩
      · rintro ⟨low, unseen⟩
        exact ⟨by omega, by omega, unseen⟩
    · simp [here]
  constructor
  · rintro ⟨parity, header, passed, unseen, rfl⟩
    obtain ⟨passed, unseen⟩ := passed_iff.mpr ⟨passed, unseen⟩
    exact ⟨parity, header, passed, unseen, rfl⟩
  · rintro ⟨parity, header, passed, unseen, rfl⟩
    obtain ⟨passed, unseen⟩ := passed_iff.mp ⟨passed, unseen⟩
    exact ⟨parity, header, passed, unseen, rfl⟩

variable (distinct : ∀ j ≤ top, ∀ k ≤ top, G.pub pubOf j = G.pub pubOf k → j = k)
  (below : ∀ j, top < j → got j = 0) (made : c ≤ top)

include distinct below made

/-- The header of an entry determines its chain. -/
theorem Chains.Cached.chain_eq {n j : Nat} (passed : n < got j)
    (header : G.pub pubOf c = G.pub pubOf j) : j = c := by
  have inside : j ≤ top := by
    by_contra beyond
    rw [below j (by omega)] at passed
    omega
  exact (distinct c made j inside header).symm

theorem Chains.Cached.entry_iff (cached : G.Cached P pubOf s cache Seen got)
    (parity : c % 2 ≠ s % 2) (n : UInt32) (key : K) :
    cache[(G.pub pubOf c, n)]? = some key ↔
      n.toNat < got c ∧ ¬Seen c n.toNat ∧ key = G.key P c n.toNat := by
  rw [cached]
  constructor
  · rintro ⟨j, -, header, passed, unseen, rfl⟩
    obtain rfl := Chains.Cached.chain_eq distinct below made passed header
    exact ⟨passed, unseen, rfl⟩
  · rintro ⟨passed, unseen, rfl⟩
    exact ⟨c, parity, rfl, passed, unseen, rfl⟩

/-- Opening a message with its cached key. -/
theorem Chains.Cached.take (cached : G.Cached P pubOf s cache Seen got) {number : UInt32}
    (number_eq : number.toNat = i) (grows : ∀ j n, Seen' j n ↔ (j, n) = (c, i) ∨ Seen j n) :
    G.Cached P pubOf s (cache.erase (G.pub pubOf c, number)) Seen' got := by
  intro h n key
  rw [ExtTreeMap.getElem?_erase]
  simp only [LawfulEqCmp.compare_eq_iff_eq, Prod.mk.injEq, grows]
  by_cases here : G.pub pubOf c = h ∧ number = n
  · -- the entry that is used up
    obtain ⟨rfl, rfl⟩ := here
    simp only [and_self, if_true, reduceCtorEq, false_iff]
    rintro ⟨j, -, header, passed, unseen, -⟩
    obtain rfl := Chains.Cached.chain_eq distinct below made passed header
    exact unseen (.inl ⟨rfl, number_eq⟩)
  · rw [if_neg here, cached]
    apply exists_congr
    intro j
    constructor
    · rintro ⟨parity, rfl, passed, unseen, rfl⟩
      refine ⟨parity, rfl, passed, ?_, rfl⟩
      rintro (⟨rfl, same⟩ | seen)
      · exact here ⟨rfl, UInt32.toNat_inj.mp (number_eq.trans same.symm)⟩
      · exact unseen seen
    · rintro ⟨parity, rfl, passed, unseen, rfl⟩
      exact ⟨parity, rfl, passed, fun seen => unseen (.inr seen), rfl⟩

variable {r : Ratchet K} {count target : Nat} (cached : G.Cached P pubOf s r.skipped Seen got)
  (parity : c % 2 ≠ s % 2) (dhr : r.dhrPub = G.pub pubOf c) (nr : r.nr.toNat = got c)

include cached parity dhr nr

/-- Nothing is cached ahead of the counter. -/
theorem Chains.Cached.ahead_fresh (n : UInt32) (beyond : r.nr.toNat ≤ n.toNat) :
    r.skipped[(r.dhrPub, n)]? = none := by
  apply Option.eq_none_iff_forall_ne_some.mpr
  intro key entry
  rw [dhr] at entry
  have := ((cached.entry_iff distinct below made parity n key).mp entry).1
  omega

/-- Going on to `target` in a chain, `count` keys ahead. -/
theorem Chains.Cached.skip (ckr : r.ckr = P.kdfCk.nextKey^[got c] (G.base c))
    (reached : got c + count = target) (small : target ≤ 2 ^ 32)
    (seen : ∀ n, Seen c n → n < got c)
    (room : ((Ratchet.skipOne P)^[count] r).skipped.size < Ratchet.kMaxSkip) :
    G.Cached P pubOf s ((Ratchet.skipOne P)^[count] r).skipped Seen
      (Function.update got c target) := by
  intro h n key
  have fresh := cached.ahead_fresh distinct below made parity dhr nr
  rw [Ratchet.skipOne_iterate_lookup P (by omega) fresh room, cached, dhr, nr, ckr]
  have key_eq (from_got : got c ≤ n.toNat) :
      P.kdfCk.messageKey (P.kdfCk.nextKey^[n.toNat - got c] (P.kdfCk.nextKey^[got c] (G.base c))) =
        G.key P c n.toNat := by
    rw [← Function.iterate_add_apply, Nat.sub_add_cancel from_got]
    rfl
  constructor
  · rintro (⟨j, odd, header, passed, unseen, rfl⟩ | ⟨rfl, from_got, before, rfl⟩)
    · refine ⟨j, odd, header, ?_, unseen, rfl⟩
      by_cases here : j = c
      · subst here
        rw [Function.update_self]
        omega
      · rwa [Function.update_of_ne here]
    · refine ⟨c, parity, rfl, ?_, fun delivered => ?_, key_eq from_got⟩
      · rw [Function.update_self]
        omega
      · have := seen _ delivered
        omega
  · rintro ⟨j, odd, rfl, passed, unseen, rfl⟩
    by_cases here : j = c
    · subst here
      rw [Function.update_self] at passed
      by_cases old : n.toNat < got j
      · exact .inl ⟨j, odd, rfl, old, unseen, rfl⟩
      · exact .inr ⟨rfl, by omega, by omega, (key_eq (by omega)).symm⟩
    · rw [Function.update_of_ne here] at passed
      exact .inl ⟨j, odd, rfl, passed, unseen, rfl⟩

end Cache

/-! ### Receiving -/

section Receiving

variable {P : RatchetCrypto K} {pubOf : K → Bytes} {shared : K} {G : Chains K} {p q : Party K}
  {sp sq : Nat} {placep placeq : Nat → Nat × Nat} {gotp gotq : Nat → Nat} {drawn : List Bytes}

theorem parse_messageAt (honest : HonestDh P pubOf) (G : Chains K) (k i : Nat)
    (outerAad plaintext : Bytes) :
    Ratchet.parseMessage P (P.message.encode (G.messageAt P pubOf k i outerAad plaintext)) =
      some (G.messageAt P pubOf k i outerAad plaintext) := by
  simp [Ratchet.parseMessage, Option.filter, Chains.messageAt, Chains.pub, honest.length_pub]

/-- Where a message of the peer stands. -/
structure Located (P : RatchetCrypto K) (pubOf : K → Bytes) (G : Chains K) (sp sq k i : Nat)
    (e : SentMessage) : Prop where
  bytes : e.bytes = P.message.encode (G.messageAt P pubOf k i e.outerAad e.plaintext)
  short : i < G.len k
  first : 1 ≤ k
  upto : k ≤ sq
  parity : k % 2 ≠ sp % 2
  number : (UInt32.ofNat i).toNat = i

theorem Joint.located (joint : Joint P pubOf shared G p q sp sq placep placeq gotp gotq drawn)
    {t : Nat} {e : SentMessage} (at_t : q.sent[t]? = some e) :
    Located P pubOf G sp sq (placeq t).1 (placeq t).2 e := by
  obtain ⟨bytes, short, first, upto, parity⟩ := joint.q_sends.located t e at_t
  have apart := joint.apart
  have small := joint.chains.small (placeq t).1
  refine ⟨bytes, short, first, upto, by omega, ?_⟩
  rw [UInt32.toNat_ofNat']
  omega

/-- A key is cached exactly for what was passed over and has not been delivered. -/
theorem Joint.cached_iff (joint : Joint P pubOf shared G p q sp sq placep placeq gotp gotq drawn)
    {k i : Nat} {e : SentMessage} (loc : Located P pubOf G sp sq k i e) (key : K) :
    p.ratchet.skipped[(G.pub pubOf k, UInt32.ofNat i)]? = some key ↔
      i < gotp k ∧ ¬p.Seen placeq k i ∧ key = G.key P k i := by
  have upto := loc.upto
  rw [joint.p_receives.cache.entry_iff joint.chains.distinct _ (by omega) loc.parity, loc.number]
  intro j beyond
  exact joint.p_receives.later j (by omega)

/-- Only the peer's newest chain, and the one before it, are still open. -/
theorem Joint.open_chain (joint : Joint P pubOf shared G p q sp sq placep placeq gotp gotq drawn)
    {k i : Nat} {e : SentMessage} (loc : Located P pubOf G sp sq k i e) (ahead : gotp k ≤ i) :
    k + 1 = sp ∨ k = sp + 1 ∧ sq = sp + 1 := by
  have apart := joint.apart
  have upto := loc.upto
  have parity := loc.parity
  have short := loc.short
  by_cases old : k + 1 < sp
  · have passed := joint.p_receives.past k old parity
    omega
  · omega

/-- The header of a passed chain is known, or new again. -/
theorem Joint.isNewDh_iff (joint : Joint P pubOf shared G p q sp sq placep placeq gotp gotq drawn)
    {k i : Nat} {e : SentMessage} (loc : Located P pubOf G sp sq k i e) :
    p.ratchet.isNewDh (G.pub pubOf k) = true ↔ k + 1 ≠ sp := by
  have receives := joint.p_receives
  have upto := loc.upto
  have first := loc.first
  simp only [Ratchet.isNewDh, receives.have_dhr, Bool.or_eq_true, Bool.not_eq_true',
    decide_eq_false_iff_not, decide_eq_true_eq]
  constructor
  · rintro (unheard | other)
    · omega
    · rintro rfl
      exact other (receives.dhr (by omega)).symm
  · intro other
    by_cases heard : 1 ≤ sp
    · right
      rw [receives.dhr heard]
      intro same
      have := joint.chains.distinct k (by omega) (sp - 1) (by omega) same
      omega
    · exact .inl heard

theorem Chains.Valid.base_eq {top : Nat} (chains : G.Valid P pubOf shared top drawn) {k : Nat}
    (first : 1 ≤ k) (upto : k ≤ top) : ∃ dh, G.base k = (P.kdfRk (G.root k) dh).2 := by
  obtain ⟨dh, -, derived⟩ := chains.derived (k - 1) (by omega)
  rw [Nat.sub_add_cancel first] at derived
  exact ⟨dh, (Prod.mk.inj derived).2.symm⟩

/-- The key of a message whose key has been used up stands nowhere: its own chain is
past it, and no other chain comes to it. -/
theorem Joint.messageKeyFor_ne (free : CollisionFree P shared)
    (joint : Joint P pubOf shared G p q sp sq placep placeq gotp gotq drawn) {k i : Nat}
    {e : SentMessage} (loc : Located P pubOf G sp sq k i e) (passed : i < gotp k)
    (delivered : p.Seen placeq k i) (fresh : KeyPair K) (outerAad plaintext : Bytes) :
    p.ratchet.messageKeyFor P fresh (G.messageAt P pubOf k i outerAad plaintext) ≠
      some (G.key P k i) := by
  have receives := joint.p_receives
  have upto := loc.upto
  have first := loc.first
  have old : k < sp := by
    by_contra beyond
    rw [receives.later k (by omega)] at passed
    omega
  obtain ⟨dh, base⟩ := joint.chains.base_eq first (by omega)
  have seed : P.kdfCk.IsSeed (G.base k) := base ▸ free.chain_seed _ _
  have uncached : p.ratchet.skipped[(G.pub pubOf k, UInt32.ofNat i)]? = none := by
    apply Option.eq_none_iff_forall_ne_some.mpr
    intro key cached
    exact ((joint.cached_iff loc key).mp cached).2.1 delivered
  intro stands
  rcases Ratchet.messageKeyFor_cases P stands with cached | ⟨-, dh', key⟩ | ⟨known, key⟩
  · cases uncached.symm.trans cached
  · -- a new DH step, from a root key that chain `k` was not derived from
    have keys := P.kdfCk.messageKey_injective key
    have same := (P.kdfCk.iterate_inj seed (free.chain_seed _ _) keys).1
    rw [base, joint.p_sends.rk] at same
    have roots := (free.chain_inj same).1
    rw [← Nat.sub_add_cancel first] at roots
    have := joint.chains.root_injective free (by omega) (by omega) roots
    omega
  · -- the chain itself, which has gone on
    have current : k + 1 = sp := by
      by_contra other
      have new := (joint.isNewDh_iff loc).mpr other
      cases known.symm.trans new
    have chain : sp - 1 = k := by omega
    have nr := receives.nr (by omega)
    have ckr := receives.ckr (by omega)
    rw [chain] at nr ckr
    have none_ahead : p.ratchet.ahead (UInt32.ofNat i) = 0 := by
      unfold Ratchet.ahead
      split
      · rw [loc.number, nr]
        omega
      · rfl
    rw [show (G.messageAt P pubOf k i outerAad plaintext).n = UInt32.ofNat i from rfl, none_ahead,
      ckr] at key
    have positions := (P.kdfCk.iterate_inj seed seed (P.kdfCk.messageKey_injective key)).2
    omega

/-- A message that has been delivered is not opened again, and nothing is lost. -/
theorem Joint.replayed (honest : HonestDh P pubOf) (free : CollisionFree P shared)
    (joint : Joint P pubOf shared G p q sp sq placep placeq gotp gotq drawn) {t : Nat}
    {e : SentMessage} (at_t : q.sent[t]? = some e) (again : t ∈ p.seen) (fresh : KeyPair K) :
    p.ratchet.tryDecrypt P fresh e.bytes e.outerAad = (p.ratchet, .ok none) := by
  have loc := joint.located at_t
  have passed : (placeq t).2 < gotp (placeq t).1 := (joint.p_receives.seen t again).2
  have delivered : p.Seen placeq (placeq t).1 (placeq t).2 := ⟨t, again, rfl⟩
  generalize (placeq t).1 = k at *
  generalize (placeq t).2 = i at *
  have parsed := parse_messageAt honest G k i e.outerAad e.plaintext
  rw [← loc.bytes] at parsed
  have nothing : (p.ratchet.decrypt P fresh e.bytes e.outerAad).2 = .ok none := by
    cases outcome : (p.ratchet.decrypt P fresh e.bytes e.outerAad).2 with
    | error err =>
      -- honest headers contribute
      obtain ⟨⟨m, parsed', -, -, -, low⟩, -⟩ :=
        (Ratchet.decrypt_snd_eq_error_iff P _ _ _ _ err).mp outcome
      obtain rfl := Option.some.inj (parsed.symm.trans parsed')
      rcases low with low | low
      · obtain ⟨dh, agreed⟩ := honest.contributes p.ratchet.dhsPriv (G.priv k)
        cases low.symm.trans agreed
      · obtain ⟨dh, agreed⟩ := honest.contributes fresh.priv (G.priv k)
        cases low.symm.trans agreed
    | ok result =>
      cases result with
      | none => rfl
      | some pt =>
        obtain ⟨m, key, parsed', stands, opened⟩ :=
          (Ratchet.decrypt_snd_eq_some_iff P _ _ _ _ pt).mp outcome
        obtain rfl := Option.some.inj (parsed.symm.trans parsed')
        obtain rfl := (P.aead.encrypt_inj (P.aead.decrypt_eq_some_iff.mp opened)).1
        exact absurd stands (joint.messageKeyFor_ne free loc passed delivered fresh _ _)
  apply Prod.ext
  · exact (Ratchet.tryDecrypt_fst_eq_iff P _ _ _ _).mpr nothing
  · rw [Ratchet.tryDecrypt_snd]
    exact nothing

/-! ### A first delivery -/

/-- A message of the peer that has not been delivered before. -/
structure Arrives (P : RatchetCrypto K) (pubOf : K → Bytes) (G : Chains K) (p q : Party K)
    (sp sq : Nat) (placeq : Nat → Nat × Nat) (t k i : Nat) (e : SentMessage) : Prop where
  bound : t < q.sent.length
  place : placeq t = (k, i)
  located : Located P pubOf G sp sq k i e
  unseen : ¬p.Seen placeq k i
  parsed : Ratchet.parseMessage P e.bytes = some (G.messageAt P pubOf k i e.outerAad e.plaintext)

theorem Joint.arrives (honest : HonestDh P pubOf)
    (joint : Joint P pubOf shared G p q sp sq placep placeq gotp gotq drawn) {t : Nat}
    {e : SentMessage} (at_t : q.sent[t]? = some e) (unseen : t ∉ p.seen) :
    ∃ k i, Arrives P pubOf G p q sp sq placeq t k i e := by
  have bound := (List.getElem?_eq_some_iff.mp at_t).1
  have loc := joint.located at_t
  refine ⟨_, _, bound, rfl, loc, ?_, ?_⟩
  · rintro ⟨t', member, same⟩
    have bound' := (joint.p_receives.seen t' member).1
    obtain rfl := joint.q_sends.injective t' bound' t bound same
    exact unseen member
  · rw [loc.bytes]
    exact parse_messageAt honest G _ _ _ _

theorem Arrives.grows {t k i : Nat} {e : SentMessage}
    (arrives : Arrives P pubOf G p q sp sq placeq t k i e) (r : Ratchet K) (j n : Nat) :
    { p with ratchet := r, seen := t :: p.seen : Party K }.Seen placeq j n ↔
      (j, n) = (k, i) ∨ p.Seen placeq j n := by
  rw [← arrives.place]
  simp [Party.Seen, eq_comm]

/-- What has been seen lies below the counters, which only go up. -/
theorem Arrives.seen_below {t k i : Nat} {e : SentMessage} {got got' : Nat → Nat}
    (arrives : Arrives P pubOf G p q sp sq placeq t k i e)
    (receives : Receives P pubOf G p sp q.sent.length placeq got)
    (up : ∀ j, got j ≤ got' j) (here : i < got' k) :
    ∀ t' ∈ t :: p.seen, t' < q.sent.length ∧ (placeq t').2 < got' (placeq t').1 := by
  intro t' member
  rcases List.mem_cons.mp member with rfl | before
  · rw [arrives.place]
    exact ⟨arrives.bound, here⟩
  · obtain ⟨bound, below⟩ := receives.seen t' before
    exact ⟨bound, Nat.lt_of_lt_of_le below (up _)⟩

theorem Receives.seen_lt {count : Nat} (receives : Receives P pubOf G p sp count placeq gotp)
    {k : Nat} (n : Nat) (seen : p.Seen placeq k n) : n < gotp k := by
  obtain ⟨t, member, place⟩ := seen
  have below := (receives.seen t member).2
  rwa [place] at below

theorem Ratchet.tryDecrypt_of_parsed {r r' : Ratchet K} {fresh : KeyPair K} {bytes outerAad : Bytes}
    {m : RatchetMessage} {pt : Bytes} (parsed : Ratchet.parseMessage P bytes = some m)
    (opened : r.decryptMessage P fresh m outerAad = (r', .ok (some pt))) :
    r.tryDecrypt P fresh bytes outerAad = (r', .ok (some pt)) := by
  simp [Ratchet.tryDecrypt, Ratchet.decrypt, parsed, opened]

section First

variable {t k i : Nat} {e : SentMessage}
  (joint : Joint P pubOf shared G p q sp sq placep placeq gotp gotq drawn)
  (arrives : Arrives P pubOf G p q sp sq placeq t k i e) (fresh : KeyPair K)

include joint arrives

/-- A message whose key was cached when its chain went on without it. -/
theorem Joint.opens_cached (passed : i < gotp k) :
    ∃ r, p.ratchet.tryDecrypt P fresh e.bytes e.outerAad = (r, .ok (some e.plaintext)) ∧
      Joint P pubOf shared G { p with ratchet := r, seen := t :: p.seen } q sp sq placep placeq
        gotp gotq drawn := by
  have loc := arrives.located
  have receives := joint.p_receives
  have upto := loc.upto
  have entry := (joint.cached_iff loc (G.key P k i)).mpr ⟨passed, arrives.unseen, rfl⟩
  refine ⟨{ p.ratchet with skipped := p.ratchet.skipped.erase (G.pub pubOf k, UInt32.ofNat i) },
    Ratchet.tryDecrypt_of_parsed arrives.parsed ?_, ?_⟩
  · simp [Ratchet.decryptMessage, Chains.messageAt, entry]
  · exact { joint with
      p_sends := { joint.p_sends with }
      p_receives := { receives with
        cache := receives.cache.take joint.chains.distinct
          (fun j beyond => receives.later j (by omega)) (by omega) loc.number (arrives.grows _)
        seen := arrives.seen_below receives (fun _ => Nat.le_refl _) passed } }

/-- The next messages of the chain that the receiver is in. -/
theorem Joint.opens_current (current : k + 1 = sp) (ahead : gotp k ≤ i)
    (within : p.ratchet.WithinSkip P e.bytes)
    (room : (p.ratchet.tryDecrypt P fresh e.bytes e.outerAad).1.skipped.size < Ratchet.kMaxSkip) :
    ∃ r, p.ratchet.tryDecrypt P fresh e.bytes e.outerAad = (r, .ok (some e.plaintext)) ∧
      Joint P pubOf shared G { p with ratchet := r, seen := t :: p.seen } q sp sq placep placeq
        (Function.update gotp k (i + 1)) gotq drawn := by
  have loc := arrives.located
  have receives := joint.p_receives
  have upto := loc.upto
  have first := loc.first
  have short := loc.short
  have apart := joint.apart
  have small := joint.chains.small k
  have chain : sp - 1 = k := by omega
  have nr := receives.nr (by omega)
  have ckr := receives.ckr (by omega)
  have dhr := receives.dhr (by omega)
  have have_ckr : p.ratchet.haveCkr = true := by
    rw [receives.have_ckr, decide_eq_true_eq]
    omega
  rw [chain] at nr ckr dhr
  have uncached : p.ratchet.skipped[(G.pub pubOf k, UInt32.ofNat i)]? = none := by
    apply Option.eq_none_iff_forall_ne_some.mpr
    intro key cached
    have := ((joint.cached_iff loc key).mp cached).1
    omega
  have known : p.ratchet.isNewDh (G.pub pubOf k) = false := by
    rw [← Bool.not_eq_true, joint.isNewDh_iff loc]
    omega
  have count : p.ratchet.ahead (UInt32.ofNat i) = i - gotp k := by
    simp only [Ratchet.ahead, have_ckr, if_true, loc.number, nr]
  have near : p.ratchet.tooFar (UInt32.ofNat i) = false := by
    have := (within _ arrives.parsed uncached).1
    simpa [Ratchet.refuses, Chains.messageAt, known] using this
  have stretch : P.kdfCk.nextKey^[i - gotp k] p.ratchet.ckr = P.kdfCk.nextKey^[i] (G.base k) := by
    rw [ckr, ← Function.iterate_add_apply, Nat.sub_add_cancel ahead]
  have opened : p.ratchet.decryptMessage P fresh
      (G.messageAt P pubOf k i e.outerAad e.plaintext) e.outerAad =
        ({ p.ratchet with
            ckr := P.kdfCk.nextKey^[i + 1] (G.base k)
            nr := p.ratchet.nr + UInt32.ofNat (i - gotp k) + 1
            skipped := ((Ratchet.skipOne P)^[i - gotp k] p.ratchet).skipped },
          .ok (some e.plaintext)) := by
    simp only [Ratchet.decryptMessage, Chains.messageAt, uncached, known, Ratchet.openInChain_eq,
      near, count, Bool.false_eq_true, if_false, Function.iterate_succ_apply', stretch]
    rw [← Chains.key, P.aead.decrypt_encrypt, Ratchet.skipOne_iterate_frame]
  have outcome := Ratchet.tryDecrypt_of_parsed arrives.parsed opened
  rw [outcome] at room
  refine ⟨_, outcome, ?_⟩
  have after : Function.update gotp k (i + 1) (sp - 1) = i + 1 := by
    rw [chain, Function.update_self]
  have other {j : Nat} (elsewhere : j ≠ k) : Function.update gotp k (i + 1) j = gotp j :=
    Function.update_of_ne elsewhere _ _
  have skipped := receives.cache.skip joint.chains.distinct
    (fun j beyond => receives.later j (by omega)) (by omega) loc.parity dhr nr ckr (Nat.add_sub_cancel' ahead)
    (by omega) receives.seen_lt room
  have cache (r : Ratchet K) := skipped.use (Function.update_self ..) (arrives.grows r)
  simp only [Function.update_idem] at cache
  exact { joint with
    p_sends := { joint.p_sends with }
    p_receives := {
      have_dhr := receives.have_dhr
      dhr := receives.dhr
      have_ckr := receives.have_ckr
      ckr := by
        intro _
        rw [after, chain]
      nr := by
        intro _
        rw [after, UInt32.toNat_add, UInt32.toNat_add, UInt32.toNat_ofNat', nr]
        simp only [UInt32.reduceToNat]
        omega
      le := by
        intro j
        by_cases here : j = k
        · rw [here, Function.update_self]
          omega
        · rw [other here]
          exact receives.le j
      past := by
        intro j passed parity
        rw [other (by omega)]
        exact receives.past j passed parity
      later := by
        intro j beyond
        rw [other (by omega)]
        exact receives.later j beyond
      cache := cache _
      seen := by
        apply arrives.seen_below receives
        · intro j
          by_cases here : j = k
          · rw [here, Function.update_self]
            omega
          · rw [other here]
        · rw [Function.update_self]
          omega } }

end First

/-! ### The peer's next chain -/

/-- The state after a DH step, before anything is opened in the new chain. -/
def Ratchet.stepped (P : RatchetCrypto K) (r : Ratchet K) (h : Bytes) (drawn : KeyPair K)
    (dh reply : K) : Ratchet K where
  dhsPub := drawn.pub
  dhsPriv := drawn.priv
  dhrPub := h
  haveDhr := true
  rk := (P.kdfRk (P.kdfRk r.rk dh).1 reply).1
  cks := (P.kdfRk (P.kdfRk r.rk dh).1 reply).2
  ckr := (P.kdfRk r.rk dh).2
  haveCks := true
  haveCkr := true
  ns := 0
  nr := 0
  pn := r.ns
  skipped := r.skipped

/-- A message of the chain that its header starts. -/
theorem Ratchet.decryptMessage_stepped {r : Ratchet K} {drawn : KeyPair K} {m : RatchetMessage}
    {dh reply : K} (uncached : r.skipped[(m.headerDhPub, m.n)]? = none)
    (new : r.isNewDh m.headerDhPub = true) (near : r.refuses m = false)
    (close : m.n.toNat ≤ kMaxSkip) (received : P.x25519Dh r.dhsPriv m.headerDhPub = some dh)
    (sent : P.x25519Dh drawn.priv m.headerDhPub = some reply) (outerAad : Bytes) :
    let turned := ((skipOne P)^[r.ahead m.pn] r).stepped P m.headerDhPub drawn dh reply
    r.decryptMessage P drawn m outerAad =
      ({ turned with
          ckr := P.kdfCk.nextKey^[m.n.toNat + 1] turned.ckr
          nr := m.n + 1
          skipped := ((skipOne P)^[m.n.toNat] turned).skipped },
        .ok (P.aead.decrypt (P.kdfCk.messageKey (P.kdfCk.nextKey^[m.n.toNat] turned.ckr))
          (composeAad m.headerDhPub m.pn m.n outerAad) m.ciphertext)) := by
  intro turned
  have reached : r.tooFar m.pn = false := by simpa [refuses, new] using near
  have step : ((skipOne P)^[r.ahead m.pn] r).dhRatchet P m.headerDhPub drawn = .ok turned := by
    simp [dhRatchet, received, sent, turned, stepped]
  have in_range : turned.tooFar m.n = false := by
    simpa [tooFar, turned, stepped] using close
  have count : turned.ahead m.n = m.n.toNat := by simp [ahead, turned, stepped]
  have number : turned.nr + UInt32.ofNat m.n.toNat + 1 = m.n + 1 := by simp [turned, stepped]
  simp only [decryptMessage, uncached, new, skipMessageKeys_eq, reached, step, openInChain_eq,
    in_range, count, number, if_true, Bool.false_eq_true, if_false]
  rw [skipOne_iterate_frame]

/-- The chains after chain `k` has been made. -/
def Chains.start (G : Chains K) (k : Nat) (priv root base : K) : Chains K where
  priv := Function.update G.priv k priv
  base := Function.update G.base k base
  root := Function.update G.root (k + 1) root
  len := Function.update G.len k 0

theorem Chains.extends_start (G : Chains K) (top : Nat) (priv root base : K) :
    G.Extends (G.start (top + 1) priv root base) top (top + 1) where
  priv _ below := Function.update_of_ne (by omega) _ _
  base _ below := Function.update_of_ne (by omega) _ _
  root _ below := Function.update_of_ne (by omega) _ _
  len _ below _ := Function.update_of_ne (by omega) _ _
  grown inside := by omega
  recent := by omega

theorem Chains.Valid.start {top : Nat} (chains : G.Valid P pubOf shared top drawn)
    {fresh : KeyPair K} (fresh_honest : fresh.pub = pubOf fresh.priv) (unused : fresh.pub ∉ drawn)
    {reply root base : K} (sent : P.x25519Dh fresh.priv (G.pub pubOf top) = some reply)
    (derived : P.kdfRk (G.root (top + 1)) reply = (root, base)) :
    (G.start (top + 1) fresh.priv root base).Valid P pubOf shared (top + 1)
      (fresh.pub :: drawn) := by
  have on := G.extends_start top fresh.priv root base
  have newest : (G.start (top + 1) fresh.priv root base).pub pubOf (top + 1) = fresh.pub := by
    simp [Chains.pub, Chains.start, fresh_honest]
  -- a chain is an old one or the newest
  have old_or {k : Nat} (below : k ≤ top + 1) : k ≤ top ∨ k = top + 1 := by omega
  constructor
  case first => rw [on.root 1 (by omega), chains.first]
  case derived =>
    intro k below
    rcases old_or (k := k + 1) (by omega) with old | last
    · rw [on.priv (k + 1) old, on.pub_eq (by omega), on.root (k + 1) (by omega),
        on.root (k + 2) (by omega), on.base (k + 1) old]
      exact chains.derived k (by omega)
    · obtain rfl : k = top := by omega
      rw [on.pub_eq (Nat.le_refl _), on.root (k + 1) (Nat.le_refl _)]
      refine ⟨reply, ?_, ?_⟩
      · simpa [Chains.start] using sent
      · simpa [Chains.start] using derived
  case distinct =>
    intro j j_below k k_below same
    rcases old_or j_below with old | rfl <;> rcases old_or k_below with old' | rfl
    · rw [on.pub_eq old, on.pub_eq old'] at same
      exact chains.distinct j old k old' same
    · rw [on.pub_eq old, newest] at same
      exact absurd (same ▸ chains.used j old) unused
    · rw [on.pub_eq old', newest] at same
      exact absurd (same ▸ chains.used k old') unused
    · rfl
  case small =>
    intro k
    by_cases here : k = top + 1
    · simp [Chains.start, here]
    · rw [show (G.start (top + 1) fresh.priv root base).len k = G.len k from
        Function.update_of_ne here _ _]
      exact chains.small k
  case unsent => rw [on.len 0 (by omega) (by omega), chains.unsent]
  case used =>
    intro k below
    rcases old_or below with old | rfl
    · rw [on.pub_eq old]
      exact List.mem_cons_of_mem _ (chains.used k old)
    · rw [newest]
      exact List.mem_cons_self

section Next

variable {t i : Nat} {e : SentMessage}
  (joint : Joint P pubOf shared G p q sp sq placep placeq gotp gotq drawn)
  (arrives : Arrives P pubOf G p q sp sq placeq t (sp + 1) i e)

/-- The counters once the previous chain is complete. -/
def completed (G : Chains K) (sp : Nat) (got : Nat → Nat) : Nat → Nat :=
  Function.update got (sp - 1) (G.len (sp - 1))

include joint

/-- How many keys of the previous chain are passed over. -/
theorem Joint.ahead_pn : p.ratchet.ahead (UInt32.ofNat (G.pn (sp + 1))) =
    if 2 ≤ sp then G.len (sp - 1) - gotp (sp - 1) else 0 := by
  unfold Ratchet.ahead
  rw [joint.p_receives.have_ckr]
  by_cases heard : 2 ≤ sp
  · have small := joint.chains.small (sp - 1)
    have pn : G.pn (sp + 1) = G.len (sp - 1) := if_pos (by omega)
    rw [if_pos (decide_eq_true heard), if_pos heard, joint.p_receives.nr (by omega), pn,
      UInt32.toNat_ofNat']
    omega
  · simp [heard]

/-- The keys of the previous chain that the peer's next chain says were sent. -/
theorem Joint.complete_cached
    (room : ((Ratchet.skipOne P)^[p.ratchet.ahead (UInt32.ofNat (G.pn (sp + 1)))]
      p.ratchet).skipped.size < Ratchet.kMaxSkip) :
    G.Cached P pubOf sp ((Ratchet.skipOne P)^[p.ratchet.ahead (UInt32.ofNat (G.pn (sp + 1)))]
      p.ratchet).skipped (p.Seen placeq) (completed G sp gotp) := by
  have receives := joint.p_receives
  have apart := joint.apart
  have low := receives.le (sp - 1)
  rw [joint.ahead_pn] at room ⊢
  by_cases heard : 2 ≤ sp
  · rw [if_pos heard] at room ⊢
    have small := joint.chains.small (sp - 1)
    exact receives.cache.skip joint.chains.distinct (fun j beyond => receives.later j (by omega))
      (by omega) (by omega) (receives.dhr (by omega)) (receives.nr (by omega)) (receives.ckr heard)
      (Nat.add_sub_cancel' low) (by omega) receives.seen_lt room
  · -- there is no previous chain, or nothing was sent in it
    have chain : sp - 1 = 0 := by omega
    have unsent := joint.chains.unsent
    have nothing : completed G sp gotp = gotp := by
      rw [completed, chain, unsent, Function.update_eq_self_iff]
      rw [chain, unsent] at low
      omega
    rw [if_neg heard, nothing]
    exact receives.cache

include arrives

/-- Nothing of the new chain is cached. -/
theorem Joint.next_fresh (count : Nat) (n : UInt32) (counted : count ≠ 0 → 2 ≤ sp) :
    ((Ratchet.skipOne P)^[count] p.ratchet).skipped[(G.pub pubOf (sp + 1), n)]? = none := by
  have receives := joint.p_receives
  have upto := arrives.located.upto
  apply Ratchet.skipOne_iterate_skipped
  · apply Option.eq_none_iff_forall_ne_some.mpr
    intro key cached
    rw [receives.cache.entry_iff joint.chains.distinct
      (fun j beyond => receives.later j (by omega)) (by omega) (by omega),
      receives.later (sp + 1) (by omega)] at cached
    omega
  · intro j less same
    have heard := counted (by omega)
    have header := (Prod.mk.inj same).1
    rw [receives.dhr (by omega)] at header
    have := joint.chains.distinct (sp - 1) (by omega) (sp + 1) (by omega) header
    omega

/-- A message of the peer's next chain: the receiver completes the previous chain,
follows its peer into the new one and starts a chain of its own. -/
theorem Joint.opens_next (honest : HonestDh P pubOf) (behind : sq = sp + 1) {fresh : KeyPair K}
    (fresh_honest : fresh.pub = pubOf fresh.priv) (unused : fresh.pub ∉ drawn)
    (within : p.ratchet.WithinSkip P e.bytes)
    (room : (p.ratchet.tryDecrypt P fresh e.bytes e.outerAad).1.skipped.size < Ratchet.kMaxSkip) :
    ∃ r G', p.ratchet.tryDecrypt P fresh e.bytes e.outerAad = (r, .ok (some e.plaintext)) ∧
      r.dhsPub = fresh.pub ∧
      Joint P pubOf shared G' { p with ratchet := r, seen := t :: p.seen } q (sp + 2) sq placep
        placeq (Function.update (completed G sp gotp) (sp + 1) (i + 1)) gotq
        (fresh.pub :: drawn) := by
  have loc := arrives.located
  have receives := joint.p_receives
  have sends := joint.p_sends
  have chains := joint.chains
  have short := loc.short
  have small := chains.small (sp + 1)
  have parsed := arrives.parsed
  rw [show max sp sq = sp + 1 by omega] at chains
  -- both sides compute the same DH result
  obtain ⟨dh, made, derived⟩ := chains.derived sp (by omega)
  have received : P.x25519Dh p.ratchet.dhsPriv (G.pub pubOf (sp + 1)) = some dh := by
    rw [sends.priv]
    exact (honest.comm _ _).trans made
  obtain ⟨reply, sent⟩ := honest.contributes fresh.priv (G.priv (sp + 1))
  obtain ⟨root, base, derived'⟩ : ∃ root base, P.kdfRk (G.root (sp + 2)) reply = (root, base) :=
    ⟨_, _, rfl⟩
  have new : p.ratchet.isNewDh (G.pub pubOf (sp + 1)) = true :=
    (joint.isNewDh_iff loc).mpr (by omega)
  have uncached : p.ratchet.skipped[(G.pub pubOf (sp + 1), UInt32.ofNat i)]? = none :=
    joint.next_fresh arrives 0 _ (by simp)
  obtain ⟨near, close⟩ := within _ parsed uncached
  have opened := Ratchet.decryptMessage_stepped uncached new near (close new) received sent
    e.outerAad
  have counted : p.ratchet.ahead (UInt32.ofNat (G.pn (sp + 1))) ≠ 0 → 2 ≤ sp := by
    rw [joint.ahead_pn]
    split <;> simp [*]
  have next_fresh := fun n => joint.next_fresh arrives _ n counted
  have complete := joint.complete_cached
  simp only [Chains.messageAt, Ratchet.stepped, Ratchet.skipOne_iterate_rk,
    Ratchet.skipOne_iterate_ns, sends.rk, derived, derived', loc.number] at opened
  generalize ((Ratchet.skipOne P)^[p.ratchet.ahead (UInt32.ofNat (G.pn (sp + 1)))]
    p.ratchet).skipped = skipped at opened next_fresh complete
  rw [← Chains.key, P.aead.decrypt_encrypt] at opened
  have outcome := Ratchet.tryDecrypt_of_parsed parsed opened
  rw [outcome] at room
  have fewer := Nat.lt_of_le_of_lt (Ratchet.size_le_skipOne_iterate P
    (by rw [UInt32.toNat_zero]; omega) fun n _ => next_fresh n) room
  have elsewhere {j : Nat} (other : j ≠ sp - 1) : completed G sp gotp j = gotp j :=
    Function.update_of_ne other _ _
  have at_start : completed G sp gotp (sp + 1) = 0 := by
    rw [elsewhere (by omega), receives.later (sp + 1) (by omega)]
  have below (j : Nat) (beyond : sp + 1 < j) : completed G sp gotp j = 0 := by
    rw [elsewhere (by omega), receives.later j (by omega)]
  have seen_lt (n : Nat) (seen : p.Seen placeq (sp + 1) n) : n < completed G sp gotp (sp + 1) := by
    rw [elsewhere (by omega)]
    exact receives.seen_lt n seen
  have entered := (complete fewer).skip chains.distinct below (Nat.le_refl _) loc.parity
    (by rfl) (by rw [at_start]; rfl) (by rw [at_start]; rfl) (by rw [at_start, Nat.zero_add])
    (by omega) seen_lt room
  have used (r : Ratchet K) := entered.use (Function.update_self ..) (arrives.grows r)
  simp only [Function.update_idem] at used
  generalize got_eq : Function.update (completed G sp gotp) (sp + 1) (i + 1) = got' at used ⊢
  have at_next : got' (sp + 1) = i + 1 := by
    rw [← got_eq, Function.update_self]
  have at_last : got' (sp - 1) = G.len (sp - 1) := by
    rw [← got_eq, Function.update_of_ne (by omega), completed, Function.update_self]
  have at_other {j : Nat} (ne_next : j ≠ sp + 1) (ne_last : j ≠ sp - 1) : got' j = gotp j := by
    rw [← got_eq, Function.update_of_ne ne_next, elsewhere ne_last]
  have on : G.Extends (G.start (sp + 2) fresh.priv root base) (sp + 1) (sp + 2) :=
    G.extends_start (sp + 1) fresh.priv root base
  have up (j : Nat) : gotp j ≤ got' j := by
    by_cases next : j = sp + 1
    · rw [next, receives.later (sp + 1) (by omega)]
      omega
    · by_cases last : j = sp - 1
      · rw [last, at_last]
        exact receives.le _
      · rw [at_other next last]
  have later (j : Nat) (beyond : sp + 2 ≤ j) : got' j = 0 := by
    rw [at_other (by omega) (by omega), receives.later j (by omega)]
  refine ⟨_, G.start (sp + 2) fresh.priv root base, outcome, rfl, ?_⟩
  constructor
  case chains =>
    rw [show max (sp + 2) sq = sp + 1 + 1 by omega]
    exact chains.start fresh_honest unused sent derived'
  case apart => omega
  case q_sends => exact joint.q_sends.on on (by omega) (by omega)
  case q_receives => exact joint.q_receives.on on (by omega)
  case p_sends =>
    constructor
    case priv => simp [Chains.start]
    case pub => simp [Chains.pub, Chains.start, fresh_honest]
    case have_cks => simp
    case cks => simp [Chains.start]
    case ns => simp [Chains.start]
    case pn =>
      have pn : (G.start (sp + 2) fresh.priv root base).pn (sp + 2) = G.len sp := by
        simp [Chains.pn, Chains.start]
      rw [pn, ← sends.ns, UInt32.ofNat_toNat]
    case rk => simp [Chains.start]
    case located =>
      intro t' e' at_t'
      obtain ⟨bytes, inside, first, upto, parity⟩ := sends.located t' e' at_t'
      rw [on.messageAt_eq (by omega)]
      have := on.len_le (k := (placep t').1) (by omega)
      exact ⟨bytes, by omega, first, by omega, by omega⟩
    case injective => exact sends.injective
  case p_receives =>
    constructor
    case have_dhr => simp
    case dhr =>
      intro _
      exact (on.pub_eq (by omega)).symm
    case have_ckr => simp
    case ckr =>
      intro _
      rw [show sp + 2 - 1 = sp + 1 by omega, at_next, on.base (sp + 1) (Nat.le_refl _)]
    case nr =>
      intro _
      rw [show sp + 2 - 1 = sp + 1 by omega, at_next, UInt32.toNat_add, loc.number]
      simp only [UInt32.reduceToNat]
      omega
    case le =>
      intro j
      by_cases inside : j ≤ sp + 1
      · rw [on.len j inside (by omega)]
        by_cases next : j = sp + 1
        · rw [next, at_next]
          omega
        · by_cases last : j = sp - 1
          · rw [last, at_last]
          · rw [at_other next last]
            exact receives.le j
      · rw [later j (by omega)]
        omega
    case past =>
      intro j passed parity
      rw [on.len j (by omega) (by omega)]
      by_cases last : j = sp - 1
      · rw [last, at_last]
      · rw [at_other (by omega) last]
        exact receives.past j (by omega) (by omega)
    case later => exact later
    case cache => exact ((used _).on on later).add_two
    case seen =>
      apply arrives.seen_below receives up
      omega

end Next

/-! ### One delivery -/

theorem Chains.Valid.more_drawn {top : Nat} (chains : G.Valid P pubOf shared top drawn)
    (pub : Bytes) : G.Valid P pubOf shared top (pub :: drawn) :=
  { chains with used := fun k below => List.mem_cons_of_mem _ (chains.used k below) }

theorem Joint.more_drawn
    (joint : Joint P pubOf shared G p q sp sq placep placeq gotp gotq drawn) (pub : Bytes) :
    Joint P pubOf shared G p q sp sq placep placeq gotp gotq (pub :: drawn) :=
  { joint with chains := joint.chains.more_drawn pub }

/-- To see a message again is to have seen it. -/
theorem Joint.seen_again
    (joint : Joint P pubOf shared G p q sp sq placep placeq gotp gotq drawn) {t : Nat}
    (again : t ∈ p.seen) :
    Joint P pubOf shared G { p with seen := t :: p.seen } q sp sq placep placeq gotp gotq
      drawn := by
  have receives := joint.p_receives
  have same : { p with seen := t :: p.seen : Party K }.Seen placeq = p.Seen placeq := by
    funext k i
    simp only [Party.Seen, List.mem_cons, eq_iff_iff]
    constructor
    · rintro ⟨t', rfl | member, place⟩
      · exact ⟨t', again, place⟩
      · exact ⟨t', member, place⟩
    · rintro ⟨t', member, place⟩
      exact ⟨t', .inr member, place⟩
  exact { joint with
    p_sends := { joint.p_sends with }
    p_receives := { receives with
      cache := by
        rw [same]
        exact receives.cache
      seen := by
        intro t' member
        rcases List.mem_cons.mp member with rfl | before
        · exact receives.seen t' again
        · exact receives.seen t' before } }

section Delivery

variable (honest : HonestDh P pubOf)
  (joint : Joint P pubOf shared G p q sp sq placep placeq gotp gotq drawn) {t : Nat}
  {e : SentMessage} (at_t : q.sent[t]? = some e) {fresh : KeyPair K}
  (fresh_honest : fresh.pub = pubOf fresh.priv) (unused : fresh.pub ∉ drawn)

include honest joint at_t fresh_honest unused

theorem Joint.first_delivery (unseen : t ∉ p.seen) (within : p.ratchet.WithinSkip P e.bytes)
    (room : (p.ratchet.tryDecrypt P fresh e.bytes e.outerAad).1.skipped.size < Ratchet.kMaxSkip) :
    (p.ratchet.tryDecrypt P fresh e.bytes e.outerAad).2 = .ok (some e.plaintext) ∧
      ∃ G' sp' gotp', Joint P pubOf shared G' (p.deliver P t fresh e) q sp' sq placep placeq gotp'
        gotq ((p.deliver P t fresh e).ratchet.dhsPub :: drawn) := by
  obtain ⟨k, i, arrives⟩ := joint.arrives honest at_t unseen
  by_cases passed : i < gotp k
  · obtain ⟨r, outcome, after⟩ := joint.opens_cached arrives fresh passed
    simp only [Party.deliver, outcome, true_and]
    exact ⟨G, sp, gotp, after.more_drawn _⟩
  · rcases joint.open_chain arrives.located (by omega) with current | ⟨rfl, behind⟩
    · obtain ⟨r, outcome, after⟩ :=
        joint.opens_current arrives fresh current (by omega) within room
      simp only [Party.deliver, outcome, true_and]
      exact ⟨G, sp, _, after.more_drawn _⟩
    · obtain ⟨r, G', outcome, in_use, after⟩ :=
        joint.opens_next arrives honest behind fresh_honest unused within room
      simp only [Party.deliver, outcome, true_and, in_use]
      exact ⟨G', sp + 2, _, after⟩

end Delivery

end Receiving

end FinBit.Crypto
