import FinBit.Crypto.Ratchet

/-! # Two ratchets in step

One side is always ahead: it has ratcheted last, and its sending chain starts from
a root key that the other side can still compute. Messages that were sent and have
not arrived are part of the picture. Towards the side that is behind they may come
from two chains, towards the side that is ahead from one.

What a queue holds is left open: `Sent key header pn n e` says that the element `e`
carries a message with this header, encrypted under this key. Delivery is in order
in each direction, so no key is ever skipped.
-/

namespace FinBit.Crypto

open FinBit.Lib Std

variable {K : Type}

/-- What two honest parties rely on: public keys have their size, and the DH
results of two honest keys agree and exist. -/
structure HonestDh (P : RatchetCrypto K) (pubOf : K → Bytes) : Prop where
  length_pub : ∀ k, (pubOf k).length = 32
  comm : ∀ a b, P.x25519Dh a (pubOf b) = P.x25519Dh b (pubOf a)
  contributes : ∀ a b, ∃ dh, P.x25519Dh a (pubOf b) = some dh

namespace Ratchet

/-! ### Decryption in order -/

section InOrder

variable (P : RatchetCrypto K) {s : Ratchet K} {h ct outerAad : Bytes} {pn n : UInt32}

/-- The next message of the current chain. -/
theorem decryptMessage_next (empty : s.skipped = ∅) (known : s.isNewDh h = false) (next : n = s.nr)
    (drawn : KeyPair K) :
    s.decryptMessage P drawn ⟨h, pn, n, ct⟩ outerAad =
      ({ s with ckr := P.kdfCk.nextKey s.ckr, nr := s.nr + 1 },
        .ok (P.aead.decrypt (P.kdfCk.messageKey s.ckr) (composeAad h pn n outerAad) ct)) := by
  subst next
  have in_range : s.tooFar s.nr = false := by simp [tooFar]
  have none_ahead : s.ahead s.nr = 0 := by simp [ahead]
  simp [decryptMessage, empty, known, openInChain_eq, in_range, none_ahead]

/-- The state after the first message of a new chain. -/
def turned (s : Ratchet K) (h : Bytes) (drawn : KeyPair K) (dh reply : K) : Ratchet K where
  dhsPub := drawn.pub
  dhsPriv := drawn.priv
  dhrPub := h
  haveDhr := true
  rk := (P.kdfRk (P.kdfRk s.rk dh).1 reply).1
  cks := (P.kdfRk (P.kdfRk s.rk dh).1 reply).2
  ckr := P.kdfCk.nextKey (P.kdfRk s.rk dh).2
  haveCks := true
  haveCkr := true
  ns := 0
  nr := 1
  pn := s.ns
  skipped := ∅

/-- The first message of a new chain, when the previous one has arrived whole. -/
theorem decryptMessage_first {drawn : KeyPair K} {dh reply : K} (empty : s.skipped = ∅)
    (new : s.isNewDh h = true) (whole : pn = s.nr)
    (received : P.x25519Dh s.dhsPriv h = some dh) (sent : P.x25519Dh drawn.priv h = some reply) :
    s.decryptMessage P drawn ⟨h, pn, 0, ct⟩ outerAad =
      (s.turned P h drawn dh reply,
        .ok (P.aead.decrypt (P.kdfCk.messageKey (P.kdfRk s.rk dh).2) (composeAad h pn 0 outerAad)
          ct)) := by
  subst whole
  have none_skipped : s.skipMessageKeys P s.nr = some s := by
    simp [skipMessageKeys_eq, tooFar, ahead]
  simp [decryptMessage, empty, new, none_skipped, dhRatchet, received, sent, openInChain_eq,
    tooFar, ahead, turned]

end InOrder

end Ratchet

/-! ### Chains in flight -/

section

variable {E : Type} (P : RatchetCrypto K) (pubOf : K → Bytes)
  (Sent : K → Bytes → UInt32 → UInt32 → E → Prop)

/-- The queue holds consecutive messages of one chain, from a chain key and a
number on. -/
def ChainOf (h : Bytes) (pn : UInt32) : K → UInt32 → List E → Prop
  | _, _, [] => True
  | ck, n, e :: rest =>
    Sent (P.kdfCk.messageKey ck) h pn n e ∧ ChainOf h pn (P.kdfCk.nextKey ck) (n + 1) rest

variable {P Sent}

private theorem count_shift (n k : UInt32) : n + (k + 1) = n + 1 + k := by
  rw [UInt32.add_comm k, UInt32.add_assoc]

theorem ChainOf.append {h : Bytes} {pn n : UInt32} {ck : K} {q : List E} {e : E}
    (chain : ChainOf P Sent h pn ck n q)
    (sent : Sent (P.kdfCk.messageKey (P.kdfCk.nextKey^[q.length] ck)) h pn
      (n + UInt32.ofNat q.length) e) :
    ChainOf P Sent h pn ck n (q ++ [e]) := by
  induction q generalizing ck n with
  | nil => exact ⟨by simpa using sent, trivial⟩
  | cons first rest ih =>
    refine ⟨chain.1, ih chain.2 ?_⟩
    simpa [Function.iterate_succ_apply, UInt32.ofNat_add, count_shift] using sent

variable (P Sent)

/-- `ahead` has ratcheted last. The messages towards `behind` are `old`, what is
left of the chain before, and then `new`, the current chain, which starts at `ck`. -/
structure SyncedWith (ahead behind : Ratchet K) (ck : K) (old new toAhead : List E) : Prop where
  honest_ahead : ahead.dhsPub = pubOf ahead.dhsPriv
  honest_behind : behind.dhsPub = pubOf behind.dhsPriv
  seen : ahead.haveDhr = true ∧ ahead.dhrPub = behind.dhsPub
  unseen : behind.isNewDh ahead.dhsPub = true
  root : ∃ dh, P.x25519Dh behind.dhsPriv ahead.dhsPub = some dh ∧
    P.kdfRk behind.rk dh = (ahead.rk, ck)
  sending : ahead.haveCks = true
  new_chain : ChainOf P Sent ahead.dhsPub ahead.pn ck 0 new
  new_key : ahead.cks = P.kdfCk.nextKey^[new.length] ck
  new_count : ahead.ns = UInt32.ofNat new.length
  old_chain : ∃ pn, ChainOf P Sent behind.dhrPub pn behind.ckr behind.nr old
  old_count : ahead.pn = behind.nr + UInt32.ofNat old.length
  old_known : old ≠ [] → behind.haveDhr = true
  reply_chain : ChainOf P Sent behind.dhsPub behind.pn ahead.ckr ahead.nr toAhead
  reply_key : behind.cks = P.kdfCk.nextKey^[toAhead.length] ahead.ckr
  reply_count : behind.ns = ahead.nr + UInt32.ofNat toAhead.length
  none_skipped : ahead.skipped = ∅ ∧ behind.skipped = ∅

def Synced (ahead behind : Ratchet K) (toBehind toAhead : List E) : Prop :=
  ∃ ck old new, toBehind = old ++ new ∧ SyncedWith P pubOf Sent ahead behind ck old new toAhead

/-- Two ratchets in step, whichever is ahead. -/
def Linked (a b : Ratchet K) (toB toA : List E) : Prop :=
  Synced P pubOf Sent a b toB toA ∨ Synced P pubOf Sent b a toA toB

variable {P pubOf Sent}

theorem Linked.symm {a b : Ratchet K} {toB toA : List E} (linked : Linked P pubOf Sent a b toB toA) :
    Linked P pubOf Sent b a toA toB :=
  Or.symm linked

theorem Linked.honest {a b : Ratchet K} {toB toA : List E}
    (linked : Linked P pubOf Sent a b toB toA) : a.dhsPub = pubOf a.dhsPriv := by
  rcases linked with ⟨ck, old, new, -, synced⟩ | ⟨ck, old, new, -, synced⟩
  · exact synced.honest_ahead
  · exact synced.honest_behind

/-- An initiator and the responder it will meet. -/
theorem Linked.initial (honest : HonestDh P pubOf) {drawn ours : KeyPair K} {shared : K}
    {a : Ratchet K} (drawn_honest : drawn.pub = pubOf drawn.priv)
    (ours_honest : ours.pub = pubOf ours.priv)
    (created : Ratchet.initAlice P drawn shared ours.pub = .ok a) :
    Linked P pubOf Sent a (Ratchet.initBob P shared ours) [] [] := by
  obtain ⟨dh, agreed⟩ := honest.contributes drawn.priv ours.priv
  rw [← ours_honest] at agreed
  have same : P.x25519Dh ours.priv drawn.pub = some dh := by
    rw [drawn_honest, honest.comm, ← ours_honest, agreed]
  simp only [Ratchet.initAlice, agreed, Except.ok.injEq] at created
  subst created
  refine .inl ⟨(P.kdfRk shared dh).2, [], [], rfl, ?_⟩
  constructor
  case root => exact ⟨dh, same, rfl⟩
  all_goals simp [Ratchet.initBob, Ratchet.blank, Ratchet.isNewDh, ChainOf, drawn_honest, ours_honest]

/-- Sending from either side extends the chain in flight. -/
theorem Linked.send {a b a' : Ratchet K} {toB toA : List E} {pt aad bytes : Bytes} {e : E}
    (linked : Linked P pubOf Sent a b toB toA) (encrypted : a.encrypt P pt aad = .ok (a', bytes))
    (sent : Sent (P.kdfCk.messageKey a.cks) a.dhsPub a.pn a.ns e) :
    Linked P pubOf Sent a' b (toB ++ [e]) toA := by
  have step : a' = { a with cks := P.kdfCk.nextKey a.cks, ns := a.ns + 1 } := by
    unfold Ratchet.encrypt at encrypted
    split at encrypted
    · cases encrypted
    · simp only [Except.ok.injEq, Prod.mk.injEq] at encrypted
      exact encrypted.1.symm
  subst step
  rcases linked with ⟨ck, old, new, rfl, synced⟩ | ⟨ck, old, new, rfl, synced⟩
  · left
    have chain : ChainOf P Sent a.dhsPub a.pn ck 0 (new ++ [e]) := by
      apply synced.new_chain.append
      rw [← synced.new_key, UInt32.zero_add, ← synced.new_count]
      exact sent
    exact ⟨ck, old, new ++ [e], List.append_assoc _ _ _, { synced with
      new_chain := chain
      new_key := by simp [synced.new_key, Function.iterate_succ_apply']
      new_count := by simp [synced.new_count, UInt32.ofNat_add] }⟩
  · right
    have chain : ChainOf P Sent a.dhsPub a.pn b.ckr b.nr (toB ++ [e]) := by
      apply synced.reply_chain.append
      rw [← synced.reply_key, ← synced.reply_count]
      exact sent
    exact ⟨ck, old, new, rfl, { synced with
      reply_chain := chain
      reply_key := by simp [synced.reply_key, Function.iterate_succ_apply']
      reply_count := by simp [synced.reply_count, UInt32.ofNat_add, UInt32.add_assoc] }⟩

/-- Delivery to either side, in order: the ratchet finds the key that the message
was encrypted under. The key pair that it may draw is honest and not the one it has. -/
theorem Linked.receive (honest : HonestDh P pubOf) {a b : Ratchet K} {toB rest : List E} {e : E}
    (linked : Linked P pubOf Sent a b toB (e :: rest)) {drawn : KeyPair K}
    (drawn_honest : drawn.pub = pubOf drawn.priv) (fresh : drawn.pub ≠ a.dhsPub) :
    ∃ key h pn n a', Sent key h pn n e ∧
      (∀ ct aad, a.decryptMessage P drawn ⟨h, pn, n, ct⟩ aad =
        (a', .ok (P.aead.decrypt key (Ratchet.composeAad h pn n aad) ct))) ∧
      Linked P pubOf Sent a' b toB rest := by
  rcases linked with ⟨ck, old, new, rfl, synced⟩ | ⟨ck, old, new, parts, synced⟩
  · -- the side that is ahead receives a reply
    have known : a.isNewDh b.dhsPub = false := by
      simp [Ratchet.isNewDh, synced.seen.1, synced.seen.2]
    refine ⟨_, _, _, _, _, synced.reply_chain.1, fun ct aad =>
      Ratchet.decryptMessage_next P synced.none_skipped.1 known rfl drawn, ?_⟩
    exact .inl ⟨ck, old, new, rfl, { synced with
      reply_chain := synced.reply_chain.2
      reply_key := by simpa [Function.iterate_succ_apply] using synced.reply_key
      reply_count := by simpa [UInt32.ofNat_add, count_shift] using synced.reply_count }⟩
  · cases old with
    | cons first older =>
      -- the side that is behind receives the rest of the chain it knows
      obtain ⟨rfl, rfl⟩ : e = first ∧ rest = older ++ new := by simpa using parts
      obtain ⟨pn, chain⟩ := synced.old_chain
      have known : a.isNewDh a.dhrPub = false := by
        simp [Ratchet.isNewDh, synced.old_known (by simp)]
      refine ⟨_, _, _, _, _, chain.1, fun ct aad =>
        Ratchet.decryptMessage_next P synced.none_skipped.2 known rfl drawn, ?_⟩
      exact .inr ⟨ck, older, new, rfl, { synced with
        unseen := by simpa [Ratchet.isNewDh] using synced.unseen
        old_chain := ⟨pn, chain.2⟩
        old_count := by simpa [UInt32.ofNat_add, count_shift] using synced.old_count
        old_known := fun _ => synced.old_known (by simp) }⟩
    | nil =>
      -- it sees the other side's new key, and is ahead from now on
      obtain rfl : new = e :: rest := by simpa using parts.symm
      obtain ⟨dh, received, derived⟩ := synced.root
      obtain ⟨reply, sent⟩ := honest.contributes drawn.priv b.dhsPriv
      rw [← synced.honest_ahead] at sent
      have agreed : P.x25519Dh b.dhsPriv drawn.pub = some reply := by
        rw [drawn_honest, honest.comm, ← synced.honest_ahead, sent]
      have whole : b.pn = a.nr := by simpa using synced.old_count
      refine ⟨P.kdfCk.messageKey ck, _, _, _, a.turned P b.dhsPub drawn dh reply,
        synced.new_chain.1, fun ct aad => ?_, ?_⟩
      · rw [Ratchet.decryptMessage_first P synced.none_skipped.2 synced.unseen whole received sent,
          derived]
      · left
        refine ⟨(P.kdfRk b.rk reply).2, toB, [], by simp, ?_⟩
        exact {
          honest_ahead := drawn_honest
          honest_behind := synced.honest_ahead
          seen := ⟨rfl, rfl⟩
          unseen := by simp [Ratchet.turned, Ratchet.isNewDh, synced.seen.2, fresh]
          root := ⟨reply, agreed, by simp [Ratchet.turned, derived]⟩
          sending := rfl
          new_chain := trivial
          new_key := by simp [Ratchet.turned, derived]
          new_count := rfl
          old_chain := ⟨a.pn, by rw [synced.seen.2]; exact synced.reply_chain⟩
          old_count := synced.reply_count
          old_known := fun _ => synced.seen.1
          reply_chain := by
            simp only [Ratchet.turned, derived]
            exact synced.new_chain.2
          reply_key := by
            simpa [Ratchet.turned, derived, Function.iterate_succ_apply] using synced.new_key
          reply_count := by
            simpa [Ratchet.turned, UInt32.ofNat_add, UInt32.add_comm] using synced.new_count
          none_skipped := ⟨rfl, synced.none_skipped.1⟩ }

end

end FinBit.Crypto
