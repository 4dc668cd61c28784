import FinBit.Crypto.SendingKeys

/-! # Sessions with a secret each

Whatever a session is used for, the keys that it encrypts under and the keys that it opens messages
with are derived from its shared secret. There is one exception: an initiator who has no receiving
chain yet takes the all-zero array for one, if a message names the key that it was initialised with.
So two sessions with secrets of their own have no message key in common, and neither opens what the
other's peer has encrypted.
-/

namespace FinBit.Crypto.Ratchet

open FinBit.Lib Std

variable {K : Type}

section

variable (P : RatchetCrypto K) (pubOf : K → Bytes)

/-- The halves of a key pair that a call may draw belong together. -/
def Call.Paired : Call K → Prop
  | .encrypt .. => True
  | .decrypt drawn .. | .tryDecrypt drawn .. => drawn.pub = pubOf drawn.priv

/-- The states of a session: it is created from the secret on one side and then used by any calls
on any byte strings. -/
inductive Reached (shared : K) : Ratchet K → Prop
  | alice {drawn : KeyPair K} {peerDhPub : Bytes} {s : Ratchet K}
      (paired : drawn.pub = pubOf drawn.priv)
      (created : initAlice P drawn shared peerDhPub = .ok s) : Reached shared s
  | bob (ours : KeyPair K) (paired : ours.pub = pubOf ours.priv) :
      Reached shared (initBob P shared ours)
  | call {s : Ratchet K} (earlier : Reached shared s) (c : Call K) (paired : c.Paired pubOf) :
      Reached shared (s.after P c)

/-- No key derivation results in the all-zero array. -/
structure ZeroUnderived : Prop where
  seed : P.kdfCk.IsSeed P.zero
  chain : ∀ r d, (P.kdfRk r d).2 ≠ P.zero

/-- A key of one of the chains that come from a secret. -/
def ChainKey (shared ck : K) : Prop := ∃ d i, ChainAt P shared d i ck

/-- What a `decrypt` does to the key pair and to a receiving chain that has not been made. -/
structure Moves (drawn : KeyPair K) (s t : Ratchet K) : Prop where
  pair : (t.dhsPub = s.dhsPub ∧ t.dhsPriv = s.dhsPriv) ∨
    t.dhsPub = drawn.pub ∧ t.dhsPriv = drawn.priv
  unmade : t.haveCkr = false → s.haveCkr = false ∧ ∃ k, t.ckr = P.kdfCk.nextKey^[k] s.ckr

end

variable {P : RatchetCrypto K} {pubOf : K → Bytes} {shared shared' : K} {s t u : Ratchet K}
  {drawn : KeyPair K} {m : RatchetMessage}

/-! ### Keys of different secrets -/

theorem RootAt.secret_unique (free : CollisionFree P shared) (free' : CollisionFree P shared')
    {i j : Nat} {rk : K} (left : RootAt P shared i rk) (right : RootAt P shared' j rk) :
    shared = shared' := by
  induction left generalizing j with
  | shared =>
    generalize root : shared = rk at right
    cases right with
    | shared => rfl
    | step => exact absurd root.symm (free.shared_root _ _)
  | @step depth r earlier dh ih =>
    generalize root : (P.kdfRk r dh).1 = rk at right
    cases right with
    | shared => exact absurd root (free'.shared_root _ _)
    | step earlier' dh' =>
      obtain ⟨rfl, -⟩ := free.root_inj root
      exact ih earlier'

theorem ChainKey.secret_unique (free : CollisionFree P shared) (free' : CollisionFree P shared')
    {ck : K} (left : ChainKey P shared ck) (right : ChainKey P shared' ck) : shared = shared' := by
  obtain ⟨d, i, rk, dh, root, rfl⟩ := left
  obtain ⟨d', i', rk', dh', root', same⟩ := right
  obtain ⟨seeds, -⟩ := P.kdfCk.iterate_inj (free.chain_seed rk dh) (free.chain_seed rk' dh') same
  obtain ⟨rfl, -⟩ := free.chain_inj seeds
  exact root.secret_unique free free' root'

theorem ChainKey.ne_zero (free : CollisionFree P shared) (zero : ZeroUnderived P) {ck : K}
    (derived : ChainKey P shared ck) (k : Nat) : ck ≠ P.kdfCk.nextKey^[k] P.zero := by
  rintro same
  obtain ⟨d, i, rk, dh, -, rfl⟩ := derived
  exact zero.chain rk dh (P.kdfCk.iterate_inj (free.chain_seed rk dh) zero.seed same).1

theorem ChainKey.next {ck : K} (derived : ChainKey P shared ck) (k : Nat) :
    ChainKey P shared (P.kdfCk.nextKey^[k] ck) := by
  obtain ⟨d, i, rk, dh, root, rfl⟩ := derived
  exact ⟨d, k + i, rk, dh, root, (Function.iterate_add_apply _ k i _).symm⟩

/-! ### What a call changes -/

namespace Moves

theorem refl (drawn : KeyPair K) (s : Ratchet K) : Moves P drawn s s :=
  ⟨.inl ⟨rfl, rfl⟩, fun unmade => ⟨unmade, 0, rfl⟩⟩

theorem trans (first : Moves P drawn s t) (second : Moves P drawn t u) : Moves P drawn s u where
  pair := by
    obtain ⟨pub, priv⟩ | fresh := second.pair
    · rw [pub, priv]
      exact first.pair
    · exact .inr fresh
  unmade none := by
    obtain ⟨none', k, later⟩ := second.unmade none
    obtain ⟨none'', i, earlier⟩ := first.unmade none'
    exact ⟨none'', k + i, by rw [later, earlier, Function.iterate_add_apply]⟩

theorem skip (drawn : KeyPair K) {target : UInt32}
    (skipped : s.skipMessageKeys P target = some t) : Moves P drawn s t := by
  rw [skipMessageKeys_eq] at skipped
  obtain rfl := Option.some.inj (Option.ite_none_left_eq_some.mp skipped).2
  refine ⟨.inl ⟨?_, skipOne_iterate_dhsPriv P s _⟩, fun none => ⟨?_, _, skipOne_iterate_ckr P s _⟩⟩
  · rw [skipOne_iterate_frame]
  · rw [← skipOne_iterate_haveCkr P s (s.ahead target)]
    exact none

theorem openInChain (drawn : KeyPair K) (s : Ratchet K) (m : RatchetMessage) (outerAad : Bytes) :
    Moves P drawn s (s.openInChain P m outerAad).1 := by
  rw [Ratchet.openInChain]
  cases skipped : s.skipMessageKeys P m.n with
  | none => exact refl drawn s
  | some t =>
    refine (skip drawn skipped).trans ⟨.inl ⟨rfl, rfl⟩, fun none => ⟨none, 1, rfl⟩⟩

/-- A DH step draws a key pair and makes a chain, unless it throws before. -/
theorem dhRatchet (drawn : KeyPair K) (s : Ratchet K) (h : Bytes) :
    (∃ t, s.dhRatchet P h drawn = .error t ∧ Moves P drawn s t) ∨
      ∃ t, s.dhRatchet P h drawn = .ok t ∧ Moves P drawn s t := by
  cases received : P.x25519Dh s.dhsPriv h with
  | none =>
    left
    simp only [Ratchet.dhRatchet, received]
    exact ⟨_, rfl, .inl ⟨rfl, rfl⟩, fun none => ⟨none, 0, rfl⟩⟩
  | some dh =>
    cases sent : P.x25519Dh drawn.priv h with
    | none =>
      left
      simp only [Ratchet.dhRatchet, received, sent]
      exact ⟨_, rfl, .inr ⟨rfl, rfl⟩, by simp⟩
    | some reply =>
      right
      simp only [Ratchet.dhRatchet, received, sent]
      exact ⟨_, rfl, .inr ⟨rfl, rfl⟩, by simp⟩

theorem decryptMessage (s : Ratchet K) (drawn : KeyPair K) (m : RatchetMessage) (outerAad : Bytes) :
    Moves P drawn s (s.decryptMessage P drawn m outerAad).1 := by
  rw [Ratchet.decryptMessage]
  cases s.skipped[(m.headerDhPub, m.n)]? with
  | some key =>
    dsimp only
    split
    · exact refl drawn s
    · exact ⟨.inl ⟨rfl, rfl⟩, fun none => ⟨none, 0, rfl⟩⟩
  | none =>
    dsimp only
    split
    · cases skipped : s.skipMessageKeys P m.pn with
      | none => exact refl drawn s
      | some t =>
        obtain ⟨u, left, moves⟩ | ⟨u, done, moves⟩ := dhRatchet (P := P) drawn t m.headerDhPub
        · simp only [left]
          exact (skip drawn skipped).trans moves
        · simp only [done]
          exact ((skip drawn skipped).trans moves).trans (openInChain drawn u m outerAad)
    · exact openInChain drawn s m outerAad

theorem decrypt (s : Ratchet K) (drawn : KeyPair K) (ratchetMsg outerAad : Bytes) :
    Moves P drawn s (s.decrypt P drawn ratchetMsg outerAad).1 := by
  rw [Ratchet.decrypt]
  split
  · exact refl drawn s
  · exact decryptMessage s drawn _ outerAad

end Moves

theorem Placed.after (placed : Placed P shared (fun _ _ => True) s) (c : Call K) :
    Placed P shared (fun _ _ => True) (s.after P c) := by
  cases c with
  | encrypt plaintext outerAad =>
    rw [Ratchet.after]
    cases done : s.encrypt P plaintext outerAad with
    | error e => exact placed
    | ok result =>
      obtain ⟨d, i, -, -, later⟩ := placed.encrypt done
      exact later.mono fun _ _ _ => trivial
  | decrypt drawn ratchetMsg outerAad => exact placed.move (decrypt_sends s drawn ratchetMsg outerAad)
  | tryDecrypt drawn ratchetMsg outerAad =>
    exact placed.move (tryDecrypt_sends s drawn ratchetMsg outerAad)

/-! ### The states of a session -/

/-- What all states of a session have in common. -/
structure Kept (P : RatchetCrypto K) (pubOf : K → Bytes) (shared : K) (s : Ratchet K) : Prop where
  placed : Placed P shared (fun _ _ => True) s
  pair : s.dhsPub = pubOf s.dhsPriv
  unmade : s.haveCkr = false → ∃ k, s.ckr = P.kdfCk.nextKey^[k] P.zero

theorem Kept.moves (kept : Kept P pubOf shared s) (moves : Moves P drawn s t)
    (placed : Placed P shared (fun _ _ => True) t) (paired : drawn.pub = pubOf drawn.priv) :
    Kept P pubOf shared t where
  placed := placed
  pair := by
    obtain ⟨pub, priv⟩ | ⟨pub, priv⟩ := moves.pair
    · rw [pub, priv]
      exact kept.pair
    · rw [pub, priv]
      exact paired
  unmade none := by
    obtain ⟨none', k, later⟩ := moves.unmade none
    obtain ⟨i, earlier⟩ := kept.unmade none'
    exact ⟨k + i, by rw [later, earlier, Function.iterate_add_apply]⟩

theorem Kept.after (kept : Kept P pubOf shared s) {c : Call K} (paired : c.Paired pubOf) :
    Kept P pubOf shared (s.after P c) := by
  have placed := kept.placed.after c
  cases c with
  | encrypt plaintext outerAad =>
    rw [Ratchet.after, Ratchet.encrypt] at placed ⊢
    by_cases sending : s.haveCks = false
    · rw [if_pos sending]
      exact kept
    · rw [if_neg sending] at placed ⊢
      exact ⟨placed, kept.pair, kept.unmade⟩
  | decrypt drawn ratchetMsg outerAad => exact kept.moves (.decrypt s drawn _ _) placed paired
  | tryDecrypt drawn ratchetMsg outerAad =>
    rw [Ratchet.after, Ratchet.tryDecrypt] at placed ⊢
    split at placed
    · exact kept
    · exact kept.moves (.decrypt s drawn _ _) placed paired

theorem Reached.kept (reached : Reached P pubOf shared s) : Kept P pubOf shared s := by
  induction reached with
  | alice paired created =>
    refine ⟨(Created.alice created).placed, ?_, ?_⟩ <;>
      unfold initAlice at created <;> split at created
    · cases created
    · obtain rfl := Except.ok.inj created
      exact paired
    · cases created
    · obtain rfl := Except.ok.inj created
      exact fun _ => ⟨0, rfl⟩
  | bob ours paired => exact ⟨(Created.bob ours).placed, paired, fun _ => ⟨0, rfl⟩⟩
  | call earlier c paired ih => exact ih.after paired

/-- All the root keys that a session has had come from its secret. -/
theorem Reached.session (reached : Reached P pubOf shared s) :
    ∃ past, Session P past s ∧ ∀ t ∈ past, ∃ d, RootAt P shared d t.rk := by
  induction reached with
  | alice paired created =>
    refine ⟨_, .alice created, fun t member => ?_⟩
    obtain ⟨d, root, -⟩ := (Reached.alice paired created).kept.placed
    exact ⟨d, List.mem_singleton.mp member ▸ root⟩
  | bob ours paired =>
    refine ⟨_, .bob shared ours, fun t member => ?_⟩
    exact ⟨0, List.mem_singleton.mp member ▸ .shared⟩
  | call earlier c paired ih =>
    obtain ⟨past, session, roots⟩ := ih
    refine ⟨_, session.call c, fun t member => ?_⟩
    obtain rfl | earlier' := List.mem_cons.mp member
    · obtain ⟨d, root, -⟩ := (earlier.call c paired).kept.placed
      exact ⟨d, root⟩
    · exact roots t earlier'

theorem FromRatchet.chainKey {past : List (Ratchet K)} {ck : K} (from_ : FromRatchet P past ck)
    (roots : ∀ t ∈ past, ∃ d, RootAt P shared d t.rk) : ChainKey P shared ck := by
  obtain ⟨t, member, h, dh, k, -, rfl⟩ := from_
  obtain ⟨d, root⟩ := roots t member
  exact ⟨d, k, t.rk, dh, root, rfl⟩

/-- The key that stands for a message comes from the secret or from the all-zero array. -/
theorem Reached.messageKeyFor (reached : Reached P pubOf shared s) {key : K}
    (stands : s.messageKeyFor P drawn m = some key) :
    ∃ ck, key = P.kdfCk.messageKey ck ∧
      (ChainKey P shared ck ∨ ∃ k, ck = P.kdfCk.nextKey^[k] P.zero) := by
  obtain ⟨past, session, roots⟩ := reached.session
  have keyed := session.keyed
  obtain cached | ⟨-, dh, rfl⟩ | ⟨-, rfl⟩ := messageKeyFor_cases P stands
  · obtain ⟨ck, from_, rfl⟩ := keyed.cache _ _ cached
    exact ⟨ck, rfl, .inl (from_.chainKey roots)⟩
  · obtain ⟨d, root⟩ := roots s session.mem
    exact ⟨_, rfl, .inl ⟨d, m.n.toNat, s.rk, dh, root, rfl⟩⟩
  · refine ⟨_, rfl, ?_⟩
    cases made : s.haveCkr with
    | true => exact .inl (((keyed.chain made).chainKey roots).next _)
    | false =>
      obtain ⟨k, zero⟩ := reached.kept.unmade made
      exact .inr ⟨s.ahead m.n + k, by rw [zero, Function.iterate_add_apply]⟩

/-! ### A message of another session -/

section

variable {r r' : Ratchet K} {plaintext outerAad message aad : Bytes}

/-- The message that an encryption returns. -/
theorem parse_encrypted (done : r.encrypt P plaintext outerAad = .ok (r', message))
    (parsed : parseMessage P message = some m) :
    m = ⟨r.dhsPub, r.pn, r.ns, P.aead.encrypt (P.kdfCk.messageKey r.cks)
      (composeAad r.dhsPub r.pn r.ns outerAad) plaintext⟩ := by
  rw [encrypt] at done
  split at done
  · cases done
  · obtain ⟨-, rfl⟩ := Prod.mk.inj (Except.ok.inj done)
    rw [parseMessage, P.message.decode_encode] at parsed
    exact (Option.some.inj (Option.filter_eq_some_iff.mp parsed).1).symm

/-- Whoever opens a message has the key and the text that it was made with. -/
theorem Opens.encrypted {pt : Bytes} (done : r.encrypt P plaintext outerAad = .ok (r', message))
    (opens : s.Opens P drawn message aad pt) :
    pt = plaintext ∧ s.messageKeyFor P drawn ⟨r.dhsPub, r.pn, r.ns, P.aead.encrypt
      (P.kdfCk.messageKey r.cks) (composeAad r.dhsPub r.pn r.ns outerAad) plaintext⟩ =
        some (P.kdfCk.messageKey r.cks) := by
  obtain ⟨m, key, parsed, stands, opened⟩ := opens
  obtain rfl := parse_encrypted done parsed
  obtain ⟨rfl, -, rfl⟩ := P.aead.encrypt_inj (P.aead.decrypt_eq_some_iff.mp opened)
  exact ⟨rfl, stands⟩

/-- A session does not open what has been encrypted with another secret. -/
theorem Reached.not_opens (zero : ZeroUnderived P) (free : CollisionFree P shared)
    (free' : CollisionFree P shared') (apart : shared ≠ shared')
    (sender : Reached P pubOf shared r) (done : r.encrypt P plaintext outerAad = .ok (r', message))
    (other : Reached P pubOf shared' s) (pt : Bytes) : ¬s.Opens P drawn message aad pt := by
  intro opens
  obtain ⟨-, stands⟩ := opens.encrypted done
  obtain ⟨d, i, sends, -⟩ := sender.kept.placed.encrypt done
  obtain ⟨ck, same, origin⟩ := other.messageKeyFor stands
  obtain rfl := P.kdfCk.messageKey_injective same
  obtain derived | ⟨k, none⟩ := origin
  · exact apart (ChainKey.secret_unique free free' ⟨d, i, sends⟩ derived)
  · exact ChainKey.ne_zero free zero ⟨d, i, sends⟩ k none

/-- Nor does the DH step fail on it. -/
theorem Reached.not_lowOrder (honest : HonestDh P pubOf) (sender : Reached P pubOf shared r)
    (done : r.encrypt P plaintext outerAad = .ok (r', message)) (s : Ratchet K) :
    ¬s.LowOrder P drawn message := by
  rintro ⟨m, parsed, -, -, -, low⟩
  obtain rfl := parse_encrypted done parsed
  have works : ∀ priv, P.x25519Dh priv r.dhsPub ≠ none := by
    intro priv fails
    rw [sender.kept.pair] at fails
    obtain ⟨dh, works⟩ := honest.contributes priv r.dhsPriv
    cases works.symm.trans fails
  exact low.elim (works _) (works _)

/-- What `try_decrypt` of another session does with it: nothing. -/
theorem Reached.decrypt_other (honest : HonestDh P pubOf) (zero : ZeroUnderived P)
    (free : CollisionFree P shared) (free' : CollisionFree P shared') (apart : shared ≠ shared')
    (sender : Reached P pubOf shared r) (done : r.encrypt P plaintext outerAad = .ok (r', message))
    (other : Reached P pubOf shared' s) (drawn : KeyPair K) (aad : Bytes) :
    (s.decrypt P drawn message aad).2 = .ok none := by
  cases outcome : (s.decrypt P drawn message aad).2 with
  | error e =>
    have low := (lowOrder_iff P s drawn message aad).mpr ⟨e, outcome⟩
    exact absurd low (sender.not_lowOrder honest done s)
  | ok opened =>
    cases opened with
    | none => rfl
    | some pt =>
      have opens := (decrypt_snd_eq_some_iff P s drawn message aad pt).mp outcome
      exact absurd opens (sender.not_opens zero free free' apart done other pt)

end

end FinBit.Crypto.Ratchet
