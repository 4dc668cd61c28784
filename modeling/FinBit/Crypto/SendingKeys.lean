import FinBit.Crypto.ConversationRuns

/-! # The keys that a session encrypts under

Every root key of a session is some number of `kdf_rk` steps away from the shared secret,
and a sending chain starts from one of them. So a message key has a place: the depth of the
root key that its chain was derived from, and its position in the chain. `encrypt` moves on
in the chain, a DH step starts a chain from a deeper root key, and `try_decrypt` goes back
only to the state before itself. The place of the next key therefore only grows, and keys at
different places differ.
-/

namespace FinBit.Crypto.Ratchet

open FinBit.Lib

variable {K : Type}

section

variable (P : RatchetCrypto K)

/-- The ciphertexts that the encryptions among the calls return. -/
def ciphertexts (s : Ratchet K) : List (Call K) → List Bytes
  | [] => []
  | .encrypt plaintext outerAad :: rest =>
    match s.encrypt P plaintext outerAad with
    | .ok (t, message) => message :: t.ciphertexts rest
    | .error _ => s.ciphertexts rest
  | .decrypt drawn ratchetMsg outerAad :: rest =>
    (s.decrypt P drawn ratchetMsg outerAad).1.ciphertexts rest
  | .tryDecrypt drawn ratchetMsg outerAad :: rest =>
    (s.tryDecrypt P drawn ratchetMsg outerAad).1.ciphertexts rest

/-- A message whose ciphertext was made with a key. -/
def SealedUnder (message : Bytes) (key : K) : Prop :=
  ∃ m aad plaintext, P.message.decode message = some m ∧
    m.ciphertext = P.aead.encrypt key aad plaintext

/-- A session that has just been created from a shared secret. -/
inductive Created (shared : K) : Ratchet K → Prop
  | alice {drawn : KeyPair K} {peerDhPub : Bytes} {s : Ratchet K}
      (created : initAlice P drawn shared peerDhPub = .ok s) : Created shared s
  | bob (ours : KeyPair K) : Created shared (initBob P shared ours)

/-! ### Places -/

/-- A root key that is `depth` steps away from the shared secret. -/
inductive RootAt (shared : K) : Nat → K → Prop
  | shared : RootAt shared 0 shared
  | step {depth : Nat} {rk : K} (earlier : RootAt shared depth rk) (dh : K) :
      RootAt shared (depth + 1) (P.kdfRk rk dh).1

/-- A chain key, by the depth of the root key that its chain starts from and its position. -/
def ChainAt (shared : K) (depth position : Nat) (ck : K) : Prop :=
  ∃ rk dh, RootAt P shared depth rk ∧ ck = P.kdfCk.nextKey^[position] (P.kdfRk rk dh).2

variable {P} {shared : K}

theorem RootAt.unique (free : CollisionFree P shared) {i j : Nat} {rk : K}
    (left : RootAt P shared i rk) (right : RootAt P shared j rk) : i = j := by
  induction left generalizing j with
  | shared =>
    generalize root : shared = rk at right
    cases right with
    | shared => rfl
    | step => exact absurd root.symm (free.shared_root _ _)
  | @step depth r earlier dh ih =>
    generalize root : (P.kdfRk r dh).1 = rk at right
    cases right with
    | shared => exact absurd root (free.shared_root _ _)
    | step earlier' dh' =>
      obtain ⟨rfl, -⟩ := free.root_inj root
      rw [ih earlier']

/-- A key has one place. -/
theorem ChainAt.unique (free : CollisionFree P shared) {d e i j : Nat} {ck : K}
    (left : ChainAt P shared d i ck) (right : ChainAt P shared e j ck) : d = e ∧ i = j := by
  obtain ⟨rk, dh, root, rfl⟩ := left
  obtain ⟨rk', dh', root', same⟩ := right
  obtain ⟨seeds, positions⟩ :=
    P.kdfCk.iterate_inj (free.chain_seed rk dh) (free.chain_seed rk' dh') same
  obtain ⟨rfl, -⟩ := free.chain_inj seeds
  exact ⟨root.unique free root', positions⟩

theorem ChainAt.next {d i : Nat} {ck : K} (here : ChainAt P shared d i ck) :
    ChainAt P shared d (i + 1) (P.kdfCk.nextKey ck) := by
  obtain ⟨rk, dh, root, rfl⟩ := here
  exact ⟨rk, dh, root, by rw [Function.iterate_succ_apply']⟩

/-! ### What a call does to the sending side -/

variable (P) in
/-- The sending side of a state after a `decrypt`: untouched, left with a deeper root key by
a DH step that threw half-way, or started anew. -/
inductive SendMove (s : Ratchet K) : Ratchet K → Prop
  | same {t : Ratchet K} (rk : t.rk = s.rk) (cks : t.cks = s.cks)
      (haveCks : t.haveCks = s.haveCks) : SendMove s t
  | halfway {t : Ratchet K} (dh : K) (rk : t.rk = (P.kdfRk s.rk dh).1) (cks : t.cks = s.cks)
      (haveCks : t.haveCks = s.haveCks) : SendMove s t
  | anew {t : Ratchet K} (dh reply : K)
      (rk : t.rk = (P.kdfRk (P.kdfRk s.rk dh).1 reply).1)
      (cks : t.cks = (P.kdfRk (P.kdfRk s.rk dh).1 reply).2) : SendMove s t

theorem SendMove.refl (s : Ratchet K) : SendMove P s s := .same rfl rfl rfl

/-- Only the sending side matters, before and after. -/
theorem SendMove.congr {s s' t t' : Ratchet K} (move : SendMove P s t)
    (before : s.rk = s'.rk ∧ s.cks = s'.cks ∧ s.haveCks = s'.haveCks)
    (after : t'.rk = t.rk ∧ t'.cks = t.cks ∧ t'.haveCks = t.haveCks) : SendMove P s' t' := by
  obtain ⟨rk, cks, haveCks⟩ := before
  obtain ⟨rk', cks', haveCks'⟩ := after
  cases move with
  | same r c h =>
    exact .same (rk'.trans (r.trans rk)) (cks'.trans (c.trans cks))
      (haveCks'.trans (h.trans haveCks))
  | halfway dh r c h =>
    exact .halfway dh (by rw [rk', r, rk]) (cks'.trans (c.trans cks))
      (haveCks'.trans (h.trans haveCks))
  | anew dh reply r c => exact .anew dh reply (by rw [rk', r, rk]) (by rw [cks', c, rk])

theorem skipMessageKeys_sends {s t : Ratchet K} {target : UInt32}
    (skipped : s.skipMessageKeys P target = some t) :
    t.rk = s.rk ∧ t.cks = s.cks ∧ t.haveCks = s.haveCks := by
  rw [skipMessageKeys_eq] at skipped
  obtain rfl := Option.some.inj (Option.ite_none_left_eq_some.mp skipped).2
  rw [skipOne_iterate_frame]
  exact ⟨rfl, rfl, rfl⟩

theorem openInChain_sends (s : Ratchet K) (m : RatchetMessage) (outerAad : Bytes) :
    (s.openInChain P m outerAad).1.rk = s.rk ∧ (s.openInChain P m outerAad).1.cks = s.cks ∧
      (s.openInChain P m outerAad).1.haveCks = s.haveCks := by
  rw [openInChain]
  cases skipped : s.skipMessageKeys P m.n with
  | none => exact ⟨rfl, rfl, rfl⟩
  | some t =>
    obtain ⟨rk, cks, haveCks⟩ := skipMessageKeys_sends skipped
    exact ⟨rk, cks, haveCks⟩

/-- The three ways a DH step ends. -/
theorem dhRatchet_sends (s : Ratchet K) (headerDhPub : Bytes) (drawn : KeyPair K) :
    (∃ t, s.dhRatchet P headerDhPub drawn = .error t ∧ SendMove P s t) ∨
    ∃ t, s.dhRatchet P headerDhPub drawn = .ok t ∧ SendMove P s t := by
  cases received : P.x25519Dh s.dhsPriv headerDhPub with
  | none =>
    left
    simp only [dhRatchet, received]
    exact ⟨_, rfl, .same rfl rfl rfl⟩
  | some dh =>
    cases sent : P.x25519Dh drawn.priv headerDhPub with
    | none =>
      left
      simp only [dhRatchet, received, sent]
      exact ⟨_, rfl, .halfway dh rfl rfl rfl⟩
    | some reply =>
      right
      simp only [dhRatchet, received, sent]
      exact ⟨_, rfl, .anew dh reply rfl rfl⟩

theorem decryptMessage_sends (s : Ratchet K) (drawn : KeyPair K) (m : RatchetMessage)
    (outerAad : Bytes) : SendMove P s (s.decryptMessage P drawn m outerAad).1 := by
  rw [decryptMessage]
  cases s.skipped[(m.headerDhPub, m.n)]? with
  | some key =>
    dsimp only
    split
    · exact .refl s
    · exact .same rfl rfl rfl
  | none =>
    dsimp only
    split
    · cases skipped : s.skipMessageKeys P m.pn with
      | none => exact .refl s
      | some u =>
        have before := skipMessageKeys_sends skipped
        rcases dhRatchet_sends (P := P) u m.headerDhPub drawn with
          ⟨t, left, move⟩ | ⟨t, done, move⟩
        · simp only [left]
          exact move.congr before ⟨rfl, rfl, rfl⟩
        · simp only [done]
          exact move.congr before (openInChain_sends t m outerAad)
    · exact (SendMove.refl s).congr ⟨rfl, rfl, rfl⟩ (openInChain_sends s m outerAad)

theorem decrypt_sends (s : Ratchet K) (drawn : KeyPair K) (ratchetMsg outerAad : Bytes) :
    SendMove P s (s.decrypt P drawn ratchetMsg outerAad).1 := by
  rw [decrypt]
  split
  · exact .refl s
  · exact decryptMessage_sends s drawn _ outerAad

theorem tryDecrypt_sends (s : Ratchet K) (drawn : KeyPair K) (ratchetMsg outerAad : Bytes) :
    SendMove P s (s.tryDecrypt P drawn ratchetMsg outerAad).1 := by
  rw [tryDecrypt]
  split
  · exact .refl s
  · exact decrypt_sends s drawn ratchetMsg outerAad

/-! ### The place of the next key -/

variable (P) in
/-- The next key of the session, if it can send, stands at a place with a property, and so
does the first key of every chain that it will start. -/
def Placed (shared : K) (at_ : Nat → Nat → Prop) (s : Ratchet K) : Prop :=
  ∃ depth, RootAt P shared depth s.rk ∧ (∀ e, depth ≤ e → at_ e 0) ∧
    (s.haveCks = true → ∃ e j, ChainAt P shared e j s.cks ∧ at_ e j ∧ e < depth)

/-- The places after a given one: further on in the chain, or in a deeper one. -/
def After (d i e j : Nat) : Prop := d < e ∨ d = e ∧ i < j

variable {at_ : Nat → Nat → Prop} {s t : Ratchet K}

/-- Receiving never goes back. -/
theorem Placed.move (placed : Placed P shared at_ s) (move : SendMove P s t) :
    Placed P shared at_ t := by
  obtain ⟨depth, root, new, sends⟩ := placed
  cases move with
  | same rk cks haveCks =>
    rw [Placed, rk, cks, haveCks]
    exact ⟨depth, root, new, sends⟩
  | halfway dh rk cks haveCks =>
    -- the chain stays, and the next one is two steps deeper
    rw [Placed, rk, cks, haveCks]
    refine ⟨depth + 1, root.step dh, fun e deep => new e (by omega), fun can => ?_⟩
    obtain ⟨e, j, here, holds, below⟩ := sends can
    exact ⟨e, j, here, holds, by omega⟩
  | anew dh reply rk cks =>
    rw [Placed, rk, cks]
    refine ⟨depth + 2, (root.step dh).step reply, fun e deep => new e (by omega), fun _ => ?_⟩
    exact ⟨depth + 1, 0, ⟨_, reply, root.step dh, rfl⟩, new _ (by omega), by omega⟩

/-- What an encryption that returns has done. -/
theorem encrypt_eq_ok {plaintext outerAad message : Bytes}
    (done : s.encrypt P plaintext outerAad = .ok (t, message)) :
    s.haveCks = true ∧ t.rk = s.rk ∧ t.cks = P.kdfCk.nextKey s.cks ∧ t.haveCks = s.haveCks ∧
      ∀ key, SealedUnder P message key → key = P.kdfCk.messageKey s.cks := by
  rw [encrypt] at done
  split at done
  · cases done
  · rename_i can
    obtain ⟨rfl, rfl⟩ := Prod.mk.inj (Except.ok.inj done)
    refine ⟨by simpa using can, rfl, rfl, rfl, ?_⟩
    rintro key ⟨m, aad, text, decoded, ciphertext⟩
    rw [P.message.decode_encode] at decoded
    obtain rfl := Option.some.inj decoded
    exact (P.aead.encrypt_inj ciphertext).1.symm

/-- An encryption uses the key at its place and leaves the session after it. -/
theorem Placed.encrypt (placed : Placed P shared at_ s)
    {plaintext outerAad message : Bytes} (done : s.encrypt P plaintext outerAad = .ok (t, message)) :
    ∃ d i, ChainAt P shared d i s.cks ∧ at_ d i ∧ Placed P shared (After d i) t := by
  obtain ⟨can, rk, cks, haveCks, -⟩ := encrypt_eq_ok done
  obtain ⟨depth, root, -, sends⟩ := placed
  obtain ⟨d, i, here, holds, below⟩ := sends can
  refine ⟨d, i, here, holds, depth, rk ▸ root, fun e deep => .inl (by omega), fun _ => ?_⟩
  exact ⟨d, i + 1, cks ▸ here.next, .inr ⟨rfl, Nat.lt_succ_self i⟩, below⟩

theorem Placed.mono {wider : Nat → Nat → Prop} (placed : Placed P shared at_ s)
    (implied : ∀ e j, at_ e j → wider e j) : Placed P shared wider s := by
  obtain ⟨depth, root, new, sends⟩ := placed
  refine ⟨depth, root, fun e deep => implied e 0 (new e deep), fun can => ?_⟩
  obtain ⟨e, j, here, holds, below⟩ := sends can
  exact ⟨e, j, here, implied e j holds, below⟩

/-- All later ciphertexts are made with keys after a place that the session has passed. -/
theorem Placed.ciphertexts_after {d i : Nat} (placed : Placed P shared (After d i) s)
    (calls : List (Call K)) : ∀ message ∈ s.ciphertexts P calls, ∀ key,
      SealedUnder P message key → ∃ e j ck, ChainAt P shared e j ck ∧ After d i e j ∧
        key = P.kdfCk.messageKey ck := by
  induction calls generalizing s with
  | nil => simp [ciphertexts]
  | cons call rest ih =>
    cases call with
    | encrypt plaintext outerAad =>
      rw [ciphertexts]
      cases done : s.encrypt P plaintext outerAad with
      | error e => exact ih placed
      | ok result =>
        obtain ⟨t, first⟩ := result
        obtain ⟨e, j, here, after, placed'⟩ := placed.encrypt done
        have further := ih (placed'.mono fun e' j' later => by
          simp only [After] at after later ⊢
          omega)
        intro message member key made
        rcases List.mem_cons.mp member with rfl | later
        · obtain rfl := (encrypt_eq_ok done).2.2.2.2 key made
          exact ⟨e, j, s.cks, here, after, rfl⟩
        · exact further message later key made
    | decrypt drawn ratchetMsg outerAad =>
      exact ih (placed.move (decrypt_sends s drawn ratchetMsg outerAad))
    | tryDecrypt drawn ratchetMsg outerAad =>
      exact ih (placed.move (tryDecrypt_sends s drawn ratchetMsg outerAad))

theorem Placed.pairwise (free : CollisionFree P shared) (placed : Placed P shared at_ s)
    (calls : List (Call K)) : (s.ciphertexts P calls).Pairwise fun a b =>
      ∀ key key', SealedUnder P a key → SealedUnder P b key' → key ≠ key' := by
  induction calls generalizing s at_ with
  | nil => exact .nil
  | cons call rest ih =>
    cases call with
    | encrypt plaintext outerAad =>
      rw [ciphertexts]
      cases done : s.encrypt P plaintext outerAad with
      | error e => exact ih placed
      | ok result =>
        obtain ⟨t, first⟩ := result
        obtain ⟨d, i, here, -, placed'⟩ := placed.encrypt done
        refine List.pairwise_cons.mpr ⟨?_, ih placed'⟩
        rintro message later key key' made made' rfl
        obtain rfl := (encrypt_eq_ok done).2.2.2.2 key made
        obtain ⟨e, j, ck, there, after, same⟩ :=
          placed'.ciphertexts_after rest message later _ made'
        rw [← P.kdfCk.messageKey_injective same] at there
        obtain ⟨rfl, rfl⟩ := here.unique free there
        simp only [After] at after
        omega
    | decrypt drawn ratchetMsg outerAad =>
      exact ih (placed.move (decrypt_sends s drawn ratchetMsg outerAad))
    | tryDecrypt drawn ratchetMsg outerAad =>
      exact ih (placed.move (tryDecrypt_sends s drawn ratchetMsg outerAad))

theorem Created.placed (created : Created P shared s) :
    Placed P shared (fun _ _ => True) s := by
  cases created with
  | bob ours => exact ⟨0, .shared, fun _ _ => trivial, fun can => by simp [initBob, blank] at can⟩
  | @alice drawn peerDhPub _ created =>
    rw [initAlice] at created
    split at created
    · cases created
    · rename_i dh derived
      obtain rfl := Except.ok.inj created
      exact ⟨1, RootAt.shared.step dh, fun _ _ => trivial,
        fun _ => ⟨0, 0, ⟨shared, dh, .shared, rfl⟩, trivial, by omega⟩⟩

/-- However a session is used, on whatever byte strings, no two of the ciphertexts that it
returns are made with the same message key. -/
theorem encrypts_under_fresh_keys (free : CollisionFree P shared) (created : Created P shared s)
    (calls : List (Call K)) : (s.ciphertexts P calls).Pairwise fun a b =>
      ∀ key key', SealedUnder P a key → SealedUnder P b key' → key ≠ key' :=
  created.placed.pairwise free calls

end

/-- An initiator encrypts twice, with a call in between that is rolled back. -/
theorem encrypts_under_fresh_keys_twice :
    ∃ s a b, Created octets 0 s ∧
      s.ciphertexts octets [.encrypt [1] [], .tryDecrypt (octetPair 3) [] [], .encrypt [1] []] =
        [a, b] ∧
      ∀ key key', SealedUnder octets a key → SealedUnder octets b key' → key ≠ key' := by
  have agreed : octets.x25519Dh 1 (octetPoint 2) = some 15 := by decide
  obtain ⟨s, created, can⟩ : ∃ s, initAlice octets (octetPair 1) 0 (octetPoint 2) = .ok s ∧
      s.haveCks = true := by
    simp only [initAlice, octetPair, agreed]
    exact ⟨_, rfl, rfl⟩
  have unparsed : parseMessage octets [] = none := by
    simp [parseMessage, octets, Codec.ofCountable_decode_nil]
  have distinct := encrypts_under_fresh_keys collisionFree_octets (.alice created)
    [.encrypt [1] [], .tryDecrypt (octetPair 3) [] [], .encrypt [1] []]
  simp only [ciphertexts, encrypt, can, tryDecrypt, decrypt, unparsed, Bool.true_eq_false,
    if_false] at distinct
  refine ⟨s, _, _, .alice created, ?_, (List.pairwise_cons.mp distinct).1 _ List.mem_cons_self⟩
  simp only [ciphertexts, encrypt, can, tryDecrypt, decrypt, unparsed, Bool.true_eq_false,
    if_false]

end FinBit.Crypto.Ratchet
