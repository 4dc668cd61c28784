import FinBit.Crypto.SenderKeysDelivery
import FinBit.Lib.MapEntries

/-! # The keys of a receiving chain

What a session opens is decided by one partial function of the index for each peer,
`keyAt`: the cached keys and the next `kMaxSkip` ones of the chain. A message that opens
uses up its key; one that does not may still push the chain to its index, because
`advance_chain_to` runs before the ciphertext is checked.
-/

namespace FinBit.Crypto

open FinBit.Lib Std

variable {K : Type} {P : SenderKeys K}

/-! ### The keys of a chain -/

namespace PerPeerChain

variable (P) in
/-- The key under which the chain opens an index: a cached one, or one at most `kMaxSkip`
ahead. -/
def keyAt (chain : PerPeerChain K) (i : UInt32) : Option K :=
  match chain.skipped[i]? with
  | some key => some key
  | none =>
    if i < chain.nextIndex ∨ kMaxSkip < (i - chain.nextIndex).toNat then none
    else some (P.kdf.messageKey (P.kdf.nextKey^[(i - chain.nextIndex).toNat] chain.chainKey))

variable (P) in
/-- Where a message that is not opened leaves the chain. -/
def pushedTo (chain : PerPeerChain K) (i : UInt32) : PerPeerChain K :=
  if chain.skipped[i]? = none ∧ chain.nextIndex ≤ i ∧ (i - chain.nextIndex).toNat ≤ kMaxSkip then
    (skipOne P)^[(i - chain.nextIndex).toNat] chain
  else chain

variable (P) in
/-- Where a message that is opened leaves the chain: its cached key is used up, or the chain
stands right behind it. -/
def usedAt (chain : PerPeerChain K) (i : UInt32) : PerPeerChain K :=
  match chain.skipped[i]? with
  | some _ => { chain with skipped := chain.skipped.erase i }
  | none =>
    let advanced := (skipOne P)^[(i - chain.nextIndex).toNat] chain
    { advanced with
      chainKey := P.kdf.nextKey advanced.chainKey
      nextIndex := advanced.nextIndex + 1 }

variable {chain chain' : PerPeerChain K}

/-- The loop up to an index is one pass for each index before it. -/
theorem skipTo_eq_iterate {target : UInt32} {fuel : Nat}
    (distance : chain.nextIndex.toNat + fuel = target.toNat) :
    chain.skipTo P target fuel = (skipOne P)^[fuel] chain := by
  induction fuel generalizing chain with
  | zero => rfl
  | succ fuel ih =>
    have bound := target.toNat_lt
    have below : chain.nextIndex < target := by
      rw [UInt32.lt_iff_toNat_lt]
      omega
    have next : (chain.skipOne P).nextIndex.toNat + fuel = target.toNat := by
      rw [skipOne_nextIndex, UInt32.toNat_add, UInt32.toNat_one, Nat.mod_eq_of_lt (by omega)]
      omega
    rw [skipTo, if_pos below, ih next, Function.iterate_succ_apply]

/-- Inside the window the advance succeeds, with one pass for each index before the target. -/
theorem advanceTo_eq {i : UInt32} (ahead : chain.nextIndex ≤ i)
    (near : (i - chain.nextIndex).toNat ≤ kMaxSkip) :
    chain.advanceTo P i = some ((skipOne P)^[(i - chain.nextIndex).toNat] chain) := by
  have distance : chain.nextIndex.toNat + (i - chain.nextIndex).toNat = i.toNat := by
    rw [UInt32.toNat_sub_of_le _ _ ahead]
    have := UInt32.le_iff_toNat_le.mp ahead
    omega
  rw [advanceTo, if_neg (UInt32.not_lt.mpr ahead), if_neg (by omega), skipTo_eq_iterate distance]

theorem iterate_skipOne_chainKey (n : Nat) :
    ((skipOne P)^[n] chain).chainKey = P.kdf.nextKey^[n] chain.chainKey := by
  induction n with
  | zero => rfl
  | succ n ih => rw [Function.iterate_succ_apply', skipOne_chainKey, ih,
      Function.iterate_succ_apply']

theorem iterate_skipOne_chainId (n : Nat) :
    ((skipOne P)^[n] chain).chainId = chain.chainId := by
  induction n with
  | zero => rfl
  | succ n ih =>
    rw [Function.iterate_succ_apply']
    exact ih

theorem toNat_add_ofNat {next : UInt32} {n : Nat} (small : next.toNat + n < 2 ^ 32) :
    (next + UInt32.ofNat n).toNat = next.toNat + n := by
  rw [UInt32.toNat_add, UInt32.toNat_ofNat_of_lt' (show n < 2 ^ 32 by omega)]
  exact Nat.mod_eq_of_lt small

theorem iterate_skipOne_nextIndex (chain : PerPeerChain K) (n : Nat) :
    ((skipOne P)^[n] chain).nextIndex = chain.nextIndex + UInt32.ofNat n := by
  induction n with
  | zero => simp
  | succ n ih =>
    rw [Function.iterate_succ_apply', skipOne_nextIndex, ih, UInt32.ofNat_add, ← UInt32.add_assoc]
    rfl

/-- The key of its index decides about a message and about where it leaves the chain. -/
theorem decrypt_eq (m : SenderKeysMessage) (outerAad : Bytes) :
    chain.decrypt P m outerAad =
      match (chain.keyAt P m.index).bind
        (P.aead.decrypt · (composeAad m.chainId m.index outerAad) m.ciphertext) with
      | none => (chain.pushedTo P m.index, none)
      | some pt => (chain.usedAt P m.index, some pt) := by
  cases hit : chain.skipped[m.index]? with
  | some key =>
    cases opened : P.aead.decrypt key (composeAad m.chainId m.index outerAad) m.ciphertext <;>
      simp only [decrypt, keyAt, pushedTo, usedAt, hit, opened, Option.bind_some, reduceCtorEq,
        false_and, if_false]
  | none =>
    by_cases outside : m.index < chain.nextIndex ∨ kMaxSkip < (m.index - chain.nextIndex).toNat
    · have still : chain.pushedTo P m.index = chain := by
        rw [pushedTo, if_neg]
        rintro ⟨-, ahead, near⟩
        exact outside.elim (UInt32.not_lt.mpr ahead) (Nat.not_lt.mpr near)
      rw [decrypt_outside hit outside]
      simp [keyAt, hit, outside, still]
    · have ahead : chain.nextIndex ≤ m.index := UInt32.not_lt.mp fun below => outside (.inl below)
      have near : (m.index - chain.nextIndex).toNat ≤ kMaxSkip :=
        Nat.le_of_not_lt fun far => outside (.inr far)
      cases opened : P.aead.decrypt (P.kdf.messageKey
        (P.kdf.nextKey^[(m.index - chain.nextIndex).toNat] chain.chainKey))
        (composeAad m.chainId m.index outerAad) m.ciphertext <;>
      simp only [decrypt, keyAt, pushedTo, usedAt, hit, if_neg (UInt32.not_lt.mpr ahead),
        advanceTo_eq ahead near, iterate_skipOne_chainKey, if_neg outside, opened, Option.bind_some,
        ahead, near, and_self, if_true]

/-- A message either pushes the chain or is opened by a key that the chain has. -/
theorem decrypt_fst_cases (chain : PerPeerChain K) (m : SenderKeysMessage) (outerAad : Bytes) :
    (chain.decrypt P m outerAad).1 = chain.pushedTo P m.index ∨
    (chain.keyAt P m.index ≠ none ∧
      (chain.decrypt P m outerAad).1 = chain.usedAt P m.index) := by
  rw [decrypt_eq]
  split
  · exact .inl rfl
  · rename_i opened
    obtain ⟨key, known, -⟩ := Option.bind_eq_some_iff.mp opened
    exact .inr ⟨by simp [known], rfl⟩

theorem pushedTo_chainId (i : UInt32) :
    (chain.pushedTo P i).chainId = chain.chainId := by
  rw [pushedTo]
  split
  · exact iterate_skipOne_chainId _
  · rfl

theorem usedAt_chainId (i : UInt32) : (chain.usedAt P i).chainId = chain.chainId := by
  rw [usedAt]
  split
  · rfl
  · exact iterate_skipOne_chainId _

theorem decrypt_chainId (m : SenderKeysMessage) (outerAad : Bytes) :
    (chain.decrypt P m outerAad).1.chainId = chain.chainId := by
  rcases decrypt_fst_cases (P := P) chain m outerAad with pushed | ⟨-, used⟩
  · rw [pushed, pushedTo_chainId]
  · rw [used, usedAt_chainId]

/-! ### A pass of the loop -/

theorem skipOne_skipped_of_room (room : chain.skipped.size < kMaxSkip) :
    (chain.skipOne P).skipped =
      chain.skipped.insertIfNew chain.nextIndex (P.kdf.messageKey chain.chainKey) := by
  have fits : ¬chain.skipped.size ≥ kMaxSkip := Nat.not_le.mpr room
  simp only [skipOne, fits, if_false]

theorem size_skipOne_of_room (room : chain.skipped.size < kMaxSkip) :
    (chain.skipOne P).skipped.size =
      chain.skipped.size + if chain.skipped[chain.nextIndex]? = none then 1 else 0 := by
  rw [skipOne_skipped_of_room room, size_emplace]

theorem getElem?_skipOne_of_room (room : chain.skipped.size < kMaxSkip) (i : UInt32) :
    (chain.skipOne P).skipped[i]? =
      if chain.nextIndex = i ∧ chain.skipped[i]? = none then
        some (P.kdf.messageKey chain.chainKey)
      else chain.skipped[i]? := by
  rw [skipOne_skipped_of_room room, getElem?_emplace]

/-- A pass that finds the cache full drops the least key. -/
theorem exists_evicted (full : kMaxSkip ≤ chain.skipped.size) :
    ∃ least ∈ chain.skipped, (∀ i ∈ chain.skipped, least ≤ i) ∧
      (chain.skipOne P).skipped = (chain.skipped.erase least).insertIfNew chain.nextIndex
        (P.kdf.messageKey chain.chainKey) := by
  have occupied : chain.skipped ≠ ∅ := by
    intro empty
    simp [empty] at full
  obtain ⟨least, minimal⟩ := Option.isSome_iff_exists.mp
    (ExtTreeMap.isSome_minKey?_iff_ne_empty.mpr occupied)
  obtain ⟨member, below⟩ := ExtTreeMap.minKey?_eq_some_iff_mem_and_forall.mp minimal
  refine ⟨least, member, fun i inside => Std.isLE_compare.mp (below i inside), ?_⟩
  simp only [skipOne, ge_iff_le, full, if_true, minimal]

theorem size_skipOne_le (bound : chain.skipped.size ≤ kMaxSkip) :
    (chain.skipOne P).skipped.size ≤ kMaxSkip := by
  rcases Nat.lt_or_eq_of_le bound with room | full
  · rw [size_skipOne_of_room room]
    split <;> omega
  · obtain ⟨least, member, -, evicted⟩ := exists_evicted (P := P) full.ge
    have positive : 0 < kMaxSkip := by decide
    rw [evicted, size_emplace, ExtTreeMap.size_erase, if_pos (ExtTreeMap.contains_iff_mem.mpr member)]
    split <;> omega

/-- What a pass leaves in the cache was there before or is the key of its index. -/
theorem skipOne_lookup_cases {i : UInt32} {key : K}
    (present : (chain.skipOne P).skipped[i]? = some key) :
    chain.skipped[i]? = some key ∨
      i = chain.nextIndex ∧ key = P.kdf.messageKey chain.chainKey := by
  obtain ⟨kept, inserted, older⟩ : ∃ kept : ExtTreeMap UInt32 K,
      (chain.skipOne P).skipped =
        kept.insertIfNew chain.nextIndex (P.kdf.messageKey chain.chainKey) ∧
      (kept[i]? = some key → chain.skipped[i]? = some key) := by
    refine ⟨_, rfl, fun found => ?_⟩
    split at found
    · split at found
      · rw [ExtTreeMap.getElem?_erase] at found
        exact (Option.ite_none_left_eq_some.mp found).2
      · exact found
    · exact found
  rw [inserted, ExtTreeMap.getElem?_insertIfNew] at present
  split at present
  · rename_i new
    exact .inr ⟨(LawfulEqCmp.eq_of_compare new.1).symm, (Option.some.inj present).symm⟩
  · exact .inl (older present)

end PerPeerChain

/-! ### The calls of a session -/

/-- What `decrypt` does to a session it does to one chain. -/
theorem GroupSession.decrypt_cases (s : GroupSession K) (peerId msg outerAad : Bytes) :
    (s.decrypt P peerId msg outerAad = (s, none)) ∨
    ∃ m chain, P.message.decode msg = some m ∧ m.chainId.length = 16 ∧
      s.peers peerId = some chain ∧ chain.chainId = m.chainId ∧
      s.decrypt P peerId msg outerAad =
        ({ s with peers := Function.update s.peers peerId (some (chain.decrypt P m outerAad).1) },
          (chain.decrypt P m outerAad).2) := by
  rw [GroupSession.decrypt]
  cases decoded : P.message.decode msg with
  | none => exact .inl rfl
  | some m =>
    cases found : s.peers peerId with
    | none =>
      left
      dsimp only
      split <;> rfl
    | some chain =>
      dsimp only
      split
      · exact .inl rfl
      · rename_i sized
        split
        · exact .inl rfl
        · rename_i same
          exact .inr ⟨m, chain, rfl, not_not.mp sized, rfl, not_not.mp same, rfl⟩

variable {peerId : Bytes} {chain : PerPeerChain K}

/-- A message that reaches a chain does to the session what it does to the chain. -/
theorem GroupSession.decrypt_of_decode {s : GroupSession K} {msg outerAad : Bytes}
    {m : SenderKeysMessage} (decoded : P.message.decode msg = some m)
    (sized : m.chainId.length = 16) (found : s.peers peerId = some chain)
    (same : chain.chainId = m.chainId) :
    s.decrypt P peerId msg outerAad =
      ({ s with peers := Function.update s.peers peerId (some (chain.decrypt P m outerAad).1) },
        (chain.decrypt P m outerAad).2) := by
  simp only [decrypt, decoded, found, if_neg (not_not.mpr sized), if_neg (not_not.mpr same)]

end FinBit.Crypto
