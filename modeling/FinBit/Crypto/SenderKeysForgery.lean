import FinBit.Crypto.SenderKeysWindow

/-! # Forged sender-key messages

A message that does not open may still move the receiving chain: `advance_chain_to` runs
before the ciphertext is checked. The keys that it passes go into the cache, so nothing is
lost as long as the cache has room for them; the first key that it has no room for
throws out the least one, and the message of that key can never be opened again.

The passes of the loop are iterations of `skipOne`: with room a pass keeps every key,
without room it drops one that no later pass brings back.
-/

namespace FinBit.Crypto

open FinBit.Lib Std

variable {K : Type} {P : SenderKeys K}

namespace PerPeerChain

variable {chain chain' : PerPeerChain K}

/-! ### A pass with room -/

variable (P) in
/-- A number of passes finds room at each of them. -/
def Room (chain : PerPeerChain K) (n : Nat) : Prop :=
  ∀ k < n, ((skipOne P)^[k] chain).skipped.size < kMaxSkip

theorem Room.mono {n k : Nat} (room : chain.Room P n) (few : k ≤ n) : chain.Room P k :=
  fun j below => room j (Nat.lt_of_lt_of_le below few)

theorem room_succ_iff {n : Nat} : chain.Room P (n + 1) ↔
    chain.Room P n ∧ ((skipOne P)^[n] chain).skipped.size < kMaxSkip := by
  constructor
  · exact fun room => ⟨room.mono (Nat.le_succ n), room n (Nat.lt_succ_self n)⟩
  · rintro ⟨room, last⟩ k below
    rcases Nat.lt_succ_iff_lt_or_eq.mp below with before | rfl
    · exact room k before
    · exact last

/-- The number of the next `n` indices that are not in the cache. -/
def uncached (chain : PerPeerChain K) (n : Nat) : Nat :=
  (List.range n).countP fun k => chain.skipped[chain.nextIndex + UInt32.ofNat k]? = none

/-- Passes with room add the keys of the indices that they pass, and keep all others. -/
theorem Room.iterate {n : Nat} (room : chain.Room P n)
    (small : chain.nextIndex.toNat + n < 2 ^ 32) :
    ((skipOne P)^[n] chain).skipped.size = chain.skipped.size + chain.uncached n ∧
    ∀ i, ((skipOne P)^[n] chain).skipped[i]? =
      if chain.skipped[i]? = none ∧ chain.nextIndex ≤ i ∧ i.toNat < chain.nextIndex.toNat + n then
        some (P.kdf.messageKey (P.kdf.nextKey^[(i - chain.nextIndex).toNat] chain.chainKey))
      else chain.skipped[i]? := by
  induction n with
  | zero =>
    refine ⟨by simp [uncached], fun i => ?_⟩
    have nowhere : ¬(chain.skipped[i]? = none ∧ chain.nextIndex ≤ i ∧
        i.toNat < chain.nextIndex.toNat + 0) := by
      rintro ⟨-, ahead, below⟩
      have := UInt32.le_iff_toNat_le.mp ahead
      omega
    rw [if_neg nowhere]
    rfl
  | succ n ih =>
    obtain ⟨before, last⟩ := room_succ_iff.mp room
    obtain ⟨size, lookup⟩ := ih before (by omega)
    have index := iterate_skipOne_nextIndex (P := P) chain n
    have position : (chain.nextIndex + UInt32.ofNat n).toNat = chain.nextIndex.toNat + n :=
      toNat_add_ofNat (by omega)
    have beyond : ¬(chain.skipped[chain.nextIndex + UInt32.ofNat n]? = none ∧
        chain.nextIndex ≤ chain.nextIndex + UInt32.ofNat n ∧
        (chain.nextIndex + UInt32.ofNat n).toNat < chain.nextIndex.toNat + n) := by
      rw [position]
      omega
    -- the index of this pass is cached exactly if it was in the cache from the start
    have here := lookup (chain.nextIndex + UInt32.ofNat n)
    rw [if_neg beyond] at here
    rw [Function.iterate_succ_apply', size_skipOne_of_room last, index, here, size]
    refine ⟨?_, fun i => ?_⟩
    · simp [uncached, List.range_succ, List.countP_append, List.countP_cons, Nat.add_assoc]
    · rw [getElem?_skipOne_of_room last, index, lookup, iterate_skipOne_chainKey]
      by_cases same : chain.nextIndex + UInt32.ofNat n = i
      · subst same
        have ahead : chain.nextIndex ≤ chain.nextIndex + UInt32.ofNat n := by
          rw [UInt32.le_iff_toNat_le, position]
          omega
        have distance : (chain.nextIndex + UInt32.ofNat n - chain.nextIndex).toNat = n := by
          rw [UInt32.toNat_sub_of_le _ _ ahead, position]
          omega
        rw [if_neg beyond, distance, position]
        simp [ahead]
      · have apart : i.toNat ≠ chain.nextIndex.toNat + n := by
          rw [← position]
          exact fun equal => same (UInt32.toNat_inj.mp equal.symm)
        have further : i.toNat < chain.nextIndex.toNat + (n + 1) ↔
            i.toNat < chain.nextIndex.toNat + n := by omega
        simp only [same, false_and, if_false, further]

variable (P) in
/-- The chain key is some way along the chain of a seed, and the cached keys come from
before it. -/
def Follows (seed : K) (chain : PerPeerChain K) : Prop :=
  ∃ position, chain.chainKey = P.kdf.nextKey^[position] seed ∧
    ∀ (i : UInt32) (key : K), chain.skipped[i]? = some key →
      ∃ p < position, key = P.kdf.messageKey (P.kdf.nextKey^[p] seed)

variable (P) in
/-- The chain will never have the key for the index again. -/
def Lost (chain : PerPeerChain K) (i : UInt32) (key : K) : Prop :=
  chain.skipped[i]? ≠ some key ∧ ∀ n, P.kdf.messageKey (P.kdf.nextKey^[n] chain.chainKey) ≠ key

variable {seed : K} {i : UInt32} {key : K}

theorem Follows.skipOne (follows : chain.Follows P seed) : (chain.skipOne P).Follows P seed := by
  obtain ⟨position, current, past⟩ := follows
  refine ⟨position + 1, ?_, fun i key present => ?_⟩
  · rw [skipOne_chainKey, current, Function.iterate_succ_apply']
  · rcases skipOne_lookup_cases present with old | ⟨-, rfl⟩
    · obtain ⟨p, before, eq⟩ := past i key old
      exact ⟨p, Nat.lt_succ_of_lt before, eq⟩
    · exact ⟨position, Nat.lt_succ_self position, by rw [current]⟩

theorem Follows.iterate (follows : chain.Follows P seed) (n : Nat) :
    ((PerPeerChain.skipOne P)^[n] chain).Follows P seed := by
  induction n with
  | zero => exact follows
  | succ n ih =>
    rw [Function.iterate_succ_apply']
    exact ih.skipOne

theorem Lost.skipOne (lost : chain.Lost P i key) : (chain.skipOne P).Lost P i key := by
  refine ⟨fun present => ?_, fun n => ?_⟩
  · rcases skipOne_lookup_cases present with old | ⟨-, rfl⟩
    · exact lost.1 old
    · exact lost.2 0 rfl
  · rw [skipOne_chainKey, ← Function.iterate_succ_apply]
    exact lost.2 (n + 1)

theorem Lost.iterate (lost : chain.Lost P i key) (n : Nat) :
    ((PerPeerChain.skipOne P)^[n] chain).Lost P i key := by
  induction n with
  | zero => exact lost
  | succ n ih =>
    rw [Function.iterate_succ_apply']
    exact ih.skipOne

/-- On the chain of a seed no cached key comes again. -/
theorem Follows.apart (follows : chain.Follows P seed) (fresh : P.kdf.IsSeed seed)
    (cached : chain.skipped[i]? = some key) (n : Nat) :
    P.kdf.messageKey (P.kdf.nextKey^[n] chain.chainKey) ≠ key := by
  intro same
  obtain ⟨position, current, past⟩ := follows
  obtain ⟨p, before, rfl⟩ := past i key cached
  rw [current, ← Function.iterate_add_apply] at same
  have := (P.kdf.iterate_inj fresh fresh (P.kdf.messageKey_injective same)).2
  omega

/-- A full cache loses its least key in the next pass. -/
theorem Follows.evicts (follows : chain.Follows P seed) (fresh : P.kdf.IsSeed seed)
    (full : kMaxSkip ≤ chain.skipped.size) :
    ∃ least key, chain.skipped[least]? = some key ∧
      (∀ i ∈ chain.skipped, least ≤ i) ∧ (chain.skipOne P).Lost P least key := by
  obtain ⟨least, member, minimal, evicted⟩ := exists_evicted (P := P) full
  obtain ⟨key, cached⟩ := Option.isSome_iff_exists.mp
    (ExtTreeMap.mem_iff_isSome_getElem?.mp member)
  have apart := follows.apart fresh cached
  refine ⟨least, key, cached, minimal, fun present => ?_, fun n => ?_⟩
  · rw [evicted, getElem?_emplace, ExtTreeMap.getElem?_erase_self] at present
    exact apart 0 (Option.some.inj (Option.ite_none_right_eq_some.mp present).2)
  · rw [skipOne_chainKey, ← Function.iterate_succ_apply]
    exact apart (n + 1)

variable (P) in
/-- Where rejected messages with these indices leave the chain. -/
def pushed (chain : PerPeerChain K) (indices : List UInt32) : PerPeerChain K :=
  indices.foldl (pushedTo P) chain

/-- How many passes the indices cause: an index counts if it is not cached and lies at most
`kMaxSkip` ahead of where those before it have pushed the chain. -/
def advance (chain : PerPeerChain K) (indices : List UInt32) : Nat :=
  indices.foldl (fun n i =>
    if chain.skipped[i]? = none ∧ chain.nextIndex.toNat + n ≤ i.toNat ∧
        i.toNat ≤ chain.nextIndex.toNat + n + kMaxSkip then
      i.toNat - chain.nextIndex.toNat
    else n) 0

end PerPeerChain

/-! ### Every session -/

/-- Opening and rejecting keep a chain on its way. -/
theorem PerPeerChain.Follows.decrypt {chain : PerPeerChain K} {seed : K}
    (follows : chain.Follows P seed) (m : SenderKeysMessage) (outerAad : Bytes) :
    (chain.decrypt P m outerAad).1.Follows P seed := by
  rcases decrypt_fst_cases (P := P) chain m outerAad with pushed | ⟨-, used⟩
  · rw [pushed, pushedTo]
    split
    · exact follows.iterate _
    · exact follows
  · rw [used, usedAt]
    split
    · obtain ⟨position, current, past⟩ := follows
      refine ⟨position, current, fun i key present => past i key ?_⟩
      rw [ExtTreeMap.getElem?_erase] at present
      exact (Option.ite_none_left_eq_some.mp present).2
    · obtain ⟨position, current, past⟩ := follows.iterate (m.index - chain.nextIndex).toNat
      refine ⟨position + 1, ?_, fun i key present => ?_⟩
      · dsimp only
        rw [current, Function.iterate_succ_apply']
      · obtain ⟨p, before, eq⟩ := past i key present
        exact ⟨p, Nat.lt_succ_of_lt before, eq⟩

/-! ### Forged messages to a session -/

variable {peerId : Bytes} {chain : PerPeerChain K}

end FinBit.Crypto
