import FinBit.Crypto.SenderKeysState

/-! # A restored session beside the saved one

A session goes on in memory while another is restored from what it has saved. The two
chains of a peer differ only in the keys that were cached at that time: `Agrees` says that
the restored cache is the other one without them. The forgotten indices lie below all that
are cached later, so the cache in memory drops them first, and the difference never spreads
to other indices. This needs the counter of a chain not to wrap.
-/

namespace FinBit.Crypto

open FinBit.Lib Std

variable {K : Type} {P : SenderKeys K}

namespace PerPeerChain

/-- The restored chain `r` beside the chain `c` in memory. -/
structure Agrees (old : Finset UInt32) (c r : PerPeerChain K) : Prop where
  chainId : r.chainId = c.chainId
  chainKey : r.chainKey = c.chainKey
  nextIndex : r.nextIndex = c.nextIndex
  lookup : ∀ i ∉ old, r.skipped[i]? = c.skipped[i]?
  forgotten : ∀ i ∈ old, r.skipped[i]? = none
  behind : ∀ i ∈ old, i < c.nextIndex
  below : ∀ i ∈ old, ∀ j ∈ r.skipped, i < j
  size : c.skipped.size = r.skipped.size + (old.filter (· ∈ c.skipped)).card
  bound : c.skipped.size ≤ kMaxSkip

variable {old : Finset UInt32} {c r : PerPeerChain K}

/-- Once the forgotten keys are gone on both sides, the chains are the same. -/
theorem Agrees.eq_of_absent (agrees : Agrees old c r) (absent : ∀ i ∈ old, i ∉ c.skipped) :
    r = c := by
  have same : r.skipped = c.skipped := by
    apply ExtTreeMap.ext_getElem?
    intro i
    by_cases inside : i ∈ old
    · have gone := absent i inside
      rw [agrees.forgotten i inside]
      simpa using gone
    · exact agrees.lookup i inside
  obtain ⟨chainId, chainKey, nextIndex, -⟩ := agrees
  cases c
  cases r
  simp_all

theorem Agrees.next_notMem (agrees : Agrees old c r) : c.nextIndex ∉ old :=
  fun inside => UInt32.lt_irrefl _ (agrees.behind _ inside)

theorem lt_succ_of_lt {i next : UInt32} (below : i < next) (small : next.toNat + 1 < 2 ^ 32) :
    i < next + 1 := by
  rw [UInt32.lt_iff_toNat_lt] at below ⊢
  rw [UInt32.toNat_add, UInt32.toNat_one, Nat.mod_eq_of_lt small]
  omega

/-- The keys that a pass of both chains leaves are again apart from the forgotten ones. -/
theorem Agrees.below_skipOne (agrees : Agrees old c r) :
    ∀ i ∈ old, ∀ j ∈ (r.skipOne P).skipped, i < j := by
  intro i inside j member
  obtain ⟨key, found⟩ := Option.isSome_iff_exists.mp
    (ExtTreeMap.mem_iff_isSome_getElem?.mp member)
  rcases skipOne_lookup_cases found with earlier | ⟨rfl, -⟩
  · exact agrees.below i inside j (by rw [ExtTreeMap.mem_iff_isSome_getElem?, earlier]; rfl)
  · rw [agrees.nextIndex]
    exact agrees.behind i inside

/-- An index is dropped from the forgotten ones that are still cached. -/
theorem card_filter_erase {i : UInt32} (inside : i ∈ old) {cache : ExtTreeMap UInt32 K}
    (member : i ∈ cache) :
    (old.filter (· ∈ cache.erase i)).card + 1 = (old.filter (· ∈ cache)).card := by
  have dropped : old.filter (· ∈ cache.erase i) = (old.filter (· ∈ cache)).erase i := by
    ext j
    simp only [Finset.mem_filter, Finset.mem_erase, ExtTreeMap.mem_erase,
      LawfulEqCmp.compare_eq_iff_eq, ne_eq]
    tauto
  rw [dropped]
  exact Finset.card_erase_add_one (Finset.mem_filter.mpr ⟨inside, member⟩)

/-- As long as the cache in memory holds a forgotten key, it makes room by dropping one. -/
theorem Agrees.exists_kept (agrees : Agrees old c r) {o : UInt32} (inside : o ∈ old)
    (member : o ∈ c.skipped) :
    ∃ kept : ExtTreeMap UInt32 K, kept.size < kMaxSkip ∧
      (c.skipOne P).skipped =
        kept.insertIfNew c.nextIndex (P.kdf.messageKey c.chainKey) ∧
      (∀ i ∉ old, kept[i]? = c.skipped[i]?) ∧
      kept.size = r.skipped.size + (old.filter (· ∈ kept)).card := by
  rcases Nat.lt_or_eq_of_le agrees.bound with room | full
  · exact ⟨c.skipped, room, skipOne_skipped_of_room room, fun _ _ => rfl, agrees.size⟩
  · obtain ⟨least, present, minimal, evicted⟩ := exists_evicted (P := P) full.ge
    have leastOld : least ∈ old := by
      by_contra other
      have shared : least ∈ r.skipped := by
        rw [ExtTreeMap.mem_iff_isSome_getElem?, agrees.lookup least other,
          ← ExtTreeMap.mem_iff_isSome_getElem?]
        exact present
      exact UInt32.not_lt.mpr (minimal o member) (agrees.below o inside least shared)
    have count := card_filter_erase leastOld present
    have size := agrees.size
    have erased : (c.skipped.erase least).size = c.skipped.size - 1 := by
      rw [ExtTreeMap.size_erase, if_pos (ExtTreeMap.contains_iff_mem.mpr present)]
    have positive : 0 < kMaxSkip := by decide
    refine ⟨c.skipped.erase least, by omega, evicted, fun i outside => ?_, by omega⟩
    have apart : ¬least = i := fun same => outside (same ▸ leastOld)
    rw [ExtTreeMap.getElem?_erase, LawfulEqCmp.compare_eq_iff_eq.not.mpr apart |> if_neg]

/-- A pass keeps the agreement. -/
theorem Agrees.skipOne (agrees : Agrees old c r) (small : c.nextIndex.toNat + 1 < 2 ^ 32) :
    Agrees old (c.skipOne P) (r.skipOne P) := by
  have behind : ∀ i ∈ old, i < (c.skipOne P).nextIndex :=
    fun i inside => lt_succ_of_lt (agrees.behind i inside) small
  have outside := agrees.next_notMem
  by_cases absent : ∀ i ∈ old, i ∉ c.skipped
  · -- both chains are the same and stay so
    have same := agrees.eq_of_absent absent
    subst same
    have still : ∀ i ∈ old, (r.skipOne P).skipped[i]? = none := by
      intro i inside
      apply Option.eq_none_iff_forall_ne_some.mpr
      intro key found
      rcases skipOne_lookup_cases found with earlier | ⟨rfl, -⟩
      · rw [agrees.forgotten i inside] at earlier
        cases earlier
      · exact outside inside
    refine ⟨rfl, rfl, rfl, fun _ _ => rfl, still, behind, agrees.below_skipOne, ?_,
      size_skipOne_le agrees.bound⟩
    have empty : old.filter (· ∈ (r.skipOne P).skipped) = ∅ := by
      apply Finset.filter_eq_empty_iff.mpr
      intro i inside
      simpa using still i inside
    rw [empty, Finset.card_empty, Nat.add_zero]
  · push Not at absent
    obtain ⟨o, inside, member⟩ := absent
    obtain ⟨kept, spare, inserted, lookup, size⟩ := agrees.exists_kept (P := P) inside member
    have room : r.skipped.size < kMaxSkip := by omega
    have there : ∀ i ∈ old, (i ∈ kept.insertIfNew c.nextIndex (P.kdf.messageKey c.chainKey) ↔
        i ∈ kept) := by
      intro i within
      have apart : ¬c.nextIndex = i := fun same => outside (same ▸ within)
      simp [ExtTreeMap.mem_insertIfNew, apart]
    have count := congrArg Finset.card (Finset.filter_congr there)
    refine ⟨agrees.chainId, ?_, ?_, fun i other => ?_, fun i within => ?_, behind,
      agrees.below_skipOne, ?_, size_skipOne_le agrees.bound⟩
    · rw [skipOne_chainKey, skipOne_chainKey, agrees.chainKey]
    · rw [skipOne_nextIndex, skipOne_nextIndex, agrees.nextIndex]
    · rw [getElem?_skipOne_of_room room, inserted, getElem?_emplace, lookup i other,
        agrees.lookup i other, agrees.nextIndex, agrees.chainKey]
    · have apart : ¬c.nextIndex = i := fun same => outside (same ▸ within)
      rw [getElem?_skipOne_of_room room, agrees.nextIndex, if_neg (fun both => apart both.1)]
      exact agrees.forgotten i within
    · rw [size_skipOne_of_room room, inserted, size_emplace, agrees.nextIndex,
        agrees.lookup _ outside, lookup _ outside, count, size]
      exact Nat.add_right_comm _ _ _

theorem Agrees.iterate (agrees : Agrees old c r) {n : Nat} (small : c.nextIndex.toNat + n < 2 ^ 32) :
    Agrees old ((PerPeerChain.skipOne P)^[n] c) ((PerPeerChain.skipOne P)^[n] r) := by
  induction n with
  | zero => exact agrees
  | succ n ih =>
    rw [Function.iterate_succ_apply', Function.iterate_succ_apply']
    refine (ih (by omega)).skipOne ?_
    rw [iterate_skipOne_nextIndex, toNat_add_ofNat (by omega)]
    omega

/-! ### One message -/

/-- An index that was not forgotten has the same key on both sides. -/
theorem Agrees.keyAt_eq (agrees : Agrees old c r) {i : UInt32} (other : i ∉ old) :
    r.keyAt P i = c.keyAt P i := by
  rw [keyAt, keyAt, agrees.lookup i other, agrees.nextIndex, agrees.chainKey]

/-- The restored chain has no key for a forgotten index. -/
theorem Agrees.keyAt_forgotten (agrees : Agrees old c r) {i : UInt32} (inside : i ∈ old) :
    r.keyAt P i = none := by
  have passed : i < r.nextIndex := agrees.nextIndex ▸ agrees.behind i inside
  simp [keyAt, agrees.forgotten i inside, passed]

/-- Behind the chain nothing is pushed. -/
theorem pushedTo_of_lt {chain : PerPeerChain K} {i : UInt32} (passed : i < chain.nextIndex) :
    chain.pushedTo P i = chain := by
  rw [pushedTo, if_neg]
  exact fun all => UInt32.not_lt.mpr all.2.1 passed

theorem distance_lt {next i : UInt32} (ahead : next ≤ i) :
    next.toNat + (i - next).toNat = i.toNat := by
  rw [UInt32.toNat_sub_of_le _ _ ahead]
  have := UInt32.le_iff_toNat_le.mp ahead
  omega

theorem Agrees.pushedTo (agrees : Agrees old c r) (i : UInt32) :
    Agrees old (c.pushedTo P i) (r.pushedTo P i) := by
  by_cases inside : i ∈ old
  · have passed := agrees.behind i inside
    rw [pushedTo_of_lt passed, pushedTo_of_lt (agrees.nextIndex ▸ passed)]
    exact agrees
  · rw [PerPeerChain.pushedTo, PerPeerChain.pushedTo, agrees.lookup i inside, agrees.nextIndex]
    split
    · rename_i all
      have := i.toNat_lt
      exact agrees.iterate (by rw [distance_lt all.2.1]; omega)
    · exact agrees

/-- A key that is cached on both sides is dropped on both sides. -/
theorem Agrees.eraseBoth (agrees : Agrees old c r) {i : UInt32} (other : i ∉ old)
    (member : i ∈ c.skipped) :
    Agrees old { c with skipped := c.skipped.erase i } { r with skipped := r.skipped.erase i } := by
  have shared : i ∈ r.skipped := by
    rw [ExtTreeMap.mem_iff_isSome_getElem?, agrees.lookup i other,
      ← ExtTreeMap.mem_iff_isSome_getElem?]
    exact member
  have occupied : r.skipped.size ≠ 0 := by
    intro zero
    rw [ExtTreeMap.eq_empty_iff_size_eq_zero.mpr zero] at shared
    simp at shared
  have there : ∀ j ∈ old, (j ∈ c.skipped.erase i ↔ j ∈ c.skipped) := by
    intro j inside
    have apart : ¬i = j := fun same => other (same ▸ inside)
    simp [ExtTreeMap.mem_erase, apart]
  have count := congrArg Finset.card (Finset.filter_congr there)
  have size := agrees.size
  refine ⟨agrees.chainId, agrees.chainKey, agrees.nextIndex, fun j outside => ?_,
    fun j inside => ?_, agrees.behind, fun j inside k kept => ?_, ?_, ?_⟩
  · rw [ExtTreeMap.getElem?_erase, ExtTreeMap.getElem?_erase, agrees.lookup j outside]
  · rw [ExtTreeMap.getElem?_erase, agrees.forgotten j inside, ite_self]
  · exact agrees.below j inside k (ExtTreeMap.mem_of_mem_erase kept)
  · rw [ExtTreeMap.size_erase, ExtTreeMap.size_erase,
      if_pos (ExtTreeMap.contains_iff_mem.mpr member),
      if_pos (ExtTreeMap.contains_iff_mem.mpr shared), count, size]
    exact Nat.sub_add_comm (Nat.one_le_iff_ne_zero.mpr occupied)
  · exact ExtTreeMap.size_erase_le.trans agrees.bound

/-- A key that both chains have is used up on both sides. -/
theorem Agrees.usedAt (agrees : Agrees old c r) {i : UInt32} (other : i ∉ old)
    (known : c.keyAt P i ≠ none) (notLast : i.toNat + 1 < 2 ^ 32) :
    Agrees old (c.usedAt P i) (r.usedAt P i) := by
  cases hit : c.skipped[i]? with
  | some key =>
    have shared := (agrees.lookup i other).trans hit
    have member : i ∈ c.skipped := by
      rw [ExtTreeMap.mem_iff_isSome_getElem?, hit]
      rfl
    simp only [PerPeerChain.usedAt, hit, shared]
    exact agrees.eraseBoth other member
  | none =>
    have miss := (agrees.lookup i other).trans hit
    simp only [keyAt, hit, ne_eq, ite_eq_left_iff, reduceCtorEq, imp_false, not_not] at known
    have ahead : c.nextIndex ≤ i := UInt32.not_lt.mp fun below => known (.inl below)
    have reached : ((PerPeerChain.skipOne P)^[(i - c.nextIndex).toNat] c).nextIndex.toNat =
        i.toNat := by
      have := i.toNat_lt
      rw [iterate_skipOne_nextIndex, toNat_add_ofNat] <;> rw [distance_lt ahead]
      omega
    have advanced := agrees.iterate (P := P) (n := (i - c.nextIndex).toNat)
      (by rw [distance_lt ahead]; omega)
    simp only [PerPeerChain.usedAt, hit, miss, agrees.nextIndex]
    refine ⟨advanced.chainId, ?_, ?_, advanced.lookup, advanced.forgotten, fun j inside => ?_,
      advanced.below, advanced.size, advanced.bound⟩
    · rw [advanced.chainKey]
    · rw [advanced.nextIndex]
    · exact lt_succ_of_lt (advanced.behind j inside) (by omega)

/-- In memory a forgotten key may still be used up. -/
theorem Agrees.eraseOld (agrees : Agrees old c r) {i : UInt32} (inside : i ∈ old)
    (member : i ∈ c.skipped) : Agrees old { c with skipped := c.skipped.erase i } r := by
  have size := agrees.size
  have count := card_filter_erase inside member
  refine ⟨agrees.chainId, agrees.chainKey, agrees.nextIndex, fun j outside => ?_,
    agrees.forgotten, agrees.behind, agrees.below, ?_, ?_⟩
  · have apart : ¬i = j := fun same => outside (same ▸ inside)
    rw [agrees.lookup j outside, ExtTreeMap.getElem?_erase,
      LawfulEqCmp.compare_eq_iff_eq.not.mpr apart |> if_neg]
  · rw [ExtTreeMap.size_erase, if_pos (ExtTreeMap.contains_iff_mem.mpr member)]
    dsimp only
    omega
  · exact ExtTreeMap.size_erase_le.trans agrees.bound

/-- A message keeps the agreement. -/
theorem Agrees.decrypt (agrees : Agrees old c r) (m : SenderKeysMessage) (outerAad : Bytes)
    (notLast : m.index.toNat + 1 < 2 ^ 32) :
    Agrees old (c.decrypt P m outerAad).1 (r.decrypt P m outerAad).1 := by
  by_cases inside : m.index ∈ old
  · have passed := agrees.behind m.index inside
    have refused : (r.decrypt P m outerAad).1 = r := by
      rw [decrypt_eq, agrees.keyAt_forgotten inside]
      exact pushedTo_of_lt (agrees.nextIndex ▸ passed)
    rw [refused]
    rcases decrypt_fst_cases (P := P) c m outerAad with pushed | ⟨known, used⟩
    · rw [pushed, pushedTo_of_lt passed]
      exact agrees
    · -- behind the chain only a cached key opens
      cases hit : c.skipped[m.index]? with
      | none => simp [keyAt, hit, passed] at known
      | some key =>
        rw [used]
        simp only [PerPeerChain.usedAt, hit]
        exact agrees.eraseOld inside (by rw [ExtTreeMap.mem_iff_isSome_getElem?, hit]; rfl)
  · rw [decrypt_eq, decrypt_eq, agrees.keyAt_eq inside]
    split
    · exact agrees.pushedTo m.index
    · rename_i opened
      obtain ⟨key, known, -⟩ := Option.bind_eq_some_iff.mp opened
      exact agrees.usedAt inside (by simp [known]) notLast

end PerPeerChain

/-! ### The chains of a session -/

/-- A new chain has an id of 16 octets, and no message carries the last index, behind which
the counter of the chain wraps. -/
def SessionCall.Plain (P : SenderKeys K) : SessionCall K → Prop
  | .createOwnSendChain chainId _ => chainId.length = 16
  | .decrypt _ msg _ => ∀ m, P.message.decode msg = some m → m.index.toNat + 1 < 2 ^ 32
  | _ => True

/-- The cached indices of a chain lie behind it, and no more than `kMaxSkip` are cached. -/
structure PerPeerChain.Behind (chain : PerPeerChain K) : Prop where
  chainId : chain.chainId.length = 16
  behind : ∀ i ∈ chain.skipped, i < chain.nextIndex
  bound : chain.skipped.size ≤ kMaxSkip

namespace PerPeerChain.Behind

variable {chain : PerPeerChain K}

theorem skipOne (inv : chain.Behind) (small : chain.nextIndex.toNat + 1 < 2 ^ 32) :
    (chain.skipOne P).Behind := by
  refine ⟨inv.chainId, fun i member => ?_, size_skipOne_le inv.bound⟩
  obtain ⟨key, found⟩ := Option.isSome_iff_exists.mp
    (ExtTreeMap.mem_iff_isSome_getElem?.mp member)
  rw [skipOne_nextIndex]
  rcases skipOne_lookup_cases found with earlier | ⟨rfl, -⟩
  · refine lt_succ_of_lt (inv.behind i ?_) small
    rw [ExtTreeMap.mem_iff_isSome_getElem?, earlier]
    rfl
  · rw [UInt32.lt_iff_toNat_lt, UInt32.toNat_add, UInt32.toNat_one, Nat.mod_eq_of_lt small]
    omega

theorem iterate (inv : chain.Behind) {n : Nat} (small : chain.nextIndex.toNat + n < 2 ^ 32) :
    ((PerPeerChain.skipOne P)^[n] chain).Behind := by
  induction n with
  | zero => exact inv
  | succ n ih =>
    rw [Function.iterate_succ_apply']
    refine (ih (by omega)).skipOne ?_
    rw [iterate_skipOne_nextIndex, toNat_add_ofNat (by omega)]
    omega

theorem decrypt (inv : chain.Behind) (m : SenderKeysMessage) (outerAad : Bytes)
    (notLast : m.index.toNat + 1 < 2 ^ 32) : (chain.decrypt P m outerAad).1.Behind := by
  rcases decrypt_fst_cases (P := P) chain m outerAad with pushed | ⟨known, used⟩
  · rw [pushed, pushedTo]
    split
    · rename_i all
      have := m.index.toNat_lt
      exact inv.iterate (by rw [distance_lt all.2.1]; omega)
    · exact inv
  · rw [used]
    cases hit : chain.skipped[m.index]? with
    | some key =>
      simp only [usedAt, hit]
      exact ⟨inv.chainId, fun i member => inv.behind i (ExtTreeMap.mem_of_mem_erase member),
        ExtTreeMap.size_erase_le.trans inv.bound⟩
    | none =>
      simp only [keyAt, hit, ne_eq, ite_eq_left_iff, reduceCtorEq, imp_false, not_not] at known
      have ahead : chain.nextIndex ≤ m.index := UInt32.not_lt.mp fun below => known (.inl below)
      have advanced := inv.iterate (P := P) (n := (m.index - chain.nextIndex).toNat)
        (by rw [distance_lt ahead]; omega)
      have reached : ((PerPeerChain.skipOne P)^[(m.index - chain.nextIndex).toNat]
          chain).nextIndex.toNat = m.index.toNat := by
        rw [iterate_skipOne_nextIndex, toNat_add_ofNat] <;> rw [distance_lt ahead]
        omega
      simp only [usedAt, hit]
      exact ⟨advanced.chainId, fun i member =>
        lt_succ_of_lt (advanced.behind i member) (by omega), advanced.bound⟩

end PerPeerChain.Behind

namespace GroupSession

/-- The session `r` goes on from what was restored of `saved`, the session `s` from `saved`
itself: a peer has the same chain in both, or they differ by what was cached then. -/
structure Beside (saved s r : GroupSession K) : Prop where
  own : r.own = s.own
  peers : ∀ peerId, r.peers peerId = s.peers peerId ∨
    ∃ chain c c', saved.peers peerId = some chain ∧ s.peers peerId = some c ∧
      r.peers peerId = some c' ∧ c.chainId = chain.chainId ∧
      PerPeerChain.Agrees chain.skipped.keys.toFinset c c'

variable {saved s r : GroupSession K}

/-- `decrypt` touches one peer. -/
theorem decrypt_frame (s : GroupSession K) (peerId msg outerAad : Bytes) :
    (s.decrypt P peerId msg outerAad).1.own = s.own ∧
    ∀ other ≠ peerId, (s.decrypt P peerId msg outerAad).1.peers other = s.peers other := by
  rcases s.decrypt_cases (P := P) peerId msg outerAad with same | ⟨m, chain, -, -, -, -, done⟩
  · rw [same]
    exact ⟨rfl, fun _ _ => rfl⟩
  · rw [done]
    exact ⟨rfl, fun other elsewhere => Function.update_of_ne elsewhere _ _⟩

/-- The peer's chain alone decides what `decrypt` returns and leaves. -/
theorem decrypt_congr {peerId : Bytes} (same : r.peers peerId = s.peers peerId)
    (msg outerAad : Bytes) :
    (r.decrypt P peerId msg outerAad).2 = (s.decrypt P peerId msg outerAad).2 ∧
    (r.decrypt P peerId msg outerAad).1.peers peerId =
      (s.decrypt P peerId msg outerAad).1.peers peerId := by
  rw [decrypt, decrypt, same]
  cases P.message.decode msg with
  | none => exact ⟨rfl, same⟩
  | some m =>
    cases found : s.peers peerId with
    | none =>
      dsimp only
      split <;> exact ⟨rfl, same⟩
    | some chain =>
      dsimp only
      split
      · exact ⟨rfl, same⟩
      · split
        · exact ⟨rfl, same⟩
        · refine ⟨rfl, ?_⟩
          dsimp only
          rw [Function.update_self, Function.update_self]

/-- A message for another chain does nothing. -/
theorem decrypt_unreached {peerId msg : Bytes} {chain : PerPeerChain K}
    (found : s.peers peerId = some chain)
    (unreached : ¬∃ m, P.message.decode msg = some m ∧ m.chainId.length = 16 ∧
      chain.chainId = m.chainId) (outerAad : Bytes) :
    s.decrypt P peerId msg outerAad = (s, none) := by
  rcases s.decrypt_cases (P := P) peerId msg outerAad with
    same | ⟨m, other, decoded, sized, present, ids, -⟩
  · exact same
  · obtain rfl := Option.some.inj (found.symm.trans present)
    exact absurd ⟨m, decoded, sized, ids⟩ unreached

/-- What `decrypt` leaves for the peer it names. -/
theorem Beside.decrypt_peer (beside : Beside saved s r) {peerId msg outerAad : Bytes}
    (plain : (SessionCall.decrypt peerId msg outerAad : SessionCall K).Plain P) :
    (r.decrypt P peerId msg outerAad).1.peers peerId =
        (s.decrypt P peerId msg outerAad).1.peers peerId ∨
      ∃ chain c c', saved.peers peerId = some chain ∧
        (s.decrypt P peerId msg outerAad).1.peers peerId = some c ∧
        (r.decrypt P peerId msg outerAad).1.peers peerId = some c' ∧
        c.chainId = chain.chainId ∧ PerPeerChain.Agrees chain.skipped.keys.toFinset c c' := by
  rcases beside.peers peerId with same | ⟨chain, c, c', held, mine, theirs, ids, agrees⟩
  · exact .inl (decrypt_congr same msg outerAad).2
  · right
    by_cases reached : ∃ m, P.message.decode msg = some m ∧ m.chainId.length = 16 ∧
        c.chainId = m.chainId
    · obtain ⟨m, decoded, sized, named⟩ := reached
      rw [decrypt_of_decode decoded sized mine named,
        decrypt_of_decode decoded sized theirs (agrees.chainId.trans named)]
      refine ⟨chain, _, _, held, Function.update_self .., Function.update_self .., ?_,
        agrees.decrypt m outerAad (plain m decoded)⟩
      rw [PerPeerChain.decrypt_chainId, ids]
    · rw [decrypt_unreached mine reached,
        decrypt_unreached theirs (by rw [agrees.chainId]; exact reached)]
      exact ⟨chain, c, c', held, mine, theirs, ids, agrees⟩

/-- A call keeps two sessions beside each other. -/
theorem Beside.perform (beside : Beside saved s r) {call : SessionCall K} (plain : call.Plain P) :
    Beside saved (s.perform P call) (r.perform P call) := by
  cases call with
  | createOwnSendChain chainId seed => exact ⟨rfl, beside.peers⟩
  | encrypt plaintext outerAad =>
    have own := beside.own
    cases mine : s.own with
    | none =>
      rw [mine] at own
      simp only [GroupSession.perform, GroupSession.encrypt, mine, own]
      exact beside
    | some chain =>
      rw [mine] at own
      simp only [GroupSession.perform, GroupSession.encrypt, mine, own]
      exact ⟨rfl, beside.peers⟩
  | installPeerDistribution peerId distribution =>
    rw [GroupSession.perform, GroupSession.perform, installPeerDistribution,
      installPeerDistribution]
    cases PerPeerChain.ofDistribution P distribution with
    | error e => exact beside
    | ok chain =>
      refine ⟨beside.own, fun other => ?_⟩
      by_cases here : other = peerId
      · subst here
        exact .inl (by simp [Except.map])
      · have kept := beside.peers other
        simpa [Except.map, Function.update_of_ne here] using kept
  | decrypt peerId msg outerAad =>
    obtain ⟨mine, others⟩ := decrypt_frame (P := P) s peerId msg outerAad
    obtain ⟨theirs, others'⟩ := decrypt_frame (P := P) r peerId msg outerAad
    refine ⟨theirs.trans (beside.own.trans mine.symm), fun other => ?_⟩
    by_cases here : other = peerId
    · subst here
      exact beside.decrypt_peer plain
    · have kept := beside.peers other
      rw [← others other here, ← others' other here] at kept
      exact kept
  | removePeer peerId =>
    refine ⟨beside.own, fun other => ?_⟩
    by_cases here : other = peerId
    · subst here
      exact .inl (by simp [GroupSession.perform, removePeer])
    · have kept := beside.peers other
      simpa [GroupSession.perform, removePeer, Function.update_of_ne here] using kept

end GroupSession

/-- Keys of 32 octets. -/
abbrev Key32 : Type := { b : Bytes // b.length = 32 }

def KeyForm.octets : KeyForm Key32 where
  bytes := Subtype.val
  ofBytes b := if sized : b.length = 32 then ⟨b, sized⟩ else ⟨List.replicate 32 0, rfl⟩
  length_bytes := Subtype.property
  ofBytes_bytes k := by simp [k.property]

/-- Sender keys over such keys: a message key is the chain key reversed, the next chain key
the chain key rotated. -/
noncomputable def SenderKeys.octets : SenderKeys Key32 where
  kdf :=
    { messageKey := fun k => ⟨k.val.reverse, by simp [k.property]⟩
      nextKey := fun k => ⟨k.val.rotate 1, by simp [k.property]⟩
      messageKey_injective := fun a b same => by
        simpa [Subtype.ext_iff] using same
      nextKey_injective := fun a b same => by
        apply Subtype.ext
        exact List.rotate_injective 1 (congrArg Subtype.val same) }
  aead := .ofCountable _
  message := .ofCountable _
  distribution := .ofCountable _

/-- The message at a position of a chain that starts with an arbitrary seed. -/
noncomputable def sentAt (i : Nat) : Bytes :=
  SenderKeys.octets.message.encode (genuine SenderKeys.octets (List.replicate 16 5)
    ⟨List.replicate 32 7, rfl⟩ i [1] [])

/-- The peer's distribution arrives, then its second message. -/
noncomputable def overtaken : List (SessionCall Key32) :=
  [.installPeerDistribution [8] (GroupSession.new.createOwnSendChain SenderKeys.octets
    (List.replicate 16 5) ⟨List.replicate 32 7, rfl⟩).2, .decrypt [8] (sentAt 1) []]

end FinBit.Crypto
