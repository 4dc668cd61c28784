import Mathlib.Algebra.Order.Interval.Finset.SuccPred
import Mathlib.Data.Nat.SuccPred
import FinBit.Crypto.SenderKeys
import FinBit.Lib.Arrivals
import FinBit.Lib.Guards

/-! # Sender keys in any order

The messages of one sending chain, handed to a receiver in any order, with losses and
repetitions. The receiving chain stands behind the highest index that has arrived, and
its cache holds the keys of the gaps below, each the one that the sender has used. So a
message opens when it comes first, by the chain or by the cache, and never again.
-/

namespace FinBit.Crypto

open FinBit.Lib Std

variable {K : Type}

/-! ### The messages of a chain -/

section

variable (P : SenderKeys K)

/-- The messages that a session sends for plaintexts and outer associated data. -/
def GroupSession.encryptAll (s : GroupSession K) :
    List (Bytes × Bytes) → Except String (GroupSession K × List Bytes)
  | [] => .ok (s, [])
  | (plaintext, outerAad) :: rest => do
    let (s, first) ← s.encrypt P plaintext outerAad
    let (s, messages) ← s.encryptAll rest
    return (s, first :: messages)

/-- The message at a position of the chain that starts with a seed. -/
def genuine (chainId : Bytes) (seed : K) (i : Nat) (plaintext outerAad : Bytes) :
    SenderKeysMessage where
  chainId := chainId
  index := UInt32.ofNat i
  ciphertext := P.aead.encrypt (P.kdf.messageKey (P.kdf.nextKey^[i] seed))
    (composeAad chainId (UInt32.ofNat i) outerAad) plaintext

variable {P}

/-- A session at a position of its chain sends the messages from there on. -/
theorem GroupSession.encryptAll_get {s s' : GroupSession K} {chainId : Bytes} {seed : K} {n : Nat}
    (own : s.own = some ⟨chainId, P.kdf.nextKey^[n] seed, UInt32.ofNat n⟩)
    {notes : List (Bytes × Bytes)} {messages : List Bytes}
    (sent : s.encryptAll P notes = .ok (s', messages)) :
    messages.length = notes.length ∧ ∀ i note, notes[i]? = some note →
      messages[i]? = some (P.message.encode (genuine P chainId seed (n + i) note.1 note.2)) := by
  induction notes generalizing s n messages with
  | nil =>
    cases sent
    exact ⟨rfl, by simp⟩
  | cons note rest ih =>
    obtain ⟨plaintext, outerAad⟩ := note
    obtain ⟨⟨t, first⟩, now, remaining⟩ := bind_eq_ok.mp sent
    obtain ⟨⟨u, others⟩, later, last⟩ := bind_eq_ok.mp remaining
    simp only [encrypt, own] at now
    obtain ⟨rfl, rfl⟩ := Prod.mk.inj (Except.ok.inj now)
    obtain ⟨rfl, rfl⟩ := Prod.mk.inj (Except.ok.inj last)
    -- the next message comes from the next position
    have next : UInt32.ofNat n + 1 = UInt32.ofNat (n + 1) := by rw [UInt32.ofNat_add]; rfl
    obtain ⟨length, get⟩ := ih (n := n + 1)
      (by simp only [next, Function.iterate_succ_apply']) later
    refine ⟨by simp [length], fun i found present => ?_⟩
    cases i with
    | zero =>
      simp only [List.getElem?_cons_zero, Option.some.injEq] at present
      subst present
      rfl
    | succ i =>
      rw [List.getElem?_cons_succ] at present ⊢
      have shifted : n + (i + 1) = n + 1 + i := by omega
      rw [shifted]
      exact get i found present

/-! ### A chain and its cache -/

/-- The chain stands at a position, and its cache holds the keys of the given indices. -/
structure PerPeerChain.Tracks (P : SenderKeys K) (chainId : Bytes) (seed : K)
    (chain : PerPeerChain K) (next : Nat) (cached : Finset Nat) : Prop where
  chainId_eq : chain.chainId = chainId
  nextIndex : chain.nextIndex.toNat = next
  chainKey : chain.chainKey = P.kdf.nextKey^[next] seed
  lookup : ∀ i : UInt32, chain.skipped[i]? =
    if i.toNat ∈ cached then some (P.kdf.messageKey (P.kdf.nextKey^[i.toNat] seed)) else none
  size : chain.skipped.size = cached.card
  below : ∀ i ∈ cached, i < next

namespace PerPeerChain

variable {chainId : Bytes} {seed : K} {chain : PerPeerChain K} {next : Nat} {cached : Finset Nat}

/-- Below the bound of the cache, skipping an index only adds its key. -/
theorem Tracks.skipOne (tracks : chain.Tracks P chainId seed next cached)
    (room : cached.card < kMaxSkip) (small : next + 1 < 2 ^ 32) :
    (chain.skipOne P).Tracks P chainId seed (next + 1) (insert next cached) := by
  have fits : ¬chain.skipped.size ≥ kMaxSkip := by
    rw [tracks.size]
    omega
  have fresh : next ∉ cached := fun inside => Nat.lt_irrefl next (tracks.below next inside)
  have absent : chain.nextIndex ∉ chain.skipped := by
    rw [ExtTreeMap.mem_iff_isSome_getElem?, tracks.lookup, tracks.nextIndex, if_neg fresh]
    simp
  have inserted : (chain.skipOne P).skipped =
      chain.skipped.insertIfNew chain.nextIndex (P.kdf.messageKey chain.chainKey) := by
    simp only [PerPeerChain.skipOne, fits, if_false]
  refine ⟨tracks.chainId_eq, ?_, ?_, ?_, ?_, ?_⟩
  · rw [skipOne_nextIndex, UInt32.toNat_add, UInt32.toNat_one, tracks.nextIndex,
      Nat.mod_eq_of_lt small]
  · rw [skipOne_chainKey, tracks.chainKey, Function.iterate_succ_apply']
  · intro i
    rw [inserted, ExtTreeMap.getElem?_insertIfNew]
    simp only [LawfulEqCmp.compare_eq_iff_eq, absent, not_false_iff, and_true]
    by_cases here : chain.nextIndex = i
    · subst here
      simp [tracks.nextIndex, tracks.chainKey]
    · have other : i.toNat ≠ next := by
        rw [← tracks.nextIndex]
        exact fun same => here (UInt32.toNat_inj.mp same.symm)
      simp [here, other, tracks.lookup]
  · rw [inserted, ExtTreeMap.size_insertIfNew, if_neg absent, tracks.size,
      Finset.card_insert_of_notMem fresh]
  · intro i member
    rcases Finset.mem_insert.mp member with rfl | old
    · exact Nat.lt_succ_self i
    · exact Nat.lt_succ_of_lt (tracks.below i old)

/-- The loop up to an index adds the keys of all indices that it passes. -/
theorem Tracks.skipTo (tracks : chain.Tracks P chainId seed next cached) (target : UInt32)
    {fuel : Nat} (distance : next + fuel = target.toNat) (room : cached.card + fuel ≤ kMaxSkip) :
    (chain.skipTo P target fuel).Tracks P chainId seed target.toNat
      (cached ∪ Finset.Ico next target.toNat) := by
  induction fuel generalizing chain next cached with
  | zero =>
    obtain rfl : next = target.toNat := by omega
    simpa [PerPeerChain.skipTo] using tracks
  | succ fuel ih =>
    have bound := target.toNat_lt
    have below : chain.nextIndex < target := by
      rw [UInt32.lt_iff_toNat_lt, tracks.nextIndex]
      omega
    have fresh : next ∉ cached := fun inside => Nat.lt_irrefl next (tracks.below next inside)
    have first := tracks.skipOne (by omega) (by omega)
    have rest := ih first (by omega) (by rw [Finset.card_insert_of_notMem fresh]; omega)
    have passed : insert next cached ∪ Finset.Ico (next + 1) target.toNat =
        cached ∪ Finset.Ico next target.toNat := by
      rw [Finset.insert_union, ← Finset.union_insert,
        Finset.insert_Ico_add_one_left_eq_Ico (by omega)]
    rw [passed] at rest
    simpa only [PerPeerChain.skipTo, if_pos below] using rest

/-! ### One delivery to a chain -/

variable {i : Nat} (plaintext outerAad : Bytes)

/-- A cached key opens its message and is used up. -/
theorem Tracks.decrypt_cached (tracks : chain.Tracks P chainId seed next cached)
    (inside : i ∈ cached) (small : i < 2 ^ 32) :
    ∃ chain', chain.decrypt P (genuine P chainId seed i plaintext outerAad) outerAad =
        (chain', some plaintext) ∧
      chain'.Tracks P chainId seed next (cached.erase i) := by
  have index : (UInt32.ofNat i).toNat = i := UInt32.toNat_ofNat_of_lt' small
  have hit : chain.skipped[UInt32.ofNat i]? =
      some (P.kdf.messageKey (P.kdf.nextKey^[i] seed)) := by
    rw [tracks.lookup, index, if_pos inside]
  have present : chain.skipped.contains (UInt32.ofNat i) = true := by
    rw [ExtTreeMap.contains_eq_isSome_getElem?, hit]
    rfl
  refine ⟨{ chain with skipped := chain.skipped.erase (UInt32.ofNat i) }, ?_, ?_⟩
  · simp only [PerPeerChain.decrypt, genuine, hit, Aead.decrypt_encrypt]
  · refine ⟨tracks.chainId_eq, tracks.nextIndex, tracks.chainKey, ?_, ?_, ?_⟩
    · intro j
      rw [ExtTreeMap.getElem?_erase]
      by_cases here : UInt32.ofNat i = j
      · subst here
        simp [index]
      · have other : j.toNat ≠ i := by
          rw [← index]
          exact fun same => here (UInt32.toNat_inj.mp same.symm)
        simp [here, other, tracks.lookup]
    · rw [ExtTreeMap.size_erase, if_pos present, tracks.size, Finset.card_erase_of_mem inside]
    · exact fun j member => tracks.below j (Finset.mem_of_mem_erase member)

/-- A message that has been passed and is not in the cache does nothing. -/
theorem Tracks.decrypt_passed (tracks : chain.Tracks P chainId seed next cached)
    (passed : i < next) (outside : i ∉ cached) :
    chain.decrypt P (genuine P chainId seed i plaintext outerAad) outerAad = (chain, none) := by
  have bound := chain.nextIndex.toNat_lt
  rw [tracks.nextIndex] at bound
  have index : (UInt32.ofNat i).toNat = i := UInt32.toNat_ofNat_of_lt' (show i < 2 ^ 32 by omega)
  have miss : chain.skipped[UInt32.ofNat i]? = none := by
    rw [tracks.lookup, index, if_neg outside]
  apply decrypt_outside miss
  left
  show UInt32.ofNat i < chain.nextIndex
  rw [UInt32.lt_iff_toNat_lt, index, tracks.nextIndex]
  exact passed

/-- A message at the chain or ahead of it opens, and the indices between are cached. -/
theorem Tracks.decrypt_ahead (tracks : chain.Tracks P chainId seed next cached)
    (ahead : next ≤ i) (room : cached.card + (i - next) ≤ kMaxSkip) (small : i + 1 < 2 ^ 32) :
    ∃ chain', chain.decrypt P (genuine P chainId seed i plaintext outerAad) outerAad =
        (chain', some plaintext) ∧
      chain'.Tracks P chainId seed (i + 1) (cached ∪ Finset.Ico next i) := by
  have index : (UInt32.ofNat i).toNat = i := UInt32.toNat_ofNat_of_lt' (show i < 2 ^ 32 by omega)
  have miss : chain.skipped[UInt32.ofNat i]? = none := by
    rw [tracks.lookup, index, if_neg]
    exact fun inside => by have := tracks.below i inside; omega
  have notBelow : ¬UInt32.ofNat i < chain.nextIndex := by
    rw [UInt32.lt_iff_toNat_lt, index, tracks.nextIndex]
    omega
  have distance : (UInt32.ofNat i - chain.nextIndex).toNat = i - next := by
    rw [UInt32.toNat_sub_of_le _ _ (UInt32.not_lt.mp notBelow), index, tracks.nextIndex]
  have advanced : chain.advanceTo P (UInt32.ofNat i) =
      some (chain.skipTo P (UInt32.ofNat i) (i - next)) := by
    rw [advanceTo, if_neg notBelow, distance, if_neg (by omega)]
  have skipped := tracks.skipTo (UInt32.ofNat i) (by rw [index]; omega) room
  rw [index] at skipped
  -- the key behind the loop is the one that the sender has used
  refine ⟨{ chain.skipTo P (UInt32.ofNat i) (i - next) with
    chainKey := P.kdf.nextKey (chain.skipTo P (UInt32.ofNat i) (i - next)).chainKey
    nextIndex := (chain.skipTo P (UInt32.ofNat i) (i - next)).nextIndex + 1 }, ?_, ?_⟩
  · simp only [PerPeerChain.decrypt, genuine, miss, if_neg notBelow, advanced, skipped.chainKey,
      Aead.decrypt_encrypt]
  · refine ⟨skipped.chainId_eq, ?_, ?_, skipped.lookup, skipped.size, ?_⟩
    · simp only [UInt32.toNat_add, UInt32.toNat_one, skipped.nextIndex]
      exact Nat.mod_eq_of_lt small
    · simp only [skipped.chainKey, Function.iterate_succ_apply']
    · exact fun j member => Nat.lt_succ_of_lt (skipped.below j member)

end PerPeerChain

/-! ### Deliveries to a session -/

/-- The session holds such a chain for the peer. -/
def GroupSession.Tracks (P : SenderKeys K) (chainId : Bytes) (seed : K) (peerId : Bytes)
    (r : GroupSession K) (next : Nat) (cached : Finset Nat) : Prop :=
  ∃ chain, r.peers peerId = some chain ∧ chain.Tracks P chainId seed next cached

variable {chainId : Bytes} {seed : K} {peerId : Bytes} {r r' : GroupSession K}

/-- A genuine message reaches the chain. -/
theorem GroupSession.decrypt_encode {chain chain' : PerPeerChain K} {i : Nat}
    {plaintext outerAad : Bytes} {result : Option Bytes} (sized : chainId.length = 16)
    (found : r.peers peerId = some chain) (same : chain.chainId = chainId)
    (decrypted : chain.decrypt P (genuine P chainId seed i plaintext outerAad) outerAad =
      (chain', result)) :
    r.decrypt P peerId (P.message.encode (genuine P chainId seed i plaintext outerAad)) outerAad =
      ({ r with peers := Function.update r.peers peerId (some chain') }, result) := by
  have ids : ¬chain.chainId ≠ (genuine P chainId seed i plaintext outerAad).chainId :=
    not_not.mpr same
  have width : ¬(genuine P chainId seed i plaintext outerAad).chainId.length ≠ 16 :=
    not_not.mpr sized
  simp only [GroupSession.decrypt, P.message.decode_encode, found, if_neg ids, if_neg width,
    decrypted]

/-- The distribution of a new chain puts the receiver at its beginning. -/
theorem GroupSession.installPeerDistribution_tracks {s : GroupSession K}
    (installed : r.installPeerDistribution P peerId (s.createOwnSendChain P chainId seed).2 =
      .ok r') :
    chainId.length = 16 ∧ r'.Tracks P chainId seed peerId 0 ∅ := by
  simp only [installPeerDistribution, createOwnSendChain, PerPeerChain.ofDistribution,
    P.distribution.decode_encode] at installed
  split at installed
  · cases installed
  · rename_i sized
    cases installed
    refine ⟨not_not.mp sized, ⟨chainId, seed, 0, ∅⟩, Function.update_self .., ?_⟩
    exact ⟨rfl, rfl, rfl, fun i => by simp, by simp, by simp⟩

/-- What has to hold of an order of deliveries: no prefix of it leaves more gaps than the
cache holds, which also keeps every message within `kMaxSkip` of the chain, and the index
behind the last message stays below `2 ^ 32`. -/
structure Within (arrivals : List Nat) : Prop where
  cache : ∀ before after, arrivals = before ++ after → (missing before).card ≤ kMaxSkip
  index : reach arrivals < 2 ^ 32

theorem Within.of_append {before after : List Nat} (within : Within (before ++ after)) :
    Within before where
  cache := by
    rintro first rest rfl
    exact within.cache first (rest ++ after) (List.append_assoc ..)
  index := (reach_le_append before after).trans_lt within.index

/-- The first `kMaxSkip` messages may come in any order. -/
theorem Within.of_reach_le {arrivals : List Nat} (few : reach arrivals ≤ kMaxSkip) :
    Within arrivals where
  cache := by
    rintro before after rfl
    exact ((card_missing_le before).trans (reach_le_append before after)).trans few
  index := few.trans_lt (by decide)

/-- A delivery of a genuine message moves the session to the arrivals with it: the first
opens the message, a repeated one does nothing. -/
theorem GroupSession.Tracks.decrypt {arrived : List Nat} {i : Nat} (sized : chainId.length = 16)
    (tracks : r.Tracks P chainId seed peerId (reach arrived) (missing arrived))
    (within : Within (arrived ++ [i])) (plaintext outerAad : Bytes) :
    ∃ r', r'.Tracks P chainId seed peerId (reach (arrived ++ [i])) (missing (arrived ++ [i])) ∧
      r.decrypt P peerId (P.message.encode (genuine P chainId seed i plaintext outerAad))
        outerAad = (r', if i ∈ arrived then none else some plaintext) ∧
      (i ∈ arrived → r' = r) := by
  obtain ⟨chain, found, tracks⟩ := tracks
  have small := within.index
  rw [reach_append_singleton] at small ⊢
  by_cases below : i < reach arrived
  · rw [missing_append_of_lt below, max_eq_left below]
    by_cases old : i ∈ arrived
    · -- a repeated message has no gap to fill
      have outside : i ∉ missing arrived := fun gap => (mem_missing.mp gap).2 old
      have decrypted := decrypt_encode (P := P) sized found tracks.chainId_eq
        (tracks.decrypt_passed plaintext outerAad below outside)
      rw [← found, Function.update_eq_self] at decrypted
      rw [decrypted, Finset.erase_eq_of_notMem outside, if_pos old]
      exact ⟨r, ⟨chain, found, tracks⟩, rfl, fun _ => rfl⟩
    · -- a late message fills its gap
      obtain ⟨chain', opened, tracks'⟩ := tracks.decrypt_cached plaintext outerAad
        (mem_missing.mpr ⟨below, old⟩) (by omega)
      rw [decrypt_encode sized found tracks.chainId_eq opened, if_neg old]
      exact ⟨_, ⟨chain', Function.update_self .., tracks'⟩, rfl, fun member => absurd member old⟩
  · -- a message ahead leaves gaps in front of itself
    have ahead : reach arrived ≤ i := Nat.le_of_not_lt below
    have fresh : i ∉ arrived := fun member => below (lt_reach_of_mem member)
    have room := within.cache (arrived ++ [i]) [] (List.append_nil _).symm
    rw [card_missing_append_of_le ahead] at room
    obtain ⟨chain', opened, tracks'⟩ := tracks.decrypt_ahead plaintext outerAad ahead room
      (by omega)
    rw [missing_append_of_le ahead, max_eq_right (by omega),
      decrypt_encode sized found tracks.chainId_eq opened, if_neg fresh]
    exact ⟨_, ⟨chain', Function.update_self .., tracks'⟩, rfl, fun member => absurd member fresh⟩

/-! ### Any order of deliveries -/

/-- The receiver is handed a message of the chain with its outer associated data. -/
def GroupSession.deliver (P : SenderKeys K) (peerId : Bytes) (notes : List (Bytes × Bytes))
    (messages : List Bytes) (r : GroupSession K) (i : Nat) : GroupSession K × Option Bytes :=
  r.decrypt P peerId (messages.getD i []) (notes.getD i ([], [])).2

def GroupSession.deliverAll (P : SenderKeys K) (peerId : Bytes) (notes : List (Bytes × Bytes))
    (messages : List Bytes) (r : GroupSession K) (arrivals : List Nat) : GroupSession K :=
  arrivals.foldl (fun r i => (r.deliver P peerId notes messages i).1) r

variable {s s' : GroupSession K} {notes : List (Bytes × Bytes)} {messages : List Bytes}

theorem GroupSession.deliver_eq
    (sent : (s.createOwnSendChain P chainId seed).1.encryptAll P notes = .ok (s', messages))
    {i : Nat} (exist : i < notes.length) :
    r.deliver P peerId notes messages i = r.decrypt P peerId (P.message.encode
      (genuine P chainId seed i (notes.getD i ([], [])).1 (notes.getD i ([], [])).2))
      (notes.getD i ([], [])).2 := by
  have present : notes[i]? = some (notes.getD i ([], [])) := by
    rw [List.getD_eq_getElem?_getD, List.getElem?_eq_getElem exist]
    rfl
  have message := (encryptAll_get (n := 0) rfl sent).2 i _ present
  rw [Nat.zero_add] at message
  have handed : messages.getD i [] = P.message.encode
      (genuine P chainId seed i (notes.getD i ([], [])).1 (notes.getD i ([], [])).2) := by
    rw [List.getD_eq_getElem?_getD, message]
    rfl
  rw [deliver, handed]

/-- After any deliveries the receiver tracks exactly what has arrived. -/
theorem GroupSession.deliverAll_tracks
    (sent : (s.createOwnSendChain P chainId seed).1.encryptAll P notes = .ok (s', messages))
    (installed : r.installPeerDistribution P peerId (s.createOwnSendChain P chainId seed).2 =
      .ok r') {arrived : List Nat} (exist : ∀ j ∈ arrived, j < notes.length)
    (within : Within arrived) :
    (r'.deliverAll P peerId notes messages arrived).Tracks P chainId seed peerId
      (reach arrived) (missing arrived) := by
  obtain ⟨sized, start⟩ := installPeerDistribution_tracks installed
  induction arrived using List.reverseRecOn with
  | nil => exact start
  | append_singleton before j ih =>
    have tracks := ih (fun k member => exist k (List.mem_append_left _ member)) within.of_append
    obtain ⟨u, tracks', decrypted, -⟩ := tracks.decrypt sized within
      (notes.getD j ([], [])).1 (notes.getD j ([], [])).2
    rw [← deliver_eq sent (exist j (by simp))] at decrypted
    have last : r'.deliverAll P peerId notes messages (before ++ [j]) = u := by
      rw [deliverAll, List.foldl_append]
      exact congrArg Prod.fst decrypted
    rw [last]
    exact tracks'

/-- Whatever has arrived before, in whatever order and however often, a message of the
chain opens when it arrives first, and does nothing when it has arrived already. -/
theorem sender_keys_open_once
    (sent : (s.createOwnSendChain P chainId seed).1.encryptAll P notes = .ok (s', messages))
    (installed : r.installPeerDistribution P peerId (s.createOwnSendChain P chainId seed).2 =
      .ok r') (arrived : List Nat) (i : Nat) (exist : ∀ j ∈ arrived ++ [i], j < notes.length)
    (within : Within (arrived ++ [i])) :
    let u := r'.deliverAll P peerId notes messages arrived
    (i ∉ arrived →
      (u.deliver P peerId notes messages i).2 = some (notes.getD i ([], [])).1) ∧
    (i ∈ arrived → u.deliver P peerId notes messages i = (u, none)) := by
  intro u
  have tracks := GroupSession.deliverAll_tracks sent installed
    (fun j member => exist j (List.mem_append_left _ member)) within.of_append
  obtain ⟨v, -, decrypted, unchanged⟩ := tracks.decrypt
    (GroupSession.installPeerDistribution_tracks installed).1 within
    (notes.getD i ([], [])).1 (notes.getD i ([], [])).2
  rw [← GroupSession.deliver_eq sent (exist i (by simp))] at decrypted
  constructor
  · intro first
    rw [decrypted, if_neg first]
  · intro again
    rw [decrypted, if_pos again, unchanged again]

/-- Of two messages the second comes first; then the first comes twice. -/
theorem sender_keys_open_once_reordered :
    let chainId : Bytes := List.replicate 16 5
    let sender := GroupSession.new.createOwnSendChain SenderKeys.nat chainId 3
    let notes : List (Bytes × Bytes) := [([1], []), ([2], [7])]
    ∃ s' messages r', sender.1.encryptAll SenderKeys.nat notes = .ok (s', messages) ∧
      GroupSession.new.installPeerDistribution SenderKeys.nat [8] sender.2 = .ok r' ∧
      ((r'.deliverAll SenderKeys.nat [8] notes messages [1]).deliver
        SenderKeys.nat [8] notes messages 0).2 = some [1] ∧
      (r'.deliverAll SenderKeys.nat [8] notes messages [1, 0]).deliver
        SenderKeys.nat [8] notes messages 0 =
        (r'.deliverAll SenderKeys.nat [8] notes messages [1, 0], none) := by
  intro chainId sender notes
  have installed : GroupSession.new.installPeerDistribution SenderKeys.nat [8] sender.2 =
      .ok ⟨none, Function.update (fun _ => none) [8] (some ⟨chainId, 3, 0, ∅⟩)⟩ := by
    simp [GroupSession.installPeerDistribution, PerPeerChain.ofDistribution, sender,
      GroupSession.createOwnSendChain, Codec.decode_encode, chainId, GroupSession.new, Except.map]
  refine ⟨_, _, _, rfl, installed, ?_, ?_⟩
  · exact (sender_keys_open_once rfl installed [1] 0 (by decide) (.of_reach_le (by decide))).1
      (by decide)
  · exact (sender_keys_open_once rfl installed [1, 0] 0 (by decide) (.of_reach_le (by decide))).2
      (by decide)

end

end FinBit.Crypto
