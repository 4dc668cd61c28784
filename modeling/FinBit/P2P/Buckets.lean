import FinBit.Lib.BigEndian
import FinBit.Lib.Sorting
import FinBit.P2P.Kademlia

/-! # Buckets and distances

A peer is stored in the bucket of the highest bit of its distance, once, and never the own id. Since
different peers have different distances to a target, the closest peers are in strictly rising order.
-/

namespace FinBit.P2P

open FinBit.Lib

/-- The XOR distance as a number. -/
def distance (a b : NodeId) : Nat :=
  beNat (xorDistance a b).toList

/-! ### Distances -/

theorem distance_inj {a b target : NodeId} : distance a target = distance b target ↔ a = b := by
  refine ⟨fun equal => ?_, fun equal => equal ▸ rfl⟩
  have lengths : (xorDistance a target).toList.length = (xorDistance b target).toList.length := by
    rw [Vector.length_toList, Vector.length_toList]
  have octets := Vector.toList_inj.mp ((beNat_inj lengths).mp equal)
  refine Vector.ext fun i inside => ?_
  have octet := congrArg (fun v : NodeId => v[i]) octets
  simpa [xorDistance, UInt8.xor_left_inj] using octet

theorem beNat_zeros {octets : Bytes} (zeros : ∀ octet ∈ octets, octet = 0) : beNat octets = 0 := by
  induction octets with
  | nil => rfl
  | cons octet octets ih =>
    obtain ⟨rfl, others⟩ := List.forall_mem_cons.mp zeros
    rw [beNat_cons, ih others]
    simp

theorem distance_self (a : NodeId) : distance a a = 0 := by
  refine beNat_zeros fun octet member => ?_
  obtain ⟨i, inside, rfl⟩ := List.getElem_of_mem member
  simp [xorDistance]

theorem distance_ne_zero {a b : NodeId} (apart : a ≠ b) : distance a b ≠ 0 := by
  rw [← distance_self b]
  exact fun equal => apart (distance_inj.mp equal)

theorem distance_lt (a b : NodeId) : distance a b < 2 ^ kAddressBits := by
  have bound := beNat_lt (xorDistance a b).toList
  rw [Vector.length_toList] at bound
  exact bound

/-- The scan of a distance that is not zero finds its highest bit. -/
theorem highestBit_eq {octets : Bytes} (positive : beNat octets ≠ 0) :
    highestBit octets = (beNat octets).log2 := by
  induction octets with
  | nil => exact absurd rfl positive
  | cons octet octets ih =>
    rw [beNat_cons] at positive ⊢
    rw [highestBit]
    by_cases zero : octet = 0
    · subst zero
      have skipped : (0 : UInt8).toNat * 256 ^ octets.length + beNat octets = beNat octets := by
        rw [UInt8.toNat_zero, Nat.zero_mul, Nat.zero_add]
      rw [skipped] at positive ⊢
      rw [if_pos rfl, ih positive]
    · have set : octet.toNat ≠ 0 := fun none => zero (UInt8.toNat_inj.mp none)
      rw [if_neg zero, find?_testBit (k := 8) set octet.toNat_lt, Option.getD_some,
        log2_octet set (beNat_lt octets)]

theorem bucketIndex_eq {a b : NodeId} (apart : a ≠ b) :
    bucketIndex (xorDistance a b) = (distance a b).log2 :=
  highestBit_eq (distance_ne_zero apart)

theorem log2_distance_lt {a b : NodeId} (apart : a ≠ b) : (distance a b).log2 < kAddressBits :=
  (Nat.log2_lt (distance_ne_zero apart)).mpr (distance_lt a b)

namespace RoutingTable

/-! ### The table -/

/-- The table after calls of `observe`. -/
def observeAll (self : NodeId) (peers : List PeerInfo) : RoutingTable :=
  peers.foldl observe (new self)

structure WellFormed (table : RoutingTable) : Prop where
  placed : ∀ index, ∀ p ∈ table.buckets index,
    p.id ≠ table.self ∧ (distance table.self p.id).log2 = index
  distinct : (table.all.map (·.id)).Nodup
  small : ∀ index, (table.buckets index).length ≤ kBucketSize

theorem mem_all {table : RoutingTable} {p : PeerInfo} :
    p ∈ table.all ↔ ∃ index, p ∈ table.buckets index := by
  simp [all]

/-- What an observation does to the table. -/
theorem observe_cases (table : RoutingTable) (peer : PeerInfo) :
    (peer.id = table.self ∧ table.observe peer = table) ∨
      ∃ index : Fin kAddressBits, peer.id ≠ table.self ∧
        (distance table.self peer.id).log2 = index ∧
        (table.observe peer).buckets = Function.update table.buckets index
          (refresh (table.buckets index) peer) := by
  by_cases apart : peer.id = table.self
  · exact .inl ⟨apart, by rw [observe, if_pos apart]⟩
  · have inside := log2_distance_lt (Ne.symm apart)
    exact .inr ⟨⟨_, inside⟩, apart, rfl,
      table.buckets_observe apart (bucketIndex_eq (Ne.symm apart)) inside⟩

/-- Ids are stored once if none is stored twice in a bucket, since the bucket depends on the id. -/
theorem nodup_all_iff {table : RoutingTable}
    (placed : ∀ index, ∀ p ∈ table.buckets index, (distance table.self p.id).log2 = index) :
    (table.all.map (·.id)).Nodup ↔ ∀ index, ((table.buckets index).map (·.id)).Nodup := by
  rw [all, List.map_flatMap, List.nodup_flatMap]
  constructor
  · exact fun both index => both.1 index (List.mem_finRange index)
  · refine fun each => ⟨fun index _ => each index, ?_⟩
    refine (List.nodup_finRange kAddressBits).imp fun {i j} apart id left right => ?_
    obtain ⟨p, inside, rfl⟩ := List.mem_map.mp left
    obtain ⟨q, inside', same⟩ := List.mem_map.mp right
    have index := placed j q inside'
    rw [same, placed i p inside] at index
    exact apart (Fin.val_injective index)

namespace Refreshed

variable {peer : PeerInfo} {bucket bucket' : List PeerInfo}

/-- The peers in a bucket after an observation are those before, or the one observed. -/
theorem mem (done : Refreshed peer bucket bucket') {p : PeerInfo} (member : p ∈ bucket') :
    p ∈ bucket ∨ p.id = peer.id := by
  cases done with
  | known same first =>
    simp only [List.mem_append, List.mem_singleton] at member
    obtain (inside | inside) | rfl := member
    · exact .inl (List.mem_append_left _ inside)
    · exact .inl (List.mem_append_right _ (List.mem_cons_of_mem _ inside))
    · exact .inr same
  | joins new room =>
    obtain inside | last := List.mem_append.mp member
    · exact .inl inside
    · exact .inr (congrArg _ (List.mem_singleton.mp last))
  | displaces new full =>
    obtain rfl | inside := List.mem_cons.mp member
    · exact .inr rfl
    · exact .inl (List.mem_cons_of_mem _ inside)

theorem nodup (done : Refreshed peer bucket bucket') (distinct : (bucket.map (·.id)).Nodup) :
    (bucket'.map (·.id)).Nodup := by
  cases done with
  | @known before after entry same first =>
    have moved : ((before ++ after ++ [{ entry with addr := peer.addr }]).map PeerInfo.id).Perm
        ((before ++ entry :: after).map PeerInfo.id) := by
      simpa using (List.perm_append_singleton entry.id _).trans List.perm_middle.symm
    exact moved.nodup_iff.mpr distinct
  | joins new room =>
    rw [List.map_append, List.map_singleton, ← List.concat_eq_append]
    refine distinct.concat fun inside => ?_
    obtain ⟨p, member, same⟩ := List.mem_map.mp inside
    exact new p member same
  | displaces new full =>
    rw [List.map_cons] at distinct ⊢
    refine List.nodup_cons.mpr ⟨fun inside => ?_, (List.nodup_cons.mp distinct).2⟩
    obtain ⟨p, member, same⟩ := List.mem_map.mp inside
    exact new p (List.mem_cons_of_mem _ member) same

theorem length_le (done : Refreshed peer bucket bucket') (small : bucket.length ≤ kBucketSize) :
    bucket'.length ≤ kBucketSize := by
  cases done with
  | known same first => simpa using small
  | joins new room => simpa using Nat.succ_le_of_lt room
  | displaces new full => exact small

/-- Where the peers of a bucket come from: another peer is left alone, a known one has the new
address, and a new one is as it was observed. -/
theorem origin (done : Refreshed peer bucket bucket') (distinct : (bucket.map (·.id)).Nodup)
    {q : PeerInfo} (member : q ∈ bucket') :
    (q ∈ bucket ∧ q.id ≠ peer.id) ∨
      (∃ entry ∈ bucket, entry.id = peer.id ∧ q = { entry with addr := peer.addr }) ∨
      (q = peer ∧ ∀ entry ∈ bucket, entry.id ≠ peer.id) := by
  cases done with
  | @known before after entry same first =>
    rw [List.map_append, List.map_cons] at distinct
    have others := (List.nodup_middle.mp distinct).notMem
    rw [← List.map_append, same] at others
    simp only [List.mem_append, List.mem_singleton] at member
    obtain inside | rfl := member
    · rw [← List.mem_append] at inside
      refine .inl ⟨?_, fun again => others (again ▸ List.mem_map_of_mem inside)⟩
      exact ((List.sublist_cons_self entry after).append_left before).subset inside
    · exact .inr (.inl ⟨entry, List.mem_append_right _ List.mem_cons_self, same, rfl⟩)
  | joins new room =>
    obtain inside | last := List.mem_append.mp member
    · exact .inl ⟨inside, new q inside⟩
    · exact .inr (.inr ⟨List.mem_singleton.mp last, new⟩)
  | displaces new full =>
    obtain rfl | inside := List.mem_cons.mp member
    · exact .inr (.inr ⟨rfl, new⟩)
    · exact .inl ⟨List.mem_cons_of_mem _ inside, new q (List.mem_cons_of_mem _ inside)⟩

theorem listed (done : Refreshed peer bucket bucket') : ∃ entry ∈ bucket', entry.id = peer.id := by
  cases done with
  | known same first => exact ⟨_, List.mem_append_right _ (List.mem_singleton_self _), same⟩
  | joins new room => exact ⟨peer, List.mem_append_right _ (List.mem_singleton_self _), rfl⟩
  | displaces new full => exact ⟨peer, List.mem_cons_self, rfl⟩

/-- A known peer stays, with the new address. -/
theorem stays (done : Refreshed peer bucket bucket') (distinct : (bucket.map (·.id)).Nodup)
    {entry : PeerInfo} (stored : entry ∈ bucket) (same : entry.id = peer.id) :
    { entry with addr := peer.addr } ∈ bucket' := by
  cases done with
  | @known before after entry' same' first =>
    have entries : entry = entry' := List.inj_on_of_nodup_map distinct stored
      (List.mem_append_right _ List.mem_cons_self) (same.trans same'.symm)
    rw [entries]
    exact List.mem_append_right _ (List.mem_singleton_self _)
  | joins new room => exact absurd same (new entry stored)
  | displaces new full => exact absurd same (new entry stored)

end Refreshed

theorem wellFormed_new (self : NodeId) : (new self).WellFormed where
  placed _ _ member := absurd member List.not_mem_nil
  distinct := by
    rw [nodup_all_iff fun _ _ member => absurd member List.not_mem_nil]
    exact fun _ => List.nodup_nil
  small _ := Nat.zero_le _

theorem WellFormed.observe {table : RoutingTable} (formed : table.WellFormed) (peer : PeerInfo) :
    (table.observe peer).WellFormed := by
  obtain ⟨-, same⟩ | ⟨index, apart, bit, buckets⟩ := table.observe_cases peer
  · rw [same]
    exact formed
  have each := (nodup_all_iff fun i p member => (formed.placed i p member).2).mp formed.distinct
  have placed : ∀ i, ∀ p ∈ (table.observe peer).buckets i,
      p.id ≠ (table.observe peer).self ∧ (distance (table.observe peer).self p.id).log2 = i := by
    intro i p member
    rw [self_observe]
    rw [buckets] at member
    by_cases here : i = index
    · subst here
      rw [Function.update_self] at member
      obtain stored | same := (refreshed _ peer).mem member
      · exact formed.placed i p stored
      · rw [same]
        exact ⟨apart, bit⟩
    · rw [Function.update_of_ne here] at member
      exact formed.placed i p member
  refine ⟨placed, (nodup_all_iff fun i p member => (placed i p member).2).mpr fun i => ?_, fun i => ?_⟩
  all_goals
    rw [buckets]
    by_cases here : i = index
  · subst here
    rw [Function.update_self]
    exact (refreshed _ peer).nodup (each i)
  · rw [Function.update_of_ne here]
    exact each i
  · subst here
    rw [Function.update_self]
    exact (refreshed _ peer).length_le (formed.small i)
  · rw [Function.update_of_ne here]
    exact formed.small i

theorem wellFormed_observeAll (self : NodeId) (peers : List PeerInfo) :
    (observeAll self peers).WellFormed := by
  suffices any : ∀ table : RoutingTable, table.WellFormed → (peers.foldl observe table).WellFormed from
    any _ (wellFormed_new self)
  induction peers with
  | nil => exact fun _ formed => formed
  | cons peer peers ih => exact fun table formed => ih _ (formed.observe peer)

/-- Whoever is observed is in the table. -/
theorem exists_mem_observe (table : RoutingTable) {peer : PeerInfo} (apart : peer.id ≠ table.self) :
    ∃ entry ∈ (table.observe peer).all, entry.id = peer.id := by
  obtain ⟨own, -⟩ | ⟨index, -, -, buckets⟩ := table.observe_cases peer
  · exact absurd own apart
  · obtain ⟨entry, inside, same⟩ := (refreshed (table.buckets index) peer).listed
    refine ⟨entry, mem_all.mpr ⟨index, ?_⟩, same⟩
    rwa [buckets, Function.update_self]

namespace WellFormed

variable {table : RoutingTable} {peer : PeerInfo}

/-- An id is stored once. -/
theorem entry_unique (formed : table.WellFormed) {p q : PeerInfo} (left : p ∈ table.all)
    (right : q ∈ table.all) (same : p.id = q.id) : p = q :=
  List.inj_on_of_nodup_map formed.distinct left right same

/-- Where the peers of a table come from. -/
theorem origin (formed : table.WellFormed) {q : PeerInfo} (member : q ∈ (table.observe peer).all) :
    (q ∈ table.all ∧ q.id ≠ peer.id) ∨
      (∃ entry ∈ table.all, entry.id = peer.id ∧ q = { entry with addr := peer.addr }) ∨
      (q = peer ∧ ∀ entry ∈ table.all, entry.id ≠ peer.id) := by
  have each := (nodup_all_iff fun i p stored => (formed.placed i p stored).2).mp formed.distinct
  -- whoever has the id of the peer is in its bucket
  have bucket_of {i : Fin kAddressBits} {p : PeerInfo} (stored : p ∈ table.buckets i)
      (same : p.id = peer.id) : (distance table.self peer.id).log2 = i := by
    rw [← same]
    exact (formed.placed i p stored).2
  obtain ⟨own, same⟩ | ⟨index, -, bit, buckets⟩ := table.observe_cases peer
  · rw [same] at member
    obtain ⟨i, stored⟩ := mem_all.mp member
    refine .inl ⟨member, fun again => (formed.placed i q stored).1 (again.trans own)⟩
  · obtain ⟨i, stored⟩ := mem_all.mp member
    rw [buckets] at stored
    by_cases here : i = index
    · subst here
      rw [Function.update_self] at stored
      obtain ⟨inside, other⟩ | ⟨entry, inside, same, changed⟩ | ⟨new, others⟩ :=
        (refreshed _ peer).origin (each i) stored
      · exact .inl ⟨mem_all.mpr ⟨i, inside⟩, other⟩
      · exact .inr (.inl ⟨entry, mem_all.mpr ⟨i, inside⟩, same, changed⟩)
      · refine .inr (.inr ⟨new, fun entry listed same => ?_⟩)
        obtain ⟨j, inside⟩ := mem_all.mp listed
        obtain rfl : i = j := Fin.val_injective (bit.symm.trans (bucket_of inside same))
        exact others entry inside same
    · rw [Function.update_of_ne here] at stored
      refine .inl ⟨mem_all.mpr ⟨i, stored⟩, fun same => here ?_⟩
      exact Fin.val_injective ((bucket_of stored same).symm.trans bit)

/-- A known peer stays in the table, with the new address. -/
theorem stays (formed : table.WellFormed) {entry : PeerInfo} (stored : entry ∈ table.all)
    (same : entry.id = peer.id) : { entry with addr := peer.addr } ∈ (table.observe peer).all := by
  have each := (nodup_all_iff fun i p stored => (formed.placed i p stored).2).mp formed.distinct
  obtain ⟨i, inside⟩ := mem_all.mp stored
  have placed := formed.placed i entry inside
  obtain ⟨own, -⟩ | ⟨index, -, bit, buckets⟩ := table.observe_cases peer
  · exact absurd (same.trans own) placed.1
  · rw [same] at placed
    obtain rfl : i = index := Fin.val_injective (placed.2.symm.trans bit)
    refine mem_all.mpr ⟨i, ?_⟩
    rw [buckets, Function.update_self]
    exact (refreshed _ peer).stays (each i) inside same

end WellFormed

/-! ### The closest peers -/

/-- The octets of distances are compared as numbers. -/
theorem closest_eq (table : RoutingTable) (target : NodeId) (limit : Nat) :
    table.closest target limit = (table.all.mergeSort fun a b =>
      decide (distance a.id target ≤ distance b.id target)).take limit := by
  have compared : (fun a b : PeerInfo =>
      decide ((xorDistance a.id target).toList ≤ (xorDistance b.id target).toList)) =
        fun a b => decide (distance a.id target ≤ distance b.id target) := by
    funext a b
    refine decide_eq_decide.mpr (le_iff_beNat_le ?_)
    rw [Vector.length_toList, Vector.length_toList]
  rw [closest, compared]

theorem WellFormed.nearest_closest {table : RoutingTable} (formed : table.WellFormed)
    (target : NodeId) (limit : Nat) :
    Nearest (fun p => distance p.id target) table.all limit (table.closest target limit) := by
  rw [closest_eq]
  refine nearest_take_mergeSort ?_ limit
  exact (List.pairwise_map.mp formed.distinct).imp fun apart equal => apart (distance_inj.mp equal)

/-- After any observations the table is well-formed, and its closest peers are the nearest. -/
theorem wellFormed_and_nearest (self : NodeId) (peers : List PeerInfo) :
    (observeAll self peers).WellFormed ∧ ∀ target limit,
      Nearest (fun p => distance p.id target) (observeAll self peers).all limit
        ((observeAll self peers).closest target limit) :=
  ⟨wellFormed_observeAll self peers, (wellFormed_observeAll self peers).nearest_closest⟩

end RoutingTable

end FinBit.P2P
