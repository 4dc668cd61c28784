import FinBit.Lib.Recency
import FinBit.P2P.Buckets

/-! # The order within a bucket

A bucket has the least recently seen peer in front, until a newcomer takes the place of that peer
and so stands in front itself. That happens when more different peers have been seen than it holds.
-/

namespace FinBit.P2P

open FinBit.Lib

namespace RoutingTable

/-- The ids in a bucket, in their order, after the observations. -/
def ids (self : NodeId) (history : List PeerInfo) (index : Fin kAddressBits) : List NodeId :=
  ((observeAll self history).buckets index).map (·.id)

/-- Each bucket lists its peers in the order in which they were last observed. -/
def Ordered (self : NodeId) (history : List PeerInfo) : Prop :=
  ∀ index, Aged (history.map (·.id)) (ids self history index)

/-- The observation of the peer removes no other than the one whose last observation is the oldest
of its bucket. -/
def EvictsOldest (self : NodeId) (history : List PeerInfo) (peer : PeerInfo) : Prop :=
  ∀ index, ∀ id ∈ ids self history index, id ∉ ids self (history ++ [peer]) index →
    ∀ other ∈ ids self history index, age (history.map (·.id)) other ≤ age (history.map (·.id)) id

/-- The different ids that have been observed and belong into a bucket. -/
def heard (self : NodeId) (history : List PeerInfo) (index : Fin kAddressBits) : Finset NodeId :=
  (history.map (·.id)).toFinset.filter fun id => id ≠ self ∧ (distance self id).log2 = index

variable {self : NodeId} {history : List PeerInfo} {peer : PeerInfo} {index : Fin kAddressBits}

/-! ### One observation -/

/-- What an observation does to the ids of a bucket. -/
inductive Moved (id : NodeId) : List NodeId → List NodeId → Prop
  | known {before after : List NodeId} : Moved id (before ++ id :: after) (before ++ after ++ [id])
  | joins {l : List NodeId} (new : id ∉ l) : Moved id l (l ++ [id])
  | displaces {front : NodeId} {rest : List NodeId} (new : id ∉ front :: rest)
      (full : kBucketSize ≤ (front :: rest).length) : Moved id (front :: rest) (id :: rest)

theorem Refreshed.moved {bucket bucket' : List PeerInfo} (done : Refreshed peer bucket bucket') :
    Moved peer.id (bucket.map (·.id)) (bucket'.map (·.id)) := by
  cases done with
  | known same first =>
    simp only [List.map_append, List.map_cons, List.map_nil, same]
    exact .known
  | joins new room =>
    rw [List.map_append]
    refine .joins fun inside => ?_
    obtain ⟨p, member, same⟩ := List.mem_map.mp inside
    exact new p member same
  | displaces new full =>
    refine .displaces (fun inside => ?_) (by simpa using full)
    obtain ⟨p, member, same⟩ := List.mem_map.mp (List.map_cons ▸ inside)
    exact new p member same

theorem observeAll_concat (self : NodeId) (history : List PeerInfo) (peer : PeerInfo) :
    observeAll self (history ++ [peer]) = (observeAll self history).observe peer := by
  rw [observeAll, List.foldl_append]
  rfl

theorem self_observeAll (self : NodeId) (history : List PeerInfo) :
    (observeAll self history).self = self := by
  induction history using List.reverseRecOn with
  | nil => rfl
  | append_singleton history peer ih => rw [observeAll_concat, self_observe, ih]

/-- The id belongs into the bucket. -/
def Belongs (self : NodeId) (index : Fin kAddressBits) (id : NodeId) : Prop :=
  id ≠ self ∧ (distance self id).log2 = index

/-- Only the bucket that the peer belongs into changes. -/
theorem ids_concat (self : NodeId) (history : List PeerInfo) (peer : PeerInfo)
    (index : Fin kAddressBits) :
    (¬Belongs self index peer.id ∧ ids self (history ++ [peer]) index = ids self history index) ∨
      (Belongs self index peer.id ∧
        Moved peer.id (ids self history index) (ids self (history ++ [peer]) index)) := by
  have own := self_observeAll self history
  rw [ids, ids, observeAll_concat]
  obtain ⟨same, still⟩ | ⟨place, apart, bit, buckets⟩ := (observeAll self history).observe_cases peer
  · rw [own] at same
    exact .inl ⟨fun belongs => belongs.1 same, by rw [still]⟩
  · rw [own] at apart bit
    rw [buckets]
    by_cases here : index = place
    · subst here
      rw [Function.update_self]
      exact .inr ⟨⟨apart, bit⟩, (refreshed _ peer).moved⟩
    · rw [Function.update_of_ne here]
      refine .inl ⟨fun belongs => here (Fin.val_injective ?_), rfl⟩
      rw [← belongs.2, bit]

theorem belongs_of_mem {id : NodeId} (member : id ∈ ids self history index) :
    Belongs self index id := by
  obtain ⟨p, stored, rfl⟩ := List.mem_map.mp member
  have placed := (wellFormed_observeAll self history).placed index p stored
  rwa [self_observeAll] at placed

theorem nodup_ids (self : NodeId) (history : List PeerInfo) (index : Fin kAddressBits) :
    (ids self history index).Nodup := by
  have formed := wellFormed_observeAll self history
  exact (nodup_all_iff fun i p member => (formed.placed i p member).2).mp formed.distinct index

theorem length_ids_le (self : NodeId) (history : List PeerInfo) (index : Fin kAddressBits) :
    (ids self history index).length ≤ kBucketSize := by
  rw [ids, List.length_map]
  exact (wellFormed_observeAll self history).small index

theorem mem_heard {id : NodeId} :
    id ∈ heard self history index ↔ id ∈ history.map (·.id) ∧ Belongs self index id := by
  rw [heard, Finset.mem_filter, List.mem_toFinset, Belongs]

/-! ### Buckets that have had room -/

/-- Where everybody that has been observed is still stored, the bucket counts them. -/
theorem card_heard (keeps : ∀ id, id ∈ ids self history index ↔ id ∈ heard self history index) :
    (heard self history index).card = (ids self history index).length := by
  have same : heard self history index = (ids self history index).toFinset := by
    ext id
    rw [List.mem_toFinset, keeps]
  rw [same, List.toFinset_card_of_nodup (nodup_ids self history index)]

theorem mem_heard_concat {id : NodeId} :
    id ∈ heard self (history ++ [peer]) index ↔
      id ∈ heard self history index ∨ (id = peer.id ∧ Belongs self index peer.id) := by
  rw [mem_heard, mem_heard, List.map_append, List.mem_append, List.map_singleton,
    List.mem_singleton, or_and_right]
  exact or_congr_right (and_congr_right fun same => by rw [same])

/-- As long as nobody has been displaced from a bucket, an observation keeps it so and keeps its
order, or puts a newcomer in front, because more different ids have been observed than it holds. -/
theorem concat_cases (peer : PeerInfo)
    (keeps : ∀ id, id ∈ ids self history index ↔ id ∈ heard self history index)
    (aged : Aged (history.map (·.id)) (ids self history index)) :
    ((∀ id, id ∈ ids self (history ++ [peer]) index ↔ id ∈ heard self (history ++ [peer]) index) ∧
        Aged ((history ++ [peer]).map (·.id)) (ids self (history ++ [peer]) index)) ∨
      (kBucketSize < (heard self (history ++ [peer]) index).card ∧
        ¬Aged ((history ++ [peer]).map (·.id)) (ids self (history ++ [peer]) index)) := by
  have distinct := nodup_ids self history index
  have card : (heard self history index).card = (ids self history index).length :=
    card_heard keeps
  have seen : (history ++ [peer]).map (·.id) = history.map (·.id) ++ [peer.id] := by
    rw [List.map_append, List.map_singleton]
  rw [seen]
  obtain ⟨elsewhere, same⟩ | ⟨belongs, moved⟩ := ids_concat self history peer index
  · rw [same]
    refine .inl ⟨fun id => ?_, aged.skip fun inside => elsewhere (belongs_of_mem inside)⟩
    rw [keeps, mem_heard_concat]
    exact (or_iff_left fun both => elsewhere both.2).symm
  · have heard_iff (id : NodeId) : id ∈ heard self (history ++ [peer]) index ↔
        id ∈ ids self history index ∨ id = peer.id := by
      rw [mem_heard_concat, keeps, and_iff_left belongs]
    simp only [heard_iff]
    generalize ids self history index = l at *
    generalize ids self (history ++ [peer]) index = l' at *
    cases moved with
    | @known before after =>
      have others : peer.id ∉ before ++ after := (List.nodup_middle.mp distinct).notMem
      have kept : Aged (history.map (·.id)) (before ++ after) :=
        aged.sublist ((List.sublist_cons_self _ _).append_left _)
      refine .inl ⟨fun id => ?_, kept.concat others⟩
      simp only [List.mem_append, List.mem_cons, List.not_mem_nil, or_false]
      tauto
    | joins new =>
      refine .inl ⟨fun id => ?_, aged.concat new⟩
      rw [List.mem_append, List.mem_singleton]
    | displaces new full =>
      rename_i front rest
      have more : kBucketSize < (heard self (history ++ [peer]) index).card := by
        have grown : heard self (history ++ [peer]) index =
            insert peer.id (heard self history index) := by
          ext id
          rw [heard_iff, keeps, Finset.mem_insert, or_comm]
        rw [grown, Finset.card_insert_of_notMem (fun inside => new ((keeps _).mpr inside)), card]
        exact Nat.lt_succ_of_le full
      have some_others : rest ≠ [] := by
        rintro rfl
        rw [List.length_singleton] at full
        exact absurd full (by decide)
      exact .inr ⟨more, Aged.not_cons some_others⟩

/-- In a bucket that is in order the peer in front is the one that may go. -/
theorem evictsOldest (ordered : Ordered self history) (peer : PeerInfo) :
    EvictsOldest self history peer := by
  intro index id stored gone other member
  have aged := ordered index
  obtain ⟨-, same⟩ | ⟨-, moved⟩ := ids_concat self history peer index
  · rw [same] at gone
    exact absurd stored gone
  generalize ids self history index = l at *
  generalize ids self (history ++ [peer]) index = l' at *
  cases moved with
  | known =>
    simp only [List.mem_append, List.mem_cons, List.not_mem_nil, or_false] at stored gone
    tauto
  | joins new => exact absurd (List.mem_append_left _ stored) gone
  | displaces new full =>
    obtain rfl | behind := List.mem_cons.mp stored
    · exact aged.le_front member
    · exact absurd (List.mem_cons_of_mem _ behind) gone

/-! ### Whole histories -/

theorem keeps_nil (self : NodeId) (index : Fin kAddressBits) (id : NodeId) :
    id ∈ ids self [] index ↔ id ∈ heard self [] index := by
  rw [mem_heard]
  exact iff_of_false List.not_mem_nil fun both => absurd both.1 List.not_mem_nil

/-- If the order has always been kept, nobody has been displaced. -/
theorem keeps_of_ordered (ordered : ∀ before, before <+: history → Ordered self before)
    (index : Fin kAddressBits) (id : NodeId) :
    id ∈ ids self history index ↔ id ∈ heard self history index := by
  induction history using List.reverseRecOn generalizing id with
  | nil => exact keeps_nil self index id
  | append_singleton history peer ih =>
    have earlier : ∀ before, before <+: history → Ordered self before :=
      fun before inside => ordered before (inside.trans (List.prefix_append _ _))
    obtain ⟨keeps, -⟩ | ⟨-, disordered⟩ :=
      concat_cases peer (ih earlier) (earlier history (List.prefix_refl _) index)
    · exact keeps id
    · exact absurd (ordered _ (List.prefix_refl _) index) disordered

theorem heard_mono {before : List PeerInfo} (inside : before <+: history)
    (index : Fin kAddressBits) : heard self before index ⊆ heard self history index := by
  intro id member
  rw [mem_heard] at member ⊢
  exact ⟨(List.map_subset _ inside.subset) member.1, member.2⟩

/-- If no bucket gets more than it holds, the order is kept. -/
theorem ordered_of_few (few : ∀ index, (heard self history index).card ≤ kBucketSize)
    (index : Fin kAddressBits) :
    (∀ id, id ∈ ids self history index ↔ id ∈ heard self history index) ∧
      Aged (history.map (·.id)) (ids self history index) := by
  induction history using List.reverseRecOn with
  | nil => exact ⟨keeps_nil self index, List.Pairwise.nil⟩
  | append_singleton history peer ih =>
    have earlier : ∀ index, (heard self history index).card ≤ kBucketSize := fun index =>
      (Finset.card_le_card (heard_mono (List.prefix_append _ _) index)).trans (few index)
    obtain ⟨keeps, aged⟩ := ih earlier
    exact (concat_cases peer keeps aged).resolve_right fun both =>
      absurd (few index) (Nat.not_le.mpr both.1)

/-- The eviction is of the least recently seen, at each point of a history. -/
structure LeastRecentlySeen (own : NodeId) (history : List PeerInfo) : Prop where
  ordered : ∀ before, before <+: history → Ordered own before
  evicts : ∀ before peer, before ++ [peer] <+: history → EvictsOldest own before peer

/-- It is exactly when no more different ids have been observed of a bucket than it holds. -/
theorem leastRecentlySeen_iff (self : NodeId) (history : List PeerInfo) :
    LeastRecentlySeen self history ↔
      ∀ index : Fin kAddressBits, ((history.map (·.id)).toFinset.filter fun id =>
        id ≠ self ∧ (distance self id).log2 = index).card ≤ kBucketSize := by
  constructor
  · intro seen index
    have keeps := keeps_of_ordered seen.ordered index
    exact (card_heard keeps).trans_le (length_ids_le self history index)
  · intro few
    have ordered : ∀ before, before <+: history → Ordered self before :=
      fun before inside index => (ordered_of_few (fun index =>
        (Finset.card_le_card (heard_mono inside index)).trans (few index)) index).2
    refine ⟨ordered, fun before peer inside => evictsOldest (ordered before ?_) peer⟩
    exact (List.prefix_append before [peer]).trans inside

/-- The peers of the farthest bucket that differ in the last octet only. -/
def farPeers : List PeerInfo :=
  (List.range 17).map fun n =>
    ⟨(NodeId.zero.set 0 128).set 19 (UInt8.ofNat n), [], []⟩

/-- The seventeenth of them takes the front. -/
theorem not_leastRecentlySeen : ¬∀ self history, LeastRecentlySeen self history := by
  intro all
  have keeps := keeps_of_ordered (all NodeId.zero farPeers).ordered 159
  have small := (card_heard keeps).trans_le (length_ids_le _ _ _)
  exact absurd small (by decide +kernel)

end RoutingTable

end FinBit.P2P
