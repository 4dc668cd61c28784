import Std.Data.ExtTreeSet
import FinBit.Lib.Bytes
import FinBit.Lib.SetDeltas

/-! # What a forwarder forwards

The forwarder of a call sends the stream of every leaf to every other leaf. It keeps the leaves, and
tells the media pipeline on each join and leave which edges to wire and which to tear down.
-/

namespace FinBit.Media

open FinBit.Lib Std

@[ext] structure ForwardEdge where
  src : Bytes
  sub : Bytes
  deriving DecidableEq

namespace ForwardEdge

/-- `operator<`. -/
def before (a b : ForwardEdge) : Bool := if a.src ≠ b.src then a.src < b.src else a.sub < b.sub

/-- `std::sort`. -/
def sorted (edges : List ForwardEdge) : List ForwardEdge :=
  edges.mergeSort fun a b => !b.before a

theorem mem_sorted {edges : List ForwardEdge} {e : ForwardEdge} : e ∈ sorted edges ↔ e ∈ edges :=
  List.mem_mergeSort

theorem nodup_sorted {edges : List ForwardEdge} : (sorted edges).Nodup ↔ edges.Nodup :=
  (List.mergeSort_perm edges _).nodup_iff

end ForwardEdge

structure ForwarderRouting where
  leaves : ExtTreeSet Bytes

namespace ForwarderRouting

def empty : ForwarderRouting := ⟨∅⟩

variable (r : ForwarderRouting)

/-- The edges between a leaf and others, both ways. -/
def bothWays (leaf : Bytes) (others : List Bytes) : List ForwardEdge :=
  others.flatMap fun other => [⟨leaf, other⟩, ⟨other, leaf⟩]

/-- `add_leaf`, with the edges to wire. -/
def addLeaf (leaf : Bytes) : ForwarderRouting × List ForwardEdge :=
  if leaf = [] || r.leaves.contains leaf then (r, [])
  else (⟨r.leaves.insert leaf⟩, ForwardEdge.sorted (bothWays leaf r.leaves.toList))

/-- `remove_leaf`, with the edges to tear down. -/
def removeLeaf (leaf : Bytes) : ForwarderRouting × List ForwardEdge :=
  if r.leaves.contains leaf then
    (⟨r.leaves.erase leaf⟩, ForwardEdge.sorted (bothWays leaf (r.leaves.erase leaf).toList))
  else (r, [])

def edges : List ForwardEdge :=
  ForwardEdge.sorted (r.leaves.toList.flatMap fun a =>
    (r.leaves.toList.filter fun b => a ≠ b).map fun b => ⟨a, b⟩)

def subscribersOf (src : Bytes) : List Bytes :=
  if r.leaves.contains src then r.leaves.toList.filter fun other => other ≠ src else []

/-! ### The edges -/

variable {r}

theorem mem_edges {e : ForwardEdge} :
    e ∈ r.edges ↔ e.src ∈ r.leaves ∧ e.sub ∈ r.leaves ∧ e.src ≠ e.sub := by
  rw [edges, ForwardEdge.mem_sorted]
  simp only [List.mem_flatMap, List.mem_map, List.mem_filter, ExtTreeSet.mem_toList,
    decide_eq_true_eq]
  constructor
  · rintro ⟨a, left, b, ⟨right, apart⟩, rfl⟩
    exact ⟨left, right, apart⟩
  · rintro ⟨left, right, apart⟩
    exact ⟨e.src, left, e.sub, ⟨right, apart⟩, rfl⟩

theorem mem_subscribersOf {src sub : Bytes} :
    sub ∈ r.subscribersOf src ↔ src ∈ r.leaves ∧ sub ∈ r.leaves ∧ src ≠ sub := by
  rw [subscribersOf]
  by_cases leaf : src ∈ r.leaves
  · rw [if_pos (ExtTreeSet.mem_iff_contains.mp leaf)]
    simp only [List.mem_filter, ExtTreeSet.mem_toList, decide_eq_true_eq, leaf, true_and]
    exact and_congr_right fun _ => ne_comm
  · rw [if_neg (mt ExtTreeSet.mem_iff_contains.mpr leaf)]
    simp [leaf]

theorem nodup_leaves : r.leaves.toList.Nodup :=
  r.leaves.distinct_toList.imp fun apart same => apart (by simp [same])

theorem nodup_edges : r.edges.Nodup := by
  refine ForwardEdge.nodup_sorted.mpr (List.nodup_flatMap.mpr ⟨fun a _ => ?_, ?_⟩)
  · exact (nodup_leaves.filter _).map fun b b' same => (ForwardEdge.mk.inj same).2
  · refine nodup_leaves.imp fun apart => ?_
    intro e left right
    obtain ⟨_, -, rfl⟩ := List.mem_map.mp left
    obtain ⟨_, -, same⟩ := List.mem_map.mp right
    exact apart (ForwardEdge.mk.inj same).1.symm

theorem mem_bothWays {leaf : Bytes} {others : List Bytes} {e : ForwardEdge} :
    e ∈ bothWays leaf others ↔
      e.src = leaf ∧ e.sub ∈ others ∨ e.src ∈ others ∧ e.sub = leaf := by
  simp only [bothWays, List.mem_flatMap, List.mem_cons, List.not_mem_nil, or_false,
    ForwardEdge.ext_iff]
  grind

theorem nodup_bothWays {leaf : Bytes} {others : List Bytes} (apart : leaf ∉ others)
    (once : others.Nodup) : (bothWays leaf others).Nodup := by
  induction others with
  | nil => exact List.nodup_nil
  | cons other others ih =>
    obtain ⟨first, once⟩ := List.nodup_cons.mp once
    have later := ih (fun member => apart (List.mem_cons_of_mem _ member)) once
    have differ : leaf ≠ other := fun same => apart (same ▸ List.mem_cons_self)
    change (_ :: _ :: bothWays leaf others).Nodup
    refine List.nodup_cons.mpr ⟨?_, List.nodup_cons.mpr ⟨?_, later⟩⟩
    · rw [List.mem_cons, mem_bothWays, ForwardEdge.ext_iff]
      grind
    · rw [mem_bothWays]
      grind

/-! ### The deltas -/

inductive RoutingCall where
  | addLeaf (leaf : Bytes)
  | removeLeaf (leaf : Bytes)

/-- A call, and what the media pipeline makes of the edges that it returns. -/
def step (w : ForwarderRouting × Finset ForwardEdge) :
    RoutingCall → Option (ForwarderRouting × Finset ForwardEdge)
  | .addLeaf leaf => (addAll w.2 (w.1.addLeaf leaf).2).map fun wired => ((w.1.addLeaf leaf).1, wired)
  | .removeLeaf leaf =>
    (removeAll w.2 (w.1.removeLeaf leaf).2).map fun wired => ((w.1.removeLeaf leaf).1, wired)

/-- Calls one after the other on a new routing; `none` where a delta does not fit. -/
def replay (calls : List RoutingCall) : Option (ForwarderRouting × Finset ForwardEdge) :=
  calls.foldlM step (.empty, ∅)

theorem addLeaf_delta (leaf : Bytes) :
    addAll r.edges.toFinset (r.addLeaf leaf).2 = some (r.addLeaf leaf).1.edges.toFinset := by
  rw [addLeaf]
  split
  · rfl
  next fresh =>
    have new : leaf ∉ r.leaves := by
      rw [ExtTreeSet.mem_iff_contains]
      intro member
      exact fresh (by simp [member])
    have inside : ∀ k, k ∈ r.leaves.insert leaf ↔ k = leaf ∨ k ∈ r.leaves := by
      intro k
      rw [ExtTreeSet.mem_insert, Std.compare_eq_iff_eq, eq_comm]
    dsimp only
    rw [addAll_eq]
    · congr 1
      ext e
      simp only [Finset.mem_union, List.mem_toFinset, mem_edges, ForwardEdge.mem_sorted,
        mem_bothWays, ExtTreeSet.mem_toList, inside]
      grind
    · refine ForwardEdge.nodup_sorted.mpr (nodup_bothWays ?_ nodup_leaves)
      rw [ExtTreeSet.mem_toList]
      exact new
    · -- an edge that is there joins old leaves
      intro e delta present
      rw [ForwardEdge.mem_sorted, mem_bothWays] at delta
      obtain ⟨left, right, -⟩ := mem_edges.mp (List.mem_toFinset.mp present)
      obtain ⟨here, -⟩ | ⟨-, here⟩ := delta
      · exact new (here ▸ left)
      · exact new (here ▸ right)

theorem removeLeaf_delta (leaf : Bytes) :
    removeAll r.edges.toFinset (r.removeLeaf leaf).2 = some (r.removeLeaf leaf).1.edges.toFinset := by
  rw [removeLeaf]
  split
  next known =>
    have old : leaf ∈ r.leaves := ExtTreeSet.mem_iff_contains.mpr known
    have inside : ∀ k, k ∈ r.leaves.erase leaf ↔ k ≠ leaf ∧ k ∈ r.leaves := by
      intro k
      rw [ExtTreeSet.mem_erase, ne_eq, Std.compare_eq_iff_eq, eq_comm]
    dsimp only
    rw [removeAll_eq]
    · congr 1
      ext e
      simp only [Finset.mem_sdiff, List.mem_toFinset, mem_edges, ForwardEdge.mem_sorted,
        mem_bothWays, ExtTreeSet.mem_toList, inside]
      grind
    · have rest : (⟨r.leaves.erase leaf⟩ : ForwarderRouting).leaves.toList.Nodup := nodup_leaves
      refine ForwardEdge.nodup_sorted.mpr (nodup_bothWays ?_ rest)
      rw [ExtTreeSet.mem_toList, inside]
      exact fun both => both.1 rfl
    · intro e delta
      rw [ForwardEdge.mem_sorted, mem_bothWays] at delta
      simp only [ExtTreeSet.mem_toList, inside] at delta
      rw [List.mem_toFinset, mem_edges]
      grind
  · rfl

/-- After a step that starts with the edges there are, the edges there are then. -/
theorem step_edges (call : RoutingCall) :
    ∃ r', step (r, r.edges.toFinset) call = some (r', r'.edges.toFinset) := by
  cases call with
  | addLeaf leaf =>
    refine ⟨(r.addLeaf leaf).1, ?_⟩
    rw [step, addLeaf_delta]
    rfl
  | removeLeaf leaf =>
    refine ⟨(r.removeLeaf leaf).1, ?_⟩
    rw [step, removeLeaf_delta]
    rfl

theorem foldlM_edges (calls : List RoutingCall) (r : ForwarderRouting) :
    ∃ r', calls.foldlM step (r, r.edges.toFinset) = some (r', r'.edges.toFinset) := by
  induction calls generalizing r with
  | nil => exact ⟨r, rfl⟩
  | cons call rest ih =>
    obtain ⟨next, stepped⟩ := @step_edges r call
    obtain ⟨last, further⟩ := ih next
    refine ⟨last, ?_⟩
    rw [List.foldlM_cons, stepped]
    exact further

/-- No delta of any history fails, and together they make the edges that there are: those from every
leaf to its subscribers. -/
theorem replay_edges (calls : List RoutingCall) : ∃ r wired, replay calls = some (r, wired) ∧
    wired = r.edges.toFinset ∧ r.edges.Nodup ∧
      ∀ s t, ⟨s, t⟩ ∈ wired ↔ t ∈ r.subscribersOf s := by
  have none : empty.edges = [] := by
    refine List.eq_nil_iff_forall_not_mem.mpr fun e member => ?_
    exact ExtTreeSet.not_mem_empty (mem_edges.mp member).1
  obtain ⟨r, replayed⟩ := foldlM_edges calls .empty
  rw [none] at replayed
  refine ⟨r, r.edges.toFinset, replayed, rfl, nodup_edges, fun s t => ?_⟩
  rw [List.mem_toFinset, mem_edges, mem_subscribersOf]

end ForwarderRouting

end FinBit.Media
