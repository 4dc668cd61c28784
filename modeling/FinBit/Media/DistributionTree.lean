import FinBit.Lib.KaryTrees
import FinBit.Lib.Sorting
import FinBit.Media.CallTopology

/-! # The distribution tree of a room

In a large room one forwarder cannot serve all others, so that they are arranged in a tree: the
strongest first, and each at the earliest parent that has a slot left.
-/

namespace FinBit.Media

open FinBit.Lib

structure TreeNode where
  pubkey : Bytes
  parent : Bytes
  depth : Nat
  deriving DecidableEq

/-- The comparison that ranks the nodes. -/
def stronger (a b : Bytes × Int) : Bool := if a.2 ≠ b.2 then b.2 < a.2 else a.1 < b.1

def ranked (nodes : List (Bytes × Int)) : List (Bytes × Int) :=
  nodes.mergeSort fun a b => !stronger b a

/-- The tree as far as it is built, the index of the current parent in it and how many children that
has. -/
structure Filling where
  out : List TreeNode
  parentIdx : Nat
  children : Nat

def nextParent (fanout : Nat) (s : Filling) : Filling :=
  if s.children = fanout then { s with parentIdx := s.parentIdx + 1, children := 0 } else s

/-- One round of the loop, with none for an index past the end. -/
def attach (fanout : Nat) (s : Filling) (c : Bytes × Int) : Option Filling :=
  let s := nextParent fanout s
  s.out[s.parentIdx]?.map fun p =>
    { s with out := s.out ++ [⟨c.1, p.pubkey, p.depth + 1⟩], children := s.children + 1 }

/-- `build_distribution_tree`. -/
def buildDistributionTree (nodes : List (Bytes × Int)) (fanout : Nat) : Option (List TreeNode) :=
  let fanout := if fanout < 1 then 1 else fanout
  match ranked nodes with
  | [] => some []
  | c :: rest => (rest.foldlM (attach fanout) ⟨[⟨c.1, [], 0⟩], 0, 0⟩).map (·.out)

/-! ### The ranking -/

theorem stronger_iff {a b : Bytes × Int} : stronger a b = true ↔ Ahead a b := by
  rw [stronger, Ahead]
  by_cases tied : a.2 = b.2
  · rw [if_neg (not_not.mpr tied), decide_eq_true_eq, tied]
    simp
  · rw [if_pos tied, decide_eq_true_eq]
    exact (or_iff_left fun both => tied both.1.symm).symm

theorem not_stronger_iff {a b : Bytes × Int} : stronger b a = false ↔ a = b ∨ Ahead a b := by
  rw [← Bool.not_eq_true, stronger_iff]
  constructor
  · intro behind
    obtain same | back | ahead := eq_or_ahead b a
    · exact .inl same
    · exact absurd back behind
    · exact .inr ahead
  · rintro (rfl | ahead)
    · exact fun self => self.asymm self
    · exact ahead.asymm

theorem ranked_sorted (nodes : List (Bytes × Int)) :
    (ranked nodes).Pairwise fun a b => a = b ∨ Ahead a b := by
  have sorted : (ranked nodes).Pairwise fun a b => stronger b a = false := by
    refine pairwise_mergeSort_not (fun a b c first second => ?_) (fun a b => ?_) nodes
    · rw [not_stronger_iff] at first second ⊢
      obtain rfl | ahead := first
      · exact second
      · obtain rfl | ahead' := second
        · exact .inr ahead
        · exact .inr (ahead.trans ahead')
    · rw [not_stronger_iff, not_stronger_iff]
      obtain same | back | ahead := eq_or_ahead b a
      · exact .inl (.inl same)
      · exact .inr (.inr back)
      · exact .inl (.inr ahead)
  exact sorted.imp not_stronger_iff.mp

theorem ranked_perm (nodes : List (Bytes × Int)) : (ranked nodes).Perm nodes :=
  List.mergeSort_perm _ _

/-- The ranking does not depend on the order in which the nodes come. -/
theorem ranked_eq {nodes nodes' : List (Bytes × Int)} (same : nodes.Perm nodes') :
    ranked nodes = ranked nodes' := by
  refine List.Perm.eq_of_pairwise ?_ (ranked_sorted nodes) (ranked_sorted nodes')
    ((ranked_perm nodes).trans (same.trans (ranked_perm nodes').symm))
  rintro a b - - (same | ahead) (same' | back)
  · exact same
  · exact same
  · exact same'.symm
  · exact absurd back ahead.asymm

/-! ### The loop -/

/-- The keys so far are in level order, and the next one goes to the current parent. -/
structure Filled (k : Nat) (keys : List Bytes) (s : Filling) : Prop where
  listed : s.out.map (·.pubkey) = keys
  next : s.out.length = s.parentIdx * k + s.children + 1
  within : s.children ≤ k
  root : ∃ key, s.out[0]? = some ⟨key, [], 0⟩
  depth : ∀ i t, s.out[i]? = some t → t.depth = level k i
  parent : ∀ i t, s.out[i + 1]? = some t → ∃ p, s.out[i / k]? = some p ∧ t.parent = p.pubkey

theorem getElem?_concat_iff {α : Type*} {l : List α} {a t : α} {i : Nat} :
    (l ++ [a])[i]? = some t ↔ l[i]? = some t ∨ i = l.length ∧ a = t := by
  obtain old | rfl | beyond := Nat.lt_trichotomy i l.length
  · rw [List.getElem?_append_left old]
    exact (or_iff_left fun new => Nat.ne_of_lt old new.1).symm
  · simp
  · have outside : (l ++ [a]).length ≤ i := by
      rw [List.length_append]
      exact beyond
    rw [List.getElem?_eq_none outside, List.getElem?_eq_none (Nat.le_of_lt beyond)]
    simp [Nat.ne_of_gt beyond]

namespace Filled

variable {k : Nat} {keys : List Bytes} {s : Filling}

theorem nextParent (inv : Filled k keys s) (pos : 0 < k) :
    Filled k keys (nextParent k s) ∧ (FinBit.Media.nextParent k s).children < k := by
  rw [FinBit.Media.nextParent]
  split
  next full =>
    refine ⟨⟨inv.listed, ?_, Nat.zero_le k, inv.root, inv.depth, inv.parent⟩, pos⟩
    rw [inv.next, full, Nat.succ_mul]
    rfl
  next free => exact ⟨inv, Nat.lt_of_le_of_ne inv.within free⟩

/-- The current parent is there, and is the parent of the next place in level order. -/
theorem attach (inv : Filled k keys s) (pos : 0 < k) (c : Bytes × Int) :
    ∃ s', attach k s c = some s' ∧ Filled k (keys ++ [c.1]) s' := by
  obtain ⟨inv, free⟩ := inv.nextParent pos
  rw [FinBit.Media.attach]
  generalize FinBit.Media.nextParent k s = s at inv free
  have turn : (s.parentIdx * k + s.children) / k = s.parentIdx := by
    rw [Nat.mul_comm, Nat.mul_add_div pos, Nat.div_eq_of_lt free, Nat.add_zero]
  have here : s.parentIdx < s.out.length := by
    rw [inv.next]
    exact Nat.lt_succ_of_le (Nat.le_add_right_of_le (Nat.le_mul_of_pos_right _ pos))
  rw [List.getElem?_eq_getElem here]
  generalize found : s.out[s.parentIdx] = p
  have place : s.out[s.parentIdx]? = some p := List.getElem?_eq_some_iff.mpr ⟨here, found⟩
  refine ⟨_, rfl, ?_⟩
  constructor
  · rw [List.map_append, inv.listed]
    rfl
  · rw [List.length_append, inv.next]
    rfl
  · exact free
  · obtain ⟨key, first⟩ := inv.root
    exact ⟨key, getElem?_concat_iff.mpr (.inl first)⟩
  · intro i t listed
    obtain old | ⟨rfl, rfl⟩ := getElem?_concat_iff.mp listed
    · exact inv.depth i t old
    · rw [inv.next, level_succ, turn, inv.depth _ _ place]
  · intro i t listed
    obtain old | ⟨new, rfl⟩ := getElem?_concat_iff.mp listed
    · obtain ⟨q, above, same⟩ := inv.parent i t old
      exact ⟨q, getElem?_concat_iff.mpr (.inl above), same⟩
    · -- the place after `parentIdx * k + children`
      obtain rfl := Nat.succ.inj (new.trans inv.next)
      rw [turn]
      exact ⟨p, getElem?_concat_iff.mpr (.inl place), rfl⟩

theorem attaches (inv : Filled k keys s) (pos : 0 < k) (rest : List (Bytes × Int)) :
    ∃ s', rest.foldlM (FinBit.Media.attach k) s = some s' ∧
      Filled k (keys ++ rest.map Prod.fst) s' := by
  induction rest generalizing s keys with
  | nil => exact ⟨s, rfl, by rwa [List.map_nil, List.append_nil]⟩
  | cons c rest ih =>
    obtain ⟨s', step, inv⟩ := inv.attach pos c
    obtain ⟨s'', run, inv⟩ := ih inv
    refine ⟨s'', ?_, ?_⟩
    · rw [List.foldlM_cons, step]
      exact run
    · rwa [List.map_cons, List.append_cons]

end Filled

/-! ### The tree -/

/-- A node hangs below another one. -/
def Below (t p : TreeNode) : Prop := t.parent = p.pubkey

instance : DecidableRel Below := fun t p => inferInstanceAs (Decidable (t.parent = p.pubkey))

/-- A tree of the nodes with those keys, in some order. -/
def Spans (fanout : Nat) (keys : List Bytes) (tree : List TreeNode) : Prop :=
  (tree.map (·.pubkey)).Perm keys ∧ IsTree fanout tree (·.depth) Below

/-- What becomes of the nodes of a room. -/
structure Distribution (fanout : Nat) (nodes : List (Bytes × Int)) (tree : List TreeNode) : Prop where
  spans : Spans fanout (nodes.map Prod.fst) tree
  root : ∃ key rest, tree = ⟨key, [], 0⟩ :: rest
  before : ∀ (i : Nat) (t : TreeNode), tree[i]? = some t → t.depth ≠ 0 →
    ∃ (j : Nat) (p : TreeNode), j < i ∧ tree[j]? = some p ∧ t.parent = p.pubkey ∧
      t.depth = p.depth + 1
  shallow : ∀ other, Spans fanout (nodes.map Prod.fst) other → ∀ deepest,
    (∀ t ∈ other, t.depth ≤ deepest) → ∀ t ∈ tree, t.depth ≤ deepest
  uplinks : ∀ t ∈ tree, t.depth ≠ 0 → ∀ uplink uplink',
    (t.parent, uplink) ∈ nodes → (t.pubkey, uplink') ∈ nodes → uplink' ≤ uplink

namespace Filled

variable {k : Nat} {keys : List Bytes} {s : Filling}

/-- The nodes below the root are those after the first place. -/
theorem inner (inv : Filled k keys s) {i : Nat} {t : TreeNode} (here : s.out[i]? = some t)
    (low : t.depth ≠ 0) : ∃ j, i = j + 1 ∧
      ∃ p, s.out[j / k]? = some p ∧ t.parent = p.pubkey ∧ t.depth = p.depth + 1 := by
  have depth := inv.depth i t here
  cases i with
  | zero => exact absurd (depth.trans (level_zero k)) low
  | succ j =>
    obtain ⟨p, above, same⟩ := inv.parent j t here
    rw [level_succ, ← inv.depth _ p above] at depth
    exact ⟨j, rfl, p, above, same, depth⟩

theorem place_eq (inv : Filled k keys s) (distinct : keys.Nodup) {i j : Nat} {p q : TreeNode}
    (here : s.out[i]? = some p) (there : s.out[j]? = some q) (same : p.pubkey = q.pubkey) :
    i = j := by
  have first : keys[i]? = some p.pubkey := by rw [← inv.listed, List.getElem?_map, here, Option.map_some]
  have second : keys[j]? = some q.pubkey := by rw [← inv.listed, List.getElem?_map, there, Option.map_some]
  obtain ⟨inside, -⟩ := List.getElem?_eq_some_iff.mp first
  exact (List.getElem?_inj inside distinct).mp (first.trans (same ▸ second.symm))

theorem isTree (inv : Filled k keys s) (pos : 0 < k) (distinct : keys.Nodup) :
    IsTree k s.out (·.depth) Below := by
  obtain ⟨key, first⟩ := inv.root
  obtain ⟨rest, shape⟩ : ∃ rest, s.out = ⟨key, [], 0⟩ :: rest := by
    cases shape : s.out with
    | nil =>
      rw [shape] at first
      cases first
    | cons t rest =>
      rw [shape] at first
      cases first
      exact ⟨rest, rfl⟩
  have later : ∀ i t, rest[i]? = some t → s.out[i + 1]? = some t := by
    intro i t here
    rwa [shape, List.getElem?_cons_succ]
  constructor
  · have others : rest.countP (fun t => decide (t.depth = 0)) = 0 := by
      refine List.countP_eq_zero.mpr fun t member => ?_
      obtain ⟨i, here⟩ := List.mem_iff_getElem?.mp member
      rw [inv.depth _ t (later i t here), level_succ]
      exact of_decide_eq_false rfl
    rw [shape, List.countP_cons_of_pos rfl, others]
  · intro t member low
    obtain ⟨i, here⟩ := List.mem_iff_getElem?.mp member
    obtain ⟨j, -, p, above, below, deeper⟩ := inv.inner here low
    exact ⟨p, List.mem_of_getElem? above, below, deeper⟩
  · intro p member
    obtain ⟨q, above⟩ := List.mem_iff_getElem?.mp member
    rw [shape, List.countP_cons_of_neg (by simp)]
    refine countP_le_of_div (q := q) pos fun i t here below => ?_
    obtain ⟨low, below⟩ := of_decide_eq_true below
    obtain ⟨j, next, p', above', below', -⟩ := inv.inner (later i t here) low
    obtain rfl := Nat.succ.inj next
    exact inv.place_eq distinct above' above (below'.symm.trans below)

/-- A parent is ranked before its children. -/
theorem uplinks (inv : Filled k keys s) {nodes : List (Bytes × Int)}
    (order : (ranked nodes).map Prod.fst = keys) (distinct : (nodes.map Prod.fst).Nodup)
    {t : TreeNode} (member : t ∈ s.out) (low : t.depth ≠ 0) {uplink uplink' : Int}
    (upper : (t.parent, uplink) ∈ nodes) (lower : (t.pubkey, uplink') ∈ nodes) :
    uplink' ≤ uplink := by
  have node : ∀ {i : Nat} {p : TreeNode} {u : Int}, s.out[i]? = some p → (p.pubkey, u) ∈ nodes →
      (ranked nodes)[i]? = some (p.pubkey, u) := by
    intro i p u here listed
    have key : ((ranked nodes).map Prod.fst)[i]? = some p.pubkey := by
      rw [order, ← inv.listed, List.getElem?_map, here, Option.map_some]
    rw [List.getElem?_map] at key
    obtain ⟨e, there, same⟩ := Option.map_eq_some_iff.mp key
    have known := (ranked_perm nodes).mem_iff.mp (List.mem_of_getElem? there)
    rw [there, List.inj_on_of_nodup_map distinct known listed same]
  obtain ⟨i, here⟩ := List.mem_iff_getElem?.mp member
  obtain ⟨j, rfl, p, above, below, -⟩ := inv.inner here low
  obtain ⟨inside, first⟩ := List.getElem?_eq_some_iff.mp (node above (below ▸ upper))
  obtain ⟨inside', second⟩ := List.getElem?_eq_some_iff.mp (node here lower)
  have order := List.pairwise_iff_getElem.mp (ranked_sorted nodes) _ _ inside inside'
    (Nat.lt_succ_of_le (Nat.div_le_self j k))
  rw [first, second] at order
  obtain same | better | ⟨tied, -⟩ := order
  · exact (Prod.mk.inj same).2.ge
  · exact better.le
  · exact tied.le

end Filled

/-- The loop runs to its end, with the keys in the order of the ranking. -/
theorem buildDistributionTree_filled {nodes : List (Bytes × Int)} (fanout : Nat)
    (nonempty : nodes ≠ []) : ∃ s, buildDistributionTree nodes fanout = some s.out ∧
      Filled (max fanout 1) ((ranked nodes).map Prod.fst) s := by
  have clamped : (if fanout < 1 then 1 else fanout) = max fanout 1 := by
    split
    next less => exact (Nat.max_eq_right (Nat.le_of_lt less)).symm
    next enough => exact (Nat.max_eq_left (Nat.le_of_not_lt enough)).symm
  rw [buildDistributionTree, clamped]
  cases order : ranked nodes with
  | nil => exact absurd ((ranked_perm nodes).symm.trans (List.Perm.of_eq order)).eq_nil nonempty
  | cons c rest =>
    have start : Filled (max fanout 1) [c.1] ⟨[⟨c.1, [], 0⟩], 0, 0⟩ := by
      constructor
      · rfl
      · rw [Nat.zero_mul]
        rfl
      · exact Nat.zero_le _
      · exact ⟨c.1, rfl⟩
      · intro i t here
        cases i with
        | zero =>
          cases here
          exact (level_zero _).symm
        | succ i => cases here
      · exact fun i t here => nomatch here
    obtain ⟨s, run, inv⟩ := start.attaches (Nat.le_max_right fanout 1) rest
    exact ⟨s, by simp only [run, Option.map_some], inv⟩

/-- A depth is less than the number of nodes, so that below 2^31 nodes none overflows. -/
theorem depth_lt {nodes : List (Bytes × Int)} {fanout : Nat} {tree : List TreeNode}
    (built : buildDistributionTree nodes fanout = some tree) {t : TreeNode} (member : t ∈ tree) :
    t.depth < nodes.length := by
  by_cases empty : nodes = []
  · subst empty
    have nothing : buildDistributionTree [] fanout = some [] := by
      simp [buildDistributionTree, ranked]
    obtain rfl := Option.some.inj (nothing.symm.trans built)
    cases member
  · obtain ⟨s, run, inv⟩ := buildDistributionTree_filled fanout empty
    obtain rfl := Option.some.inj (built.symm.trans run)
    obtain ⟨i, here⟩ := List.mem_iff_getElem?.mp member
    obtain ⟨inside, -⟩ := List.getElem?_eq_some_iff.mp here
    have size : s.out.length = nodes.length := by
      have same := congrArg List.length inv.listed
      rwa [List.length_map, List.length_map, (ranked_perm nodes).length_eq] at same
    rw [inv.depth i t here, ← size]
    exact (level_le_self _ i).trans_lt inside

/-- The tree of a room has every node once, is as shallow as its fanout allows, and does not depend
on the order in which the nodes come. -/
theorem buildDistributionTree_spans {nodes : List (Bytes × Int)} (fanout : Nat)
    (nonempty : nodes ≠ []) (distinct : (nodes.map Prod.fst).Nodup) :
    ∃ tree, buildDistributionTree nodes fanout = some tree ∧
      Distribution (max fanout 1) nodes tree ∧
      ∀ nodes', nodes.Perm nodes' → buildDistributionTree nodes' fanout = some tree := by
  obtain ⟨s, built, inv⟩ := buildDistributionTree_filled fanout nonempty
  have pos : 0 < max fanout 1 := Nat.le_max_right fanout 1
  have keys := (ranked_perm nodes).map Prod.fst
  have tree := inv.isTree pos (keys.nodup_iff.mpr distinct)
  refine ⟨s.out, built, ?_, ?_⟩
  · constructor
    · exact ⟨inv.listed ▸ keys, tree⟩
    · obtain ⟨key, first⟩ := inv.root
      obtain ⟨_, first⟩ := List.getElem?_eq_some_iff.mp first
      exact ⟨key, s.out.tail, by rw [← first, List.getElem_zero, List.cons_head_tail]⟩
    · intro i t here low
      obtain ⟨j, rfl, p, above, below, deeper⟩ := inv.inner here low
      exact ⟨_, p, Nat.lt_succ_of_le (Nat.div_le_self j _), above, below, deeper⟩
    · intro other spans deepest bound t member
      obtain ⟨i, here⟩ := List.mem_iff_getElem?.mp member
      obtain ⟨inside, -⟩ := List.getElem?_eq_some_iff.mp here
      have size : s.out.length = other.length := by
        have same := (inv.listed ▸ keys : (s.out.map (·.pubkey)).Perm _).trans spans.1.symm
        simpa using same.length_eq
      rw [inv.depth i t here]
      exact spans.2.level_le pos bound (size ▸ inside)
    · exact fun t member low u u' => inv.uplinks rfl distinct member low
  · intro nodes' same
    rw [← built, buildDistributionTree, buildDistributionTree, ranked_eq same]

/-- Three nodes, of which one is weaker than the others. -/
theorem buildDistributionTree_spans_three : ∃ tree,
    buildDistributionTree [([1], 2), ([2], 1), ([3], 2)] 1 = some tree ∧
      Distribution 1 [([1], 2), ([2], 1), ([3], 2)] tree ∧
      ∀ nodes', [([1], 2), ([2], 1), ([3], 2)].Perm nodes' →
        buildDistributionTree nodes' 1 = some tree :=
  buildDistributionTree_spans 1 (List.cons_ne_nil _ _) (by decide)

end FinBit.Media
