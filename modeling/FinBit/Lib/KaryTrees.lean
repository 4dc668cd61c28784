import Mathlib.Data.List.Perm.Subperm
import Mathlib.Data.List.Nodup
import Mathlib.Order.Basic
import Mathlib.Order.Nat

/-! # Trees in level order

A tree whose nodes have at most `k` children each has only so much room above any depth. The tree
that is filled in level order, where the parent of place `i + 1` is place `i / k`, uses all of it, so
no tree of as many nodes is shallower.
-/

namespace FinBit.Lib

/-- How many nodes there can be above a depth. -/
def room (k : Nat) : Nat → Nat
  | 0 => 0
  | d + 1 => 1 + k * room k d

/-- The depth of a place in level order. -/
def level (k : Nat) : Nat → Nat
  | 0 => 0
  | i + 1 => level k (i / k) + 1
termination_by i => i
decreasing_by exact Nat.lt_succ_of_le (Nat.div_le_self i k)

@[simp] theorem level_zero (k : Nat) : level k 0 = 0 := by rw [level]

theorem level_succ (k i : Nat) : level k (i + 1) = level k (i / k) + 1 := by rw [level]

/-- The places above a depth are as many as there is room for. -/
theorem level_lt_iff {k : Nat} (pos : 0 < k) {d i : Nat} : level k i < d ↔ i < room k d := by
  induction d generalizing i with
  | zero => exact iff_of_false (Nat.not_lt_zero _) (Nat.not_lt_zero _)
  | succ d ih =>
    rw [room]
    cases i with
    | zero =>
      rw [level_zero]
      exact iff_of_true (Nat.succ_pos d) (Nat.add_pos_left Nat.one_pos _)
    | succ i =>
      rw [level_succ, Nat.add_lt_add_iff_right, ih, Nat.div_lt_iff_lt_mul pos, Nat.mul_comm k,
        Nat.add_comm 1, Nat.add_lt_add_iff_right]

theorem level_le_self (k i : Nat) : level k i ≤ i := by
  induction i using Nat.strong_induction_on with
  | h i ih =>
    cases i with
    | zero => rw [level_zero]
    | succ i =>
      rw [level_succ]
      have above := Nat.div_le_self i k
      exact Nat.succ_le_succ ((ih _ (Nat.lt_succ_of_le above)).trans above)

variable {α : Type*}

/-- A tree with one root and at most `k` children of each node, every one a level below it. -/
structure IsTree (k : Nat) (nodes : List α) (depth : α → Nat) (Child : α → α → Prop)
    [DecidableRel Child] : Prop where
  root : nodes.countP (depth · = 0) = 1
  parent : ∀ t ∈ nodes, depth t ≠ 0 → ∃ p ∈ nodes, Child t p ∧ depth t = depth p + 1
  children : ∀ p ∈ nodes, nodes.countP (fun t => depth t ≠ 0 ∧ Child t p) ≤ k

/-- What is shared out among holders, none of whom takes more than `k`. -/
theorem length_le_mul {β : Type*} {k : Nat} {l : List α} {holders : List β} {Held : α → β → Prop}
    [DecidableRel Held] (held : ∀ a ∈ l, ∃ b ∈ holders, Held a b)
    (few : ∀ b ∈ holders, l.countP (Held · b) ≤ k) : l.length ≤ k * holders.length := by
  induction holders generalizing l with
  | nil =>
    cases l with
    | nil => exact Nat.zero_le _
    | cons a l =>
      obtain ⟨b, none, -⟩ := held a List.mem_cons_self
      cases none
  | cons b holders ih =>
    -- what the first does not take is left to the others
    have rest : (l.filter (¬Held · b)).length ≤ k * holders.length := by
      refine ih (fun a member => ?_) fun b' member => ?_
      · obtain ⟨listed, free⟩ := List.mem_filter.mp member
        obtain ⟨b', here, takes⟩ := held a listed
        obtain rfl | there := List.mem_cons.mp here
        · exact absurd takes (of_decide_eq_true free)
        · exact ⟨b', there, takes⟩
      · exact List.filter_sublist.countP_le.trans (few b' (List.mem_cons_of_mem b member))
    calc l.length
        = l.countP (Held · b) + l.countP (¬Held · b) := by
          rw [List.length_eq_countP_add_countP (fun a => decide (Held a b))]
          simp
      _ ≤ k + k * holders.length := by
          refine Nat.add_le_add (few b List.mem_cons_self) ?_
          rwa [List.countP_eq_length_filter]
      _ = k * (b :: holders).length := by
          rw [List.length_cons, Nat.mul_succ, Nat.add_comm]

namespace IsTree

variable {k : Nat} {nodes : List α} {depth : α → Nat} {Child : α → α → Prop} [DecidableRel Child]

theorem countP_le_room (tree : IsTree k nodes depth Child) (d : Nat) :
    nodes.countP (depth · < d) ≤ room k d := by
  induction d with
  | zero => exact Nat.le_of_eq (List.countP_eq_zero.mpr fun t _ => by simp)
  | succ d ih =>
    have below : nodes.countP (fun t => depth t < d + 1 ∧ depth t ≠ 0) ≤
        k * nodes.countP (depth · < d) := by
      rw [List.countP_eq_length_filter, List.countP_eq_length_filter]
      refine @length_le_mul _ _ k _ _ Child _ (fun t member => ?_) fun p member => ?_
      · obtain ⟨listed, low⟩ := List.mem_filter.mp member
        obtain ⟨shallow, inner⟩ := of_decide_eq_true low
        obtain ⟨p, known, child, deeper⟩ := tree.parent t listed inner
        rw [deeper, Nat.add_lt_add_iff_right] at shallow
        exact ⟨p, List.mem_filter.mpr ⟨known, decide_eq_true shallow⟩, child⟩
      · refine le_trans ?_ (tree.children p (List.mem_filter.mp member).1)
        rw [List.countP_filter]
        refine List.countP_mono_left fun t _ both => ?_
        simp only [Bool.and_eq_true, decide_eq_true_eq] at both ⊢
        exact ⟨both.2.2, both.1⟩
    -- all but the root have their parents a level higher
    calc nodes.countP (depth · < d + 1)
        ≤ nodes.countP (depth · = 0) + nodes.countP fun t => depth t < d + 1 ∧ depth t ≠ 0 := by
          rw [List.countP_eq_countP_filter_add nodes _ fun t => depth t = 0, List.countP_filter,
            List.countP_filter]
          refine Nat.add_le_add (List.countP_mono_left fun t _ => ?_) (Nat.le_of_eq ?_)
          · simp +contextual
          · exact List.countP_congr fun t _ => by simp
      _ ≤ 1 + k * nodes.countP (depth · < d) := Nat.add_le_add tree.root.le below
      _ ≤ room k (d + 1) := Nat.add_le_add_left (Nat.mul_le_mul_left k ih) 1

/-- No tree is shallower than the one in level order. -/
theorem level_le (tree : IsTree k nodes depth Child) (pos : 0 < k) {deepest : Nat}
    (bound : ∀ t ∈ nodes, depth t ≤ deepest) {i : Nat} (place : i < nodes.length) :
    level k i ≤ deepest := by
  have all : nodes.countP (depth · < deepest + 1) = nodes.length :=
    List.countP_eq_length.mpr fun t member => decide_eq_true (Nat.lt_succ_of_le (bound t member))
  have room := tree.countP_le_room (deepest + 1)
  rw [all] at room
  exact Nat.le_of_lt_succ ((level_lt_iff pos).mpr (place.trans_le room))

end IsTree

/-- In level order no place has more than `k` children. -/
theorem countP_le_of_div {k : Nat} (pos : 0 < k) {l : List α} {P : α → Bool} {q : Nat}
    (places : ∀ i a, l[i]? = some a → P a = true → i / k = q) : l.countP P ≤ k := by
  have marked : (l.zipIdx.filter fun e => P e.1).map Prod.snd ⊆ List.range' (q * k) k := by
    intro i member
    obtain ⟨e, listed, rfl⟩ := List.mem_map.mp member
    obtain ⟨here, holds⟩ := List.mem_filter.mp listed
    obtain rfl := places e.2 e.1 (List.mem_zipIdx_iff_getElem?.mp here) holds
    rw [List.mem_range'_1]
    exact ⟨Nat.div_mul_le_self _ _, Nat.lt_div_mul_add pos⟩
  have distinct : ((l.zipIdx.filter fun e => P e.1).map Prod.snd).Nodup := by
    refine List.Nodup.sublist (List.filter_sublist.map Prod.snd) ?_
    rw [List.zipIdx_map_snd]
    exact List.nodup_range'
  calc l.countP P
      = (l.zipIdx.map Prod.fst).countP P := by rw [List.zipIdx_map_fst]
    _ = ((l.zipIdx.filter fun e => P e.1).map Prod.snd).length := by
        rw [List.countP_map, List.countP_eq_length_filter, List.length_map]
        rfl
    _ ≤ k := by
        have few := (List.subperm_of_subset distinct marked).length_le
        rwa [List.length_range'] at few

end FinBit.Lib
