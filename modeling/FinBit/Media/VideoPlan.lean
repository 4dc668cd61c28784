import FinBit.Lib.Bytes
import FinBit.Lib.MapEntries
import FinBit.Lib.Sorting

/-! # Which videos a forwarder forwards

A forwarder has not the uplink for every video in full. The loudest senders are forwarded in full,
further ones as thumbnails, and the others not at all, as far as the two budgets go.
-/

namespace FinBit.Media

open FinBit.Lib
open Std (ExtTreeMap)

inductive VideoQuality where
  | drop
  | thumbnail
  | high
  deriving DecidableEq

def VideoQuality.rank : VideoQuality → Nat
  | drop => 0
  | thumbnail => 1
  | high => 2

section

variable {L : Type} [LinearOrder L]

/-- The comparison that ranks the talkers. -/
def louder (a b : L × Bytes) : Bool := if a.1 ≠ b.1 then b.1 < a.1 else a.2 < b.2

/-- The peers above the floor, the loudest first. -/
def talking (levels : ExtTreeMap Bytes L) (floorDb : L) : List (L × Bytes) :=
  ((levels.toList.filter fun e => floorDb ≤ e.2).map fun e => (e.2, e.1)).mergeSort
    fun a b => !louder b a

/-- `give`: what has been planned, and the thumbnails given. -/
def give (maxThumbnail : Nat) (w : ExtTreeMap Bytes VideoQuality × Nat) (key : Bytes) :
    ExtTreeMap Bytes VideoQuality × Nat :=
  if w.1.contains key then w
  else if w.2 < maxThumbnail then (w.1.insert key .thumbnail, w.2 + 1)
  else (w.1.insert key .drop, w.2)

/-- `plan_forwarded_video`. -/
def planForwardedVideo (levels : ExtTreeMap Bytes L) (maxHigh maxThumbnail : Nat) (floorDb : L) :
    ExtTreeMap Bytes VideoQuality :=
  let talking := talking levels floorDb
  let hi := min talking.length maxHigh
  let out := (talking.take hi).foldl (fun out t => out.insert t.2 .high) ∅
  let given := (talking.drop hi).foldl (fun w t => give maxThumbnail w t.2) (out, 0)
  (levels.keys.foldl (give maxThumbnail) given).1

end

/-! ### Dealing out -/

/-- What has been given out, in order: full quality to some, then thumbnails as long as there are
any. -/
structure Dealt (maxThumbnail : Nat) (highs : List Bytes) (w : ExtTreeMap Bytes VideoQuality × Nat)
    (dealt : List (Bytes × VideoQuality)) : Prop where
  once : (dealt.map Prod.fst).Nodup
  lookup : ∀ k q, w.1[k]? = some q ↔ (k, q) ∈ dealt
  falling : dealt.Pairwise fun a b => b.2.rank ≤ a.2.rank
  highs : dealt.filter (·.2 = .high) = highs.map (·, .high)
  thumbnails : dealt.countP (·.2 = .thumbnail) = w.2
  within : w.2 ≤ maxThumbnail
  used : ∀ k, (k, .drop) ∈ dealt → w.2 = maxThumbnail

namespace Dealt

variable {maxThumbnail : Nat} {highs : List Bytes} {w : ExtTreeMap Bytes VideoQuality × Nat}
  {dealt : List (Bytes × VideoQuality)}

theorem mem_iff (inv : Dealt maxThumbnail highs w dealt) {k : Bytes} :
    k ∈ w.1 ↔ k ∈ dealt.map Prod.fst := by
  rw [ExtTreeMap.mem_iff_isSome_getElem?, Option.isSome_iff_exists, List.mem_map]
  constructor
  · rintro ⟨q, found⟩
    exact ⟨(k, q), (inv.lookup k q).mp found, rfl⟩
  · rintro ⟨⟨k, q⟩, member, rfl⟩
    exact ⟨q, (inv.lookup k q).mpr member⟩

section Append

variable (inv : Dealt maxThumbnail highs w dealt) {key : Bytes} {quality : VideoQuality}

include inv

theorem lookup_append (new : key ∉ w.1) (k : Bytes) (q : VideoQuality) :
    (w.1.insert key quality)[k]? = some q ↔ (k, q) ∈ dealt ++ [(key, quality)] := by
  simp only [ExtTreeMap.getElem?_insert, Std.compare_eq_iff_eq, List.mem_append,
    List.mem_singleton, ← inv.lookup]
  by_cases same : key = k
  · subst same
    have absent : w.1[key]? = none := ExtTreeMap.getElem?_eq_none new
    rw [if_pos rfl, absent]
    simp [eq_comm]
  · rw [if_neg same, Prod.mk.injEq]
    exact (or_iff_left fun both => same both.1.symm).symm

theorem once_append (new : key ∉ w.1) : ((dealt ++ [(key, quality)]).map Prod.fst).Nodup := by
  rw [List.map_append]
  refine List.nodup_append.mpr ⟨inv.once, List.nodup_singleton _, ?_⟩
  rintro k old k' here rfl
  obtain rfl := List.mem_singleton.mp here
  exact new (inv.mem_iff.mpr old)

theorem falling_append (least : ∀ e ∈ dealt, quality.rank ≤ e.2.rank) :
    (dealt ++ [(key, quality)]).Pairwise fun a b => b.2.rank ≤ a.2.rank := by
  refine List.pairwise_append.mpr ⟨inv.falling, List.pairwise_singleton _ _, ?_⟩
  intro e old e' new
  obtain rfl := List.mem_singleton.mp new
  exact least e old

theorem highs_append (lower : quality ≠ .high) :
    (dealt ++ [(key, quality)]).filter (·.2 = .high) = highs.map (·, .high) := by
  rw [List.filter_append, inv.highs, List.filter_cons_of_neg (by simpa using lower),
    List.filter_nil, List.append_nil]

end Append

/-- Who is given something for the first time gets no more than anybody before. -/
theorem give (inv : Dealt maxThumbnail highs w dealt) (key : Bytes) :
    ∃ more, Dealt maxThumbnail highs (give maxThumbnail w key) (dealt ++ more) ∧
      more.map Prod.fst = if key ∈ w.1 then [] else [key] := by
  rw [FinBit.Media.give]
  by_cases known : key ∈ w.1
  · rw [if_pos (ExtTreeMap.mem_iff_contains.mp known), if_pos known]
    exact ⟨[], by rwa [List.append_nil], rfl⟩
  · rw [if_neg (mt ExtTreeMap.mem_iff_contains.mpr known), if_neg known]
    by_cases left : w.2 < maxThumbnail
    · -- nobody has been dropped yet
      rw [if_pos left]
      have undropped : ∀ k, (k, .drop) ∉ dealt := fun k member =>
        Nat.ne_of_lt left (inv.used k member)
      refine ⟨[(key, .thumbnail)], ?_, rfl⟩
      constructor
      · exact inv.once_append known
      · exact inv.lookup_append known
      · refine inv.falling_append fun e old => ?_
        obtain ⟨k, q⟩ := e
        cases q with
        | drop => exact absurd old (undropped k)
        | thumbnail => exact Nat.le_refl _
        | high => exact Nat.le_succ _
      · exact inv.highs_append nofun
      · rw [List.countP_append, inv.thumbnails]
        rfl
      · exact left
      · intro k member
        obtain old | new := List.mem_append.mp member
        · exact absurd old (undropped k)
        · cases List.mem_singleton.mp new
    · rw [if_neg left]
      have full : w.2 = maxThumbnail := Nat.le_antisymm inv.within (Nat.le_of_not_lt left)
      refine ⟨[(key, .drop)], ?_, rfl⟩
      constructor
      · exact inv.once_append known
      · exact inv.lookup_append known
      · exact inv.falling_append fun e old => Nat.zero_le _
      · exact inv.highs_append nofun
      · rw [List.countP_append, inv.thumbnails]
        rfl
      · exact inv.within
      · exact fun _ _ => full

/-- Giving to several in turn reaches those who had nothing, in that order. -/
theorem gives (inv : Dealt maxThumbnail highs w dealt) {keys : List Bytes} (once : keys.Nodup) :
    ∃ more, Dealt maxThumbnail highs (keys.foldl (FinBit.Media.give maxThumbnail) w) (dealt ++ more) ∧
      more.map Prod.fst = keys.filter (· ∉ w.1) := by
  induction keys generalizing w dealt with
  | nil => exact ⟨[], by rwa [List.append_nil], rfl⟩
  | cons key rest ih =>
    obtain ⟨apart, once⟩ := List.nodup_cons.mp once
    obtain ⟨first, step, given⟩ := inv.give key
    obtain ⟨others, run, later⟩ := ih step once
    refine ⟨first ++ others, ?_, ?_⟩
    · rwa [← List.append_assoc]
    · -- the first one is not among the rest, who have what they had
      have same : rest.filter (· ∉ (FinBit.Media.give maxThumbnail w key).1) =
          rest.filter (· ∉ w.1) := by
        refine List.filter_congr fun k member => decide_eq_decide.mpr (not_congr ?_)
        rw [step.mem_iff, List.map_append, List.mem_append, given, ← inv.mem_iff]
        refine or_iff_left fun here => ?_
        split at here
        · cases here
        · exact apart (List.mem_singleton.mp here ▸ member)
      rw [List.map_append, given, later, same]
      by_cases known : key ∈ w.1
      · rw [if_pos known, List.filter_cons_of_neg (by simpa using known), List.nil_append]
      · rw [if_neg known, List.filter_cons_of_pos (by simpa using known), List.singleton_append]

end Dealt

theorem lookup_highs {α : Type*} (key : α → Bytes) (l : List α) (out : ExtTreeMap Bytes VideoQuality)
    (k : Bytes) : (l.foldl (fun out a => out.insert (key a) VideoQuality.high) out)[k]? =
      if k ∈ l.map key then some VideoQuality.high else out[k]? := by
  induction l generalizing out with
  | nil => rfl
  | cons a l ih =>
    rw [List.foldl_cons, ih]
    simp only [ExtTreeMap.getElem?_insert, Std.compare_eq_iff_eq, List.map_cons, List.mem_cons]
    grind

theorem dealt_highs {α : Type*} (key : α → Bytes) {l : List α} (once : (l.map key).Nodup)
    (maxThumbnail : Nat) :
    Dealt maxThumbnail (l.map key) (l.foldl (fun out a => out.insert (key a) VideoQuality.high) ∅, 0)
      ((l.map key).map fun k => (k, VideoQuality.high)) where
  once := by
    rw [List.map_map]
    exact (List.map_id (l.map key)).symm ▸ once
  lookup k q := by
    rw [lookup_highs]
    split
    next member =>
      constructor
      · rintro ⟨rfl⟩
        exact List.mem_map_of_mem member
      · intro listed
        obtain ⟨_, -, same⟩ := List.mem_map.mp listed
        exact congrArg some (Prod.mk.inj same).2
    next stranger =>
      refine iff_of_false (by simp) fun listed => ?_
      obtain ⟨k', member, same⟩ := List.mem_map.mp listed
      exact stranger ((Prod.mk.inj same).1 ▸ member)
  falling := List.pairwise_map.mpr (List.pairwise_of_forall fun _ _ => Nat.le_refl _)
  highs := List.filter_eq_self.mpr fun e member => by
    obtain ⟨_, -, rfl⟩ := List.mem_map.mp member
    rfl
  thumbnails := List.countP_eq_zero.mpr fun e member => by
    obtain ⟨_, -, rfl⟩ := List.mem_map.mp member
    nofun
  within := Nat.zero_le _
  used k member := by
    obtain ⟨_, -, same⟩ := List.mem_map.mp member
    cases (Prod.mk.inj same).2

/-! ### The talkers -/

section

variable {L : Type} [LinearOrder L] {levels : ExtTreeMap Bytes L} {floorDb : L}

theorem talking_perm (levels : ExtTreeMap Bytes L) (floorDb : L) : (talking levels floorDb).Perm
    ((levels.toList.filter fun e => floorDb ≤ e.2).map fun e => (e.2, e.1)) :=
  List.mergeSort_perm _ _

theorem mem_talking {t : L × Bytes} :
    t ∈ talking levels floorDb ↔ levels[t.2]? = some t.1 ∧ floorDb ≤ t.1 := by
  rw [(talking_perm levels floorDb).mem_iff, List.mem_map]
  constructor
  · rintro ⟨e, member, rfl⟩
    obtain ⟨listed, loud⟩ := List.mem_filter.mp member
    exact ⟨ExtTreeMap.mem_toList_iff_getElem?_eq_some.mp listed, of_decide_eq_true loud⟩
  · rintro ⟨found, loud⟩
    have listed := ExtTreeMap.mem_toList_iff_getElem?_eq_some.mpr found
    exact ⟨(t.2, t.1), List.mem_filter.mpr ⟨listed, decide_eq_true loud⟩, rfl⟩

theorem nodup_talking : ((talking levels floorDb).map Prod.snd).Nodup := by
  rw [((talking_perm levels floorDb).map Prod.snd).nodup_iff, List.map_map]
  have keys : levels.toList.Pairwise fun a b => a.1 ≠ b.1 :=
    List.pairwise_map.mp (nodup_keys_toList levels)
  exact List.pairwise_map.mpr (keys.filter _)

/-- Nobody is louder than the one before. -/
theorem louder_eq_false_iff {a b : L × Bytes} :
    louder b a = false ↔ b.1 < a.1 ∨ b.1 = a.1 ∧ a.2 ≤ b.2 := by
  rw [louder]
  by_cases tied : b.1 = a.1
  · rw [if_neg (not_not.mpr tied), decide_eq_false_iff_not, List.not_lt, tied]
    simp
  · rw [if_pos tied, decide_eq_false_iff_not, not_lt, le_iff_lt_or_eq]
    exact or_congr_right (by simp [tied])

theorem sorted_talking (levels : ExtTreeMap Bytes L) (floorDb : L) :
    (talking levels floorDb).Pairwise fun a b => louder b a = false := by
  refine pairwise_mergeSort_not (fun a b c first second => ?_) (fun a b => ?_) _
  · rw [louder_eq_false_iff] at first second ⊢
    obtain less | ⟨tied, before⟩ := first
    · obtain less' | ⟨tied', -⟩ := second
      · exact .inl (less'.trans less)
      · exact .inl (tied' ▸ less)
    · obtain less' | ⟨tied', before'⟩ := second
      · exact .inl (tied ▸ less')
      · exact .inr ⟨tied'.trans tied, List.le_trans before before'⟩
  · rw [louder_eq_false_iff, louder_eq_false_iff]
    obtain less | tied | greater := lt_trichotomy a.1 b.1
    · exact .inr (.inl less)
    · obtain before | behind := List.le_total a.2 b.2
      · exact .inl (.inr ⟨tied.symm, before⟩)
      · exact .inr (.inr ⟨tied, behind⟩)
    · exact .inl (.inl greater)

/-! ### The plan -/

/-- How many are given a quality. -/
def given (plan : ExtTreeMap Bytes VideoQuality) (quality : VideoQuality) : Nat :=
  (plan.toList.filter (·.2 = quality)).length

/-- How many are at or above the floor. -/
def talkers (levels : ExtTreeMap Bytes L) (floorDb : L) : Nat :=
  (levels.toList.filter fun e => floorDb ≤ e.2).length

/-- A plan that uses up both budgets and prefers the louder. -/
structure Budgeted (levels : ExtTreeMap Bytes L) (maxHigh maxThumbnail : Nat) (floorDb : L)
    (plan : ExtTreeMap Bytes VideoQuality) : Prop where
  everyone : ∀ k, k ∈ plan ↔ k ∈ levels
  high : given plan .high = min maxHigh (talkers levels floorDb)
  thumbnail : given plan .thumbnail = min maxThumbnail (levels.size - given plan .high)
  above : ∀ k : Bytes, plan[k]? = some .high → ∃ l, levels[k]? = some l ∧ floorDb ≤ l
  preferred : ∀ (k k' : Bytes) l l', levels[k]? = some l → levels[k']? = some l' → floorDb ≤ l' → l' < l →
    ∀ q q', plan[k]? = some q → plan[k']? = some q' → q'.rank ≤ q.rank

theorem given_eq {maxThumbnail : Nat} {highs : List Bytes}
    {w : ExtTreeMap Bytes VideoQuality × Nat} {dealt : List (Bytes × VideoQuality)}
    (inv : Dealt maxThumbnail highs w dealt) (quality : VideoQuality) :
    given w.1 quality = dealt.countP (·.2 = quality) := by
  have entries : w.1.toList.Nodup := (nodup_keys_toList w.1).of_map
  have perm : w.1.toList.Perm dealt := by
    refine (List.perm_ext_iff_of_nodup entries inv.once.of_map).mpr fun e => ?_
    rw [← inv.lookup]
    exact ExtTreeMap.mem_toList_iff_getElem?_eq_some
  rw [given, ← List.countP_eq_length_filter, perm.countP_eq]

/-- How a plan comes about: the talkers first, in their order, and then everybody else. -/
theorem planned (levels : ExtTreeMap Bytes L) (maxHigh maxThumbnail : Nat) (floorDb : L) :
    ∃ w first others,
      Dealt maxThumbnail (((talking levels floorDb).take maxHigh).map Prod.snd) w
        (first ++ others) ∧
      w.1 = planForwardedVideo levels maxHigh maxThumbnail floorDb ∧
      first.map Prod.fst = (talking levels floorDb).map Prod.snd ∧
      others.map Prod.fst = levels.keys.filter (· ∉ first.map Prod.fst) := by
  generalize ranked : talking levels floorDb = t
  have once : (t.map Prod.snd).Nodup := ranked ▸ nodup_talking
  have parts := List.take_append_drop (min t.length maxHigh) t
  have split := once
  rw [← parts, List.map_append, List.nodup_append] at split
  obtain ⟨front, back, apart⟩ := split
  have start := dealt_highs Prod.snd front maxThumbnail
  obtain ⟨more, talked, keys⟩ := start.gives back
  -- none of the others has been given anything
  have all : more.map Prod.fst = (t.drop (min t.length maxHigh)).map Prod.snd := by
    rw [keys]
    refine List.filter_eq_self.mpr fun k member => decide_eq_true fun old => ?_
    rw [start.mem_iff, List.map_map] at old
    obtain ⟨k', early, rfl⟩ := List.mem_map.mp old
    exact apart _ early _ member rfl
  have listed : (((t.take (min t.length maxHigh)).map Prod.snd).map
      (fun k => (k, VideoQuality.high)) ++ more).map Prod.fst = t.map Prod.snd := by
    rw [List.map_append, all, List.map_map]
    change ((t.take (min t.length maxHigh)).map Prod.snd).map id ++ _ = _
    rw [List.map_id, ← List.map_append, parts]
  obtain ⟨others, final, rest⟩ := talked.gives (nodup_keys levels)
  have cut : t.take maxHigh = t.take (min t.length maxHigh) := by
    rw [Nat.min_comm]
    exact List.take_eq_take_min
  subst ranked
  rw [cut]
  refine ⟨_, _, others, final, ?_, listed, ?_⟩
  · rw [List.foldl_map]
    rfl
  · rw [rest]
    exact List.filter_congr fun k _ => decide_eq_decide.mpr (not_congr talked.mem_iff)

/-- Among the talkers the louder comes first, and is given at least as much. -/
theorem preferred_of_first {k k' : Bytes} {l l' : L} (found : levels[k]? = some l)
    (found' : levels[k']? = some l') (louder : l' < l)
    {first : List (Bytes × VideoQuality)} (falling : first.Pairwise fun a b => b.2.rank ≤ a.2.rank)
    (keys : first.map Prod.fst = (talking levels floorDb).map Prod.snd) {q q' : VideoQuality}
    (member : (k, q) ∈ first) (member' : (k', q') ∈ first) : q'.rank ≤ q.rank := by
  have talker : ∀ {k : Bytes} {l : L} {i : Nat} {q : VideoQuality}, levels[k]? = some l →
      first[i]? = some (k, q) → (talking levels floorDb)[i]? = some (l, k) := by
    intro k l i q found here
    have key := congrArg (·[i]?) keys
    simp only [List.getElem?_map, here, Option.map_some] at key
    obtain ⟨t, there, rfl⟩ := Option.map_eq_some_iff.mp key.symm
    have level := (mem_talking.mp (List.mem_of_getElem? there)).1
    rw [found] at level
    rw [there, Option.some.inj level]
  obtain ⟨i, here⟩ := List.mem_iff_getElem?.mp member
  obtain ⟨j, there⟩ := List.mem_iff_getElem?.mp member'
  obtain ⟨inside, at_i⟩ := List.getElem?_eq_some_iff.mp here
  obtain ⟨inside', at_j⟩ := List.getElem?_eq_some_iff.mp there
  obtain before | rfl | behind := Nat.lt_trichotomy i j
  · have less := List.pairwise_iff_getElem.mp falling i j inside inside' before
    rwa [at_i, at_j] at less
  · rw [here] at there
    cases there
    exact Nat.le_refl _
  · -- the quieter would come first
    obtain ⟨listed, at_i⟩ := List.getElem?_eq_some_iff.mp (talker found here)
    obtain ⟨listed', at_j⟩ := List.getElem?_eq_some_iff.mp (talker found' there)
    have order := List.pairwise_iff_getElem.mp (sorted_talking levels floorDb) j i listed' listed behind
    rw [at_i, at_j, louder_eq_false_iff] at order
    obtain less | ⟨tied, -⟩ := order
    · exact absurd louder (lt_asymm less)
    · exact absurd tied louder.ne'

/-- Thumbnails are given as long as there are any and somebody is left. -/
theorem thumbnails_eq {maxThumbnail : Nat} {highs : List Bytes}
    {w : ExtTreeMap Bytes VideoQuality × Nat} {dealt : List (Bytes × VideoQuality)}
    (inv : Dealt maxThumbnail highs w dealt) :
    dealt.countP (·.2 = .thumbnail) =
      min maxThumbnail (dealt.length - dealt.countP (·.2 = .high)) := by
  have lower : dealt.length - dealt.countP (·.2 = .high) =
      dealt.countP fun e => !decide (e.2 = .high) := by
    rw [List.length_eq_countP_add_countP (fun e : Bytes × VideoQuality => e.2 = .high),
      Nat.add_sub_cancel_left]
    exact List.countP_congr fun e _ => by simp
  rw [lower]
  by_cases full : w.2 = maxThumbnail
  · have enough : dealt.countP (·.2 = .thumbnail) ≤
        dealt.countP fun e => !decide (e.2 = .high) := by
      refine List.countP_mono_left fun e _ thumbnail => ?_
      rw [of_decide_eq_true thumbnail]
      rfl
    rw [Nat.min_eq_left (by rwa [inv.thumbnails, full] at enough), inv.thumbnails, full]
  · have same : dealt.countP (·.2 = .thumbnail) =
        dealt.countP fun e => !decide (e.2 = .high) := by
      refine List.countP_congr fun e member => ?_
      obtain ⟨k, q⟩ := e
      cases q with
      | drop => exact absurd (inv.used k member) full
      | thumbnail => simp
      | high => simp
    rw [← same, Nat.min_eq_right (inv.thumbnails ▸ inv.within)]

/-- Every plan uses up both budgets and prefers the louder. -/
theorem planForwardedVideo_budgeted (levels : ExtTreeMap Bytes L) (maxHigh maxThumbnail : Nat)
    (floorDb : L) :
    Budgeted levels maxHigh maxThumbnail floorDb
      (planForwardedVideo levels maxHigh maxThumbnail floorDb) := by
  obtain ⟨w, first, others, inv, same, keys, rest⟩ := planned levels maxHigh maxThumbnail floorDb
  rw [← same]
  have everyone : ∀ k, k ∈ w.1 ↔ k ∈ levels := by
    intro k
    rw [inv.mem_iff, List.map_append, List.mem_append, rest, List.mem_filter, ExtTreeMap.mem_keys]
    constructor
    · rintro (talks | ⟨member, -⟩)
      · rw [keys] at talks
        obtain ⟨t, listed, rfl⟩ := List.mem_map.mp talks
        exact ExtTreeMap.mem_iff_isSome_getElem?.mpr (by simp [(mem_talking.mp listed).1])
      · exact member
    · intro member
      by_cases talks : k ∈ first.map Prod.fst
      · exact .inl talks
      · exact .inr ⟨member, decide_eq_true talks⟩
  have high : given w.1 .high = min maxHigh (talkers levels floorDb) := by
    have size : (talking levels floorDb).length = talkers levels floorDb := by
      rw [(talking_perm levels floorDb).length_eq, List.length_map, talkers]
    rw [given_eq inv, List.countP_eq_length_filter, inv.highs, List.length_map, List.length_map,
      List.length_take, size]
  have size : (first ++ others).length = levels.size := by
    have perm : ((first ++ others).map Prod.fst).Perm levels.keys := by
      refine (List.perm_ext_iff_of_nodup inv.once (nodup_keys levels)).mpr fun k => ?_
      rw [← inv.mem_iff, everyone, ExtTreeMap.mem_keys]
    rw [← List.length_map (f := Prod.fst), perm.length_eq, ExtTreeMap.length_keys]
  constructor
  · exact everyone
  · exact high
  · rw [given_eq inv, given_eq inv, thumbnails_eq inv, size]
  · intro k found
    have member : (k, .high) ∈ (first ++ others).filter (·.2 = .high) :=
      List.mem_filter.mpr ⟨(inv.lookup k .high).mp found, rfl⟩
    rw [inv.highs] at member
    obtain ⟨_, early, same⟩ := List.mem_map.mp member
    obtain rfl := (Prod.mk.inj same).1
    obtain ⟨t, talks, rfl⟩ := List.mem_map.mp early
    exact ⟨t.1, mem_talking.mp (List.mem_of_mem_take talks)⟩
  · intro k k' l l' found found' loud louder q q' planned planned'
    -- both are talkers, and so among the first
    have early : ∀ {k : Bytes} {l : L} {q : VideoQuality}, levels[k]? = some l → floorDb ≤ l →
        w.1[k]? = some q → (k, q) ∈ first := by
      intro k l q found loud planned
      obtain here | later := List.mem_append.mp ((inv.lookup k q).mp planned)
      · exact here
      · have talks : k ∈ first.map Prod.fst := by
          rw [keys]
          have listed : (l, k) ∈ talking levels floorDb := mem_talking.mpr ⟨found, loud⟩
          exact List.mem_map_of_mem listed
        have outside : k ∈ others.map Prod.fst := List.mem_map_of_mem later
        rw [rest, List.mem_filter] at outside
        exact absurd talks (of_decide_eq_true outside.2)
    have falling := (List.pairwise_append.mp inv.falling).1
    exact preferred_of_first found found' louder falling keys
      (early found (loud.trans louder.le) planned) (early found' loud planned')

end

end FinBit.Media
