import FinBit.Desktop.RoomBeacons

/-! # The topology of a call

A large call has a forwarder, to which all other participants connect; a small one is a mesh. Nobody
tells the participants: each elects the forwarder and plans its own connections from the roster that
it has, in the order in which it has it.
-/

namespace FinBit.Media

open FinBit.Lib FinBit.Desktop

structure ForwarderPlan where
  forwarder : Bytes
  iAmForwarder : Bool
  mesh : Bool
  dial : List Bytes

/-- `std::sort` of byte strings. -/
def sorted (keys : List Bytes) : List Bytes := keys.mergeSort fun a b => decide (a ≤ b)

/-- `plan_topology`. -/
def planTopology (participants : List Bytes) (myPubkey forwarder : Bytes) : ForwarderPlan :=
  if forwarder = [] then
    -- dial every other participant
    ⟨forwarder, false, true, sorted (participants.filter (· ≠ myPubkey))⟩
  else if forwarder = myPubkey then
    ⟨forwarder, true, false, sorted (participants.filter (· ≠ myPubkey))⟩
  else
    ⟨forwarder, false, false, sorted [forwarder]⟩

/-! ### The election -/

/-- One candidate is preferred to another: it has the better uplink, or the lesser key. -/
def Ahead (b c : Bytes × Int) : Prop := c.2 < b.2 ∨ c.2 = b.2 ∧ b.1 < c.1

theorem Ahead.trans {a b c : Bytes × Int} (first : Ahead a b) (second : Ahead b c) : Ahead a c := by
  obtain better | ⟨tied, less⟩ := first
  · obtain better' | ⟨tied', -⟩ := second
    · exact .inl (better'.trans better)
    · exact .inl (tied' ▸ better)
  · obtain better' | ⟨tied', less'⟩ := second
    · exact .inl (tied ▸ better')
    · exact .inr ⟨tied'.trans tied, List.lt_trans less less'⟩

theorem Ahead.asymm {b c : Bytes × Int} (ahead : Ahead b c) : ¬Ahead c b := by
  intro back
  obtain better | ⟨-, less⟩ := ahead.trans back
  · exact lt_irrefl _ better
  · exact List.lt_irrefl _ less

theorem eq_or_ahead (b c : Bytes × Int) : c = b ∨ Ahead b c ∨ Ahead c b := by
  obtain less | tied | greater := lt_trichotomy c.2 b.2
  · exact .inr (.inl (.inl less))
  · by_cases before : b.1 < c.1
    · exact .inr (.inl (.inr ⟨tied, before⟩))
    · by_cases behind : c.1 < b.1
      · exact .inr (.inr (.inr ⟨tied.symm, behind⟩))
      · exact .inl (Prod.ext (List.le_antisymm (List.not_lt.mp before) (List.not_lt.mp behind)) tied)
  · exact .inr (.inr (.inl greater))

/-- The one that is ahead of all others. -/
def Best (l : List (Bytes × Int)) (b : Bytes × Int) : Prop := b ∈ l ∧ ∀ c ∈ l, c = b ∨ Ahead b c

theorem Best.unique {l : List (Bytes × Int)} {b b' : Bytes × Int} (best : Best l b)
    (best' : Best l b') : b = b' := by
  obtain same | ahead := best.2 b' best'.1
  · exact same.symm
  · obtain same | back := best'.2 b best.1
    · exact same
    · exact absurd back ahead.asymm

/-- The candidates that can forward. -/
def usable (candidates : List (Bytes × Int)) : List (Bytes × Int) := candidates.filter (0 < ·.2)

/-- One round of the loop keeps the best of those that were seen. -/
theorem Best.concat {seen : List (Bytes × Int)} {a c : Bytes × Int} (best : Best seen a)
    (able : ¬c.2 ≤ 0) : ∃ b, better (some a) c = some b ∧ Best (seen ++ [c]) b := by
  rw [better, if_neg able]
  by_cases ahead : Ahead c a
  · refine ⟨c, if_pos (ahead.imp id fun both => ⟨both.1.symm, both.2⟩),
      List.mem_append_right _ (List.mem_singleton_self c), fun d member => ?_⟩
    obtain old | new := List.mem_append.mp member
    · -- what was behind the old one is behind the new one
      obtain rfl | behind := best.2 d old
      · exact .inr ahead
      · exact .inr (ahead.trans behind)
    · exact .inl (List.mem_singleton.mp new)
  · refine ⟨a, if_neg fun ahead' => ahead (ahead'.imp id fun both => ⟨both.1.symm, both.2⟩),
      List.mem_append_left _ best.1, fun d member => ?_⟩
    obtain old | new := List.mem_append.mp member
    · exact best.2 d old
    · obtain rfl := List.mem_singleton.mp new
      obtain same | behind | front := eq_or_ahead a d
      · exact .inl same
      · exact .inr behind
      · exact absurd front ahead

theorem best_foldl {seen candidates : List (Bytes × Int)} {best : Option (Bytes × Int)}
    {b : Bytes × Int} (kept : ∀ b, best = some b → Best seen b) (fresh : best = none → seen = [])
    (found : candidates.foldl better best = some b) : Best (seen ++ usable candidates) b := by
  induction candidates generalizing seen best with
  | nil =>
    rw [usable, List.filter_nil, List.append_nil]
    exact kept b found
  | cons c rest ih =>
    rw [List.foldl_cons] at found
    by_cases leaf : c.2 ≤ 0
    · -- it is passed over
      have skipped : better best c = best := if_pos leaf
      rw [skipped] at found
      rw [usable, List.filter_cons_of_neg (by simpa using leaf)]
      exact ih kept fresh found
    · have able : 0 < c.2 := lt_of_not_ge leaf
      rw [usable, List.filter_cons_of_pos (by simpa using able), List.append_cons, ← usable]
      cases best with
      | none =>
        obtain rfl := fresh rfl
        have first : better none c = some c := if_neg leaf
        rw [first] at found
        refine @ih _ (some c) ?_ nofun found
        rintro b ⟨rfl⟩
        exact ⟨List.mem_singleton_self c, fun d member => .inl (List.mem_singleton.mp member)⟩
      | some a =>
        obtain ⟨a', step, best'⟩ := (kept a rfl).concat leaf
        rw [step] at found
        refine @ih _ (some a') ?_ nofun found
        rintro b ⟨rfl⟩
        exact best'

theorem foldl_better_perm {candidates candidates' : List (Bytes × Int)}
    (same : candidates.Perm candidates') :
    candidates.foldl better none = candidates'.foldl better none := by
  cases found : candidates.foldl better none with
  | none =>
    have leaves := (foldl_better_eq_none.mp found).2
    exact (foldl_better_eq_none.mpr ⟨rfl, fun c member => leaves c (same.mem_iff.mpr member)⟩).symm
  | some b =>
    have best := @best_foldl [] _ none _ nofun (fun _ => rfl) found
    cases found' : candidates'.foldl better none with
    | none =>
      have leaves := (foldl_better_eq_none.mp found').2
      rw [foldl_better_eq_none.mpr ⟨rfl, fun c member => leaves c (same.mem_iff.mp member)⟩] at found
      cases found
    | some b' =>
      have best' := @best_foldl [] _ none _ nofun (fun _ => rfl) found'
      have usable_perm : (usable candidates).Perm (usable candidates') := same.filter _
      refine congrArg some (best.unique ⟨usable_perm.mem_iff.mpr best'.1, fun c member => ?_⟩)
      exact best'.2 c (usable_perm.mem_iff.mp member)

theorem electForwarder_eq (candidates : List (Bytes × Int)) (meshThreshold : Nat) :
    electForwarder candidates meshThreshold =
      if candidates.length < meshThreshold then []
      else ((candidates.foldl better none).map Prod.fst).getD [] := by
  unfold electForwarder
  refine ite_congr rfl (fun _ => rfl) fun _ => ?_
  dsimp only
  split
  next nobody =>
    have nobody : candidates.foldl better none = none := nobody
    rw [nobody]
    rfl
  next b best =>
    have best : candidates.foldl better none = some b := best
    rw [best]
    rfl

/-- The order of the candidates does not matter. -/
theorem electForwarder_perm {candidates candidates' : List (Bytes × Int)}
    (same : candidates.Perm candidates') (meshThreshold : Nat) :
    electForwarder candidates meshThreshold = electForwarder candidates' meshThreshold := by
  rw [electForwarder_eq, electForwarder_eq, same.length_eq, foldl_better_perm same]

/-- The forwarder is one of the candidates. -/
theorem electForwarder_mem {candidates : List (Bytes × Int)} {meshThreshold : Nat}
    (elected : electForwarder candidates meshThreshold ≠ []) :
    electForwarder candidates meshThreshold ∈ candidates.map Prod.fst := by
  rw [electForwarder_eq] at elected ⊢
  split at elected
  · exact absurd rfl elected
  next large =>
    rw [if_neg large]
    cases found : candidates.foldl better none with
    | none =>
      rw [found] at elected
      exact absurd rfl elected
    | some b => exact List.mem_map_of_mem ((foldl_better_mem found).resolve_left nofun)

/-! ### The plans -/

theorem mem_sorted {keys : List Bytes} {k : Bytes} : k ∈ sorted keys ↔ k ∈ keys :=
  List.mem_mergeSort

theorem nodup_sorted {keys : List Bytes} : (sorted keys).Nodup ↔ keys.Nodup :=
  (List.mergeSort_perm keys _).nodup_iff

/-- Whom a participant dials. -/
theorem mem_dial {participants : List Bytes} {p forwarder q : Bytes} :
    q ∈ (planTopology participants p forwarder).dial ↔
      if forwarder = [] ∨ forwarder = p then q ∈ participants ∧ q ≠ p else q = forwarder := by
  have others : q ∈ sorted (participants.filter (· ≠ p)) ↔ q ∈ participants ∧ q ≠ p := by
    rw [mem_sorted, List.mem_filter, decide_eq_true_eq]
  rw [planTopology]
  by_cases mesh : forwarder = []
  · rw [if_pos mesh, if_pos (.inl mesh)]
    exact others
  · by_cases mine : forwarder = p
    · rw [if_neg mesh, if_pos mine, if_pos (.inr mine)]
      exact others
    · rw [if_neg mesh, if_neg mine, if_neg (not_or.mpr ⟨mesh, mine⟩)]
      exact mem_sorted.trans List.mem_singleton

theorem nodup_dial {participants : List Bytes} (distinct : participants.Nodup)
    (p forwarder : Bytes) : (planTopology participants p forwarder).dial.Nodup := by
  rw [planTopology]
  split
  · exact nodup_sorted.mpr (distinct.filter _)
  · split
    · exact nodup_sorted.mpr (distinct.filter _)
    · exact nodup_sorted.mpr (List.nodup_singleton _)

/-- A call: its candidates, and the roster of each of the participants, which is in some order. -/
structure Call where
  candidates : List (Bytes × Int)
  distinct : (candidates.map Prod.fst).Nodup
  meshThreshold : Nat
  roster : Bytes → List (Bytes × Int)
  rosters : ∀ p, (roster p).Perm candidates

namespace Call

variable (call : Call)

def participants : List Bytes := call.candidates.map Prod.fst

/-- Whom a participant elects. -/
def elects (p : Bytes) : Bytes := electForwarder (call.roster p) call.meshThreshold

/-- What it plans then. -/
def plan (p : Bytes) : ForwarderPlan :=
  planTopology ((call.roster p).map Prod.fst) p (call.elects p)

def Dials (p q : Bytes) : Prop := q ∈ (call.plan p).dial

variable {call}

theorem elects_eq (p : Bytes) :
    call.elects p = electForwarder call.candidates call.meshThreshold :=
  electForwarder_perm (call.rosters p) call.meshThreshold

theorem elects_mem {p : Bytes} (star : call.elects p ≠ []) : call.elects p ∈ call.participants := by
  rw [elects_eq] at star ⊢
  exact electForwarder_mem star

theorem dials_iff {p q : Bytes} : call.Dials p q ↔
    if call.elects p = [] ∨ call.elects p = p then q ∈ call.participants ∧ q ≠ p
    else q = call.elects p := by
  rw [Dials, plan, mem_dial, ((call.rosters p).map Prod.fst).mem_iff]
  rfl

/-- In a mesh everybody dials everybody else. -/
theorem dials_mesh {p q : Bytes} (mesh : call.elects p = []) :
    call.Dials p q ↔ q ∈ call.participants ∧ q ≠ p := by
  rw [dials_iff, if_pos (.inl mesh)]

/-- Otherwise one end of every link is the forwarder. -/
theorem dials_star {p q : Bytes} (star : call.elects p ≠ []) :
    call.Dials p q ↔ q ∈ call.participants ∧ q ≠ p ∧ (p = call.elects p ∨ q = call.elects p) := by
  have forwarder := elects_mem star
  rw [dials_iff]
  by_cases mine : call.elects p = p
  · rw [if_pos (.inr mine)]
    exact and_congr_right fun _ => (and_iff_left (.inl mine.symm)).symm
  · rw [if_neg (not_or.mpr ⟨star, mine⟩)]
    constructor
    · rintro rfl
      exact ⟨forwarder, mine, .inr rfl⟩
    · rintro ⟨-, -, here | there⟩
      · exact absurd here.symm mine
      · exact there

/-- What the participants of a call come to, each on its own. -/
structure Agreed (call : Call) (forwarder : Bytes) : Prop where
  elected : ∀ p, call.elects p = forwarder
  symmetric : ∀ p ∈ call.participants, ∀ q ∈ call.participants, call.Dials p q ↔ call.Dials q p
  others : ∀ p ∈ call.participants, ∀ q, call.Dials p q → q ≠ p ∧ q ∈ call.participants
  once : ∀ p ∈ call.participants, (call.plan p).dial.Nodup
  joined : ∀ p ∈ call.participants, ∀ q ∈ call.participants, p ≠ q →
    call.Dials p q ∨ ∃ r ∈ call.participants, call.Dials p r ∧ call.Dials r q

/-- The participants of every call elect one forwarder, and their links join any two of them
directly or through a third. -/
theorem agreed (call : Call) :
    Agreed call (electForwarder call.candidates call.meshThreshold) := by
  have same : ∀ p q, call.elects p = call.elects q := fun p q => (elects_eq p).trans (elects_eq q).symm
  constructor
  · exact elects_eq
  · intro p member q member'
    by_cases mesh : call.elects p = []
    · rw [dials_mesh mesh, dials_mesh (same q p ▸ mesh)]
      exact iff_of_eq (by simp only [member, member', ne_comm])
    · rw [dials_star mesh, dials_star (same q p ▸ mesh), same q p]
      constructor
      · rintro ⟨-, apart, here | there⟩
        · exact ⟨member, apart.symm, .inr here⟩
        · exact ⟨member, apart.symm, .inl there⟩
      · rintro ⟨-, apart, there | here⟩
        · exact ⟨member', apart.symm, .inr there⟩
        · exact ⟨member', apart.symm, .inl here⟩
  · intro p member q dials
    by_cases mesh : call.elects p = []
    · exact ((dials_mesh mesh).mp dials).symm
    · obtain ⟨listed, apart, -⟩ := (dials_star mesh).mp dials
      exact ⟨apart, listed⟩
  · intro p _
    exact nodup_dial (((call.rosters p).map Prod.fst).nodup_iff.mpr call.distinct) p _
  · intro p member q member' apart
    by_cases mesh : call.elects p = []
    · exact .inl ((dials_mesh mesh).mpr ⟨member', apart.symm⟩)
    · by_cases ends : p = call.elects p ∨ q = call.elects p
      · exact .inl ((dials_star mesh).mpr ⟨member', apart.symm, ends⟩)
      · -- both are leaves, and the forwarder stands between them
        obtain ⟨leaf, leaf'⟩ := not_or.mp ends
        have forwarder := elects_mem mesh
        refine .inr ⟨call.elects p, forwarder, ?_, ?_⟩
        · exact (dials_star mesh).mpr ⟨forwarder, Ne.symm leaf, .inr rfl⟩
        · have star : call.elects (call.elects p) ≠ [] := same p _ ▸ mesh
          exact (dials_star star).mpr ⟨member', leaf', .inl (same p _)⟩

end Call

end FinBit.Media
