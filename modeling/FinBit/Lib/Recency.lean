import Mathlib.Data.Finset.Card
import Mathlib.Data.List.Nodup

/-! # A memory of the last few elements

A bounded memory admits an element that it does not hold, and forgets the oldest one when it
is full. What it holds is the end of the list of everything it has admitted, so an element
that is admitted twice has as many others between as the memory holds.

At the end, lists with the elements that were seen last behind the others.
-/

namespace FinBit.Lib

variable {α : Type*}

/-- The last `cap` elements. -/
def recent (cap : Nat) (admitted : List α) : List α := admitted.drop (admitted.length - cap)

theorem length_recent (cap : Nat) (admitted : List α) :
    (recent cap admitted).length = min cap admitted.length := by
  rw [recent, List.length_drop]
  omega

/-- One more element takes the place of the oldest, if there is no room. -/
theorem recent_concat {cap : Nat} (room : 0 < cap) (admitted : List α) (x : α) :
    recent cap (admitted ++ [x]) =
      (if cap ≤ (recent cap admitted).length then (recent cap admitted).drop 1
        else recent cap admitted) ++ [x] := by
  rw [length_recent]
  split
  next full =>
    rw [recent, recent, List.length_append, List.length_singleton, List.drop_drop,
      List.drop_append_of_le_length (by omega)]
    congr 2
    omega
  next free =>
    rw [recent, recent, List.length_append, List.length_singleton,
      List.drop_append_of_le_length (by omega)]
    congr 2
    omega

/-- What fewer than `cap` have followed is still there. -/
theorem mem_recent {cap : Nat} (before : List α) (x : α) {after : List α}
    (few : after.length < cap) : x ∈ recent cap (before ++ x :: after) := by
  have kept : recent cap (before ++ x :: after) =
      before.drop ((before ++ x :: after).length - cap) ++ x :: after := by
    rw [recent, List.drop_append_of_le_length]
    simp only [List.length_append, List.length_cons]
    omega
  rw [kept]
  exact List.mem_append_right _ List.mem_cons_self

/-- No element comes back before `cap` others have been admitted. -/
def Spaced (cap : Nat) (admitted : List α) : Prop :=
  ∀ before x between after, admitted = before ++ x :: (between ++ x :: after) →
    cap ≤ between.length

namespace Spaced

variable {cap : Nat} {admitted : List α}

theorem nil (cap : Nat) : Spaced cap ([] : List α) := by
  intro before x between after split
  simp at split

/-- A memory admits what it does not hold. -/
theorem concat (spaced : Spaced cap admitted) {x : α} (new : x ∉ recent cap admitted) :
    Spaced cap (admitted ++ [x]) := by
  intro before y between after split
  rcases List.eq_nil_or_concat after with rfl | ⟨rest, last, rfl⟩
  · -- the last one is what comes back
    have ends : admitted ++ [x] = (before ++ y :: between) ++ [y] := by simpa using split
    obtain ⟨rfl, same⟩ := List.append_inj' ends rfl
    obtain rfl : x = y := by simpa using same
    by_contra few
    exact new (mem_recent before x (by omega))
  · have ends : admitted ++ [x] = (before ++ y :: (between ++ y :: rest)) ++ [last] := by
      simpa using split
    obtain ⟨earlier, -⟩ := List.append_inj' ends rfl
    exact spaced before y between rest earlier

/-- So few elements in a row are all different. -/
theorem nodup_block {before block after : List α} (spaced : Spaced cap (before ++ block ++ after))
    (few : block.length ≤ cap + 1) : block.Nodup := by
  induction block generalizing before with
  | nil => exact List.nodup_nil
  | cons x rest ih =>
    rw [List.length_cons] at few
    have further : Spaced cap (before ++ [x] ++ rest ++ after) := by simpa using spaced
    refine List.nodup_cons.mpr ⟨fun again => ?_, ih further (by omega)⟩
    obtain ⟨between, later, rfl⟩ := List.append_of_mem again
    have far := spaced before x between (later ++ after) (by simp)
    simp only [List.length_append, List.length_cons] at few
    omega

theorem nodup_recent (spaced : Spaced cap admitted) : (recent cap admitted).Nodup := by
  have whole : admitted.take (admitted.length - cap) ++ recent cap admitted ++ [] = admitted := by
    rw [List.append_nil, recent, List.take_append_drop]
  refine nodup_block (whole.symm ▸ spaced) ?_
  rw [length_recent]
  omega

/-- What comes back has `cap` different others between. -/
theorem card_between [DecidableEq α] {before between : List α} {x : α}
    (spaced : Spaced cap (before ++ x :: (between ++ [x]))) :
    cap ≤ (between.toFinset.erase x).card := by
  have far := spaced before x between [] rfl
  have unlike : (x :: between.take cap).Nodup := by
    have whole : before ++ x :: between.take cap ++ (between.drop cap ++ [x]) =
        before ++ x :: (between ++ [x]) := by
      rw [List.append_assoc, List.cons_append, ← List.append_assoc (between.take cap),
        List.take_append_drop]
    refine nodup_block (whole.symm ▸ spaced) ?_
    rw [List.length_cons, List.length_take]
    omega
  obtain ⟨other, distinct⟩ := List.nodup_cons.mp unlike
  have among : (between.take cap).toFinset ⊆ between.toFinset.erase x := by
    intro y member
    rw [List.mem_toFinset] at member
    refine Finset.mem_erase.mpr ⟨?_, List.mem_toFinset.mpr (List.mem_of_mem_take member)⟩
    rintro rfl
    exact other member
  calc
    cap = (between.take cap).toFinset.card := by
      rw [List.toFinset_card_of_nodup distinct, List.length_take]
      omega
    _ ≤ (between.toFinset.erase x).card := Finset.card_le_card among

end Spaced

/-! ### Least recently seen in front -/

section

variable [DecidableEq α]

/-- How many elements have been seen since. -/
def age (history : List α) (x : α) : Nat :=
  history.reverse.idxOf x

theorem age_concat_self (history : List α) (x : α) : age (history ++ [x]) x = 0 := by
  rw [age, List.reverse_append, List.reverse_singleton, List.singleton_append, List.idxOf_cons_self]

theorem age_concat_of_ne (history : List α) {x y : α} (other : y ≠ x) :
    age (history ++ [y]) x = age history x + 1 := by
  rw [age, List.reverse_append, List.reverse_singleton, List.singleton_append,
    List.idxOf_cons_ne _ other]
  rfl

/-- The elements are in the order in which they were last seen. -/
def Aged (history l : List α) : Prop :=
  l.Pairwise fun x y => age history y < age history x

namespace Aged

variable {history l : List α} {x : α}

/-- Seeing another element changes nothing. -/
theorem skip (aged : Aged history l) (other : x ∉ l) : Aged (history ++ [x]) l := by
  refine List.Pairwise.imp_of_mem (fun {y z} left right less => ?_) aged
  have apart : x ≠ y := fun same => other (same ▸ left)
  have apart' : x ≠ z := fun same => other (same ▸ right)
  rw [age_concat_of_ne _ apart, age_concat_of_ne _ apart']
  exact Nat.succ_lt_succ less

/-- The element that is seen goes to the end. -/
theorem concat (aged : Aged history l) (other : x ∉ l) : Aged (history ++ [x]) (l ++ [x]) := by
  refine List.pairwise_append.mpr ⟨aged.skip other, List.pairwise_singleton .., ?_⟩
  intro y member z last
  have apart : x ≠ y := fun same => other (same ▸ member)
  rw [List.mem_singleton.mp last, age_concat_self, age_concat_of_ne _ apart]
  exact Nat.succ_pos _

/-- If it goes to the front it is out of order. -/
theorem not_cons (some_others : l ≠ []) : ¬Aged (history ++ [x]) (x :: l) := by
  intro aged
  obtain ⟨y, rest, rfl⟩ := List.exists_cons_of_ne_nil some_others
  have less := (List.pairwise_cons.mp aged).1 y List.mem_cons_self
  rw [age_concat_self] at less
  exact Nat.not_lt_zero _ less

/-- The front is the oldest. -/
theorem le_front (aged : Aged history (x :: l)) {y : α} (member : y ∈ x :: l) :
    age history y ≤ age history x := by
  obtain rfl | behind := List.mem_cons.mp member
  · exact Nat.le_refl _
  · exact Nat.le_of_lt ((List.pairwise_cons.mp aged).1 y behind)

end Aged

end

end FinBit.Lib
