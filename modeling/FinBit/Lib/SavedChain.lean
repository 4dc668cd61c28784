import FinBit.Lib.Ideal
import FinBit.Lib.Runs

/-! # A key chain that is saved and restored

A process derives one-time keys from a chain key that it keeps in memory, uses
each for one text, and saves the chain key from time to time. A crash puts it
back to the saved chain key. This module gives the state machine and the
condition under which no one-time key is ever used for two texts: nothing that
was used is unsaved when the process crashes.
-/

namespace FinBit.Lib

variable {K M : Type*}

/-- `held` is the one-time key derived last with the text it is meant for;
`unsaved` tells whether a key was used since the chain was saved. -/
structure SavedChain (K M : Type*) where
  current : Option K
  saved : Option K
  held : Option (K × M)
  unsaved : Bool
  seeds : List K

namespace SavedChain

inductive Label (K M : Type*) where
  | silent
  | used (key : K) (text : M)
  | crash

inductive Step (kdf : ChainKdf K) : SavedChain K M → Label K M → SavedChain K M → Prop where
  | skip {s} : Step kdf s .silent s
  | start {s seed} (empty : s.held = none) (drawn : kdf.IsSeed seed) (fresh : seed ∉ s.seeds) :
      Step kdf s .silent { s with current := some seed, seeds := seed :: s.seeds }
  | advance {s key} (text : M) (current : s.current = some key) :
      Step kdf s .silent
        { s with current := some (kdf.nextKey key), held := some (kdf.messageKey key, text) }
  | use {s key text} (held : s.held = some (key, text)) :
      Step kdf s (.used key text) { s with unsaved := true }
  | release {s} : Step kdf s .silent { s with held := none }
  | save {s} : Step kdf s .silent { s with saved := s.current, held := none, unsaved := false }
  | crash {s} (back : Option K) (restored : back = s.saved ∨ back = none) :
      Step kdf s .crash { s with current := back, held := none }

theorem Step.to {kdf : ChainKdf K} {s t t' : SavedChain K M} {e : Label K M}
    (taken : Step kdf s e t) (same : t = t') : Step kdf s e t' := same ▸ taken

/-- Two uses of one key are uses for one text. -/
def UsedOnce (earlier later : Label K M) : Prop :=
  ∀ key text text', earlier = .used key text → later = .used key text' → text = text'

/-- Nothing used is unsaved when the process crashes. -/
def Safe (s : SavedChain K M) : Label K M → Prop
  | .crash => s.unsaved = false
  | _ => True

section

variable (kdf : ChainKdf K)

/-- If the chain key lies on the chain of `seed`, it lies behind position `i`. -/
def Beyond (chain : Option K) (seed : K) (i : Nat) : Prop :=
  ∀ key ∈ chain, ∀ j, key = kdf.nextKey^[j] seed → i < j

/-- The chain key lies on the chain of one of the seeds. -/
def OnChain (chain : Option K) (seeds : List K) : Prop :=
  ∀ key ∈ chain, ∃ seed ∈ seeds, ∃ j, key = kdf.nextKey^[j] seed

/-- The message key at a position that the current chain key has passed. -/
def Spent (s : SavedChain K M) (key seed : K) (i : Nat) : Prop :=
  seed ∈ s.seeds ∧ key = kdf.messageKey (kdf.nextKey^[i] seed) ∧ Beyond kdf s.current seed i

structure WellFormed (s : SavedChain K M) : Prop where
  drawn : ∀ seed ∈ s.seeds, kdf.IsSeed seed
  current : OnChain kdf s.current s.seeds
  saved : OnChain kdf s.saved s.seeds
  held : ∀ key text, s.held = some (key, text) → ∃ seed i, Spent kdf s key seed i

end

variable {kdf : ChainKdf K}

theorem OnChain.cons {chain : Option K} {seeds : List K} (on : OnChain kdf chain seeds)
    (seed : K) : OnChain kdf chain (seed :: seeds) := by
  intro key member
  obtain ⟨a, inside, j, rfl⟩ := on key member
  exact ⟨a, List.mem_cons_of_mem _ inside, j, rfl⟩

/-- A fresh seed does not lie on a chain drawn before. -/
theorem beyond_of_fresh {seeds : List K} {seed old : K} (drawn : kdf.IsSeed seed)
    (oldDrawn : kdf.IsSeed old) (fresh : seed ∉ seeds) (inside : old ∈ seeds) (i : Nat) :
    Beyond kdf (some seed) old i := by
  intro key member j position
  obtain rfl : seed = key := by simpa using member
  obtain ⟨rfl, -⟩ := kdf.iterate_inj drawn oldDrawn (i := 0) position
  exact absurd inside fresh

/-- Advancing moves further beyond. -/
theorem Beyond.advance {key seed : K} {i : Nat} (drawn : kdf.IsSeed seed)
    (beyond : Beyond kdf (some key) seed i) : Beyond kdf (some (kdf.nextKey key)) seed i := by
  intro next member j position
  obtain rfl : kdf.nextKey key = next := by simpa using member
  cases j with
  | zero => exact absurd position (drawn _)
  | succ j =>
    rw [Function.iterate_succ_apply'] at position
    have := beyond key rfl j (kdf.nextKey_injective position)
    omega

theorem beyond_none (seed : K) (i : Nat) : Beyond kdf none seed i := by
  intro key member
  simp at member

theorem step_wellFormed {s t : SavedChain K M} {e : Label K M} (wf : WellFormed kdf s)
    (taken : Step kdf s e t) : WellFormed kdf t := by
  cases taken with
  | skip => exact wf
  | @start seed empty drawn fresh =>
    refine ⟨?_, ?_, wf.saved.cons seed, ?_⟩
    · intro a member
      rcases List.mem_cons.mp member with rfl | old
      · exact drawn
      · exact wf.drawn a old
    · intro key member
      exact ⟨seed, List.mem_cons_self, 0, by simpa using member.symm⟩
    · intro key text held
      rw [empty] at held
      contradiction
  | @advance key text current =>
    obtain ⟨seed, inside, i, rfl⟩ := wf.current key current
    refine ⟨wf.drawn, ?_, wf.saved, ?_⟩
    · intro next member
      obtain rfl : _ = next := by simpa using member
      exact ⟨seed, inside, i + 1, by rw [Function.iterate_succ_apply']⟩
    · intro messageKey text' held
      obtain ⟨rfl, -⟩ : kdf.messageKey (kdf.nextKey^[i] seed) = messageKey ∧ text = text' := by
        simpa using held
      refine ⟨seed, i, inside, rfl, ?_⟩
      intro next member j position
      obtain rfl : _ = next := by simpa using member
      rw [← Function.iterate_succ_apply' kdf.nextKey] at position
      have := (kdf.iterate_inj (wf.drawn seed inside) (wf.drawn seed inside) position).2
      omega
  | use held => exact ⟨wf.drawn, wf.current, wf.saved, wf.held⟩
  | release => exact ⟨wf.drawn, wf.current, wf.saved, by simp⟩
  | save => exact ⟨wf.drawn, wf.current, wf.current, by simp⟩
  | crash back restored =>
    refine ⟨wf.drawn, ?_, wf.saved, by simp⟩
    rcases restored with rfl | rfl
    · exact wf.saved
    · intro key member
      simp at member

/-- What a use of a key leaves behind: the chain has passed its position, in
memory and, once saved, on disk, and no other text is held under the key. -/
def Passed (kdf : ChainKdf K) (e : Label K M) (s : SavedChain K M) : Prop :=
  ∀ key text, e = .used key text → ∃ seed i, Spent kdf s key seed i ∧
    (s.unsaved = false → Beyond kdf s.saved seed i) ∧
    ∀ text', s.held = some (key, text') → text' = text

theorem passed_established {s t : SavedChain K M} {e : Label K M} (wf : WellFormed kdf s)
    (taken : Step kdf s e t) : Passed kdf e t := by
  rintro key text rfl
  cases taken with
  | use held =>
    obtain ⟨seed, i, spent⟩ := wf.held key text held
    refine ⟨seed, i, spent, by simp, ?_⟩
    intro text' again
    rw [held] at again
    simpa using again.symm

theorem passed_kept {s t : SavedChain K M} {e f : Label K M} (wf : WellFormed kdf s)
    (passed : Passed kdf e s) (taken : Guarded (Step kdf) Safe s f t) : Passed kdf e t := by
  intro key text named
  obtain ⟨seed, i, ⟨inside, rfl, beyond⟩, onDisk, one⟩ := passed key text named
  have drawn := wf.drawn seed inside
  obtain ⟨allowed, taken⟩ := taken
  cases taken with
  | skip => exact ⟨seed, i, ⟨inside, rfl, beyond⟩, onDisk, one⟩
  | start empty fresh_drawn fresh =>
    exact ⟨seed, i, ⟨List.mem_cons_of_mem _ inside, rfl,
      beyond_of_fresh fresh_drawn drawn fresh inside i⟩, onDisk, one⟩
  | @advance chainKey newText current =>
    rw [current] at beyond
    refine ⟨seed, i, ⟨inside, rfl, beyond.advance drawn⟩, onDisk, ?_⟩
    -- The key just derived sits at the old chain key, which is behind position `i`.
    intro text' held
    simp only [Option.some.injEq, Prod.mk.injEq] at held
    have := beyond chainKey rfl i (kdf.messageKey_injective held.1)
    omega
  | use held => exact ⟨seed, i, ⟨inside, rfl, beyond⟩, by simp, one⟩
  | release => exact ⟨seed, i, ⟨inside, rfl, beyond⟩, onDisk, by simp⟩
  | save => exact ⟨seed, i, ⟨inside, rfl, beyond⟩, fun _ => beyond, by simp⟩
  | crash back restored =>
    have saved := onDisk allowed
    refine ⟨seed, i, ⟨inside, rfl, ?_⟩, onDisk, by simp⟩
    rcases restored with rfl | rfl
    · exact saved
    · exact beyond_none seed i

theorem passed_related {s t : SavedChain K M} {e f : Label K M} (passed : Passed kdf e s)
    (taken : Step kdf s f t) : UsedOnce e f := by
  rintro key text text' rfl rfl
  cases taken with
  | use held =>
    obtain ⟨seed, i, -, -, one⟩ := passed key text rfl
    exact (one text' held).symm

/-- No key is used for two texts in a run that never crashes with a use unsaved. -/
theorem used_once {s t : SavedChain K M} {es : List (Label K M)} (wf : WellFormed kdf s)
    (run : Run (Guarded (Step kdf) Safe) s es t) : es.Pairwise UsedOnce :=
  run.pairwise (WellFormed kdf) (Passed kdf)
    (fun _ _ _ inv taken => step_wellFormed inv taken.2)
    (fun _ _ _ inv taken => passed_established inv taken.2)
    (fun _ _ _ _ inv fact taken => passed_kept inv fact taken)
    (fun e _ f _ _ fact taken => passed_related (e := e) (f := f) fact taken.2) wf

end SavedChain

end FinBit.Lib
