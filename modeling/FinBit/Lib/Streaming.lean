import FinBit.Lib.Bytes

/-! # Decoders of byte streams

A decoder keeps the octets that it has not used yet. It takes a unit from the front of them
whenever there is a whole one, and may give something out for it; it breaks where the octets cannot
be the start of any unit. A rule of what it takes is that octets behind the unit do not matter, and
from this it follows that it does not matter in which pieces the octets arrive.
-/

namespace FinBit.Lib

variable {σ ω ε : Type}

/-- What a decoder makes of its buffer. -/
inductive Taken (σ ω ε : Type)
  /-- There is no whole unit. -/
  | more
  | took (next : σ) (out : Option ω) (rest : Bytes)
  | broken (next : σ) (error : ε) (rest : Bytes)

structure StreamDecoder (σ ω ε : Type) where
  take : σ → Bytes → Taken σ ω ε
  take_lt : ∀ {s t : σ} {out : Option ω} {buffer rest : Bytes},
    take s buffer = .took t out rest → rest.length < buffer.length
  took_append : ∀ {s t : σ} {out : Option ω} {buffer rest : Bytes} (later : Bytes),
    take s buffer = .took t out rest → take s (buffer ++ later) = .took t out (rest ++ later)
  broken_append : ∀ {s t : σ} {e : ε} {buffer rest : Bytes} (later : Bytes),
    take s buffer = .broken t e rest → take s (buffer ++ later) = .broken t e (rest ++ later)

/-- A decoder at work. Once it is broken it stays so. -/
structure Incoming (σ ε : Type) where
  state : σ
  buffer : Bytes
  error : Option ε

/-- The answers to a call for the next output. -/
inductive Popped (ω ε : Type)
  | needMore
  | ready (out : ω)
  | error (error : ε)

namespace Incoming

def fresh (s : σ) : Incoming σ ε :=
  ⟨s, [], none⟩

def feed (s : Incoming σ ε) (octets : Bytes) : Incoming σ ε :=
  if s.error.isSome then s else { s with buffer := s.buffer ++ octets }

section

variable (D : StreamDecoder σ ω ε)

/-- Units are taken up to the first output. -/
def pop (s : Incoming σ ε) : Incoming σ ε × Popped ω ε :=
  match s.error with
  | some e => (s, .error e)
  | none =>
    match _taken : D.take s.state s.buffer with
    | .more => (s, .needMore)
    | .broken next e rest => (⟨next, rest, some e⟩, .error e)
    | .took next (some out) rest => ({ s with state := next, buffer := rest }, .ready out)
    | .took next none rest => pop { s with state := next, buffer := rest }
termination_by s.buffer.length
decreasing_by exact D.take_lt _taken

/-- Outputs are popped until there is none. -/
def drain (s : Incoming σ ε) : Incoming σ ε × List ω :=
  match s.error with
  | some _ => (s, [])
  | none =>
    match _taken : D.take s.state s.buffer with
    | .more => (s, [])
    | .broken next e rest => (⟨next, rest, some e⟩, [])
    | .took next out rest =>
      let (t, outs) := drain { s with state := next, buffer := rest }
      (t, out.toList ++ outs)
termination_by s.buffer.length
decreasing_by exact D.take_lt _taken

/-- Octets arrive in pieces, and outputs are popped after each. -/
def receive (s : Incoming σ ε) : List Bytes → Incoming σ ε × List ω
  | [] => (s, [])
  | piece :: pieces =>
    let (t, outs) := (s.feed piece).drain D
    let (u, later) := receive t pieces
    (u, outs ++ later)

end

variable {D : StreamDecoder σ ω ε}

/-! ### One call, by what is taken -/

theorem pop_broken {s : Incoming σ ε} {e : ε} (broken : s.error = some e) :
    s.pop D = (s, .error e) := by
  rw [pop, broken]

theorem pop_more {s : Incoming σ ε} (sound : s.error = none) (taken : D.take s.state s.buffer = .more) :
    s.pop D = (s, .needMore) := by
  rw [pop, sound]
  dsimp only
  split <;> simp_all

theorem pop_breaks {s : Incoming σ ε} {next : σ} {e : ε} {rest : Bytes} (sound : s.error = none)
    (taken : D.take s.state s.buffer = .broken next e rest) :
    s.pop D = (⟨next, rest, some e⟩, .error e) := by
  rw [pop, sound]
  dsimp only
  split <;> simp_all

theorem pop_ready {s : Incoming σ ε} {next : σ} {rest : Bytes} {out : ω} (sound : s.error = none)
    (taken : D.take s.state s.buffer = .took next (some out) rest) :
    s.pop D = (⟨next, rest, none⟩, .ready out) := by
  rw [pop, sound]
  dsimp only
  split <;> simp_all

theorem pop_skips {s : Incoming σ ε} {next : σ} {rest : Bytes} (sound : s.error = none)
    (taken : D.take s.state s.buffer = .took next none rest) :
    s.pop D = pop D ⟨next, rest, none⟩ := by
  rw [pop, sound]
  dsimp only
  split <;> simp_all

theorem drain_broken {s : Incoming σ ε} {e : ε} (broken : s.error = some e) : s.drain D = (s, []) := by
  rw [drain, broken]

theorem drain_more {s : Incoming σ ε} (sound : s.error = none)
    (taken : D.take s.state s.buffer = .more) : s.drain D = (s, []) := by
  rw [drain, sound]
  dsimp only
  split <;> simp_all

theorem drain_breaks {s : Incoming σ ε} {next : σ} {e : ε} {rest : Bytes} (sound : s.error = none)
    (taken : D.take s.state s.buffer = .broken next e rest) :
    s.drain D = (⟨next, rest, some e⟩, []) := by
  rw [drain, sound]
  dsimp only
  split <;> simp_all

theorem drain_took {s : Incoming σ ε} {next : σ} {rest : Bytes} {out : Option ω}
    (sound : s.error = none) (taken : D.take s.state s.buffer = .took next out rest) :
    s.drain D = ((drain D ⟨next, rest, none⟩).1, out.toList ++ (drain D ⟨next, rest, none⟩).2) := by
  rw [drain, sound]
  dsimp only
  split <;> simp_all

/-- To drain is to pop as long as there are outputs. -/
theorem drain_pop (s : Incoming σ ε) : s.drain D =
    match s.pop D with
    | (t, .ready out) => ((t.drain D).1, out :: (t.drain D).2)
    | (t, _) => (t, []) := by
  induction size : s.buffer.length using Nat.strongRecOn generalizing s with
  | _ n ih =>
    cases sound : s.error with
    | some e => rw [drain_broken sound, pop_broken sound]
    | none =>
      cases taken : D.take s.state s.buffer with
      | more => rw [drain_more sound taken, pop_more sound taken]
      | broken next e rest => rw [drain_breaks sound taken, pop_breaks sound taken]
      | took next out rest =>
        rw [drain_took sound taken]
        cases out with
        | some out =>
          rw [pop_ready sound taken]
          rfl
        | none =>
          rw [pop_skips sound taken, Option.toList_none, List.nil_append]
          exact ih rest.length (size ▸ D.take_lt taken) ⟨next, rest, none⟩ rfl

/-- After draining there is no output left. -/
theorem drain_drain (s : Incoming σ ε) : (s.drain D).1.drain D = ((s.drain D).1, []) := by
  induction size : s.buffer.length using Nat.strongRecOn generalizing s with
  | _ n ih =>
    cases sound : s.error with
    | some e => rw [drain_broken sound, drain_broken sound]
    | none =>
      cases taken : D.take s.state s.buffer with
      | more => rw [drain_more sound taken, drain_more sound taken]
      | broken next e rest =>
        rw [drain_breaks sound taken]
        exact drain_broken rfl
      | took next out rest =>
        rw [drain_took sound taken]
        exact ih rest.length (size ▸ D.take_lt taken) ⟨next, rest, none⟩ rfl

/-! ### Pieces -/

/-- The same decoder, or broken by the same error. What a broken decoder has kept is of no account. -/
def Alike (s t : Incoming σ ε) : Prop :=
  s = t ∨ ∃ e, s.error = some e ∧ t.error = some e

namespace Alike

variable {s t u : Incoming σ ε}

theorem refl (s : Incoming σ ε) : Alike s s :=
  .inl rfl

theorem symm (alike : Alike s t) : Alike t s := by
  obtain rfl | ⟨e, left, right⟩ := alike
  · exact .refl s
  · exact .inr ⟨e, right, left⟩

theorem trans (first : Alike s t) (second : Alike t u) : Alike s u := by
  obtain rfl | ⟨e, left, middle⟩ := first
  · exact second
  obtain rfl | ⟨e', middle', right⟩ := second
  · exact .inr ⟨e, left, middle⟩
  · obtain rfl : e = e' := Option.some.inj (middle.symm.trans middle')
    exact .inr ⟨e, left, right⟩

theorem error (alike : Alike s t) : s.error = t.error := by
  obtain rfl | ⟨e, left, right⟩ := alike
  · rfl
  · rw [left, right]

end Alike

theorem feed_nil (s : Incoming σ ε) : s.feed [] = s := by
  simp [feed]

theorem feed_feed (s : Incoming σ ε) (first second : Bytes) :
    (s.feed first).feed second = s.feed (first ++ second) := by
  cases broken : s.error <;> simp [feed, broken]

/-- What is drained before more octets come is drained first of all if they have come. -/
theorem drain_feed (s : Incoming σ ε) (later : Bytes) :
    Alike ((s.feed later).drain D).1 (((s.drain D).1.feed later).drain D).1 ∧
    ((s.feed later).drain D).2 =
      (s.drain D).2 ++ (((s.drain D).1.feed later).drain D).2 := by
  induction size : s.buffer.length using Nat.strongRecOn generalizing s with
  | _ n ih =>
    cases sound : s.error with
    | some e =>
      have kept : s.feed later = s := by simp [feed, sound]
      rw [drain_broken sound, kept, drain_broken sound]
      exact ⟨.refl s, rfl⟩
    | none =>
      have grown : s.feed later = ⟨s.state, s.buffer ++ later, none⟩ := by simp [feed, sound]
      cases taken : D.take s.state s.buffer with
      | more =>
        rw [drain_more sound taken]
        exact ⟨.refl _, rfl⟩
      | broken next e rest =>
        -- the octets that come later are kept by one of them and not by the other
        have kept : feed (⟨next, rest, some e⟩ : Incoming σ ε) later = ⟨next, rest, some e⟩ := rfl
        rw [drain_breaks sound taken, grown, drain_breaks rfl (D.broken_append later taken), kept,
          drain_broken rfl]
        exact ⟨.inr ⟨e, rfl, rfl⟩, rfl⟩
      | took next out rest =>
        obtain ⟨alike, outs⟩ := ih rest.length (size ▸ D.take_lt taken) ⟨next, rest, none⟩ rfl
        have rest_grown : feed (⟨next, rest, none⟩ : Incoming σ ε) later =
            ⟨next, rest ++ later, none⟩ := rfl
        rw [rest_grown] at alike outs
        rw [drain_took sound taken, grown, drain_took rfl (D.took_append later taken), outs,
          List.append_assoc]
        exact ⟨alike, rfl⟩

/-- Octets that arrive in pieces give what they give at once. -/
theorem receive_flatten {s : Incoming σ ε} (idle : s.drain D = (s, [])) (pieces : List Bytes) :
    Alike (s.receive D pieces).1 ((s.feed pieces.flatten).drain D).1 ∧
      (s.receive D pieces).2 = ((s.feed pieces.flatten).drain D).2 := by
  induction pieces generalizing s with
  | nil =>
    rw [List.flatten_nil, feed_nil, idle]
    exact ⟨.refl s, rfl⟩
  | cons piece pieces ih =>
    obtain ⟨alike, outs⟩ := ih (s.feed piece).drain_drain
    obtain ⟨alike', outs'⟩ := (s.feed piece).drain_feed (D := D) pieces.flatten
    rw [feed_feed] at alike' outs'
    rw [List.flatten_cons]
    refine ⟨alike.trans alike'.symm, ?_⟩
    rw [outs', ← outs]
    rfl

/-- It does not matter how a byte stream is cut. -/
theorem receive_eq {s : Incoming σ ε} (idle : s.drain D = (s, [])) {pieces pieces' : List Bytes}
    (same : pieces.flatten = pieces'.flatten) :
    (s.receive D pieces).2 = (s.receive D pieces').2 ∧
      (s.receive D pieces).1.error = (s.receive D pieces').1.error := by
  obtain ⟨alike, outs⟩ := receive_flatten idle pieces
  obtain ⟨alike', outs'⟩ := receive_flatten idle pieces'
  rw [← same] at alike' outs'
  exact ⟨outs.trans outs'.symm, (alike.trans alike'.symm).error⟩

/-! ### Encoded units -/

/-- Units that are taken one after the other, whatever follows them. -/
inductive Takes (D : StreamDecoder σ ω ε) {υ : Type} (encode : υ → Bytes) :
    σ → List υ → List ω → σ → Prop
  | nil (s : σ) : Takes D encode s [] [] s
  | cons {s t u : σ} {unit : υ} {units : List υ} {out : Option ω} {outs : List ω}
      (takes : ∀ rest, D.take s (encode unit ++ rest) = .took t out rest)
      (others : Takes D encode t units outs u) :
      Takes D encode s (unit :: units) (out.toList ++ outs) u

theorem Takes.append {υ : Type} {encode : υ → Bytes} {s t u : σ} {units others : List υ}
    {outs later : List ω} (first : Takes D encode s units outs t)
    (second : Takes D encode t others later u) :
    Takes D encode s (units ++ others) (outs ++ later) u := by
  induction first with
  | nil s => exact second
  | cons takes _ ih =>
    rw [List.append_assoc]
    exact .cons takes (ih second)

theorem Takes.drain {υ : Type} {encode : υ → Bytes} {s t : σ} {units : List υ} {outs : List ω}
    (takes : Takes D encode s units outs t) (rest : Bytes) :
    drain D ⟨s, units.flatMap encode ++ rest, none⟩ =
      ((drain D ⟨t, rest, none⟩).1, outs ++ (drain D ⟨t, rest, none⟩).2) := by
  induction takes with
  | nil s => rfl
  | cons first _ ih =>
    rw [List.flatMap_cons, List.append_assoc, drain_took rfl (first _), ih, List.append_assoc]

/-! ### Units that may be too large -/

/-- The outputs of the first octets are the first outputs. -/
theorem drain_prefix {s : Incoming σ ε} (octets later : Bytes) :
    ((s.feed octets).drain D).2 <+: ((s.feed (octets ++ later)).drain D).2 := by
  have outs := ((s.feed octets).drain_feed (D := D) later).2
  rw [feed_feed] at outs
  rw [outs]
  exact List.prefix_append _ _

/-- Where one unit in the same state is taken and another breaks the decoder, what comes out are the
units before the first that breaks it. -/
theorem drain_takeWhile {υ : Type} (encode : υ → Bytes) (out : υ → ω) (fits : υ → Bool) {s : σ}
    (idle : (drain D ⟨s, [], none⟩).2 = []) {units : List υ}
    (takes : ∀ unit ∈ units, fits unit = true →
      ∀ rest, D.take s (encode unit ++ rest) = .took s (some (out unit)) rest)
    (breaks : ∀ unit ∈ units, fits unit = false →
      ∀ rest, ∃ t e left, D.take s (encode unit ++ rest) = .broken t e left) :
    (drain D ⟨s, units.flatMap encode, none⟩).2 = (units.takeWhile fits).map out := by
  induction units with
  | nil => exact idle
  | cons unit units ih =>
    obtain ⟨takes_first, takes⟩ := List.forall_mem_cons.mp takes
    obtain ⟨breaks_first, breaks⟩ := List.forall_mem_cons.mp breaks
    rw [List.flatMap_cons]
    cases fit : fits unit with
    | true =>
      rw [drain_took rfl (takes_first fit _), List.takeWhile_cons_of_pos fit, ih takes breaks]
      rfl
    | false =>
      obtain ⟨t, e, left, broken⟩ := breaks_first fit (units.flatMap encode)
      rw [drain_breaks rfl broken, List.takeWhile_cons_of_neg (by simp [fit])]
      rfl

end Incoming

end FinBit.Lib
