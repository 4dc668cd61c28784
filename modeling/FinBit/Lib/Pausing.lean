import FinBit.Lib.Streaming

/-! # Readers that pause

A reader takes the outputs of a decoder as long as they are frames, and pauses behind one that is
not, until more octets arrive. What is behind such a stop is taken with a later piece than the stop
itself, so that how far the reader comes depends on where the pieces end.
-/

namespace FinBit.Lib

variable {σ ω ε β : Type}

/-! ### Outputs one after the other -/

namespace Pausing

section

variable (frame : ω → Option β)

/-- The frames up to the first stop, and what is behind it. -/
def served : List ω → List β × List ω
  | [] => ([], [])
  | out :: outs =>
    match frame out with
    | none => ([], outs)
    | some f => (f :: (served outs).1, (served outs).2)

/-- The frames that are taken when outputs become available bit by bit. -/
def paused (waiting : List ω) : List (List ω) → List β
  | [] => []
  | new :: later =>
    (served frame (waiting ++ new)).1 ++ paused (served frame (waiting ++ new)).2 later

/-- How many outputs there are after each arrival. -/
def ends (n : Nat) : List (List ω) → List Nat
  | [] => []
  | new :: later => (n + new.length) :: ends (n + new.length) later

def isStop (out : ω) : Bool := (frame out).isNone

/-- More arrivals come behind each stop before a place than there are stops from it up to the
place. -/
def Reached (outs : List ω) (ends : List Nat) (place : Nat) : Prop :=
  ∀ k ≤ place, (k = place ∨ (outs[k]?.any (isStop frame)) = true) →
    ((outs.drop k).take (place - k)).countP (isStop frame) < ends.countP (k < ·)

variable {frame}

/-- There is a stop, or everything is served. -/
theorem served_cases (ready : List ω) :
    ((∀ out ∈ ready, isStop frame out = false) ∧
        served frame ready = (ready.filterMap frame, [])) ∨
      ∃ before out after, ready = before ++ out :: after ∧
        (∀ out ∈ before, isStop frame out = false) ∧ isStop frame out = true ∧
        served frame ready = (before.filterMap frame, after) := by
  induction ready with
  | nil => exact .inl ⟨nofun, rfl⟩
  | cons out outs ih =>
    cases framed : frame out with
    | none =>
      refine .inr ⟨[], out, outs, rfl, nofun, ?_, ?_⟩
      · rw [isStop, framed]
        rfl
      · rw [served, framed]
        rfl
    | some f =>
      have goes_on : isStop frame out = false := by
        rw [isStop, framed]
        rfl
      have serves : served frame (out :: outs) =
          (f :: (served frame outs).1, (served frame outs).2) := by
        rw [served, framed]
      rw [serves]
      obtain ⟨frames, all⟩ | ⟨before, stop, after, rfl, frames, stops, upTo⟩ := ih
      · refine .inl ⟨List.forall_mem_cons.mpr ⟨goes_on, frames⟩, ?_⟩
        rw [all, List.filterMap_cons_some framed]
      · refine .inr ⟨out :: before, stop, after, rfl,
          List.forall_mem_cons.mpr ⟨goes_on, frames⟩, stops, ?_⟩
        rw [upTo, List.filterMap_cons_some framed]

theorem ends_add (m n : Nat) (news : List (List ω)) :
    ends (m + n) news = (ends n news).map (m + ·) := by
  induction news generalizing n with
  | nil => rfl
  | cons new later ih =>
    rw [ends, ends, List.map_cons, Nat.add_assoc, ih]

theorem length_ends (n : Nat) (news : List (List ω)) : (ends n news).length = news.length := by
  induction news generalizing n with
  | nil => rfl
  | cons new later ih => rw [ends, List.length_cons, List.length_cons, ih]

theorem le_of_mem_ends {n e : Nat} {news : List (List ω)} (member : e ∈ ends n news) : n ≤ e := by
  induction news generalizing n with
  | nil => cases member
  | cons new later ih =>
    obtain rfl | later := List.mem_cons.mp member
    · exact Nat.le_add_right _ _
    · exact le_trans (Nat.le_add_right _ _) (ih later)

/-- Every arrival ends behind what there was before. -/
theorem countP_ends_of_lt {n k : Nat} (inside : k < n) (news : List (List ω)) :
    (ends n news).countP (k < ·) = news.length := by
  rw [← length_ends n news, List.countP_eq_length]
  intro e member
  exact decide_eq_true (lt_of_lt_of_le inside (le_of_mem_ends member))

theorem countP_ends_add (m n k : Nat) (news : List (List ω)) :
    (ends (m + n) news).countP (m + k < ·) = (ends n news).countP (k < ·) := by
  rw [ends_add, List.countP_map]
  refine List.countP_congr fun e _ => ?_
  simp

theorem reached_congr {outs : List ω} {ends ends' : List Nat}
    (same : ∀ k : Nat, ends.countP (k < ·) = ends'.countP (k < ·)) (place : Nat) :
    Reached frame outs ends place ↔ Reached frame outs ends' place := by
  simp only [Reached, same]

theorem countP_lt_cons (k e : Nat) (later : List Nat) :
    (e :: later).countP (k < ·) = (if k < e then 1 else 0) + later.countP (k < ·) := by
  rw [List.countP_cons]
  simp [Nat.add_comm]

/-- Stops are counted from the first one on. -/
theorem exists_first_stop (outs : List ω) (place : Nat) :
    ∃ k ≤ place, (k = place ∨ (outs[k]?.any (isStop frame)) = true) ∧
      (outs.take place).countP (isStop frame) =
        ((outs.drop k).take (place - k)).countP (isStop frame) := by
  induction outs generalizing place with
  | nil => exact ⟨place, le_rfl, .inl rfl, by simp⟩
  | cons out outs ih =>
    cases place with
    | zero => exact ⟨0, le_rfl, .inl rfl, rfl⟩
    | succ place =>
      cases stops : isStop frame out with
      | true => exact ⟨0, Nat.zero_le _, .inr stops, rfl⟩
      | false =>
        obtain ⟨k, before, which, same⟩ := ih place
        refine ⟨k + 1, Nat.succ_le_succ before, which.imp (congrArg (· + 1)) id, ?_⟩
        rw [List.take_succ_cons, List.countP_cons_of_neg (by simp [stops]), same,
          List.drop_succ_cons, Nat.add_sub_add_right]

/-- What is reached in front of a place does not matter behind it. -/
theorem countP_drop_append (front outs : List ω) (k place : Nat) :
    (((front ++ outs).drop (front.length + k)).take (front.length + place - (front.length + k))).countP
        (isStop frame) = ((outs.drop k).take (place - k)).countP (isStop frame) := by
  rw [← List.drop_drop, List.drop_left, Nat.add_sub_add_left]

theorem getElem?_frames {front : List ω} (frames : ∀ out ∈ front, isStop frame out = false)
    (rest : List ω) {k : Nat} (inside : k < front.length) :
    ((front ++ rest)[k]?.any (isStop frame)) = false := by
  rw [List.getElem?_append_left inside, List.getElem?_eq_getElem inside]
  exact frames _ (List.getElem_mem inside)

/-- Up to the first stop everything is reached. -/
theorem reached_front {front : List ω} (frames : ∀ out ∈ front, isStop frame out = false)
    (rest : List ω) {place e : Nat} (inside : place ≤ front.length) (behind : place < e)
    (later : List Nat) : Reached frame (front ++ rest) (e :: later) place := by
  rintro k before (rfl | stops)
  · rw [Nat.sub_self, List.take_zero, List.countP_nil, countP_lt_cons, if_pos behind]
    omega
  · obtain rfl | earlier := Nat.eq_or_lt_of_le before
    · rw [Nat.sub_self, List.take_zero, List.countP_nil, countP_lt_cons, if_pos behind]
      omega
    · rw [getElem?_frames frames rest (lt_of_lt_of_le earlier inside)] at stops
      cases stops

/-- Behind outputs that are all frames a place is reached as if they were not there. -/
theorem reached_behind_frames {front : List ω} (frames : ∀ out ∈ front, isStop frame out = false)
    (outs : List ω) (later : List (List ω)) (place : Nat) :
    Reached frame (front ++ outs) (front.length :: ends front.length later) (front.length + place) ↔
      Reached frame outs (ends 0 later) place := by
  have same (k : Nat) :
      (front.length :: ends front.length later).countP (front.length + k < ·) =
        (ends 0 later).countP (k < ·) := by
    rw [countP_lt_cons, if_neg (by omega), Nat.zero_add]
    exact countP_ends_add front.length 0 k later
  constructor
  · intro reached k before which
    have there := reached (front.length + k) (by omega) (which.imp (by omega) fun stops => by
      rwa [List.getElem?_append_right (by omega), Nat.add_sub_cancel_left])
    rwa [countP_drop_append, same] at there
  · intro reached k before which
    by_cases inside : k < front.length
    · -- there is no stop in front
      obtain rfl | stops := which
      · omega
      · rw [getElem?_frames frames outs inside] at stops
        cases stops
    · obtain ⟨k, rfl⟩ := Nat.exists_eq_add_of_le (Nat.le_of_not_lt inside)
      rw [countP_drop_append, same]
      refine reached k (by omega) (which.imp (by omega) fun stops => ?_)
      rwa [List.getElem?_append_right (by omega), Nat.add_sub_cancel_left] at stops

/-- Behind a stop a place is reached as if only what is behind the stop were there, by the arrivals
that come later. -/
theorem reached_behind_stop {before after : List ω} {stop : ω}
    (frames : ∀ out ∈ before, isStop frame out = false) (stops : isStop frame stop = true)
    (later : List (List ω)) (place : Nat) :
    Reached frame (before ++ stop :: (after ++ later.flatten))
        ((before.length + 1 + after.length) :: ends (before.length + 1 + after.length) later)
        (before.length + 1 + place) ↔
      Reached frame (after ++ later.flatten) (ends after.length later) place := by
  have front : before ++ stop :: (after ++ later.flatten) =
      (before ++ [stop]) ++ (after ++ later.flatten) := by simp
  have length : before.length + 1 = (before ++ [stop]).length := by simp
  have here : ((before ++ stop :: (after ++ later.flatten))[before.length]?.any (isStop frame)) =
      true := by simpa using stops
  have counted (k : Nat) :
      ((before.length + 1 + after.length) :: ends (before.length + 1 + after.length) later).countP
          (before.length + 1 + k < ·) =
        (if k < after.length then 1 else 0) + (ends after.length later).countP (k < ·) := by
    rw [countP_lt_cons, countP_ends_add]
    simp only [Nat.add_lt_add_iff_left]
  -- from the stop on there is one stop more
  have fromStop : (((before ++ stop :: (after ++ later.flatten)).drop before.length).take
        (before.length + 1 + place - before.length)).countP (isStop frame) =
      ((after ++ later.flatten).take place).countP (isStop frame) + 1 := by
    have next : before.length + 1 + place - before.length = place + 1 := by omega
    rw [List.drop_left, next, List.take_succ_cons, List.countP_cons_of_pos stops]
  have atStop :
      ((before.length + 1 + after.length) :: ends (before.length + 1 + after.length) later).countP
          (before.length < ·) = later.length + 1 := by
    rw [countP_lt_cons, if_pos (by omega), countP_ends_of_lt (by omega), Nat.add_comm]
  generalize after ++ later.flatten = outs at *
  constructor
  · intro reached k inside which
    have there := reached (before.length + 1 + k) (by omega) (which.imp (by omega) fun stops => by
      rwa [front, length, List.getElem?_append_right (by omega), Nat.add_sub_cancel_left])
    rw [counted, front, length, countP_drop_append] at there
    by_cases near : k < after.length
    · -- it is there with the stop, so that as many arrivals are left as after the stop
      have behind := reached before.length (by omega) (.inr here)
      rw [fromStop, atStop] at behind
      rw [countP_ends_of_lt near]
      have fewer : ((outs.drop k).take (place - k)).countP (isStop frame) ≤
          (outs.take place).countP (isStop frame) := by
        rw [← List.drop_take]
        exact (List.drop_sublist _ _).countP_le
      omega
    · rwa [if_neg near, Nat.zero_add] at there
  · intro reached k inside which
    by_cases within : k < before.length
    · obtain rfl | stops := which
      · omega
      · rw [getElem?_frames frames _ within] at stops
        cases stops
    obtain rfl | behind := Nat.eq_or_lt_of_le (Nat.le_of_not_lt within)
    · rw [fromStop, atStop]
      obtain ⟨first, inside, which, same⟩ := @exists_first_stop _ _ frame outs place
      have few := reached first inside which
      have most := (ends after.length later).countP_le_length (p := (first < ·))
      rw [length_ends] at most
      omega
    · have beyond : before.length + 1 ≤ k := behind
      obtain ⟨k, rfl⟩ := Nat.exists_eq_add_of_le beyond
      have there := reached k (by omega) (which.imp (by omega) fun stops => by
        rwa [front, length, List.getElem?_append_right (by omega), Nat.add_sub_cancel_left] at stops)
      rw [counted, front, length, countP_drop_append]
      omega

/-- The frames that are taken are those at the places that are reached. -/
theorem paused_eq (waiting : List ω) (news : List (List ω)) :
    ∃ taken, paused frame waiting news =
        ((waiting ++ news.flatten).take taken).filterMap frame ∧
      ∀ place, place < taken ↔
        Reached frame (waiting ++ news.flatten) (ends waiting.length news) place := by
  induction news generalizing waiting with
  | nil =>
    refine ⟨0, rfl, fun place => iff_of_false (Nat.not_lt_zero _) fun reached => ?_⟩
    exact Nat.not_lt_zero _ (reached place le_rfl (.inl rfl))
  | cons new later ih =>
    have whole : waiting ++ (new :: later).flatten = waiting ++ new ++ later.flatten := by simp
    have size : waiting.length + new.length = (waiting ++ new).length := List.length_append.symm
    rw [whole, paused, ends, size]
    generalize waiting ++ new = ready
    obtain ⟨frames, all⟩ | ⟨before, stop, after, rfl, frames, stops, upTo⟩ := served_cases ready
    · obtain ⟨taken, takes, reaches⟩ := ih []
      refine ⟨ready.length + taken, ?_, fun place => ?_⟩
      · rw [all, takes, List.take_length_add_append, List.filterMap_append, List.nil_append]
      · by_cases inside : place < ready.length
        · exact iff_of_true (by omega)
            (reached_front frames _ (Nat.le_of_lt inside) inside _)
        · obtain ⟨place, rfl⟩ := Nat.exists_eq_add_of_le (Nat.le_of_not_lt inside)
          rw [reached_behind_frames frames, Nat.add_lt_add_iff_left, reaches]
          rfl
    · obtain ⟨taken, takes, reaches⟩ := ih after
      have split : before ++ stop :: after ++ later.flatten =
          before ++ stop :: (after ++ later.flatten) := by simp
      have front : before ++ stop :: (after ++ later.flatten) =
          (before ++ [stop]) ++ (after ++ later.flatten) := by simp
      have length : (before ++ stop :: after).length = before.length + 1 + after.length := by
        rw [List.length_append, List.length_cons]
        omega
      rw [split, length]
      refine ⟨before.length + 1 + taken, ?_, fun place => ?_⟩
      · have taken_front : before.length + 1 + taken = (before ++ [stop]).length + taken := by simp
        have nothing : frame stop = none := Option.isNone_iff_eq_none.mp stops
        rw [front, taken_front, List.take_length_add_append, List.filterMap_append,
          List.filterMap_append, List.filterMap_cons_none nothing, List.filterMap_nil,
          List.append_nil, upTo, takes]
      · by_cases inside : place < before.length + 1
        · exact iff_of_true (by omega)
            (reached_front frames _ (Nat.le_of_lt_succ inside) (by omega) _)
        · obtain ⟨place, rfl⟩ := Nat.exists_eq_add_of_le (Nat.le_of_not_lt inside)
          rw [reached_behind_stop frames stops, Nat.add_lt_add_iff_left, reaches]

private theorem filterMap_take_eq_of_le (outs : List ω) {m n : Nat} (shorter : m ≤ n) :
    (outs.take m).filterMap frame = (outs.take n).filterMap frame ↔
      ∀ place, (outs[place]?.bind frame).isSome = true → place < n → place < m := by
  obtain ⟨more, rfl⟩ := Nat.exists_eq_add_of_le shorter
  rw [List.take_add, List.filterMap_append, List.self_eq_append_right, List.filterMap_eq_nil_iff]
  constructor
  · intro others place there inside
    by_contra behind
    obtain ⟨k, rfl⟩ := Nat.exists_eq_add_of_le (Nat.le_of_not_lt behind)
    obtain ⟨f, bound⟩ := Option.isSome_iff_exists.mp there
    obtain ⟨out, found, framed⟩ := Option.bind_eq_some_iff.mp bound
    have member : out ∈ (outs.drop m).take more := by
      rw [List.mem_iff_getElem?]
      exact ⟨k, by rw [List.getElem?_take_of_lt (by omega), List.getElem?_drop, found]⟩
    rw [others out member] at framed
    cases framed
  · intro all out member
    obtain ⟨k, found⟩ := List.mem_iff_getElem?.mp member
    rw [List.getElem?_take] at found
    split at found
    next inside =>
      rw [List.getElem?_drop] at found
      by_contra framed
      have there : (outs[m + k]?.bind frame).isSome = true := by
        rw [found]
        exact Option.isSome_iff_ne_none.mpr framed
      exact absurd (all (m + k) there (by omega)) (by omega)
    · cases found

/-- Two beginnings of a list have the same frames exactly when no frame is in one of them only. -/
theorem filterMap_take_eq_iff (outs : List ω) (m n : Nat) :
    (outs.take m).filterMap frame = (outs.take n).filterMap frame ↔
      ∀ place, (outs[place]?.bind frame).isSome = true → (place < m ↔ place < n) := by
  obtain shorter | longer := Nat.le_total m n
  · rw [filterMap_take_eq_of_le outs shorter]
    refine forall_congr' fun place => imp_congr_right fun _ => ?_
    exact ⟨fun within => ⟨fun less => less.trans_le shorter, within⟩, fun same => same.mpr⟩
  · rw [eq_comm, filterMap_take_eq_of_le outs longer]
    refine forall_congr' fun place => imp_congr_right fun _ => ?_
    exact ⟨fun within => ⟨within, fun less => less.trans_le longer⟩, fun same => same.mp⟩

end

end Pausing

/-! ### A decoder with pauses -/

namespace Incoming

open Pausing

section

variable (D : StreamDecoder σ ω ε)

theorem pop_lt {s t : Incoming σ ε} {out : ω} (popped : s.pop D = (t, .ready out)) :
    t.buffer.length < s.buffer.length := by
  induction size : s.buffer.length using Nat.strongRecOn generalizing s with
  | _ n ih =>
    cases sound : s.error with
    | some e =>
      rw [pop_broken sound] at popped
      cases popped
    | none =>
      cases taken : D.take s.state s.buffer with
      | more =>
        rw [pop_more sound taken] at popped
        cases popped
      | broken next e rest =>
        rw [pop_breaks sound taken] at popped
        cases popped
      | took next found rest =>
        have shorter : rest.length < n := size ▸ D.take_lt taken
        cases found with
        | some found =>
          rw [pop_ready sound taken] at popped
          cases popped
          exact shorter
        | none =>
          rw [pop_skips sound taken] at popped
          exact (ih rest.length shorter popped rfl).trans shorter

variable (frame : ω → Option β)

/-- Outputs are popped as long as they are frames. -/
def serve (s : Incoming σ ε) : Incoming σ ε × List β :=
  match _popped : s.pop D with
  | (t, .ready out) =>
    match frame out with
    | none => (t, [])
    | some f =>
      let (u, frames) := serve t
      (u, f :: frames)
  | (t, _) => (t, [])
termination_by s.buffer.length
decreasing_by exact pop_lt D _popped

/-- Octets arrive in pieces, and frames are taken after each. -/
def serveAll (s : Incoming σ ε) : List Bytes → Incoming σ ε × List β
  | [] => (s, [])
  | piece :: pieces =>
    let (t, frames) := (s.feed piece).serve D frame
    let (u, later) := serveAll t pieces
    (u, frames ++ later)

/-- The outputs that become available with each piece. -/
def arrivals (s : Incoming σ ε) : List Bytes → List (List ω)
  | [] => []
  | piece :: pieces => ((s.feed piece).drain D).2 :: arrivals ((s.feed piece).drain D).1 pieces

variable {D frame}

theorem serve_ready {s t : Incoming σ ε} {out : ω} (popped : s.pop D = (t, .ready out)) :
    s.serve D frame =
      match frame out with
      | none => (t, [])
      | some f => ((t.serve D frame).1, f :: (t.serve D frame).2) := by
  rw [serve]
  split
  next ready =>
    cases popped.symm.trans ready
    rfl
  next notReady same =>
    cases popped.symm.trans same
    exact absurd rfl (notReady out)

theorem serve_idle {s t : Incoming σ ε} {answer : Popped ω ε} (popped : s.pop D = (t, answer))
    (idle : ∀ out, answer ≠ .ready out) : s.serve D frame = (t, []) := by
  rw [serve]
  split
  next ready =>
    cases popped.symm.trans ready
    exact absurd rfl (idle _)
  next same =>
    cases popped.symm.trans same
    rfl

/-- What is served is the beginning of what would be drained, and draining goes on behind it. -/
theorem serve_spec (s : Incoming σ ε) :
    (s.serve D frame).2 = (served frame (s.drain D).2).1 ∧
      (s.serve D frame).1.drain D = ((s.drain D).1, (served frame (s.drain D).2).2) := by
  induction size : s.buffer.length using Nat.strongRecOn generalizing s with
  | _ n ih =>
    have draining := drain_pop (D := D) s
    have again := drain_drain (D := D) s
    cases popped : s.pop D with
    | mk t answer =>
      rw [popped] at draining
      cases answer with
      | ready out =>
        dsimp only at draining
        rw [serve_ready popped, draining, served]
        cases framed : frame out with
        | none => exact ⟨rfl, rfl⟩
        | some f =>
          obtain ⟨frames, rest⟩ := ih t.buffer.length (size ▸ pop_lt D popped) t rfl
          exact ⟨congrArg (f :: ·) frames, rest⟩
      | needMore =>
        -- nothing is ready, and draining does nothing either
        rw [serve_idle popped nofun]
        rw [draining] at again ⊢
        exact ⟨rfl, again⟩
      | error e =>
        rw [serve_idle popped nofun]
        rw [draining] at again ⊢
        exact ⟨rfl, again⟩

end

/-- A reader that takes everything drains. -/
theorem serve_some (D : StreamDecoder σ ω ε) (s : Incoming σ ε) : s.serve D some = s.drain D := by
  induction size : s.buffer.length using Nat.strongRecOn generalizing s with
  | _ n ih =>
    rw [drain_pop]
    cases popped : s.pop D with
    | mk t answer =>
      cases answer with
      | ready out =>
        rw [serve_ready popped]
        dsimp only
        rw [ih t.buffer.length (size ▸ pop_lt D popped) t rfl]
      | needMore => exact serve_idle popped nofun
      | error e => exact serve_idle popped nofun

/-- Where every output is a frame, to serve is to drain. -/
theorem serve_frames {D : StreamDecoder σ ω ε} {frame : ω → Option β} {s : Incoming σ ε}
    (frames : ∀ out ∈ (s.drain D).2, (frame out).isSome = true) :
    s.serve D frame = ((s.drain D).1, (s.drain D).2.filterMap frame) := by
  induction size : s.buffer.length using Nat.strongRecOn generalizing s with
  | _ n ih =>
    rw [drain_pop] at frames ⊢
    cases popped : s.pop D with
    | mk t answer =>
      cases answer with
      | ready out =>
        rw [popped] at frames
        obtain ⟨here, later⟩ := List.forall_mem_cons.mp frames
        obtain ⟨f, framed⟩ := Option.isSome_iff_exists.mp here
        rw [serve_ready popped, framed]
        dsimp only
        rw [ih t.buffer.length (size ▸ pop_lt D popped) later rfl, List.filterMap_cons_some framed]
      | needMore => exact serve_idle popped nofun
      | error e => exact serve_idle popped nofun

theorem serveAll_some (D : StreamDecoder σ ω ε) (s : Incoming σ ε) (pieces : List Bytes) :
    s.serveAll D some pieces = s.receive D pieces := by
  induction pieces generalizing s with
  | nil => rfl
  | cons piece pieces ih => simp only [serveAll, receive, serve_some, ih]

/-! ### The same reader by what becomes available -/

namespace Alike

variable {D : StreamDecoder σ ω ε} {s t : Incoming σ ε}

/-- Decoders that are alike make the same of what comes. -/
theorem drain_feed (alike : Alike s t) (piece : Bytes) :
    Alike ((s.feed piece).drain D).1 ((t.feed piece).drain D).1 ∧
      ((s.feed piece).drain D).2 = ((t.feed piece).drain D).2 := by
  obtain rfl | ⟨e, left, right⟩ := alike
  · exact ⟨.refl _, rfl⟩
  · have kept : s.feed piece = s := by simp [feed, left]
    have kept' : t.feed piece = t := by simp [feed, right]
    rw [kept, kept', drain_broken left, drain_broken right]
    exact ⟨.inr ⟨e, left, right⟩, rfl⟩

end Alike

section

variable {D : StreamDecoder σ ω ε} {frame : ω → Option β}

theorem serveAll_eq (s t : Incoming σ ε) (alike : Alike (s.drain D).1 t) (pieces : List Bytes) :
    (s.serveAll D frame pieces).2 = paused frame (s.drain D).2 (t.arrivals D pieces) := by
  induction pieces generalizing s t with
  | nil => rfl
  | cons piece pieces ih =>
    obtain ⟨fed, outs⟩ := Incoming.drain_feed (D := D) s piece
    obtain ⟨fed', outs'⟩ := alike.drain_feed (D := D) piece
    obtain ⟨frames, rest⟩ := @serve_spec σ ω ε β D frame (s.feed piece)
    have later := ih ((s.feed piece).serve D frame).1 ((t.feed piece).drain D).1
      (by rw [rest]; exact fed.trans fed')
    rw [rest, outs, outs'] at later
    rw [outs, outs'] at frames
    rw [arrivals, paused, ← later, ← frames]
    rfl

theorem flatten_arrivals (s : Incoming σ ε) (pieces : List Bytes) :
    (s.arrivals D pieces).flatten = (s.receive D pieces).2 := by
  induction pieces generalizing s with
  | nil => rfl
  | cons piece pieces ih =>
    rw [arrivals, List.flatten_cons, ih]
    rfl

/-- What a decoder makes of octets that come at once. -/
def outputs (D : StreamDecoder σ ω ε) (s : Incoming σ ε) (octets : Bytes) : List ω :=
  ((s.feed octets).drain D).2

/-- A decoder that is alike the one with the octets so far goes on as that one does. -/
theorem outputs_append {s t : Incoming σ ε} {octets : Bytes}
    (alike : Alike ((s.feed octets).drain D).1 t) (piece : Bytes) :
    Alike ((s.feed (octets ++ piece)).drain D).1 ((t.feed piece).drain D).1 ∧
      s.outputs D (octets ++ piece) = s.outputs D octets ++ ((t.feed piece).drain D).2 := by
  obtain ⟨fed, outs⟩ := Incoming.drain_feed (D := D) (s.feed octets) piece
  obtain ⟨fed', outs'⟩ := alike.drain_feed (D := D) piece
  rw [feed_feed] at fed outs
  exact ⟨fed.trans fed', by rw [outputs, outputs, outs, outs']⟩

/-- What there is after each arrival is what the octets up to there make. -/
theorem ends_arrivals (s t : Incoming σ ε) (taken : Bytes)
    (alike : Alike ((s.feed taken).drain D).1 t) (pieces : List Bytes) :
    ends (s.outputs D taken).length (t.arrivals D pieces) =
      pieces.inits.tail.map fun before => (s.outputs D (taken ++ before.flatten)).length := by
  induction pieces generalizing t taken with
  | nil => rfl
  | cons piece pieces ih =>
    obtain ⟨fed, outs⟩ := Incoming.drain_feed (D := D) (s.feed taken) piece
    obtain ⟨fed', outs'⟩ := alike.drain_feed (D := D) piece
    rw [feed_feed] at fed outs
    have grown : (s.outputs D taken).length + ((t.feed piece).drain D).2.length =
        (s.outputs D (taken ++ piece)).length := by
      rw [← outs', ← List.length_append, outputs, outputs, outs]
    have later := ih ((t.feed piece).drain D).1 (taken ++ piece) (fed.trans fed')
    rw [arrivals, ends, grown, later]
    cases pieces <;> simp [Function.comp_def]

/-- The pieces bring the reader to a place. -/
def Reaches (D : StreamDecoder σ ω ε) (frame : ω → Option β) (s : Incoming σ ε)
    (pieces : List Bytes) : Nat → Prop :=
  Reached frame (s.outputs D pieces.flatten)
    (pieces.inits.map fun before => (s.outputs D before.flatten).length)

/-- The frames that are taken are those at the places to which the pieces bring the reader. -/
theorem serveAll_taken {s : Incoming σ ε} (idle : s.drain D = (s, [])) (pieces : List Bytes) :
    ∃ taken, (s.serveAll D frame pieces).2 =
        ((s.outputs D pieces.flatten).take taken).filterMap frame ∧
      ∀ place, place < taken ↔ s.Reaches D frame pieces place := by
  have all : (s.arrivals D pieces).flatten = s.outputs D pieces.flatten := by
    rw [flatten_arrivals, (receive_flatten idle pieces).2, outputs]
  have nothing : s.outputs D [] = [] := by rw [outputs, feed_nil, idle]
  obtain ⟨taken, takes, reaches⟩ := @paused_eq _ _ frame [] (s.arrivals D pieces)
  rw [List.nil_append, all] at takes reaches
  refine ⟨taken, ?_, fun place => ?_⟩
  · rw [serveAll_eq s s (by rw [idle]; exact .refl s) pieces, idle, takes]
  · rw [reaches, Reaches]
    refine reached_congr (fun k => ?_) place
    have counted := ends_arrivals (D := D) s s [] (by rw [feed_nil, idle]; exact .refl s) pieces
    rw [nothing] at counted
    simp only [List.nil_append, List.length_nil] at counted
    rw [List.length_nil, counted]
    -- before the first piece there is nothing, which counts for no place
    cases pieces <;> simp [nothing]

end

end Incoming

end FinBit.Lib
