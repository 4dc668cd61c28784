import Mathlib.Data.List.Count
import Mathlib.Data.List.Nodup
import Mathlib.Order.MinMax
import Mathlib.Tactic.Common

/-! # Paging with a cursor

A long list is fetched in pages. An answer holds the first items behind a cursor and says whether
there are more; the next cursor is the greatest stamp that was received. Of the items with one stamp
that do not fit a page, the cursor passes those that are left.

Behind the items there may be a tail of others, all of them stamped before any cursor. It is sent
again and again, wherever a page has room for it.
-/

namespace FinBit.Lib.Paging

variable {α κ : Type} [LinearOrder κ] (stamp : α → κ)

/-- The greatest stamp that was received. -/
def cursor (since : κ) (received : List α) : κ :=
  ((received.map stamp).max?).getD since

/-- Asks until an answer is not truncated. -/
def collect (answer : κ → List α × Bool) : Nat → κ → List α → Option (List α)
  | 0, _, _ => none
  | fuel + 1, since, received =>
    let received := received ++ (answer since).1
    if (answer since).2 then collect answer fuel (cursor stamp since received) received
    else some received

def later (items : List α) (since : κ) : List α :=
  items.filter fun a => since < stamp a

/-- No page ends among the items of one stamp. -/
def Aligned (l : List α) (limit : Nat) : Prop :=
  ∀ a ∈ l, ∀ k, ¬((l.countP fun b => stamp b < stamp a) < k * limit ∧
    k * limit < l.countP fun b => stamp b ≤ stamp a)

/-- The first items behind a cursor, in their order, and the tail. -/
structure Pages (answer : κ → List α × Bool) (items tail : List α) (limit : Nat)
    (valid : κ → Prop) : Prop where
  room : 0 < limit
  distinct : items.Nodup
  stamps : ∀ a ∈ items, valid (stamp a)
  passed : ∀ a ∈ tail, ∀ since, valid since → stamp a < since
  answered : ∀ since, valid since → ∃ ordered rest : List α,
    ordered.Perm (later stamp items since) ∧ (ordered.Pairwise fun a b => stamp a ≤ stamp b) ∧
      rest.Perm tail ∧
      answer since = ((ordered ++ rest).take limit, decide (limit < (ordered ++ rest).length))

variable {stamp}

theorem cursor_eq {since : κ} {received : List α} {a : α} (listed : a ∈ received)
    (greatest : ∀ b ∈ received, stamp b ≤ stamp a) : cursor stamp since received = stamp a := by
  have top : (received.map stamp).max? = some (stamp a) := by
    rw [List.max?_eq_some_iff]
    refine ⟨List.mem_map_of_mem listed, ?_⟩
    intro s member
    obtain ⟨b, held, rfl⟩ := List.mem_map.mp member
    exact greatest b held
  rw [cursor, top, Option.getD_some]

theorem mem_later {items : List α} {since : κ} {a : α} :
    a ∈ later stamp items since ↔ a ∈ items ∧ since < stamp a := by
  rw [later, List.mem_filter, decide_eq_true_iff]

theorem filter_later {items : List α} {since next : κ} (forward : since ≤ next) :
    ((later stamp items since).filter fun a => next < stamp a) = later stamp items next := by
  rw [later, later, List.filter_filter]
  apply List.filter_congr
  intro a _
  by_cases after : next < stamp a
  · simp [after, forward.trans_lt after]
  · simp [after]

theorem length_later_lt {items : List α} {since : κ} {a : α} (listed : a ∈ later stamp items since) :
    (later stamp items (stamp a)).length < (later stamp items since).length := by
  rw [← filter_later (mem_later.mp listed).2.le, List.length_filter_lt_length_iff_exists]
  exact ⟨a, listed, by simp⟩

/-! ### Where pages end -/

section Aligned

variable {l l' front back : List α} {limit : Nat}

theorem Aligned.perm (same : l.Perm l') (aligned : Aligned stamp l limit) :
    Aligned stamp l' limit := by
  intro a listed k
  rw [← same.countP_eq, ← same.countP_eq]
  exact aligned a (same.mem_iff.mpr listed) k

/-- What fits one page. -/
theorem aligned_of_length_le (fits : l.length ≤ limit) : Aligned stamp l limit := by
  rintro a - k ⟨starts, ends⟩
  have some_page : 0 < k := Nat.pos_of_mul_pos_right (Nat.lt_of_le_of_lt (Nat.zero_le _) starts)
  have whole : limit ≤ k * limit := Nat.le_mul_of_pos_left limit some_page
  have counted : (l.countP fun b => stamp b ≤ stamp a) ≤ l.length := List.countP_le_length
  omega

/-- Where the items of the first page have all been passed, the rest is paged by itself. -/
theorem aligned_append_iff (apart : ∀ a ∈ front, ∀ b ∈ back, stamp a < stamp b)
    (page : front.length = limit) :
    Aligned stamp (front ++ back) limit ↔ Aligned stamp back limit := by
  -- all of the first page is counted with an item of the rest
  have shifted (b : α) (behind : b ∈ back) :
      ((front ++ back).countP fun x => stamp x < stamp b) =
          limit + back.countP (fun x => stamp x < stamp b) ∧
        ((front ++ back).countP fun x => stamp x ≤ stamp b) =
          limit + back.countP fun x => stamp x ≤ stamp b := by
    rw [List.countP_append, List.countP_append, ← page]
    constructor
    · rw [List.countP_eq_length.mpr fun a listed => decide_eq_true (apart a listed b behind)]
    · rw [List.countP_eq_length.mpr fun a listed => decide_eq_true (apart a listed b behind).le]
  constructor
  · intro aligned b behind k
    have one_more := aligned b (List.mem_append_right front behind) (k + 1)
    rw [(shifted b behind).1, (shifted b behind).2, Nat.succ_mul] at one_more
    omega
  · intro aligned a listed k
    obtain first | behind := List.mem_append.mp listed
    · -- items of the first page are not counted with those behind it
      have fits : Aligned stamp front limit := aligned_of_length_le page.le
      have none_behind : (back.countP fun x => stamp x ≤ stamp a) = 0 := by
        rw [List.countP_eq_zero]
        intro b behind
        simpa using apart a first b behind
      have alone := fits a first k
      rw [List.countP_append, List.countP_append, none_behind]
      omega
    · rw [(shifted a behind).1, (shifted a behind).2]
      cases k with
      | zero => omega
      | succ k =>
        have one_less := aligned a behind k
        rw [Nat.succ_mul]
        omega

theorem aligned_split (sorted : (front ++ back).Pairwise fun a b => stamp a ≤ stamp b)
    (page : front.length = limit) :
    Aligned stamp (front ++ back) limit ↔
      (∀ a ∈ front, ∀ b ∈ back, stamp a < stamp b) ∧ Aligned stamp back limit := by
  obtain ⟨-, rising, ordered⟩ := List.pairwise_append.mp sorted
  constructor
  · intro aligned
    have apart : ∀ a ∈ front, ∀ b ∈ back, stamp a < stamp b := by
      intro a first b behind
      by_contra tied
      have same : stamp b = stamp a := le_antisymm (not_lt.mp tied) (ordered a first b behind)
      refine aligned b (List.mem_append_right front behind) 1 ⟨?_, ?_⟩
      · -- one item of the first page has the same stamp
        have none_behind : (back.countP fun x => stamp x < stamp b) = 0 := by
          rw [List.countP_eq_zero]
          intro x later
          have := ordered a first x later
          simpa [same] using this
        have fewer : (front.countP fun x => stamp x < stamp b) < front.length := by
          refine Nat.lt_of_le_of_ne List.countP_le_length fun all => ?_
          have less := List.countP_eq_length.mp all a first
          rw [same] at less
          exact lt_irrefl _ (of_decide_eq_true less)
        rw [List.countP_append, none_behind]
        omega
      · have before : (front.countP fun x => stamp x ≤ stamp b) = front.length :=
          List.countP_eq_length.mpr fun x listed => decide_eq_true (ordered x listed b behind)
        have itself : 0 < back.countP fun x => stamp x ≤ stamp b :=
          List.countP_pos_iff.mpr ⟨b, behind, decide_eq_true le_rfl⟩
        rw [List.countP_append, before]
        omega
    exact ⟨apart, (aligned_append_iff apart page).mp aligned⟩
  · rintro ⟨apart, aligned⟩
    exact (aligned_append_iff apart page).mpr aligned

end Aligned

/-! ### What has been received at the end -/

section Run

variable {answer : κ → List α × Bool} {items tail : List α} {limit : Nat} {valid : κ → Prop}

/-- Where a requester stands. Its cursor is the greatest stamp it has received if an answer may hold
nothing but the tail. -/
structure Standing (stamp : α → κ) (items tail : List α) (limit : Nat) (valid : κ → Prop) (since : κ)
    (received : List α) : Prop where
  valid : valid since
  behind : ∀ a ∈ received, stamp a ≤ since
  reached : tail.length ≤ limit ∨ later stamp items since ≠ [] ∨ ∃ a ∈ received, stamp a = since

theorem Standing.start {since : κ} (started : valid since)
    (reached : tail.length ≤ limit ∨ later stamp items since ≠ []) :
    Standing stamp items tail limit valid since [] :=
  ⟨started, nofun, reached.imp_right .inl⟩

/-- What one answer brings if it is truncated: the page, and the cursor after it. -/
structure Advances (stamp : α → κ) (items tail : List α) (limit : Nat) (valid : κ → Prop)
    (since next : κ) (received ordered : List α) : Prop where
  standing : Standing stamp items tail limit valid next received
  shown : ordered.take limit ⊆ received
  forward : since ≤ next
  moves : ordered ≠ [] → since < next ∧ (∃ a ∈ ordered.take limit, stamp a = next) ∧
    ∀ a ∈ ordered.take limit, stamp a ≤ next

variable {since : κ} {received : List α}

theorem exists_greatest (stamp : α → κ) {l : List α} (some_item : l ≠ []) :
    ∃ a ∈ l, ∀ b ∈ l, stamp b ≤ stamp a := by
  obtain ⟨s, top⟩ : ∃ s, (l.map stamp).max? = some s := by
    rw [← Option.isSome_iff_exists, Option.isSome_iff_ne_none, ne_eq, List.max?_eq_none_iff,
      List.map_eq_nil_iff]
    exact some_item
  obtain ⟨listed, greatest⟩ := List.max?_eq_some_iff.mp top
  obtain ⟨a, member, rfl⟩ := List.mem_map.mp listed
  exact ⟨a, member, fun b other => greatest _ (List.mem_map_of_mem other)⟩

theorem Pages.advances (pages : Pages stamp answer items tail limit valid)
    (standing : Standing stamp items tail limit valid since received) {ordered rest : List α}
    (same : ordered.Perm (later stamp items since)) (tailed : rest.Perm tail)
    (truncated : limit < (ordered ++ rest).length) :
    let received' := received ++ (ordered ++ rest).take limit
    Advances stamp items tail limit valid since (cursor stamp since received') received' ordered := by
  intro received'
  have shown : ordered.take limit ⊆ received' := by
    intro a listed
    refine List.mem_append_right _ ?_
    rw [List.take_append]
    exact List.mem_append_left _ listed
  -- apart from the items behind the cursor, nothing is stamped after it
  have split : ∀ a ∈ received', a ∈ ordered.take limit ∨ stamp a ≤ since := by
    intro a listed
    obtain before | new := List.mem_append.mp listed
    · exact .inr (standing.behind a before)
    · rw [List.take_append] at new
      obtain first | last := List.mem_append.mp new
      · exact .inl first
      · have in_tail := tailed.mem_iff.mp (List.mem_of_mem_take last)
        exact .inr (pages.passed a in_tail since standing.valid).le
  by_cases finished : ordered = []
  · -- nothing but the tail is left, and it does not move the cursor
    have below : ∀ b ∈ received', stamp b ≤ since := by
      intro b listed
      obtain first | lower := split b listed
      · rw [finished, List.take_nil] at first
        cases first
      · exact lower
    obtain ⟨a, held, rfl⟩ : ∃ a ∈ received, stamp a = since := by
      obtain fits | more | held := standing.reached
      · rw [finished, List.nil_append, tailed.length_eq] at truncated
        exact absurd fits (Nat.not_le.mpr truncated)
      · rw [finished] at same
        exact absurd same.symm.eq_nil more
      · exact held
    have still : cursor stamp (stamp a) received' = stamp a :=
      cursor_eq (List.mem_append_left _ held) below
    rw [still]
    exact ⟨⟨standing.valid, below, .inr (.inr ⟨a, List.mem_append_left _ held, rfl⟩)⟩, shown, le_rfl,
      fun more => absurd finished more⟩
  · have page : ordered.take limit ≠ [] := by
      intro none
      obtain zero | empty := List.take_eq_nil_iff.mp none
      · exact absurd pages.room (Nat.not_lt.mpr zero.le)
      · exact finished empty
    obtain ⟨a, first, greatest⟩ := exists_greatest stamp page
    obtain ⟨item, after⟩ := mem_later.mp (same.mem_iff.mp (List.mem_of_mem_take first))
    have below : ∀ b ∈ received', stamp b ≤ stamp a := by
      intro b listed
      obtain first | lower := split b listed
      · exact greatest b first
      · exact lower.trans after.le
    have moved : cursor stamp since received' = stamp a := cursor_eq (shown first) below
    rw [moved]
    exact ⟨⟨pages.stamps a item, below, .inr (.inr ⟨a, shown first, rfl⟩)⟩, shown, after.le,
      fun _ => ⟨after, ⟨a, first, rfl⟩, greatest⟩⟩

/-- Where the page does not end among the items of one stamp, its rest is what comes next. -/
theorem Advances.remaining {next : κ} {received ordered : List α}
    (advances : Advances stamp items tail limit valid since next received ordered)
    (same : ordered.Perm (later stamp items since)) (more : ordered ≠ [])
    (apart : ∀ a ∈ ordered.take limit, ∀ b ∈ ordered.drop limit, stamp a < stamp b) :
    (ordered.drop limit).Perm (later stamp items next) := by
  obtain ⟨-, ⟨a, first, at_cursor⟩, greatest⟩ := advances.moves more
  rw [← filter_later advances.forward]
  have passed : (ordered.filter fun x => next < stamp x) = ordered.drop limit := by
    conv_lhs => rw [← List.take_append_drop limit ordered]
    rw [List.filter_append, List.filter_eq_nil_iff.mpr, List.filter_eq_self.mpr, List.nil_append]
    · intro b behind
      rw [← at_cursor]
      exact decide_eq_true (apart a first b behind)
    · intro b front
      simpa using greatest b front
  rw [← passed]
  exact same.filter _

/-- One round: the items behind the cursor in their order, and what the requester does next. -/
theorem Pages.round (pages : Pages stamp answer items tail limit valid)
    (standing : Standing stamp items tail limit valid since received) (fuel : Nat) :
    ∃ ordered rest : List α, ordered.Perm (later stamp items since) ∧
      (ordered.Pairwise fun a b => stamp a ≤ stamp b) ∧ rest.Perm tail ∧
      let received' := received ++ (ordered ++ rest).take limit
      let next := cursor stamp since received'
      if limit < (ordered ++ rest).length then
        collect stamp answer (fuel + 1) since received = collect stamp answer fuel next received' ∧
          Advances stamp items tail limit valid since next received' ordered
      else collect stamp answer (fuel + 1) since received = some received' := by
  obtain ⟨ordered, rest, same, sorted, tailed, answered⟩ := pages.answered since standing.valid
  refine ⟨ordered, rest, same, sorted, tailed, ?_⟩
  intro received' next
  rw [collect, answered]
  by_cases truncated : limit < (ordered ++ rest).length
  · rw [if_pos truncated]
    simp only [truncated, decide_true, if_true]
    exact ⟨rfl, pages.advances standing same tailed truncated⟩
  · rw [if_neg truncated]
    simp only [truncated, decide_false, Bool.false_eq_true, if_false]
    rfl

/-- An answer that is always truncated. -/
theorem Pages.never_ends (pages : Pages stamp answer items tail limit valid)
    (standing : Standing stamp items tail limit valid since received) (crowded : limit < tail.length)
    (fuel : Nat) : collect stamp answer fuel since received = none := by
  induction fuel generalizing since received with
  | zero => rfl
  | succ fuel ih =>
    obtain ⟨ordered, rest, -, -, tailed, round⟩ := pages.round standing fuel
    have truncated : limit < (ordered ++ rest).length := by
      rw [List.length_append, tailed.length_eq]
      omega
    rw [if_pos truncated] at round
    rw [round.1]
    exact ih round.2.standing

/-- A page for each item behind the cursor is enough. -/
theorem Pages.ends (pages : Pages stamp answer items tail limit valid)
    (standing : Standing stamp items tail limit valid since received) (fits : tail.length ≤ limit)
    {fuel : Nat} (enough : (later stamp items since).length < fuel) :
    ∃ all, collect stamp answer fuel since received = some all := by
  induction fuel generalizing since received with
  | zero => omega
  | succ fuel ih =>
    obtain ⟨ordered, rest, same, -, tailed, round⟩ := pages.round standing fuel
    split at round
    next truncated =>
      obtain ⟨continues, advances⟩ := round
      have more : ordered ≠ [] := by
        rintro rfl
        rw [List.nil_append, tailed.length_eq] at truncated
        omega
      obtain ⟨-, ⟨a, first, at_cursor⟩, -⟩ := advances.moves more
      rw [continues]
      apply ih advances.standing
      -- the item at the new cursor is behind the old one only
      rw [← at_cursor]
      have fewer := length_later_lt (same.mem_iff.mp (List.mem_of_mem_take first))
      omega
    next => exact ⟨_, round⟩

/-- What was received stays, and nothing else arrives than what is behind the cursor or in the
tail. -/
theorem Pages.received_of_collect (pages : Pages stamp answer items tail limit valid)
    (standing : Standing stamp items tail limit valid since received) {fuel : Nat} {all : List α}
    (collected : collect stamp answer fuel since received = some all) :
    received ⊆ all ∧ ∀ a ∈ all, a ∈ received ∨ a ∈ later stamp items since ∨ a ∈ tail := by
  induction fuel generalizing since received with
  | zero => cases collected
  | succ fuel ih =>
    obtain ⟨ordered, rest, same, -, tailed, round⟩ := pages.round standing fuel
    have arrived : ∀ a ∈ received ++ (ordered ++ rest).take limit,
        a ∈ received ∨ a ∈ later stamp items since ∨ a ∈ tail := by
      intro a listed
      obtain before | new := List.mem_append.mp listed
      · exact .inl before
      · obtain item | other := List.mem_append.mp (List.mem_of_mem_take new)
        · exact .inr (.inl (same.mem_iff.mp item))
        · exact .inr (.inr (tailed.mem_iff.mp other))
    split at round
    next =>
      obtain ⟨continues, advances⟩ := round
      rw [continues] at collected
      obtain ⟨kept, only⟩ := ih advances.standing collected
      refine ⟨fun a before => kept (List.mem_append_left _ before), ?_⟩
      intro a listed
      obtain here | behind | other := only a listed
      · exact arrived a here
      · obtain ⟨item, after⟩ := mem_later.mp behind
        exact .inr (.inl (mem_later.mpr ⟨item, advances.forward.trans_lt after⟩))
      · exact .inr (.inr other)
    next =>
      rw [round] at collected
      cases collected
      exact ⟨List.subset_append_left _ _, arrived⟩

/-- All items behind the cursor have arrived at the end, if and only if no page ends among the items
of one stamp. -/
theorem Pages.covers_iff (pages : Pages stamp answer items tail limit valid)
    (standing : Standing stamp items tail limit valid since received) {fuel : Nat} {all : List α}
    (collected : collect stamp answer fuel since received = some all) :
    (∀ a ∈ later stamp items since, a ∈ all) ↔ Aligned stamp (later stamp items since) limit := by
  induction fuel generalizing since received with
  | zero => cases collected
  | succ fuel ih =>
    obtain ⟨ordered, rest, same, sorted, tailed, round⟩ := pages.round standing fuel
    by_cases one_page : ordered.length ≤ limit
    · have fits : Aligned stamp (later stamp items since) limit :=
        aligned_of_length_le (same.length_eq ▸ one_page)
      refine iff_of_true ?_ fits
      intro a behind
      have first : a ∈ ordered.take limit := by
        rw [List.take_of_length_le one_page]
        exact same.mem_iff.mpr behind
      split at round
      next =>
        rw [round.1] at collected
        exact (pages.received_of_collect round.2.standing collected).1 (round.2.shown first)
      next =>
        rw [round] at collected
        cases collected
        rw [List.take_append]
        exact List.mem_append_right _ (List.mem_append_left _ first)
    · have long : limit ≤ ordered.length := Nat.le_of_not_le one_page
      have truncated : limit < (ordered ++ rest).length := by
        rw [List.length_append]
        omega
      rw [if_pos truncated, List.take_append_of_le_length long] at round
      obtain ⟨continues, advances⟩ := round
      have more : ordered ≠ [] := by
        rintro rfl
        exact one_page (Nat.zero_le _)
      obtain ⟨after, -, greatest⟩ := advances.moves more
      rw [continues] at collected
      obtain ⟨kept, only⟩ := pages.received_of_collect advances.standing collected
      have split : Aligned stamp (later stamp items since) limit ↔
          (∀ a ∈ ordered.take limit, ∀ b ∈ ordered.drop limit, stamp a < stamp b) ∧
            Aligned stamp (ordered.drop limit) limit := by
        rw [← aligned_split ((List.take_append_drop limit ordered).symm ▸ sorted)
          (List.length_take_of_le long), List.take_append_drop]
        exact ⟨Aligned.perm same.symm, Aligned.perm same⟩
      rw [split]
      constructor
      · intro covered
        have apart : ∀ a ∈ ordered.take limit, ∀ b ∈ ordered.drop limit, stamp a < stamp b := by
          intro x front b back
          by_contra tied
          -- the cursor passes an item that is not in the page
          obtain ⟨item, ahead⟩ := mem_later.mp (same.mem_iff.mp (List.mem_of_mem_drop back))
          obtain here | behind | other := only b (covered b (mem_later.mpr ⟨item, ahead⟩))
          · obtain before | page := List.mem_append.mp here
            · exact absurd (standing.behind b before) (not_le.mpr ahead)
            · have once : ordered.Nodup := same.nodup_iff.mpr (pages.distinct.filter _)
              exact List.disjoint_take_drop once le_rfl page back
          · exact tied ((greatest x front).trans_lt (mem_later.mp behind).2)
          · exact absurd (pages.passed b other since standing.valid) (not_lt.mpr ahead.le)
        have remaining := advances.remaining same more apart
        refine ⟨apart, Aligned.perm remaining.symm ((ih advances.standing collected).mp ?_)⟩
        intro x behind
        obtain ⟨item, ahead⟩ := mem_later.mp behind
        exact covered x (mem_later.mpr ⟨item, after.trans ahead⟩)
      · rintro ⟨apart, aligned⟩ x behind
        have remaining := advances.remaining same more apart
        have listed := same.mem_iff.mpr behind
        rw [← List.take_append_drop limit ordered] at listed
        obtain front | back := List.mem_append.mp listed
        · exact kept (advances.shown front)
        · exact (ih advances.standing collected).mpr (Aligned.perm remaining aligned) x
            (remaining.mem_iff.mp back)

end Run

end FinBit.Lib.Paging
