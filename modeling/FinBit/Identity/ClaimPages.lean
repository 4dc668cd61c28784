import FinBit.Lib.Paging
import FinBit.Lib.SignedColumns
import FinBit.Identity.UsernameConvergence

/-! # Pages of username claims

A peer that is far behind asks again and again, each time from the greatest time stamp that it has
received, until an answer is not truncated. A page is cut off by count and the time stamps are
compared strictly, so that claims with the last time stamp of a page are lost if they do not fit it.
Besides, the log compares time stamps as signed numbers.
-/

namespace FinBit.Identity

open FinBit.Lib

namespace UsernameGossip

/-- A requester that is at `sinceMs`, with a new id for each request. -/
def pageThrough (log : UsernameLog) (maxRecords : UInt32) :
    List Bytes → UInt64 → List UserClaim → Option (List UserClaim)
  | [], _, _ => none
  | requestId :: requestIds, sinceMs, received =>
    match answer log sinceMs maxRecords requestId with
    | .response claims truncated _ _ =>
      let received := received ++ claims
      let maxSeenMs := ((received.map UserClaim.timestampMs).max?).getD sinceMs
      if truncated then pageThrough log maxRecords requestIds maxSeenMs received else some received
    | _ => none

/-- What a requester that starts after a time stamp is to receive. -/
def newer (log : UsernameLog) (startMs : UInt64) : List UserClaim :=
  log.filter fun c => startMs < c.timestampMs

/-- The requests come to an end, and every later claim has been received then. -/
def Complete (log : UsernameLog) (maxRecords : UInt32) (startMs : UInt64) : Prop :=
  ∃ requests, ∀ requestIds : List Bytes, requests ≤ requestIds.length →
    ∃ received, pageThrough log maxRecords requestIds startMs [] = some received ∧
      ∀ c ∈ log, startMs < c.timestampMs → c ∈ received

/-- `want_max`. -/
def wantMax (maxRecords : UInt32) : Nat :=
  if maxRecords > 0 then min maxRecords.toNat kClaimsPageMax else kClaimsPageMax

/-- No page ends among the claims of one time stamp. If anything is later than the start at all, the
log has no negative time stamps, or the start is one of them and the others fit one page. -/
def Pageable (log : UsernameLog) (maxRecords : UInt32) (startMs : UInt64) : Prop :=
  (∀ c ∈ newer log startMs, ∀ k,
    ¬(((newer log startMs).filter fun d => d.timestampMs < c.timestampMs).length <
          k * wantMax maxRecords ∧
        k * wantMax maxRecords <
          ((newer log startMs).filter fun d => d.timestampMs ≤ c.timestampMs).length)) ∧
    (newer log startMs = [] ∨
      if Negative startMs then
        (log.filter fun c => ¬Negative c.timestampMs).length ≤ wantMax maxRecords
      else ∀ c ∈ log, ¬Negative c.timestampMs)

section

local instance : LinearOrder UInt64 where
  le_refl := UInt64.le_refl
  le_trans _ _ _ := UInt64.le_trans
  le_antisymm _ _ := UInt64.le_antisymm
  le_total := UInt64.le_total
  lt_iff_le_not_ge a b := by
    rw [UInt64.lt_iff_toNat_lt, UInt64.le_iff_toNat_le, UInt64.le_iff_toNat_le]
    omega
  toDecidableLE := inferInstance
  toDecidableEq := inferInstance
  toDecidableLT := inferInstance

/-- The claims and the flag of an answer. -/
def page (log : UsernameLog) (maxRecords : UInt32) (sinceMs : UInt64) : List UserClaim × Bool :=
  let claims := log.claimsSince sinceMs (wantMax maxRecords + 1)
  (claims.take (wantMax maxRecords), decide (wantMax maxRecords < claims.length))

theorem answer_eq_page (log : UsernameLog) (maxRecords : UInt32) (sinceMs : UInt64)
    (requestId : Bytes) :
    ∃ seen, answer log sinceMs maxRecords requestId =
      .response (page log maxRecords sinceMs).1 (page log maxRecords sinceMs).2 seen requestId := by
  have asked : (log.claimsSince sinceMs (wantMax maxRecords + 1)).length ≤ wantMax maxRecords + 1 :=
    List.length_take_le _ _
  have shown : (if (log.claimsSince sinceMs (wantMax maxRecords + 1)).length > wantMax maxRecords then
        (log.claimsSince sinceMs (wantMax maxRecords + 1)).dropLast
      else log.claimsSince sinceMs (wantMax maxRecords + 1)) =
      (page log maxRecords sinceMs).1 := by
    rw [page]
    split
    next more =>
      rw [List.dropLast_eq_take]
      congr 1
      omega
    next all => exact (List.take_of_length_le (Nat.not_lt.mp all)).symm
  rw [← shown]
  exact ⟨_, rfl⟩

theorem pageThrough_eq (log : UsernameLog) (maxRecords : UInt32) (requestIds : List Bytes)
    (sinceMs : UInt64) (received : List UserClaim) :
    pageThrough log maxRecords requestIds sinceMs received =
      Paging.collect UserClaim.timestampMs (page log maxRecords) requestIds.length sinceMs
        received := by
  induction requestIds generalizing sinceMs received with
  | nil => rfl
  | cons requestId requestIds ih =>
    obtain ⟨seen, answered⟩ := answer_eq_page log maxRecords sinceMs requestId
    rw [pageThrough, answered, List.length_cons, Paging.collect]
    dsimp only
    split
    · exact ih _ _
    · rfl

/-! ### What an answer holds -/

theorem wantMax_pos (maxRecords : UInt32) : 0 < wantMax maxRecords := by
  unfold wantMax
  split
  next some_records =>
    have positive := UInt32.lt_iff_toNat_lt.mp some_records
    exact Nat.lt_min.mpr ⟨positive, by decide⟩
  next => decide

theorem nodup_of_keyed {log : UsernameLog} (keyed : log.Keyed) : log.Nodup :=
  keyed.distinct.imp fun apart same => apart (by rw [same]; exact ⟨rfl, rfl⟩)

/-- The claims behind a time stamp in the order of the log. -/
def sortedSince (log : UsernameLog) (sinceMs : UInt64) : List UserClaim :=
  (log.filter fun c => sinceMs.toInt64 < c.timestampMs.toInt64).mergeSort fun a b =>
    a.timestampMs.toInt64 ≤ b.timestampMs.toInt64

theorem sortedSince_perm (log : UsernameLog) (sinceMs : UInt64) :
    (sortedSince log sinceMs).Perm
      (log.filter fun c => sinceMs.toInt64 < c.timestampMs.toInt64) :=
  List.mergeSort_perm _ _

theorem sortedSince_sorted (log : UsernameLog) (sinceMs : UInt64) :
    (sortedSince log sinceMs).Pairwise fun a b =>
      a.timestampMs.toInt64 ≤ b.timestampMs.toInt64 := by
  have ordered : (sortedSince log sinceMs).Pairwise fun a b =>
      decide (a.timestampMs.toInt64 ≤ b.timestampMs.toInt64) = true := by
    apply List.pairwise_mergeSort
    · intro a b c first second
      exact decide_eq_true (Int64.le_trans (of_decide_eq_true first) (of_decide_eq_true second))
    · intro a b
      simpa using Int64.le_total a.timestampMs.toInt64 b.timestampMs.toInt64
  exact ordered.imp of_decide_eq_true

theorem page_eq (log : UsernameLog) (maxRecords : UInt32) (sinceMs : UInt64) :
    page log maxRecords sinceMs =
      ((sortedSince log sinceMs).take (wantMax maxRecords),
        decide (wantMax maxRecords < (sortedSince log sinceMs).length)) := by
  have front : log.claimsSince sinceMs (wantMax maxRecords + 1) =
    (sortedSince log sinceMs).take (wantMax maxRecords + 1) := rfl
  rw [page, front, List.take_take, Nat.min_eq_left (Nat.le_succ _), List.length_take]
  congr 2
  rw [eq_iff_iff]
  omega

/-- Before the negative time stamps only those are behind a start that are later. -/
theorem pages_of_not_negative {log : UsernameLog} (keyed : log.Keyed) (maxRecords : UInt32) :
    Paging.Pages UserClaim.timestampMs (page log maxRecords)
      (log.filter fun c => ¬Negative c.timestampMs) [] (wantMax maxRecords)
      fun sinceMs => ¬Negative sinceMs where
  room := wantMax_pos maxRecords
  distinct := (nodup_of_keyed keyed).filter _
  stamps c listed := of_decide_eq_true (List.mem_filter.mp listed).2
  passed := nofun
  answered sinceMs positive := by
    have behind : (log.filter fun c => sinceMs.toInt64 < c.timestampMs.toInt64) =
        Paging.later UserClaim.timestampMs (log.filter fun c => ¬Negative c.timestampMs) sinceMs := by
      rw [Paging.later, List.filter_filter]
      apply List.filter_congr
      intro c _
      rw [Bool.eq_iff_iff, Bool.and_eq_true, decide_eq_true_iff, decide_eq_true_iff,
        decide_eq_true_iff, toInt64_lt_iff_negative]
      by_cases sign : Negative c.timestampMs <;> simp [positive, sign]
    have same := sortedSince_perm log sinceMs
    rw [behind] at same
    refine ⟨sortedSince log sinceMs, [], same, ?_, List.Perm.refl _, ?_⟩
    · have sign (c : UserClaim) (listed : c ∈ sortedSince log sinceMs) :
          ¬Negative c.timestampMs := by
        have item := (Paging.mem_later.mp (same.mem_iff.mp listed)).1
        exact of_decide_eq_true (List.mem_filter.mp item).2
      refine (sortedSince_sorted log sinceMs).imp_of_mem ?_
      intro a b first second ordered
      rwa [toInt64_le_iff_negative, if_pos (iff_of_false (sign a first) (sign b second))] at ordered
    · rw [List.append_nil]
      exact page_eq log maxRecords sinceMs

/-- After a negative start, the claims that are not negative come behind those that are later. -/
theorem pages_of_negative {log : UsernameLog} (keyed : log.Keyed) (maxRecords : UInt32) :
    Paging.Pages UserClaim.timestampMs (page log maxRecords)
      (log.filter fun c => Negative c.timestampMs) (log.filter fun c => ¬Negative c.timestampMs)
      (wantMax maxRecords) Negative where
  room := wantMax_pos maxRecords
  distinct := (nodup_of_keyed keyed).filter _
  stamps c listed := of_decide_eq_true (List.mem_filter.mp listed).2
  passed c listed sinceMs negative := by
    have positive := of_decide_eq_true (List.mem_filter.mp listed).2
    rw [Negative] at positive negative
    rw [UInt64.lt_iff_toNat_lt]
    omega
  answered sinceMs negative := by
    let sorted := sortedSince log sinceMs
    have parts : (sorted.filter fun c => Negative c.timestampMs) ++
        (sorted.filter fun c => !decide (Negative c.timestampMs)) = sorted := by
      apply filter_append_filter_not
      refine (sortedSince_sorted log sinceMs).imp ?_
      intro a b ordered second
      rw [decide_eq_true_iff] at second ⊢
      rw [toInt64_le_iff_negative] at ordered
      by_contra first
      rw [if_neg fun same => first (same.mpr second)] at ordered
      exact first ordered
    refine ⟨sorted.filter fun c => Negative c.timestampMs,
      sorted.filter fun c => !decide (Negative c.timestampMs), ?_, ?_, ?_, ?_⟩
    · refine ((sortedSince_perm log sinceMs).filter _).trans (List.Perm.of_eq ?_)
      rw [Paging.later, List.filter_filter, List.filter_filter]
      apply List.filter_congr
      intro c _
      rw [Bool.eq_iff_iff, Bool.and_eq_true, Bool.and_eq_true]
      simp only [decide_eq_true_eq, toInt64_lt_iff_negative]
      by_cases sign : Negative c.timestampMs <;> simp [negative, sign]
    · refine ((sortedSince_sorted log sinceMs).filter _).imp_of_mem ?_
      intro a b first second ordered
      have sign := of_decide_eq_true (List.mem_filter.mp first).2
      have sign' := of_decide_eq_true (List.mem_filter.mp second).2
      rwa [toInt64_le_iff_negative, if_pos (iff_of_true sign sign')] at ordered
    · refine ((sortedSince_perm log sinceMs).filter _).trans (List.Perm.of_eq ?_)
      rw [List.filter_filter]
      apply List.filter_congr
      intro c _
      rw [Bool.eq_iff_iff, Bool.and_eq_true, Bool.not_eq_true']
      simp only [decide_eq_true_eq, decide_eq_false_iff_not, toInt64_lt_iff_negative]
      by_cases sign : Negative c.timestampMs <;> simp [negative, sign]
    · rw [parts]
      exact page_eq log maxRecords sinceMs

/-! ### Whether everything arrives -/

theorem pageable_iff {log : UsernameLog} {maxRecords : UInt32} {startMs : UInt64} :
    Pageable log maxRecords startMs ↔
      Paging.Aligned UserClaim.timestampMs (newer log startMs) (wantMax maxRecords) ∧
        (newer log startMs = [] ∨
          if Negative startMs then
            (log.filter fun c => ¬Negative c.timestampMs).length ≤ wantMax maxRecords
          else ∀ c ∈ log, ¬Negative c.timestampMs) := by
  simp only [Pageable, Paging.Aligned, List.countP_eq_length_filter]

theorem later_of_negative {log : UsernameLog} {startMs : UInt64} (negative : Negative startMs) :
    Paging.later UserClaim.timestampMs (log.filter fun c => Negative c.timestampMs) startMs =
      newer log startMs := by
  rw [Paging.later, newer, List.filter_filter]
  apply List.filter_congr
  intro c _
  have above : startMs < c.timestampMs → Negative c.timestampMs := fun later =>
    Nat.le_trans negative (UInt64.lt_iff_toNat_lt.mp later).le
  by_cases later : startMs < c.timestampMs
  · simp [later, above later]
  · simp [later]

theorem later_of_not_negative {log : UsernameLog} {startMs : UInt64}
    (positive : ∀ c ∈ log, ¬Negative c.timestampMs) :
    Paging.later UserClaim.timestampMs (log.filter fun c => ¬Negative c.timestampMs) startMs =
      newer log startMs := by
  rw [List.filter_eq_self.mpr fun c listed => decide_eq_true (positive c listed)]
  rfl

/-- Where everything later is behind the cursor. -/
theorem complete_iff_aligned {log : UsernameLog} {maxRecords : UInt32} {startMs : UInt64}
    {items tail : List UserClaim} {valid : UInt64 → Prop}
    (pages : Paging.Pages UserClaim.timestampMs (page log maxRecords) items tail
      (wantMax maxRecords) valid)
    (started : valid startMs) (fits : tail.length ≤ wantMax maxRecords)
    (whole : Paging.later UserClaim.timestampMs items startMs = newer log startMs) :
    Complete log maxRecords startMs ↔
      Paging.Aligned UserClaim.timestampMs (newer log startMs) (wantMax maxRecords) := by
  have standing : Paging.Standing UserClaim.timestampMs items tail (wantMax maxRecords) valid startMs
      [] := .start started (.inl fits)
  have covered {all : List UserClaim} : (∀ c ∈ newer log startMs, c ∈ all) ↔
      ∀ c ∈ log, startMs < c.timestampMs → c ∈ all := by
    simp [newer]
  constructor
  · rintro ⟨requests, complete⟩
    obtain ⟨all, collected, received⟩ := complete (List.replicate requests []) (by simp)
    rw [pageThrough_eq] at collected
    rw [← whole, ← pages.covers_iff standing collected, whole]
    exact covered.mpr received
  · intro aligned
    refine ⟨(newer log startMs).length + 1, fun requestIds enough => ?_⟩
    rw [← whole] at enough
    obtain ⟨all, collected⟩ := pages.ends standing fits enough
    refine ⟨all, by rw [pageThrough_eq, collected], covered.mp ?_⟩
    rw [← whole] at aligned ⊢
    exact (pages.covers_iff standing collected).mpr aligned

/-- A requester whose cursor is not negative always comes to an end. -/
theorem exists_collect_of_not_negative {log : UsernameLog} (keyed : log.Keyed) (maxRecords : UInt32)
    {sinceMs : UInt64} (positive : ¬Negative sinceMs) {received : List UserClaim}
    (behind : ∀ c ∈ received, c.timestampMs ≤ sinceMs) {fuel : Nat} (enough : log.length < fuel) :
    ∃ all, Paging.collect UserClaim.timestampMs (page log maxRecords) fuel sinceMs received =
      some all := by
  have pages := pages_of_not_negative keyed maxRecords
  refine pages.ends ⟨positive, behind, .inl (Nat.zero_le _)⟩ (Nat.zero_le _) ?_
  have fewer := List.length_filter_le (fun c : UserClaim => sinceMs < c.timestampMs)
    (log.filter fun c => ¬Negative c.timestampMs)
  have fewer' := List.length_filter_le (fun c : UserClaim => ¬Negative c.timestampMs) log
  rw [Paging.later]
  omega

theorem exists_collect_of_newer_nil {log : UsernameLog} (keyed : log.Keyed) (maxRecords : UInt32)
    {startMs : UInt64} (none_newer : newer log startMs = []) {fuel : Nat}
    (enough : log.length + 1 < fuel) :
    ∃ all, Paging.collect UserClaim.timestampMs (page log maxRecords) fuel startMs [] =
      some all := by
  by_cases negative : Negative startMs
  · obtain ⟨ordered, rest, same, -, tailed, answered⟩ :=
      (pages_of_negative keyed maxRecords).answered startMs negative
    rw [later_of_negative negative, none_newer] at same
    obtain rfl : ordered = [] := same.eq_nil
    rw [List.nil_append] at answered
    cases fuel with
    | zero => omega
    | succ fuel =>
      rw [Paging.collect, answered, List.nil_append]
      by_cases truncated : wantMax maxRecords < rest.length
      · -- the first page leaves the negative time stamps behind
        have some_claim : rest.take (wantMax maxRecords) ≠ [] := by
          have positive := wantMax_pos maxRecords
          intro none
          obtain zero | empty := List.take_eq_nil_iff.mp none
          · omega
          · rw [empty] at truncated
            exact absurd truncated (Nat.not_lt_zero _)
        obtain ⟨c, listed, greatest⟩ :=
          Paging.exists_greatest UserClaim.timestampMs some_claim
        have positive : ¬Negative c.timestampMs := by
          have member := tailed.mem_iff.mp (List.mem_of_mem_take listed)
          exact of_decide_eq_true (List.mem_filter.mp member).2
        simp only [truncated, decide_true, if_true]
        rw [Paging.cursor_eq listed greatest]
        exact exists_collect_of_not_negative keyed maxRecords positive greatest (by omega)
      · simp only [truncated, decide_false, Bool.false_eq_true, if_false]
        exact ⟨_, rfl⟩
  · exact exists_collect_of_not_negative keyed maxRecords negative (by simp) (by omega)

theorem complete_of_newer_nil {log : UsernameLog} (keyed : log.Keyed) (maxRecords : UInt32)
    {startMs : UInt64} (none_newer : newer log startMs = []) : Complete log maxRecords startMs := by
  refine ⟨log.length + 2, fun requestIds enough => ?_⟩
  obtain ⟨all, collected⟩ := exists_collect_of_newer_nil keyed maxRecords none_newer enough
  refine ⟨all, by rw [pageThrough_eq, collected], fun c listed later => ?_⟩
  have member : c ∈ newer log startMs := List.mem_filter.mpr ⟨listed, decide_eq_true later⟩
  rw [none_newer] at member
  cases member

/-- A claim with a negative time stamp is never behind a start that has none. -/
theorem not_complete_of_negative {log : UsernameLog} (keyed : log.Keyed) {maxRecords : UInt32}
    {startMs : UInt64} (positive : ¬Negative startMs) {c : UserClaim} (listed : c ∈ log)
    (negative : Negative c.timestampMs) : ¬Complete log maxRecords startMs := by
  rintro ⟨requests, complete⟩
  obtain ⟨all, collected, received⟩ := complete (List.replicate requests []) (by simp)
  have later : startMs < c.timestampMs :=
    UInt64.lt_iff_toNat_lt.mpr (Nat.lt_of_lt_of_le (Nat.not_le.mp positive) negative)
  rw [pageThrough_eq] at collected
  have pages := pages_of_not_negative keyed maxRecords
  obtain ⟨-, only⟩ := pages.received_of_collect (.start positive (.inl (Nat.zero_le _))) collected
  obtain before | behind | other := only c (received c listed later)
  · cases before
  · have item := (Paging.mem_later.mp behind).1
    exact of_decide_eq_true (List.mem_filter.mp item).2 negative
  · cases other

/-- Paging loses no claim exactly if no page ends among the claims of one time stamp that are later
than the start and, where time stamps are negative, they do not get in the way. -/
theorem complete_iff {log : UsernameLog} (keyed : log.Keyed) (maxRecords : UInt32)
    (startMs : UInt64) : Complete log maxRecords startMs ↔ Pageable log maxRecords startMs := by
  rw [pageable_iff]
  by_cases none_newer : newer log startMs = []
  · have aligned : Paging.Aligned UserClaim.timestampMs (newer log startMs) (wantMax maxRecords) := by
      rw [none_newer]
      nofun
    exact iff_of_true (complete_of_newer_nil keyed maxRecords none_newer) ⟨aligned, .inl none_newer⟩
  by_cases negative : Negative startMs
  · simp only [none_newer, negative, if_true, false_or]
    have pages := pages_of_negative keyed maxRecords
    by_cases fits : (log.filter fun c => ¬Negative c.timestampMs).length ≤ wantMax maxRecords
    · rw [complete_iff_aligned pages negative fits (later_of_negative negative)]
      exact (and_iff_left fits).symm
    · refine iff_of_false ?_ fun both => fits both.2
      rintro ⟨requests, complete⟩
      obtain ⟨all, collected, -⟩ := complete (List.replicate requests []) (by simp)
      rw [pageThrough_eq, pages.never_ends (.start negative (.inr ?_)) (Nat.not_le.mp fits)]
        at collected
      · cases collected
      · rw [later_of_negative negative]
        exact none_newer
  · simp only [none_newer, negative, if_false, false_or]
    by_cases sound : ∀ c ∈ log, ¬Negative c.timestampMs
    · rw [complete_iff_aligned (pages_of_not_negative keyed maxRecords) negative (Nat.zero_le _)
        (later_of_not_negative sound)]
      exact (and_iff_left sound).symm
    · refine iff_of_false ?_ fun both => sound both.2
      rw [not_forall] at sound
      obtain ⟨c, sound⟩ := sound
      obtain ⟨listed, sign⟩ := Classical.not_imp.mp sound
      exact not_complete_of_negative keyed negative listed (Classical.not_not.mp sign)

/-- One of many keys that claim a name. -/
private def claimant (i : Nat) (timestampMs : UInt64) : UserClaim where
  username := ascii "alice"
  pubkey := UInt8.ofNat (i / 256) :: List.replicate 31 (UInt8.ofNat (i % 256))
  timestampMs := timestampMs
  nonce := List.replicate 16 0
  signature := List.replicate 64 0

private theorem claimant_key {i j : Nat} {t t' : UInt64} (small : i < 65536) (small' : j < 65536)
    (same : (claimant i t).pubkey = (claimant j t').pubkey) : i = j := by
  rw [claimant, claimant, List.cons.injEq, List.replicate_right_inj (by decide)] at same
  obtain ⟨high, low⟩ := same
  have high := congrArg UInt8.toNat high
  have low := congrArg UInt8.toNat low
  rw [UInt8.toNat_ofNat', UInt8.toNat_ofNat'] at high low
  omega

private theorem claimant_name (i : Nat) (t : UInt64) :
    (cstr (claimant i t).username).val = (claimant i t).username := by
  have valid : isValidUsername (ascii "alice") = true := by decide
  exact isValidUsername_cstr valid

/-- A page and one claim more, all made at one moment: the last one never arrives. -/
theorem claims_of_one_moment_lost :
    ¬∀ (log : UsernameLog) (maxRecords : UInt32) (startMs : UInt64), log.Keyed →
      Complete log maxRecords startMs := by
  intro complete
  let log : UsernameLog := (List.range 257).map (claimant · 1000)
  have stamped (c : UserClaim) (listed : c ∈ log) : c.timestampMs = 1000 := by
    obtain ⟨i, -, rfl⟩ := List.mem_map.mp listed
    rfl
  have keyed : log.Keyed := by
    constructor
    · intro c listed
      obtain ⟨i, -, rfl⟩ := List.mem_map.mp listed
      exact claimant_name i 1000
    · refine List.pairwise_map.mpr (List.nodup_range.imp_of_mem ?_)
      intro i j first second apart same
      rw [List.mem_range] at first second
      exact apart (claimant_key (by omega) (by omega) same.2)
  have positive (c : UserClaim) (listed : c ∈ log) : ¬Negative c.timestampMs := by
    rw [stamped c listed]
    decide
  have whole : newer log 0 = log := by
    refine List.filter_eq_self.mpr fun c listed => ?_
    rw [stamped c listed]
    rfl
  have aligned := (complete_iff_aligned (pages_of_not_negative keyed (UInt32.ofNat kClaimsPageMax))
    (by decide) (Nat.zero_le _) (later_of_not_negative positive)).mp (complete log _ 0 keyed)
  rw [whole] at aligned
  have size : log.length = 257 := by rw [List.length_map, List.length_range]
  have limit : wantMax (UInt32.ofNat kClaimsPageMax) = 256 := by decide
  refine aligned (claimant 0 1000) (List.mem_map.mpr ⟨0, by simp, rfl⟩) 1 ⟨?_, ?_⟩
  · rw [List.countP_eq_zero.mpr, limit]
    · decide
    · intro c listed
      rw [stamped c listed]
      decide
  · rw [List.countP_eq_length.mpr, size, limit]
    · decide
    · intro c listed
      rw [stamped c listed]
      decide

/-- Two claims of different moments, one to a page. -/
theorem complete_of_two_moments : Complete [claimant 0 1000, claimant 1 2000] 1 0 := by
  have keyed : UsernameLog.Keyed [claimant 0 1000, claimant 1 2000] := by
    constructor
    · intro c listed
      obtain rfl | rfl : c = claimant 0 1000 ∨ c = claimant 1 2000 := by simpa using listed
      · exact claimant_name 0 1000
      · exact claimant_name 1 2000
    · rw [List.pairwise_pair]
      exact fun same => absurd (claimant_key (by decide) (by decide) same.2) (by decide)
  refine (complete_iff keyed 1 0).mpr ⟨?_, .inr ?_⟩
  · have all : newer [claimant 0 1000, claimant 1 2000] 0 =
      [claimant 0 1000, claimant 1 2000] := rfl
    have limit : wantMax 1 = 1 := by decide
    rw [all, limit]
    intro c listed k
    obtain rfl | rfl : c = claimant 0 1000 ∨ c = claimant 1 2000 := by simpa using listed
    · have counted : ([claimant 0 1000, claimant 1 2000].filter fun d =>
          d.timestampMs ≤ (claimant 0 1000).timestampMs).length = 1 := rfl
      omega
    · have counted : ([claimant 0 1000, claimant 1 2000].filter fun d =>
          d.timestampMs < (claimant 1 2000).timestampMs).length = 1 := rfl
      have counted' : ([claimant 0 1000, claimant 1 2000].filter fun d =>
          d.timestampMs ≤ (claimant 1 2000).timestampMs).length = 2 := rfl
      omega
  · rw [if_neg (by decide)]
    intro c listed
    obtain rfl | rfl : c = claimant 0 1000 ∨ c = claimant 1 2000 := by simpa using listed
    · exact (by decide : ¬Negative 1000)
    · exact (by decide : ¬Negative 2000)

end

end UsernameGossip

end FinBit.Identity
