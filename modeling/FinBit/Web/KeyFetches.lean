import FinBit.Lib.OrderedMaps
import FinBit.Web.Connection

/-! # The pending fetches of the web client

A fetch for a prekey bundle stands in two maps until its response comes: by the name that is fetched,
so that a second call joins it, and by the id of the request, which the server echoes. A response is
matched by its id if that is pending, and goes to the oldest fetch otherwise.
-/

namespace FinBit.Web

open FinBit.Lib

structure Fetches where
  pendingFetch : OrderedMap String FetchEntry
  pendingByReqId : OrderedMap Nat FetchEntry
  nextFetchId : Nat
  /-- The fetches whose promise is settled, by their request. -/
  settled : List (Nat × Except String FetchedBundle)

inductive FetchEvent where
  | fetch (peerUsername : String)
  | response (r : KeyFetchResp)

namespace Fetches

variable (s : Fetches)

/-- Before any call. -/
def initial : Fetches := ⟨[], [], 1, []⟩

/-- `_fetchKeyBundle`; a call for a name that is pending shares its promise. -/
def fetchKeyBundle (peerUsername : String) : Fetches :=
  match s.pendingFetch.get peerUsername with
  | some _ => s
  | none =>
    let entry : FetchEntry := ⟨peerUsername, s.nextFetchId⟩
    { s with
      pendingFetch := s.pendingFetch.set peerUsername entry
      pendingByReqId := s.pendingByReqId.set s.nextFetchId entry
      nextFetchId := s.nextFetchId + 1 }

/-- The fetch that a response is taken for. -/
def matched (r : KeyFetchResp) : Option FetchEntry :=
  if r.requestId ≠ 0 ∧ (s.pendingByReqId.get r.requestId).isSome then
    s.pendingByReqId.get r.requestId
  else s.pendingFetch.head?.bind fun first => s.pendingFetch.get first.1

/-- What a response settles its fetch with; a bundle that is found but absent throws before. -/
def outcome (r : KeyFetchResp) : Option (Except String FetchedBundle) :=
  if r.found = false then some (.error "peer not registered")
  else r.bundle.map fun bundle => .ok ⟨bundle.identityPub, bundle.signedPrekey, none⟩

/-- `_onMessage` on a `key_fetch_resp`. -/
def onKeyFetchResp (r : KeyFetchResp) : Fetches :=
  match s.matched r with
  | none => s
  | some entry =>
    { s with
      pendingFetch := s.pendingFetch.delete entry.username
      pendingByReqId := s.pendingByReqId.delete entry.requestId
      settled := ((outcome r).map fun result => (entry.requestId, result)).toList ++ s.settled }

def step : Fetches → FetchEvent → Fetches
  | s, .fetch peerUsername => s.fetchKeyBundle peerUsername
  | s, .response r => s.onKeyFetchResp r

def run (events : List FetchEvent) : Fetches := events.foldl step initial

/-! ### The two maps -/

/-- The maps hold the same entries in the same order, each under its own key. -/
structure Agree : Prop where
  byReqId : s.pendingByReqId = s.pendingFetch.map fun e => (e.2.requestId, e.2)
  named : ∀ e ∈ s.pendingFetch, e.1 = e.2.username
  names : (s.pendingFetch.map Prod.fst).Nodup
  ids : (s.pendingFetch.map fun e => e.2.requestId).Nodup
  older : ∀ e ∈ s.pendingFetch, e.2.requestId < s.nextFetchId

/-- An entry is in both maps. -/
def Holds (entry : FetchEntry) : Prop :=
  s.pendingFetch.get entry.username = some entry ∧
    s.pendingByReqId.get entry.requestId = some entry

/-- A fetch with this id is pending. -/
def IsPending (requestId : Nat) : Prop := ∃ entry, s.Holds entry ∧ entry.requestId = requestId

variable {s}

namespace Agree

theorem initial : Agree .initial :=
  ⟨rfl, List.forall_mem_nil _, List.nodup_nil, List.nodup_nil, List.forall_mem_nil _⟩

theorem reqIds (agree : s.Agree) :
    s.pendingByReqId.map Prod.fst = s.pendingFetch.map fun e => e.2.requestId := by
  rw [agree.byReqId, List.map_map]
  rfl

theorem reqIds_nodup (agree : s.Agree) : (s.pendingByReqId.map Prod.fst).Nodup :=
  agree.reqIds ▸ agree.ids

theorem holds_iff (agree : s.Agree) {entry : FetchEntry} :
    s.Holds entry ↔ (entry.username, entry) ∈ s.pendingFetch := by
  rw [Holds, OrderedMap.get_eq_some_iff agree.names, OrderedMap.get_eq_some_iff agree.reqIds_nodup,
    agree.byReqId]
  refine ⟨And.left, fun member => ⟨member, List.mem_map_of_mem member⟩⟩

theorem isPending_iff (agree : s.Agree) {requestId : Nat} :
    s.IsPending requestId ↔ (s.pendingByReqId.get requestId).isSome := by
  rw [Option.isSome_iff_exists]
  constructor
  · rintro ⟨entry, held, rfl⟩
    exact ⟨entry, held.2⟩
  · rintro ⟨entry, found⟩
    have member := OrderedMap.mem_of_get found
    rw [agree.byReqId] at member
    obtain ⟨e, listed, key⟩ := List.mem_map.mp member
    cases key
    have held : (e.2.username, e.2) ∈ s.pendingFetch := by
      rw [← agree.named e listed]
      exact listed
    exact ⟨e.2, agree.holds_iff.mpr held, rfl⟩

theorem fetchKeyBundle (agree : s.Agree) (peerUsername : String) :
    (s.fetchKeyBundle peerUsername).Agree := by
  unfold Fetches.fetchKeyBundle
  split
  · exact agree
  next absent =>
    have new := OrderedMap.get_eq_none_iff.mp absent
    have unused : s.nextFetchId ∉ s.pendingByReqId.map Prod.fst := by
      rw [agree.reqIds]
      intro used
      obtain ⟨e, member, same⟩ := List.mem_map.mp used
      exact Nat.ne_of_lt (agree.older e member) same
    dsimp only
    rw [OrderedMap.set_of_new new, OrderedMap.set_of_new unused]
    constructor
    · rw [agree.byReqId, List.map_append]
      rfl
    · exact List.forall_mem_append.mpr ⟨agree.named, List.forall_mem_singleton.mpr rfl⟩
    · rw [List.map_append, List.map_singleton, ← List.concat_eq_append]
      exact agree.names.concat new
    · rw [List.map_append, List.map_singleton, ← List.concat_eq_append]
      exact agree.ids.concat (agree.reqIds ▸ unused)
    · refine List.forall_mem_append.mpr ⟨fun e member => ?_, List.forall_mem_singleton.mpr ?_⟩
      · exact Nat.lt_succ_of_lt (agree.older e member)
      · exact Nat.lt_succ_self _

/-- The oldest fetch is in front. -/
theorem get_head (agree : s.Agree) :
    (s.pendingFetch.head?.bind fun first => s.pendingFetch.get first.1) =
      s.pendingFetch.head?.map Prod.snd := by
  cases front : s.pendingFetch.head? with
  | none => rfl
  | some first => exact OrderedMap.get_of_mem agree.names (List.mem_of_head? front)

/-- A response is taken for the fetch that asked, or else for the oldest. -/
theorem matched_cases (agree : s.Agree) {r : KeyFetchResp} (asked : r.requestId ≠ 0) :
    (∃ entry, s.matched r = some entry ∧ s.Holds entry ∧ entry.requestId = r.requestId) ∨
      ¬s.IsPending r.requestId ∧ s.matched r = s.pendingFetch.head?.map Prod.snd := by
  unfold matched
  by_cases pending : s.IsPending r.requestId
  · rw [if_pos ⟨asked, agree.isPending_iff.mp pending⟩]
    obtain ⟨entry, held, same⟩ := pending
    exact .inl ⟨entry, same ▸ held.2, held, same⟩
  · rw [if_neg (fun both => pending (agree.isPending_iff.mpr both.2)), agree.get_head]
    exact .inr ⟨pending, rfl⟩

/-- What is matched is pending. -/
theorem holds_of_matched (agree : s.Agree) {r : KeyFetchResp} {entry : FetchEntry}
    (found : s.matched r = some entry) : s.Holds entry := by
  unfold matched at found
  split at found
  · have member := OrderedMap.mem_of_get found
    rw [agree.byReqId] at member
    obtain ⟨e, listed, key⟩ := List.mem_map.mp member
    obtain ⟨-, rfl⟩ := Prod.mk.inj key
    exact agree.holds_iff.mpr (agree.named e listed ▸ listed)
  · rw [agree.get_head] at found
    obtain ⟨e, front, rfl⟩ := Option.map_eq_some_iff.mp found
    have listed := List.mem_of_head? front
    exact agree.holds_iff.mpr (agree.named e listed ▸ listed)

/-- Deleting an entry by its name deletes it by its id, and leaves every other entry. -/
theorem delete_eq (agree : s.Agree) {entry : FetchEntry} (held : s.Holds entry) :
    ∀ e ∈ s.pendingFetch, e.1 = entry.username ↔ e.2.requestId = entry.requestId := by
  intro e member
  have listed := agree.holds_iff.mp held
  constructor
  · intro same
    rw [List.inj_on_of_nodup_map agree.names member listed same]
  · intro same
    rw [List.inj_on_of_nodup_map agree.ids member listed same]

theorem delete_byReqId (agree : s.Agree) {entry : FetchEntry} (held : s.Holds entry) :
    s.pendingByReqId.delete entry.requestId =
      (s.pendingFetch.delete entry.username).map fun e => (e.2.requestId, e.2) := by
  rw [agree.byReqId, OrderedMap.delete, OrderedMap.delete, List.filter_map]
  refine congrArg _ (List.filter_congr fun e member => ?_)
  exact decide_eq_decide.mpr (not_congr (agree.delete_eq held e member).symm)

theorem onKeyFetchResp (agree : s.Agree) (r : KeyFetchResp) : (s.onKeyFetchResp r).Agree := by
  unfold Fetches.onKeyFetchResp
  split
  · exact agree
  next entry found =>
    have held := agree.holds_of_matched found
    refine ⟨agree.delete_byReqId held, fun e member => ?_, ?_, ?_, fun e member => ?_⟩
    · exact agree.named e (OrderedMap.mem_delete.mp member).1
    · exact OrderedMap.nodup_delete agree.names _
    · exact agree.ids.sublist (List.filter_sublist.map _)
    · exact agree.older e (OrderedMap.mem_delete.mp member).1

/-- The maps agree at every moment. -/
theorem run (events : List FetchEvent) : (Fetches.run events).Agree := by
  unfold Fetches.run
  suffices kept : ∀ s : Fetches, s.Agree → (events.foldl step s).Agree from kept _ .initial
  induction events with
  | nil => exact fun _ agree => agree
  | cons event events ih =>
    intro s agree
    refine ih _ ?_
    cases event with
    | fetch peerUsername => exact agree.fetchKeyBundle peerUsername
    | response r => exact agree.onKeyFetchResp r

end Agree

/-! ### Who is answered -/

variable (s) in
/-- A response settles the fetch with its id if that is pending and none otherwise, and every other
fetch stays in both maps. -/
def OnlyAsked (r : KeyFetchResp) : Prop :=
  ((s.onKeyFetchResp r).settled = s.settled ∨
    s.IsPending r.requestId ∧
      ∃ result, (s.onKeyFetchResp r).settled = (r.requestId, result) :: s.settled) ∧
  ∀ entry, s.Holds entry → entry.requestId ≠ r.requestId → (s.onKeyFetchResp r).Holds entry

/-- Taking an entry out of the maps leaves the others. -/
theorem Agree.holds_delete (agree : s.Agree) {entry other : FetchEntry} (held : s.Holds entry)
    (kept : s.Holds other) {settled : List (Nat × Except String FetchedBundle)} :
    Holds
        { s with
          pendingFetch := s.pendingFetch.delete entry.username
          pendingByReqId := s.pendingByReqId.delete entry.requestId
          settled := settled } other ↔
      other.requestId ≠ entry.requestId := by
  have listed := agree.holds_iff.mp kept
  have names := OrderedMap.nodup_delete agree.names entry.username
  have ids := OrderedMap.nodup_delete agree.reqIds_nodup entry.requestId
  rw [Holds, OrderedMap.get_eq_some_iff names, OrderedMap.get_eq_some_iff ids,
    OrderedMap.mem_delete, OrderedMap.mem_delete]
  constructor
  · exact fun both => both.2.2
  · intro apart
    refine ⟨⟨listed, fun same => apart ((agree.delete_eq held _ listed).mp same)⟩, ?_, apart⟩
    exact OrderedMap.mem_of_get kept.2

theorem Agree.onlyAsked_iff (agree : s.Agree) {r : KeyFetchResp} (asked : r.requestId ≠ 0) :
    s.OnlyAsked r ↔ s.IsPending r.requestId ∨ s.pendingFetch = [] := by
  constructor
  · rintro ⟨-, others⟩
    obtain ⟨entry, -, held, same⟩ | ⟨absent, oldest⟩ := agree.matched_cases asked
    · exact .inl ⟨entry, held, same⟩
    · -- the oldest fetch is taken out although its id is another
      cases front : s.pendingFetch.head? with
      | none => exact .inr (List.head?_eq_none_iff.mp front)
      | some first =>
        rw [front] at oldest
        have held := agree.holds_of_matched oldest
        have other : first.2.requestId ≠ r.requestId := fun same => absent ⟨first.2, held, same⟩
        have kept := others first.2 held other
        unfold Fetches.onKeyFetchResp at kept
        rw [oldest] at kept
        exact absurd rfl ((agree.holds_delete held held).mp kept)
  · intro known
    unfold OnlyAsked Fetches.onKeyFetchResp
    obtain ⟨entry, found, held, same⟩ | ⟨absent, oldest⟩ := agree.matched_cases asked
    · rw [found]
      refine ⟨?_, fun other kept apart => (agree.holds_delete held kept).mpr (same ▸ apart)⟩
      cases outcome r with
      | none => exact .inl rfl
      | some result => exact .inr ⟨⟨entry, held, same⟩, result, same ▸ rfl⟩
    · have none := known.resolve_left absent
      rw [none] at oldest
      rw [oldest]
      exact ⟨.inl rfl, fun other kept _ => kept⟩

/-- At any moment of any run, a response that names a request reaches nobody else exactly where that
request is pending or nothing is; where it is pending, it is settled unless a bundle that was found
is missing from the response. -/
theorem response_only_asked_iff (events : List FetchEvent) (r : KeyFetchResp)
    (asked : r.requestId ≠ 0) :
    let s := run events
    (s.OnlyAsked r ↔ s.IsPending r.requestId ∨ s.pendingFetch = []) ∧
      ∀ result, s.IsPending r.requestId → outcome r = some result →
        (s.onKeyFetchResp r).settled = (r.requestId, result) :: s.settled := by
  have agree := Agree.run events
  refine ⟨agree.onlyAsked_iff asked, fun result pending decided => ?_⟩
  obtain ⟨entry, found, -, same⟩ | ⟨absent, -⟩ := agree.matched_cases asked
  · rw [Fetches.onKeyFetchResp, found, decided, ← same]
    rfl
  · exact absurd pending absent

private def askedForBob : List FetchEvent := [.fetch "bob"]

theorem response_only_asked_bob :
    let s := run askedForBob
    (s.OnlyAsked ⟨false, none, 1⟩ ↔ s.IsPending 1 ∨ s.pendingFetch = []) ∧
      ∀ result, s.IsPending 1 → outcome ⟨false, none, 1⟩ = some result →
        (s.onKeyFetchResp ⟨false, none, 1⟩).settled = (1, result) :: s.settled :=
  response_only_asked_iff askedForBob ⟨false, none, 1⟩ (by decide)

/-- A fetch for bob is pending as request 1, and the response to a request 2 is taken for it. -/
theorem late_response_settles_another :
    ¬∀ events r, r.requestId ≠ 0 → (run events).OnlyAsked r := by
  intro always
  have agree := Agree.run askedForBob
  have asked := (agree.onlyAsked_iff (r := ⟨true, some ⟨[1], [2], [], []⟩, 2⟩) (by decide)).mp
    (always askedForBob _ (by decide))
  obtain ⟨entry, held, other⟩ | none := asked
  · have same := List.mem_singleton.mp (agree.holds_iff.mp held)
    have first : entry.requestId = 1 := congrArg (·.2.requestId) same
    exact absurd (first.symm.trans other) (by decide)
  · cases none

/-! ### The fetches of the connection -/

/-- The connection keeps one list for both maps. -/
structure Merges (s : Fetches) {K : Type} (c : Conn K) : Prop where
  pending : c.pendingFetch = s.pendingFetch.map Prod.snd
  next : c.nextFetchId = s.nextFetchId
  settled : c.settled = s.settled

theorem Merges.fetchKeyBundle {K : Type} {c : Conn K} (agree : s.Agree) (merged : s.Merges c)
    (purpose : Purpose) (peerUsername : String) :
    (s.fetchKeyBundle peerUsername).Merges (c.fetchKeyBundle purpose peerUsername).1 := by
  unfold Fetches.fetchKeyBundle Conn.fetchKeyBundle
  cases found : s.pendingFetch.get peerUsername with
  | none =>
    have new := OrderedMap.get_eq_none_iff.mp found
    have absent : c.pendingFetch.find? (·.username = peerUsername) = none := by
      rw [List.find?_eq_none, merged.pending]
      intro entry member same
      obtain ⟨e, listed, rfl⟩ := List.mem_map.mp member
      have name := (agree.named e listed).trans (of_decide_eq_true same)
      exact new (List.mem_map.mpr ⟨e, listed, name⟩)
    rw [absent]
    refine ⟨?_, congrArg (· + 1) merged.next, merged.settled⟩
    dsimp only
    rw [merged.pending, merged.next, OrderedMap.set_of_new new, List.map_append]
    rfl
  | some entry =>
    have listed := OrderedMap.mem_of_get found
    have present : c.pendingFetch.find? (·.username = peerUsername) ≠ none := by
      intro none
      rw [List.find?_eq_none, merged.pending] at none
      exact none entry (List.mem_map_of_mem listed) (decide_eq_true (agree.named _ listed).symm)
    obtain ⟨existing, shared⟩ := Option.ne_none_iff_exists'.mp present
    rw [shared]
    exact ⟨merged.pending, merged.next, merged.settled⟩

/-- Both find the same fetch for a response. -/
theorem Merges.matched {K : Type} {c : Conn K} (agree : s.Agree) (merged : s.Merges c)
    (r : KeyFetchResp) :
    (if r.requestId ≠ 0 ∧ c.pendingFetch.any (·.requestId = r.requestId) then
      c.pendingFetch.find? (·.requestId = r.requestId)
    else c.pendingFetch.head?) = s.matched r := by
  have byId : s.pendingByReqId.get r.requestId =
      c.pendingFetch.find? (·.requestId = r.requestId) := by
    rw [OrderedMap.get, agree.byReqId, merged.pending, List.find?_map, List.find?_map,
      Option.map_map]
    rfl
  have any : c.pendingFetch.any (·.requestId = r.requestId) =
      (s.pendingByReqId.get r.requestId).isSome := by
    rw [byId, Bool.eq_iff_iff, List.any_eq_true, List.find?_isSome]
  rw [Fetches.matched, agree.get_head, any, byId, merged.pending, List.head?_map]

theorem Merges.onKeyFetchResp {K : Type} {c : Conn K} (agree : s.Agree) (merged : s.Merges c)
    (r : KeyFetchResp) : (s.onKeyFetchResp r).Merges (c.onKeyFetchResp r).1 := by
  unfold Fetches.onKeyFetchResp Conn.onKeyFetchResp
  dsimp only
  rw [merged.matched agree]
  cases found : s.matched r with
  | none => exact merged
  | some entry =>
    have held := agree.holds_of_matched found
    have left : c.pendingFetch.filter (·.requestId ≠ entry.requestId) =
        (s.pendingFetch.delete entry.username).map Prod.snd := by
      rw [merged.pending, List.filter_map, OrderedMap.delete]
      refine congrArg _ (List.filter_congr fun e member => ?_)
      exact decide_eq_decide.mpr (not_congr (agree.delete_eq held e member).symm)
    unfold outcome
    dsimp only
    split
    · exact ⟨left, merged.next, congrArg _ merged.settled⟩
    · split
      next none =>
        rw [none]
        exact ⟨left, merged.next, merged.settled⟩
      next bundle some_ =>
        rw [some_]
        exact ⟨left, merged.next, congrArg _ merged.settled⟩

end Fetches

end FinBit.Web
