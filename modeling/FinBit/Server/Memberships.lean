import Mathlib.Data.Set.Insert
import FinBit.Lib.Runs
import FinBit.Server.FrameOutcomes

/-! # Who follows what

The sockets of a group and the groups of a socket are two tables of lists, kept in step
by hand. Both are to say the same: which socket is in which group. This module takes that
relation as a set of pairs, shows that each operation does to the two tables what it
should do to the set, and reads off what a sequence of calls leaves behind.

A socket that is closed leaves the set. Its number may be given out again, and what the
new connection then follows it has asked for itself.
-/

namespace FinBit.Server

open FinBit.Lib

/-! ### Tables of lists -/

section Tables

variable {α β : Type} [DecidableEq α] [DecidableEq β]

/-- What a table lists under a key. -/
def listed (map : Map α (List β)) (key : α) : List β := (map.lookup key).getD []

/-- No list is empty, and none repeats an element. -/
def Tidy (map : Map α (List β)) : Prop :=
  ∀ key xs, map.lookup key = some xs → xs ≠ [] ∧ xs.Nodup

omit [DecidableEq α] in
theorem nodup_note {x : β} {xs : List β} (nodup : xs.Nodup) : (Membership.note x xs).Nodup := by
  unfold Membership.note
  split
  · exact nodup
  next absent =>
    rw [List.nodup_append]
    refine ⟨nodup, List.nodup_singleton x, ?_⟩
    intro a member b last
    rw [List.mem_singleton.mp last]
    rintro rfl
    exact absent member

omit [DecidableEq β] in
theorem Tidy.nodup_listed {map : Map α (List β)} (tidy : Tidy map) (key : α) :
    (listed map key).Nodup := by
  unfold listed
  cases found : map.lookup key with
  | none => exact List.nodup_nil
  | some xs => exact (tidy key xs found).2

/-- Where an element is listed once it has been noted under a key. -/
theorem mem_listed_insert_note {map : Map α (List β)} {key key' : α} {x y : β} :
    y ∈ listed (map.insert key (Membership.note x (listed map key))) key' ↔
      y ∈ listed map key' ∨ key' = key ∧ y = x := by
  by_cases same : key' = key
  · subst same
    simp [listed, AList.lookup_insert, Membership.mem_note]
  · simp [listed, AList.lookup_insert_ne same, same]

theorem Tidy.insert_note {map : Map α (List β)} (tidy : Tidy map) (key : α) (x : β) :
    Tidy (map.insert key (Membership.note x (listed map key))) := by
  intro key' xs found
  by_cases same : key' = key
  · subst same
    rw [AList.lookup_insert] at found
    obtain rfl := Option.some.inj found
    refine ⟨?_, nodup_note (tidy.nodup_listed key')⟩
    have there : x ∈ Membership.note x (listed map key') := Membership.mem_note.mpr (.inr rfl)
    exact List.ne_nil_of_mem there
  · rw [AList.lookup_insert_ne same] at found
    exact tidy key' xs found

theorem lookup_removeFrom_of_ne {map : Map α (List β)} {key key' : α} (other : key' ≠ key) (x : β) :
    (Membership.removeFrom map key x).lookup key' = map.lookup key' := by
  unfold Membership.removeFrom
  split
  · rfl
  · dsimp only
    split
    · exact AList.lookup_erase_ne other
    · exact AList.lookup_insert_ne other

/-- A list that becomes empty goes with its entry. -/
theorem lookup_removeFrom_self {map : Map α (List β)} {key : α} {x : β} {xs : List β} :
    (Membership.removeFrom map key x).lookup key = some xs ↔
      xs ≠ [] ∧ ∃ old, map.lookup key = some old ∧ xs = old.filter (· ≠ x) := by
  unfold Membership.removeFrom
  cases found : map.lookup key with
  | none => simp [found]
  | some old =>
    dsimp only
    split
    next empty =>
      rw [AList.lookup_erase]
      constructor
      · intro none
        cases none
      · rintro ⟨present, old', same, rfl⟩
        obtain rfl := Option.some.inj same
        exact absurd empty present
    next present =>
      rw [AList.lookup_insert]
      constructor
      · intro same
        obtain rfl := Option.some.inj same
        exact ⟨present, old, rfl, rfl⟩
      · rintro ⟨-, old', same, rfl⟩
        obtain rfl := Option.some.inj same
        rfl

omit [DecidableEq β] in
theorem mem_listed_iff {map : Map α (List β)} {key : α} {y : β} :
    y ∈ listed map key ↔ ∃ xs, map.lookup key = some xs ∧ y ∈ xs := by
  unfold listed
  cases map.lookup key <;> simp

/-- Where an element is listed once one has been removed. -/
theorem mem_listed_removeFrom {map : Map α (List β)} {key key' : α} {x y : β} :
    y ∈ listed (Membership.removeFrom map key x) key' ↔
      y ∈ listed map key' ∧ ¬(key' = key ∧ y = x) := by
  simp only [mem_listed_iff]
  by_cases same : key' = key
  · subst same
    simp only [lookup_removeFrom_self]
    constructor
    · rintro ⟨xs, ⟨-, old, found, rfl⟩, member⟩
      obtain ⟨there, other⟩ := List.mem_filter.mp member
      exact ⟨⟨old, found, there⟩, fun gone => by simp [gone.2] at other⟩
    · rintro ⟨⟨old, found, there⟩, other⟩
      have member : y ∈ old.filter (· ≠ x) :=
        List.mem_filter.mpr ⟨there, by simpa using other⟩
      exact ⟨_, ⟨List.ne_nil_of_mem member, old, found, rfl⟩, member⟩
  · simp [lookup_removeFrom_of_ne same, same]

theorem Tidy.removeFrom {map : Map α (List β)} (tidy : Tidy map) (key : α) (x : β) :
    Tidy (Membership.removeFrom map key x) := by
  intro key' xs found
  by_cases same : key' = key
  · subst same
    obtain ⟨present, old, there, rfl⟩ := lookup_removeFrom_self.mp found
    exact ⟨present, (tidy key' old there).2.filter _⟩
  · rw [lookup_removeFrom_of_ne same] at found
    exact tidy key' xs found

/-- Removing an element under each of several keys. -/
theorem mem_listed_foldl_removeFrom {map : Map α (List β)} {keys : List α} {key' : α} {x y : β} :
    y ∈ listed (keys.foldl (fun map key => Membership.removeFrom map key x) map) key' ↔
      y ∈ listed map key' ∧ ¬(key' ∈ keys ∧ y = x) := by
  induction keys generalizing map with
  | nil => simp
  | cons key rest ih =>
    rw [List.foldl_cons, ih, mem_listed_removeFrom, List.mem_cons]
    constructor
    · rintro ⟨⟨there, first⟩, others⟩
      refine ⟨there, ?_⟩
      rintro ⟨here | later, same⟩
      · exact first ⟨here, same⟩
      · exact others ⟨later, same⟩
    · rintro ⟨there, none⟩
      exact ⟨⟨there, fun first => none ⟨.inl first.1, first.2⟩⟩,
        fun other => none ⟨.inr other.1, other.2⟩⟩

theorem Tidy.foldl_removeFrom {map : Map α (List β)} (tidy : Tidy map) (keys : List α) (x : β) :
    Tidy (keys.foldl (fun map key => Membership.removeFrom map key x) map) := by
  induction keys generalizing map with
  | nil => exact tidy
  | cons key rest ih => exact ih (tidy.removeFrom key x)

end Tables

/-! ### One relation in two tables -/

namespace Membership

/-- The two tables say the same, without repetitions and without empty lists. -/
structure Exact (m : Membership) : Prop where
  inverse : ∀ fd group, fd ∈ m.membersOf group ↔ group ∈ m.groupsOf fd
  tidyMembers : Tidy m.members
  tidyGroups : Tidy m.groups

/-- Neither table mentions the socket. -/
structure Forgets (m : Membership) (fd : Fd) : Prop where
  members : ∀ group fds, m.members.lookup group = some fds → fd ∉ fds
  groups : m.groups.lookup fd = none

/-- Both tables hold the given pairs of a socket and a group. -/
structure Represents (m : Membership) (pairs : Set (Fd × Bytes)) : Prop where
  members : ∀ fd group, fd ∈ m.membersOf group ↔ (fd, group) ∈ pairs
  groups : ∀ fd group, group ∈ m.groupsOf fd ↔ (fd, group) ∈ pairs
  tidyMembers : Tidy m.members
  tidyGroups : Tidy m.groups

variable {m : Membership} {pairs : Set (Fd × Bytes)}

theorem Represents.exact (represents : m.Represents pairs) : m.Exact where
  inverse fd group := (represents.members fd group).trans (represents.groups fd group).symm
  tidyMembers := represents.tidyMembers
  tidyGroups := represents.tidyGroups

theorem Exact.represents (exact : m.Exact) :
    m.Represents {p : Fd × Bytes | p.1 ∈ m.membersOf p.2} where
  members _ _ := Iff.rfl
  groups fd group := (exact.inverse fd group).symm
  tidyMembers := exact.tidyMembers
  tidyGroups := exact.tidyGroups

theorem represents_empty : Membership.Represents ⟨∅, ∅⟩ ∅ where
  members fd group := by simp [membersOf]
  groups fd group := by simp [groupsOf]
  tidyMembers key xs found := by simp at found
  tidyGroups key xs found := by simp at found

theorem Represents.join (represents : m.Represents pairs) (fd : Fd) (group : Bytes) :
    (m.join fd group).Represents (insert (fd, group) pairs) where
  members fd' group' := by
    have noted : fd' ∈ (m.join fd group).membersOf group' ↔
        fd' ∈ m.membersOf group' ∨ group' = group ∧ fd' = fd := mem_listed_insert_note
    rw [noted, represents.members, Set.mem_insert_iff, Prod.mk.injEq, or_comm, and_comm]
  groups fd' group' := by
    have noted : group' ∈ (m.join fd group).groupsOf fd' ↔
        group' ∈ m.groupsOf fd' ∨ fd' = fd ∧ group' = group := mem_listed_insert_note
    rw [noted, represents.groups, Set.mem_insert_iff, Prod.mk.injEq, or_comm]
  tidyMembers := represents.tidyMembers.insert_note group fd
  tidyGroups := represents.tidyGroups.insert_note fd group

theorem Represents.leave (represents : m.Represents pairs) (fd : Fd) (group : Bytes) :
    (m.leave fd group).Represents (pairs \ {(fd, group)}) where
  members fd' group' := by
    have removed : fd' ∈ (m.leave fd group).membersOf group' ↔
        fd' ∈ m.membersOf group' ∧ ¬(group' = group ∧ fd' = fd) := mem_listed_removeFrom
    rw [removed, represents.members, Set.mem_sdiff, Set.mem_singleton_iff, Prod.mk.injEq,
      and_comm (a := group' = group)]
  groups fd' group' := by
    have removed : group' ∈ (m.leave fd group).groupsOf fd' ↔
        group' ∈ m.groupsOf fd' ∧ ¬(fd' = fd ∧ group' = group) := mem_listed_removeFrom
    rw [removed, represents.groups, Set.mem_sdiff, Set.mem_singleton_iff, Prod.mk.injEq]
  tidyMembers := represents.tidyMembers.removeFrom group fd
  tidyGroups := represents.tidyGroups.removeFrom fd group

/-- The pairs without a socket. -/
def without (pairs : Set (Fd × Bytes)) (fd : Fd) : Set (Fd × Bytes) := {p ∈ pairs | p.1 ≠ fd}

/-- The loop over the groups of the socket finds it wherever it is listed, since the two
tables agree. -/
theorem Represents.leaveAll (represents : m.Represents pairs) (fd : Fd) :
    (m.leaveAll fd).Represents (without pairs fd) where
  members fd' group := by
    have removed : fd' ∈ (m.leaveAll fd).membersOf group ↔
        fd' ∈ m.membersOf group ∧ ¬(group ∈ m.groupsOf fd ∧ fd' = fd) :=
      mem_listed_foldl_removeFrom
    rw [removed, represents.members, represents.groups]
    -- the loop only runs over what the other table says of the socket
    constructor
    · rintro ⟨there, other⟩
      refine ⟨there, ?_⟩
      rintro rfl
      exact other ⟨there, rfl⟩
    · rintro ⟨there, other⟩
      exact ⟨there, fun gone => other gone.2⟩
  groups fd' group := by
    change group ∈ listed (m.groups.erase fd) fd' ↔ _
    by_cases same : fd' = fd
    · subst same
      simp [listed, without, AList.lookup_erase]
    · have kept : listed (m.groups.erase fd) fd' = m.groupsOf fd' := by
        simp [listed, groupsOf, AList.lookup_erase_ne same]
      rw [kept, represents.groups]
      simp [without, same]
  tidyMembers := represents.tidyMembers.foldl_removeFrom _ fd
  tidyGroups key xs found := by
    change (m.groups.erase fd).lookup key = some xs at found
    by_cases same : key = fd
    · subst same
      rw [AList.lookup_erase] at found
      cases found
    · rw [AList.lookup_erase_ne same] at found
      exact represents.tidyGroups key xs found

/-- A socket in no pair is in no table. -/
theorem Represents.forgets (represents : m.Represents pairs) {fd : Fd}
    (none : ∀ group, (fd, group) ∉ pairs) : m.Forgets fd where
  members group fds found member := by
    apply none group
    rw [← represents.members]
    exact mem_listed_iff.mpr ⟨fds, found, member⟩
  groups := by
    rw [Option.eq_none_iff_forall_ne_some]
    intro groups found
    -- an entry would have a group in it, for none is empty
    obtain ⟨present, -⟩ := represents.tidyGroups fd groups found
    obtain ⟨group, member⟩ := List.exists_mem_of_ne_nil groups present
    apply none group
    rw [← represents.groups]
    exact mem_listed_iff.mpr ⟨groups, found, member⟩

/-! ### Moves -/

/-- What a call does to the channels, or to the rooms. -/
inductive Move where
  | join (fd : Fd) (group : Bytes)
  | leave (fd : Fd) (group : Bytes)
  | leaveAll (fd : Fd)
  | stay

def move (m : Membership) : Move → Membership
  | .join fd group => m.join fd group
  | .leave fd group => m.leave fd group
  | .leaveAll fd => m.leaveAll fd
  | .stay => m

/-- The same on the pairs. -/
def movePairs (pairs : Set (Fd × Bytes)) : Move → Set (Fd × Bytes)
  | .join fd group => insert (fd, group) pairs
  | .leave fd group => pairs \ {(fd, group)}
  | .leaveAll fd => without pairs fd
  | .stay => pairs

theorem Represents.move (represents : m.Represents pairs) (mv : Move) :
    (m.move mv).Represents (movePairs pairs mv) := by
  cases mv with
  | join fd group => exact represents.join fd group
  | leave fd group => exact represents.leave fd group
  | leaveAll fd => exact represents.leaveAll fd
  | stay => exact represents

theorem Represents.moves (represents : m.Represents pairs) (moves : List Move) :
    (moves.foldl Membership.move m).Represents (moves.foldl movePairs pairs) := by
  induction moves generalizing m pairs with
  | nil => exact represents
  | cons mv rest ih => exact ih (represents.move mv)

/-- Only a join brings a pair in. -/
theorem mem_moves {moves : List Move} {fd : Fd} {group : Bytes}
    (there : (fd, group) ∈ moves.foldl movePairs pairs) :
    (fd, group) ∈ pairs ∨ .join fd group ∈ moves := by
  induction moves generalizing pairs with
  | nil => exact .inl there
  | cons mv rest ih =>
    rcases ih there with here | later
    · cases mv with
      | join fd' group' =>
        rcases Set.mem_insert_iff.mp here with new | old
        · obtain ⟨rfl, rfl⟩ := Prod.mk.inj new
          exact .inr List.mem_cons_self
        · exact .inl old
      | leave fd' group' => exact .inl here.1
      | leaveAll fd' => exact .inl here.1
      | stay => exact .inl here
    · exact .inr (List.mem_cons_of_mem _ later)

/-- After a socket has left everything, it is where it has joined since. -/
theorem Represents.since_leaveAll (represents : m.Represents pairs) (fd : Fd) (moves : List Move) :
    (m.leaveAll fd).Forgets fd ∧
      ∀ group, fd ∈ (moves.foldl Membership.move (m.leaveAll fd)).membersOf group →
        .join fd group ∈ moves := by
  have left := represents.leaveAll fd
  have gone : ∀ group, (fd, group) ∉ without pairs fd := fun group there => there.2 rfl
  refine ⟨left.forgets gone, fun group member => ?_⟩
  rw [(left.moves moves).members] at member
  exact (mem_moves member).resolve_left (gone group)

end Membership

/-! ### Calls -/

/-- The calls that change who follows what. -/
inductive RelayCall where
  | channelSubscribe (fd : Fd) (groupId : Bytes)
  | channelUnsubscribe (fd : Fd) (groupId : Bytes)
  | roomJoin (fd : Fd) (roomId : Bytes)
  | roomLeave (fd : Fd) (roomId : Bytes)
  | closeConn (fd : Fd)

def RelayCall.onChannels : RelayCall → Membership.Move
  | .channelSubscribe fd groupId => .join fd groupId
  | .channelUnsubscribe fd groupId => .leave fd groupId
  | .closeConn fd => .leaveAll fd
  | _ => .stay

def RelayCall.onRooms : RelayCall → Membership.Move
  | .roomJoin fd roomId => .join fd roomId
  | .roomLeave fd roomId => .leave fd roomId
  | .closeConn fd => .leaveAll fd
  | _ => .stay

/-- Channels are joined by subscriptions, rooms by joins. -/
theorem channelSubscribe_of_join {calls : List RelayCall} {fd : Fd} {groupId : Bytes}
    (joined : .join fd groupId ∈ calls.map RelayCall.onChannels) :
    .channelSubscribe fd groupId ∈ calls := by
  obtain ⟨c, called, joins⟩ := List.mem_map.mp joined
  cases c <;> cases joins
  exact called

theorem roomJoin_of_join {calls : List RelayCall} {fd : Fd} {roomId : Bytes}
    (joined : .join fd roomId ∈ calls.map RelayCall.onRooms) : .roomJoin fd roomId ∈ calls := by
  obtain ⟨c, called, joins⟩ := List.mem_map.mp joined
  cases c <;> cases joins
  exact called

namespace Relay

/-- One call; `close_conn` makes three of them on the book. -/
def call (r : Relay) : RelayCall → Relay
  | .channelSubscribe fd groupId => r.channelSubscribe fd groupId
  | .channelUnsubscribe fd groupId => r.channelUnsubscribe fd groupId
  | .roomJoin fd roomId => r.roomJoin fd roomId
  | .roomLeave fd roomId => r.roomLeave fd roomId
  | .closeConn fd => ((r.unbind fd).unbindAllChannels fd).unbindAllRooms fd

/-- Binding and unbinding a user is none of the memberships' business. -/
theorem unbind_memberships (r : Relay) (fd : Fd) :
    (r.unbind fd).channels = r.channels ∧ (r.unbind fd).rooms = r.rooms := by
  unfold unbind
  split <;> exact ⟨rfl, rfl⟩

theorem call_memberships (r : Relay) (c : RelayCall) :
    (r.call c).channels = r.channels.move c.onChannels ∧
      (r.call c).rooms = r.rooms.move c.onRooms := by
  cases c with
  | closeConn fd =>
    obtain ⟨channels, rooms⟩ := r.unbind_memberships fd
    simp [call, unbindAllChannels, unbindAllRooms, RelayCall.onChannels, RelayCall.onRooms,
      Membership.move, channels, rooms]
  | channelSubscribe | channelUnsubscribe | roomJoin | roomLeave => exact ⟨rfl, rfl⟩

theorem calls_memberships (r : Relay) (calls : List RelayCall) :
    (calls.foldl call r).channels = (calls.map RelayCall.onChannels).foldl Membership.move r.channels ∧
      (calls.foldl call r).rooms = (calls.map RelayCall.onRooms).foldl Membership.move r.rooms := by
  induction calls generalizing r with
  | nil => exact ⟨rfl, rfl⟩
  | cons c rest ih =>
    obtain ⟨channels, rooms⟩ := r.call_memberships c
    simpa [channels, rooms] using ih (r.call c)

theorem calls_represent (persistent : Option SrvOffline) (calls : List RelayCall) :
    ∃ channels rooms, (calls.foldl call (.fresh persistent)).channels.Represents channels ∧
      (calls.foldl call (.fresh persistent)).rooms.Represents rooms := by
  obtain ⟨channels, rooms⟩ := calls_memberships (.fresh persistent) calls
  rw [channels, rooms]
  exact ⟨_, _, Membership.represents_empty.moves _, Membership.represents_empty.moves _⟩

end Relay

/-- After every sequence of calls the tables are exact. A socket that is closed is in none
of them, and later only where it has been put since. -/
theorem memberships_exact (persistent : Option SrvOffline) (calls before after : List RelayCall)
    (fd : Fd) :
    let r := calls.foldl Relay.call (.fresh persistent)
    let closed := (before ++ [RelayCall.closeConn fd]).foldl Relay.call (.fresh persistent)
    let later := after.foldl Relay.call closed
    (r.channels.Exact ∧ r.rooms.Exact) ∧
    (closed.channels.Forgets fd ∧ closed.rooms.Forgets fd) ∧
    (∀ groupId, fd ∈ later.channelSubscribers groupId → .channelSubscribe fd groupId ∈ after) ∧
    ∀ roomId, fd ∈ later.roomMemberFds roomId → .roomJoin fd roomId ∈ after := by
  obtain ⟨channels, rooms, one, two⟩ := Relay.calls_represent persistent calls
  obtain ⟨channels', rooms', open_, in_⟩ := Relay.calls_represent persistent before
  have closing := Relay.call_memberships (before.foldl Relay.call (.fresh persistent)) (.closeConn fd)
  have since := Relay.calls_memberships
    ((before ++ [RelayCall.closeConn fd]).foldl Relay.call (.fresh persistent)) after
  simp only [List.foldl_append, List.foldl_cons, List.foldl_nil] at since ⊢
  obtain ⟨goneChannels, channelsSince⟩ := open_.since_leaveAll fd (after.map RelayCall.onChannels)
  obtain ⟨goneRooms, roomsSince⟩ := in_.since_leaveAll fd (after.map RelayCall.onRooms)
  refine ⟨⟨one.exact, two.exact⟩, ⟨?_, ?_⟩, ?_, ?_⟩
  · rw [closing.1]
    exact goneChannels
  · rw [closing.2]
    exact goneRooms
  · intro groupId member
    rw [Relay.channelSubscribers, since.1, closing.1] at member
    exact channelSubscribe_of_join (channelsSince groupId member)
  · intro roomId member
    rw [Relay.roomMemberFds, since.2, closing.2] at member
    exact roomJoin_of_join (roomsSince roomId member)

/-- Socket 5 leaves a channel and a room behind, and follows another channel when its
number is given out again. -/
theorem memberships_exact_reused :
    let closed := [.channelSubscribe 5 [1], .roomJoin 5 [3], .closeConn 5].foldl Relay.call
      (.fresh none)
    let later := [.channelSubscribe 5 [2]].foldl Relay.call closed
    (closed.channels.Forgets 5 ∧ closed.rooms.Forgets 5) ∧ 5 ∈ later.channelSubscribers [2] ∧
      5 ∉ later.channelSubscribers [1] := by
  obtain ⟨-, gone, since, -⟩ := memberships_exact none [] [.channelSubscribe 5 [1], .roomJoin 5 [3]]
    [.channelSubscribe 5 [2]] 5
  refine ⟨gone, by decide, fun member => ?_⟩
  have asked := since [1] member
  simp at asked

/-! ### The server

Whatever a step of the server does to its memberships it does by such calls, and a
connection is put somewhere only by a frame of its own. -/

section

variable {B L : Type} {O : RelayOutside B L} {s s' : RelayServer L} {fd : Fd} {c : Conn}
  {draws : RelayDraws} {writes : List (Write B)} {event : RelayEvent}

/-- The calls lead from the memberships of one book to those of another. -/
structure Leads (calls : List RelayCall) (r r' : Relay) : Prop where
  channels : r'.channels = (calls.foldl Relay.call r).channels
  rooms : r'.rooms = (calls.foldl Relay.call r).rooms

/-- Every subscription and every room among the calls is asked for by the event. -/
structure Asked (O : RelayOutside B L) (event : RelayEvent) (calls : List RelayCall) : Prop where
  channels : ∀ fd groupId, .channelSubscribe fd groupId ∈ calls →
    ∃ bytes draws, event = .frame fd bytes draws ∧
      O.frame.decode bytes = some (.chanSubscribe groupId)
  rooms : ∀ fd roomId, .roomJoin fd roomId ∈ calls →
    ∃ bytes draws uplinkClass, event = .frame fd bytes draws ∧
      O.frame.decode bytes = some (.roomJoin roomId uplinkClass)

theorem Leads.nil {r r' : Relay} (same : r'.channels = r.channels ∧ r'.rooms = r.rooms) :
    Leads [] r r' := ⟨same.1, same.2⟩

theorem asked_nil : Asked O event [] := ⟨by simp, by simp⟩

/-- A call that puts nobody anywhere. -/
theorem asked_one {call : RelayCall} (channels : ∀ fd groupId, call ≠ .channelSubscribe fd groupId)
    (rooms : ∀ fd roomId, call ≠ .roomJoin fd roomId) : Asked O event [call] where
  channels fd groupId member := absurd (List.mem_singleton.mp member).symm (channels fd groupId)
  rooms fd roomId member := absurd (List.mem_singleton.mp member).symm (rooms fd roomId)

theorem drainOffline_memberships (r : Relay) (user : Bytes) :
    (r.drainOffline user).1.channels = r.channels ∧ (r.drainOffline user).1.rooms = r.rooms := by
  unfold Relay.drainOffline
  split
  · exact ⟨rfl, rfl⟩
  · split <;> exact ⟨rfl, rfl⟩

theorem enqueueOffline_memberships {r r' : Relay} {user : Span} {envelope : Bytes} {nowMs : UInt64}
    (queued : r.enqueueOffline user envelope nowMs = .ok r') :
    r'.channels = r.channels ∧ r'.rooms = r.rooms := by
  unfold Relay.enqueueOffline at queued
  split at queued
  · split at queued
    · cases queued
    · cases queued
      exact ⟨rfl, rfl⟩
  · cases queued
    exact ⟨rfl, rfl⟩

/-- The handlers that leave the memberships alone. -/
theorem onHelloAck_memberships (signature : Bytes) :
    (s.onHelloAck O fd c signature).1.relay.channels = s.relay.channels ∧
      (s.onHelloAck O fd c signature).1.relay.rooms = s.relay.rooms := by
  unfold RelayServer.onHelloAck
  split
  · exact ⟨rfl, rfl⟩
  split
  · exact ⟨rfl, rfl⟩
  split
  · exact ⟨rfl, rfl⟩
  split
  · dsimp only
    split
    · exact drainOffline_memberships _ _
    · exact ⟨rfl, rfl⟩
  · exact drainOffline_memberships _ _

theorem onDirectEnvelope_memberships {env : Envelope} {recipient : Bytes}
    (done : s.onDirectEnvelope O fd c draws env recipient = .ok (s', writes)) :
    s'.relay.channels = s.relay.channels ∧ s'.relay.rooms = s.relay.rooms := by
  obtain ⟨-, relay, -⟩ := consume_frame (O := O) s c draws.clock env
  unfold RelayServer.onDirectEnvelope at done
  -- the token of the rate limiter is all that is taken before the recipient is looked up
  generalize s.consume O c draws.clock env = consumed at done relay
  obtain ⟨t, ok⟩ := consumed
  dsimp only at done relay
  rw [← relay]
  split at done
  · cases done
    exact ⟨rfl, rfl⟩
  · split at done
    · split at done <;> cases done <;> exact ⟨rfl, rfl⟩
    · split at done
      · cases done
      next queued =>
        cases done
        exact enqueueOffline_memberships queued

theorem dispatch_calls {bytes : Bytes} {f : Frame B} (decoded : O.frame.decode bytes = some f)
    (done : s.dispatch O fd c draws f = .ok (s', writes)) :
    ∃ calls, Leads calls s.relay s'.relay ∧ Asked O (.frame fd bytes draws) calls := by
  have still (same : s'.relay.channels = s.relay.channels ∧ s'.relay.rooms = s.relay.rooms) :
      ∃ calls, Leads calls s.relay s'.relay ∧ Asked O (.frame fd bytes draws) calls :=
    ⟨[], .nil same, asked_nil⟩
  have kept (same : s'.relay = s.relay) := still ⟨by rw [same], by rw [same]⟩
  -- four frames make a call of their own, none of the others touches a table
  cases f with
  | chanSubscribe groupId =>
    simp only [RelayServer.dispatch] at done
    split at done
    · cases done
      refine ⟨[.channelSubscribe fd groupId], ⟨rfl, rfl⟩, ?_, by simp⟩
      intro fd' groupId' member
      obtain ⟨rfl, rfl⟩ := RelayCall.channelSubscribe.inj (List.mem_singleton.mp member)
      exact ⟨bytes, draws, rfl, decoded⟩
    · cases done
      exact kept rfl
  | chanUnsubscribe groupId =>
    simp only [RelayServer.dispatch] at done
    split at done
    · cases done
      exact ⟨[.channelUnsubscribe fd groupId], ⟨rfl, rfl⟩, asked_one (by simp) (by simp)⟩
    · cases done
      exact kept rfl
  | roomJoin roomId uplinkClass =>
    simp only [RelayServer.dispatch] at done
    split at done
    · cases done
      exact kept rfl
    · cases done
      refine ⟨[.roomJoin fd roomId], ⟨rfl, rfl⟩, by simp, ?_⟩
      intro fd' roomId' member
      obtain ⟨rfl, rfl⟩ := RelayCall.roomJoin.inj (List.mem_singleton.mp member)
      exact ⟨bytes, draws, uplinkClass, rfl, decoded⟩
  | roomLeave roomId =>
    simp only [RelayServer.dispatch] at done
    split at done
    · cases done
      exact kept rfl
    · cases done
      exact ⟨[.roomLeave fd roomId], ⟨rfl, rfl⟩, asked_one (by simp) (by simp)⟩
  | hello pubkey username =>
    obtain ⟨rfl, -⟩ := Prod.ext_iff.mp (Except.ok.inj done)
    apply kept
    unfold RelayServer.onHello
    split
    · rfl
    split
    · rfl
    · dsimp only
      split <;> rfl
  | helloAck signature =>
    obtain ⟨rfl, -⟩ := Prod.ext_iff.mp (Except.ok.inj done)
    exact still (onHelloAck_memberships signature)
  | keyFetch username requestId =>
    obtain ⟨rfl, -⟩ := Prod.ext_iff.mp (Except.ok.inj done)
    exact kept (onKeyFetch_quiet O s fd username requestId).2.1
  | usernameLookup pubkey =>
    obtain ⟨rfl, -⟩ := Prod.ext_iff.mp (Except.ok.inj done)
    exact kept (onUsernameLookup_quiet O s fd pubkey).2.1
  | registerReq claimPubkey claimUsername =>
    obtain ⟨rfl, -⟩ := Prod.ext_iff.mp (Except.ok.inj done)
    exact kept (onRegisterReq_quiet (B := B) s fd c claimPubkey claimUsername).2.1
  | envelope env =>
    simp only [RelayServer.dispatch] at done
    split at done
    next groupId _ =>
      obtain ⟨rfl, -⟩ := Prod.ext_iff.mp (Except.ok.inj done)
      exact kept (onChannelEnvelope_quiet O s fd c draws.clock env groupId).2.1
    · exact still (onDirectEnvelope_memberships done)
    · cases done
      exact kept rfl
  | _ =>
    cases done
    exact kept rfl

theorem closeConn_call (done : s.closeConn O fd = .ok (s', writes)) :
    s'.relay = s.relay.call (.closeConn fd) := by
  obtain ⟨⟨bufs, rfl⟩, -⟩ := closeConn_ok done
  rfl

theorem Leads.close {calls : List RelayCall} {r : Relay} (leads : Leads calls r s.relay)
    (done : s.closeConn O fd = .ok (s', writes)) :
    Leads (calls ++ [.closeConn fd]) r s'.relay := by
  obtain ⟨channels, rooms⟩ := s.relay.call_memberships (.closeConn fd)
  obtain ⟨channels', rooms'⟩ := (calls.foldl Relay.call r).call_memberships (.closeConn fd)
  rw [closeConn_call done]
  constructor
  · rw [channels, leads.channels, List.foldl_append, List.foldl_cons, List.foldl_nil, channels']
  · rw [rooms, leads.rooms, List.foldl_append, List.foldl_cons, List.foldl_nil, rooms']

theorem Asked.close {calls : List RelayCall} (asked : Asked O event calls) (fd : Fd) :
    Asked O event (calls ++ [.closeConn fd]) where
  channels fd' groupId member := asked.channels fd' groupId (by simpa using member)
  rooms fd' roomId member := asked.rooms fd' roomId (by simpa using member)

theorem handleFrame_calls {bytes : Bytes}
    (done : s.handleFrame O fd c draws bytes = .ok (s', writes)) :
    ∃ calls, Leads calls s.relay s'.relay ∧ Asked O (.frame fd bytes draws) calls := by
  cases handledFrame done with
  | malformed | early => exact ⟨[], .nil ⟨rfl, rfl⟩, asked_nil⟩
  | dispatched decoded _ dispatched =>
    obtain ⟨calls, leads, asked⟩ := dispatch_calls decoded dispatched
    exact ⟨calls, ⟨leads.channels, leads.rooms⟩, asked⟩

theorem step_calls (done : s.step O event = .ok (s', writes)) :
    ∃ calls, Leads calls s.relay s'.relay ∧ Asked O event calls := by
  cases stepTaken done with
  | frame _ handled => exact handleFrame_calls handled
  | frameClosed _ handled closed =>
    -- a connection that wants to close is closed in the same step
    obtain ⟨calls, leads, asked⟩ := handleFrame_calls handled
    exact ⟨_, leads.close closed, asked.close _⟩
  | closed done => exact ⟨_, (Leads.nil ⟨rfl, rfl⟩).close done, asked_nil.close _⟩
  | accepted | frameUnknown | closedUnknown | flushed => exact ⟨[], .nil ⟨rfl, rfl⟩, asked_nil⟩

/-- Calls put a socket where they say. -/
theorem Leads.exact {calls : List RelayCall} {r r' : Relay} (leads : Leads calls r r')
    (channels : r.channels.Exact) (rooms : r.rooms.Exact) :
    (r'.channels.Exact ∧ r'.rooms.Exact) ∧
    (∀ fd groupId, fd ∈ r'.channelSubscribers groupId →
      fd ∈ r.channelSubscribers groupId ∨ .channelSubscribe fd groupId ∈ calls) ∧
    ∀ fd roomId, fd ∈ r'.roomMemberFds roomId →
      fd ∈ r.roomMemberFds roomId ∨ .roomJoin fd roomId ∈ calls := by
  obtain ⟨moves, moves'⟩ := r.calls_memberships calls
  have one := channels.represents.moves (calls.map RelayCall.onChannels)
  have two := rooms.represents.moves (calls.map RelayCall.onRooms)
  rw [← moves, ← leads.channels] at one
  rw [← moves', ← leads.rooms] at two
  refine ⟨⟨one.exact, two.exact⟩, ?_, ?_⟩
  · intro fd groupId member
    rcases Membership.mem_moves ((one.members fd groupId).mp member) with before | joined
    · exact .inl before
    · exact .inr (channelSubscribe_of_join joined)
  · intro fd roomId member
    rcases Membership.mem_moves ((two.members fd roomId).mp member) with before | joined
    · exact .inl before
    · exact .inr (roomJoin_of_join joined)

/-- Steps of the server, labelled with the event and what is written. -/
def Served (O : RelayOutside B L) (s : RelayServer L) (label : RelayEvent × List (Write B))
    (s' : RelayServer L) : Prop := s.step O label.1 = .ok (s', label.2)

variable {labels : List (RelayEvent × List (Write B))}

/-- In every state that a server reaches, its memberships are exact. -/
theorem served_memberships {db : Option (SrvOffline × SrvDirectory × Map Bytes Bytes)} {limiter : L}
    (run : Run (Served O) (RelayServer.boot db limiter) labels s) :
    s.relay.channels.Exact ∧ s.relay.rooms.Exact := by
  apply run.invariant (fun s => s.relay.channels.Exact ∧ s.relay.rooms.Exact)
  · rintro s label s' ⟨channels, rooms⟩ done
    obtain ⟨calls, leads, -⟩ := step_calls done
    exact (leads.exact channels rooms).1
  · exact ⟨Membership.represents_empty.exact, Membership.represents_empty.exact⟩

/-- From a state in which nobody mentions a socket, it gets what is sent to a channel or a
room only after a frame of its own has asked for it. -/
theorem served_since_forgotten (exact : s.relay.channels.Exact ∧ s.relay.rooms.Exact)
    (forgotten : s.relay.channels.Forgets fd ∧ s.relay.rooms.Forgets fd)
    (run : Run (Served O) s labels s') :
    (∀ groupId, fd ∈ s'.relay.channelSubscribers groupId → ∃ bytes draws writes,
      (.frame fd bytes draws, writes) ∈ labels ∧
        O.frame.decode bytes = some (.chanSubscribe groupId)) ∧
    ∀ roomId, fd ∈ s'.relay.roomMemberFds roomId → ∃ bytes draws writes uplinkClass,
      (.frame fd bytes draws, writes) ∈ labels ∧
        O.frame.decode bytes = some (.roomJoin roomId uplinkClass) := by
  have inv := run.invariant_history (fun history s' =>
    (s'.relay.channels.Exact ∧ s'.relay.rooms.Exact) ∧
    (∀ groupId, fd ∈ s'.relay.channelSubscribers groupId → ∃ bytes draws writes,
      (.frame fd bytes draws, writes) ∈ history ∧
        O.frame.decode bytes = some (.chanSubscribe groupId)) ∧
    ∀ roomId, fd ∈ s'.relay.roomMemberFds roomId → ∃ bytes draws writes uplinkClass,
      (.frame fd bytes draws, writes) ∈ history ∧
        O.frame.decode bytes = some (.roomJoin roomId uplinkClass)) ?_ ?_
  · exact inv.2
  · -- what was asked for stays asked for, and a step adds what its own frame says
    rintro history s ⟨event, writes⟩ s' ⟨⟨channels, rooms⟩, subscribed, joined⟩ done
    obtain ⟨calls, leads, asked⟩ := step_calls done
    obtain ⟨exact', newChannels, newRooms⟩ := leads.exact channels rooms
    refine ⟨exact', fun groupId member => ?_, fun roomId member => ?_⟩
    · rcases newChannels fd groupId member with before | called
      · obtain ⟨bytes, draws, writes', inside, decoded⟩ := subscribed groupId before
        exact ⟨bytes, draws, writes', List.mem_append_left _ inside, decoded⟩
      · obtain ⟨bytes, draws, rfl, decoded⟩ := asked.channels fd groupId called
        exact ⟨bytes, draws, writes, by simp, decoded⟩
    · rcases newRooms fd roomId member with before | called
      · obtain ⟨bytes, draws, writes', uplinkClass, inside, decoded⟩ := joined roomId before
        exact ⟨bytes, draws, writes', uplinkClass, List.mem_append_left _ inside, decoded⟩
      · obtain ⟨bytes, draws, uplinkClass, rfl, decoded⟩ := asked.rooms fd roomId called
        exact ⟨bytes, draws, writes, uplinkClass, by simp, decoded⟩
  · refine ⟨exact, fun groupId member => ?_, fun roomId member => ?_⟩
    · obtain ⟨fds, found, inside⟩ := mem_listed_iff.mp member
      exact absurd inside (forgotten.1.members groupId fds found)
    · obtain ⟨fds, found, inside⟩ := mem_listed_iff.mp member
      exact absurd inside (forgotten.2.members roomId fds found)

end

end FinBit.Server
