import Mathlib.Data.List.AList
import FinBit.Lib.Bytes

/-! # Connection book and offline queue

`Relay` knows which socket stands for which user, in two maps that refer to each
other, and keeps the envelopes of users who are away: in memory, or in the table
`srv_offline` once persistence is enabled. It also knows which sockets follow which
channel and which sit in which room.

File descriptors are small numbers that the operating system hands out again after
they have been closed.
-/

namespace FinBit.Server

open FinBit.Lib

abbrev Fd := Nat

/-- `std::unordered_map`. -/
abbrev Map (α β : Type) := AList fun _ : α => β

/-! ### The table `srv_offline` -/

structure OfflineRow where
  id : Nat
  recipientPub : Bytes
  envelope : Bytes
  tsMs : UInt64
  deriving DecidableEq

/-- The rows in the order of their ids, and the last id given out. -/
structure SrvOffline where
  rows : List OfflineRow
  lastId : Nat

/-- `SqliteStore::srv_offline_enqueue`. A null span binds SQL `NULL`, which both columns
reject; the step then fails and the call throws. -/
def srvOfflineEnqueue (db : SrvOffline) (recipientPub envelope : Span) (timestampMs : UInt64) :
    Except String SrvOffline :=
  if recipientPub.isNull then
    .error "srv_offline_enqueue: NOT NULL constraint failed: srv_offline.recipient_pub"
  else if envelope.isNull then
    .error "srv_offline_enqueue: NOT NULL constraint failed: srv_offline.envelope"
  else
    let row : OfflineRow := ⟨db.lastId + 1, recipientPub.bytes, envelope.bytes, timestampMs⟩
    .ok ⟨db.rows ++ [row], db.lastId + 1⟩

/-- `SqliteStore::srv_offline_drain`; no row equals `NULL`. -/
def srvOfflineDrain (db : SrvOffline) (recipientPub : Span) : SrvOffline × List Bytes :=
  let mine (row : OfflineRow) : Bool := !recipientPub.isNull && row.recipientPub = recipientPub.bytes
  ({ db with rows := db.rows.filter fun row => !mine row },
    (db.rows.filter mine).map (·.envelope))

/-! ### Who is in which group -/

/-- Channels and rooms are kept alike: the sockets of a group, and the groups of a
socket. An entry that becomes empty is erased. -/
structure Membership where
  members : Map Bytes (List Fd)
  groups : Map Fd (List Bytes)

namespace Membership

/-- Append unless it is there. -/
def note {α : Type} [DecidableEq α] (x : α) (xs : List α) : List α :=
  if x ∈ xs then xs else xs ++ [x]

theorem mem_note {α : Type} [DecidableEq α] {x y : α} {xs : List α} :
    y ∈ note x xs ↔ y ∈ xs ∨ y = x := by
  unfold note
  split
  next there =>
    constructor
    · exact .inl
    · rintro (old | rfl)
      · exact old
      · exact there
  · simp

def removeFrom {α β : Type} [DecidableEq α] [DecidableEq β] (map : Map α (List β)) (key : α)
    (x : β) : Map α (List β) :=
  match map.lookup key with
  | none => map
  | some xs =>
    let rest := xs.filter (· ≠ x)
    if rest = [] then map.erase key else map.insert key rest

def join (m : Membership) (fd : Fd) (group : Bytes) : Membership where
  members := m.members.insert group (note fd ((m.members.lookup group).getD []))
  groups := m.groups.insert fd (note group ((m.groups.lookup fd).getD []))

def leave (m : Membership) (fd : Fd) (group : Bytes) : Membership where
  members := removeFrom m.members group fd
  groups := removeFrom m.groups fd group

def membersOf (m : Membership) (group : Bytes) : List Fd := (m.members.lookup group).getD []

def groupsOf (m : Membership) (fd : Fd) : List Bytes := (m.groups.lookup fd).getD []

def leaveAll (m : Membership) (fd : Fd) : Membership where
  members := (m.groupsOf fd).foldl (fun members group => removeFrom members group fd) m.members
  groups := m.groups.erase fd

end Membership

/-! ### `Relay` -/

structure Relay where
  userToFd : Map Bytes Fd
  fdToUser : Map Fd Bytes
  offline : Map Bytes (List Bytes)
  channels : Membership
  rooms : Membership
  persistent : Option SrvOffline

namespace Relay

def kMaxQueued : Nat := 1024

/-- A Relay just constructed, with persistence enabled on a table if there is one. -/
def fresh (persistent : Option SrvOffline) : Relay := ⟨∅, ∅, ∅, ⟨∅, ∅⟩, ⟨∅, ∅⟩, persistent⟩

/-- A prior socket of this user is forgotten, but stays open. -/
def bind (r : Relay) (fd : Fd) (userPubkey : Bytes) : Relay :=
  let fdToUser :=
    match r.userToFd.lookup userPubkey with
    | some prior => r.fdToUser.erase prior
    | none => r.fdToUser
  { r with
    userToFd := r.userToFd.insert userPubkey fd
    fdToUser := fdToUser.insert fd userPubkey }

def unbind (r : Relay) (fd : Fd) : Relay :=
  match r.fdToUser.lookup fd with
  | none => r
  | some user =>
    { r with
      userToFd := if r.userToFd.lookup user = some fd then r.userToFd.erase user else r.userToFd
      fdToUser := r.fdToUser.erase fd }

/-- `lookup`; the source returns `-1` for `none`. -/
def lookup (r : Relay) (userPubkey : Bytes) : Option Fd := r.userToFd.lookup userPubkey

def enqueueOffline (r : Relay) (userPubkey : Span) (envelopeBytes : Bytes) (nowMs : UInt64) :
    Except String Relay :=
  match r.persistent with
  | some db =>
    match srvOfflineEnqueue db userPubkey (Span.ofVector envelopeBytes) nowMs with
    | .error e => .error e
    | .ok db => .ok { r with persistent := some db }
  | none =>
    let q := (r.offline.lookup userPubkey.bytes).getD []
    -- the oldest entry makes room
    let q := if q.length ≥ kMaxQueued then q.drop 1 else q
    .ok { r with offline := r.offline.insert userPubkey.bytes (q ++ [envelopeBytes]) }

def drainOffline (r : Relay) (userPubkey : Bytes) : Relay × List Bytes :=
  match r.persistent with
  | some db =>
    let (db, rows) := srvOfflineDrain db (Span.ofVector userPubkey)
    ({ r with persistent := some db }, rows)
  | none =>
    match r.offline.lookup userPubkey with
    | none => (r, [])
    | some q => ({ r with offline := r.offline.erase userPubkey }, q)

def channelSubscribe (r : Relay) (fd : Fd) (groupId : Bytes) : Relay :=
  { r with channels := r.channels.join fd groupId }

def channelUnsubscribe (r : Relay) (fd : Fd) (groupId : Bytes) : Relay :=
  { r with channels := r.channels.leave fd groupId }

def channelSubscribers (r : Relay) (groupId : Bytes) : List Fd := r.channels.membersOf groupId

def unbindAllChannels (r : Relay) (fd : Fd) : Relay :=
  { r with channels := r.channels.leaveAll fd }

def roomJoin (r : Relay) (fd : Fd) (roomId : Bytes) : Relay :=
  { r with rooms := r.rooms.join fd roomId }

def roomLeave (r : Relay) (fd : Fd) (roomId : Bytes) : Relay :=
  { r with rooms := r.rooms.leave fd roomId }

def roomMemberFds (r : Relay) (roomId : Bytes) : List Fd := r.rooms.membersOf roomId

def roomMemberRooms (r : Relay) (fd : Fd) : List Bytes := r.rooms.groupsOf fd

def unbindAllRooms (r : Relay) (fd : Fd) : Relay :=
  { r with rooms := r.rooms.leaveAll fd }

/-! ### The two maps -/

/-- The socket of a user stands for that user. -/
def Paired (r : Relay) : Prop :=
  ∀ user fd, r.userToFd.lookup user = some fd → r.fdToUser.lookup fd = some user

theorem Paired.injective {r : Relay} (paired : r.Paired) {user other : Bytes} {fd : Fd}
    (one : r.userToFd.lookup user = some fd) (two : r.userToFd.lookup other = some fd) :
    user = other :=
  Option.some.inj ((paired user fd one).symm.trans (paired other fd two))

theorem lookup_bind (r : Relay) (fd : Fd) (userPubkey user : Bytes) :
    (r.bind fd userPubkey).userToFd.lookup user =
      if user = userPubkey then some fd else r.userToFd.lookup user := by
  by_cases same : user = userPubkey
  · subst same
    rw [if_pos rfl]
    exact AList.lookup_insert _
  · rw [if_neg same]
    exact AList.lookup_insert_ne same

/-- A socket may be bound that stands for nobody else. -/
theorem Paired.bind {r : Relay} (paired : r.Paired) {fd : Fd} {userPubkey : Bytes}
    (free : ∀ user, r.userToFd.lookup user = some fd → user = userPubkey) :
    (r.bind fd userPubkey).Paired := by
  intro user fd' at_fd
  rw [lookup_bind] at at_fd
  by_cases same : user = userPubkey
  · rw [if_pos same] at at_fd
    obtain rfl := Option.some.inj at_fd
    rw [same]
    exact AList.lookup_insert _
  · rw [if_neg same] at at_fd
    have other : fd' ≠ fd := by
      rintro rfl
      exact same (free user at_fd)
    have kept := paired user fd' at_fd
    change ((match r.userToFd.lookup userPubkey with
      | some prior => r.fdToUser.erase prior
      | none => r.fdToUser).insert fd userPubkey).lookup fd' = some user
    rw [AList.lookup_insert_ne other]
    split
    next prior at_prior =>
      -- the forgotten socket stood for the user that is bound
      have ne : fd' ≠ prior := by
        rintro rfl
        exact same (paired.injective at_fd at_prior)
      rw [AList.lookup_erase_ne ne]
      exact kept
    · exact kept

theorem Paired.lookup_unbind {r : Relay} (paired : r.Paired) (fd : Fd) (user : Bytes) (fd' : Fd) :
    (r.unbind fd).userToFd.lookup user = some fd' ↔
      r.userToFd.lookup user = some fd' ∧ fd' ≠ fd := by
  unfold unbind
  split
  next unbound =>
    constructor
    · intro at_fd
      refine ⟨at_fd, ?_⟩
      rintro rfl
      rw [paired user fd' at_fd] at unbound
      cases unbound
    · exact And.left
  next bound held =>
    by_cases mutual_ : r.userToFd.lookup bound = some fd
    · simp only [mutual_, if_true]
      by_cases same : user = bound
      · subst same
        rw [AList.lookup_erase, mutual_]
        simp [eq_comm]
      · rw [AList.lookup_erase_ne same]
        constructor
        · intro at_fd
          refine ⟨at_fd, ?_⟩
          rintro rfl
          exact same (paired.injective at_fd mutual_)
        · exact And.left
    · simp only [mutual_, if_false]
      constructor
      · intro at_fd
        refine ⟨at_fd, ?_⟩
        rintro rfl
        obtain rfl := Option.some.inj ((paired user fd' at_fd).symm.trans held)
        exact mutual_ at_fd
      · exact And.left

theorem Paired.unbind {r : Relay} (paired : r.Paired) (fd : Fd) : (r.unbind fd).Paired := by
  intro user fd' at_fd
  obtain ⟨before, other⟩ := (paired.lookup_unbind fd user fd').mp at_fd
  have kept := paired user fd' before
  unfold Relay.unbind
  split
  · exact kept
  · exact (AList.lookup_erase_ne other).trans kept

end Relay

end FinBit.Server
