import Mathlib.Data.List.Forall2
import FinBit.Lib.NestedMaps
import FinBit.Lib.Runs
import FinBit.P2P.RecordStore

/-! # Runs of a record store

Both stores hold, of each publisher and nonce, the first record that they have accepted, until it is
pruned. Pruning drops what no query returns any more, but it makes room: a record with the nonce of
one that has been pruned is accepted.
-/

namespace FinBit.P2P

open FinBit.Lib Std

inductive StoreCall (R : Type)
  | put (record : R)
  /-- `get` and `get_all`. -/
  | get (publisherPubkey : Bytes)
  | getLatest (publisherPubkey : Bytes)
  | pruneExpired

inductive StoreAnswer (R : Type)
  | put (result : PutResult)
  | records (found : List R)
  | latest (found : Option R)
  | pruned (count : Nat)

structure StoreEvent (R : Type) where
  call : StoreCall R
  now : UInt64
  answer : StoreAnswer R

section

variable {R : Type} (kind : RecordKind R)

namespace RecordStore

def serve (store : RecordStore R) (now : UInt64) :
    StoreCall R → Except String (RecordStore R × StoreAnswer R)
  | .put record => (store.put kind record now).map fun (store, result) => (store, .put result)
  | .get publisherPubkey => .ok (store, .records (store.get kind publisherPubkey now))
  | .getLatest publisherPubkey => .ok (store, .latest (store.getLatest kind publisherPubkey now))
  | .pruneExpired =>
    let (store, count) := store.pruneExpired kind now
    .ok (store, .pruned count)

def Step (store : RecordStore R) (e : StoreEvent R) (store' : RecordStore R) : Prop :=
  store.serve kind e.now e.call = .ok (store', e.answer)

/-- The record under a publisher and a record key. -/
def lookup (store : RecordStore R) (publisherPubkey key : Bytes) : Option R :=
  Nested.lookup store publisherPubkey key

def Holds (store : RecordStore R) (record : R) : Prop :=
  ∃ publisherPubkey key, store.lookup publisherPubkey key = some record

/-- The place of a record. -/
def find (store : RecordStore R) (record : R) : Option R :=
  store.lookup (kind.publisherPubkey record) (kind.recordKey record)

end RecordStore

/-! ### What is promised -/

/-- A record that an answer brings to a query for the publisher. -/
def StoreEvent.Returns (e : StoreEvent R) (publisherPubkey : Bytes) (record : R) : Prop :=
  (∃ found, e.call = .get publisherPubkey ∧ e.answer = .records found ∧ record ∈ found) ∨
    (e.call = .getLatest publisherPubkey ∧ e.answer = .latest (some record))

def StoreEvent.Accepts (e : StoreEvent R) (record : R) : Prop :=
  e.call = .put record ∧ e.answer = .put .accepted

/-- The record is dropped where it is held. -/
def StoreEvent.Drops (e : StoreEvent R) (record : R) : Prop :=
  e.call = .pruneExpired ∧ kind.expired record e.now = true

/-- Every record accepted under the publisher and the nonce has been dropped since. -/
def Cleared (events : List (StoreEvent R)) (publisherPubkey nonce : Bytes) : Prop :=
  ∀ before e after record, events = before ++ e :: after → e.Accepts record →
    kind.publisherPubkey record = publisherPubkey → kind.nonce record = nonce →
      ∃ later ∈ after, later.Drops kind record

/-- The record is the first one accepted under its publisher and nonce, those apart that have been
dropped, and it has not been dropped. -/
def FirstAccepted (events : List (StoreEvent R)) (record : R) : Prop :=
  ∃ before e after, events = before ++ e :: after ∧ e.Accepts record ∧
    Cleared kind before (kind.publisherPubkey record) (kind.nonce record) ∧
    (∀ later ∈ after, ¬later.Drops kind record) ∧
    ∀ later ∈ after, ∀ other, later.Accepts other →
      kind.publisherPubkey other = kind.publisherPubkey record → kind.nonce other ≠ kind.nonce record

/-- The same call, with the same answer where the call is one of those compared. -/
def Alike (compared : StoreCall R → Prop) (e e' : StoreEvent R) : Prop :=
  e'.call = e.call ∧ e'.now = e.now ∧ (compared e.call → e'.answer = e.answer)

/-- What both kinds have in common. -/
structure RecordKind.Lawful : Prop where
  safe : ∀ record, ¬Fails (kind.verifySignature record)
  expired_mono : ∀ record {now later : UInt64}, now ≤ later → kind.expired record now = true →
    kind.expired record later = true

variable {kind}

/-! ### One call -/

namespace RecordStore

variable {store store' : RecordStore R} {record : R} {now : UInt64}

theorem mem_get {publisherPubkey : Bytes} :
    record ∈ store.get kind publisherPubkey now ↔
      (∃ key, store.lookup publisherPubkey key = some record) ∧ kind.expired record now = false := by
  have listed : record ∈ Nested.values store publisherPubkey ↔ _ := Nested.mem_values_iff
  rw [get, List.mem_filter, Bool.not_eq_true']
  exact and_congr_left fun _ => listed

theorem mem_bucket_iff (kind : RecordKind R) (store : RecordStore R) (record : R) :
    kind.recordKey record ∈ store[kind.publisherPubkey record]?.getD ∅ ↔
      (store.find kind record).isSome :=
  ExtTreeMap.mem_iff_isSome_getElem?

/-- What `put` does where it does not reject the record. -/
theorem put_cases {result : PutResult} (done : store.put kind record now = .ok (store', result)) :
    (store' = store ∧ result ≠ .accepted) ∨
      (result = .accepted ∧ kind.verifySignature record = .ok true ∧ store.find kind record = none ∧
        store' = Nested.put store (kind.publisherPubkey record) (kind.recordKey record) record) := by
  unfold put at done
  split at done
  · cases done
    exact .inl ⟨rfl, nofun⟩
  split at done
  · cases done
    exact .inl ⟨rfl, nofun⟩
  split at done
  · cases done
    exact .inl ⟨rfl, nofun⟩
  split at done
  · cases done
  · cases done
    exact .inl ⟨rfl, nofun⟩
  next verified =>
    dsimp only at done
    split at done
    · cases done
      exact .inl ⟨rfl, nofun⟩
    next new =>
      cases done
      rw [mem_bucket_iff, Option.not_isSome_iff_eq_none] at new
      exact .inr ⟨rfl, verified, new, rfl⟩

/-- What `put` answers depends on the store only by what is at the place of the record. -/
theorem put_alike {other : RecordStore R} {result : PutResult}
    (done : store.put kind record now = .ok (store', result))
    (same : other.find kind record = store.find kind record) :
    (store' = store ∧ other.put kind record now = .ok (other, result)) ∨
      (store' = Nested.put store (kind.publisherPubkey record) (kind.recordKey record) record ∧
        other.put kind record now = .ok
          (Nested.put other (kind.publisherPubkey record) (kind.recordKey record) record, result)) := by
  unfold put at done ⊢
  dsimp only at done ⊢
  simp only [mem_bucket_iff] at done ⊢
  rw [same]
  split at done
  next format =>
    cases done
    exact .inl ⟨rfl, by rw [if_pos format]⟩
  next format =>
  rw [if_neg format]
  split at done
  next clock =>
    cases done
    exact .inl ⟨rfl, by rw [if_pos clock]⟩
  next clock =>
  rw [if_neg clock]
  split at done
  next expired =>
    cases done
    exact .inl ⟨rfl, by rw [if_pos expired]⟩
  next expired =>
  rw [if_neg expired]
  split at done
  · cases done
  next verified =>
    cases done
    exact .inl ⟨rfl, rfl⟩
  next verified =>
    split at done
    next found =>
      cases done
      exact .inl ⟨rfl, by rw [if_pos found]⟩
    next found =>
      cases done
      exact .inr ⟨rfl, by rw [if_neg found]; rfl⟩

theorem lookup_put (store : RecordStore R) (publisherPubkey key p k : Bytes) (record : R) :
    lookup (Nested.put store publisherPubkey key record) p k =
      if publisherPubkey = p ∧ key = k then some record else store.lookup p k :=
  Nested.lookup_put store publisherPubkey p key k record

theorem lookup_pruneExpired (store : RecordStore R) (now : UInt64) (p k : Bytes) :
    (store.pruneExpired kind now).1.lookup p k =
      (store.lookup p k).filter fun record => !kind.expired record now :=
  Nested.lookup_keep (fun record => !kind.expired record now) store p k

/-- What a call does to the store. -/
inductive Stepped (kind : RecordKind R) (store : RecordStore R) (e : StoreEvent R) :
    RecordStore R → Prop
  | accepts {record : R} (accepted : e.Accepts record)
      (verified : kind.verifySignature record = .ok true) (new : store.find kind record = none) :
      Stepped kind store e
        (Nested.put store (kind.publisherPubkey record) (kind.recordKey record) record)
  | prunes (call : e.call = .pruneExpired) : Stepped kind store e (store.pruneExpired kind e.now).1
  | stays (quiet : ∀ record, ¬e.Accepts record) (kept : e.call ≠ .pruneExpired) :
      Stepped kind store e store

theorem stepped {e : StoreEvent R} (taken : store.Step kind e store') :
    Stepped kind store e store' := by
  obtain ⟨call, now, answer⟩ := e
  unfold Step at taken
  cases call with
  | put record =>
    obtain ⟨⟨left, result⟩, put, equal⟩ := map_eq_ok.mp taken
    cases equal
    obtain ⟨rfl, rejected⟩ | ⟨rfl, verified, new, rfl⟩ := put_cases put
    · refine .stays ?_ nofun
      rintro other ⟨-, accepted⟩
      cases accepted
      exact rejected rfl
    · exact .accepts ⟨rfl, rfl⟩ verified new
  | get publisherPubkey =>
    obtain rfl : store = store' := congrArg Prod.fst (Except.ok.inj taken)
    exact .stays (fun _ accepts => nomatch accepts.1) nofun
  | getLatest publisherPubkey =>
    obtain rfl : store = store' := congrArg Prod.fst (Except.ok.inj taken)
    exact .stays (fun _ accepts => nomatch accepts.1) nofun
  | pruneExpired =>
    obtain rfl : (store.pruneExpired kind now).1 = store' :=
      congrArg Prod.fst (Except.ok.inj taken)
    exact .prunes rfl

/-! ### Records in their places -/

/-- Records stand under their publisher and their key, and verify. -/
def Filed (kind : RecordKind R) (store : RecordStore R) : Prop :=
  ∀ p k record, store.lookup p k = some record →
    kind.publisherPubkey record = p ∧ kind.recordKey record = k ∧
      kind.verifySignature record = .ok true

theorem Filed.step {e : StoreEvent R} (filed : Filed kind store) (taken : store.Step kind e store') :
    Filed kind store' := by
  intro p k record found
  cases stepped taken with
  | accepts accepted verified new =>
    rw [lookup_put] at found
    split at found
    next place =>
      cases found
      exact ⟨place.1, place.2, verified⟩
    · exact filed p k record found
  | prunes call =>
    rw [lookup_pruneExpired] at found
    exact filed p k record (Option.filter_eq_some_iff.mp found).1
  | stays quiet kept => exact filed p k record found

theorem Filed.holds_iff (filed : Filed kind store) :
    store.Holds record ↔ store.find kind record = some record := by
  constructor
  · rintro ⟨p, k, found⟩
    obtain ⟨rfl, rfl, -⟩ := filed p k record found
    exact found
  · exact fun found => ⟨_, _, found⟩

/-- Two records of a publisher have the same key if they have the same nonce. -/
theorem recordKey_inj {other : R} (publisher : kind.publisherPubkey record = kind.publisherPubkey other) :
    kind.recordKey record = kind.recordKey other ↔ kind.nonce record = kind.nonce other := by
  rw [RecordKind.recordKey, RecordKind.recordKey, publisher, List.append_cancel_left_eq]

/-- A key consists of the publisher and the nonce. -/
theorem Filed.publisher_nonce (filed : Filed kind store) {p n : Bytes}
    (found : store.lookup p (p ++ n) = some record) :
    kind.publisherPubkey record = p ∧ kind.nonce record = n := by
  obtain ⟨publisher, key, -⟩ := filed p _ record found
  rw [RecordKind.recordKey, publisher] at key
  exact ⟨publisher, List.append_cancel_left key⟩

theorem Filed.single (filed : Filed kind store) {other : R} (left : store.Holds record)
    (right : store.Holds other) (publisher : kind.publisherPubkey record = kind.publisherPubkey other)
    (nonce : kind.nonce record = kind.nonce other) : record = other := by
  have found := filed.holds_iff.mp left
  have found' := filed.holds_iff.mp right
  rw [find, publisher, (recordKey_inj publisher).mpr nonce] at found
  exact Option.some.inj (found.symm.trans found')

/-! ### The latest record -/

/-- The choice between the best record so far and the next one. -/
def newer (kind : RecordKind R) (best : Option R) (record : R) : Option R :=
  match best with
  | none => some record
  | some b => if kind.publishedAtMs record > kind.publishedAtMs b then some record else best

theorem getLatest_eq (store : RecordStore R) (publisherPubkey : Bytes) (now : UInt64) :
    store.getLatest kind publisherPubkey now =
      (store.get kind publisherPubkey now).foldl (newer kind) none := by
  rw [getLatest, get, List.foldl_filter]
  congr 1
  funext best record
  cases kind.expired record now <;> rfl

/-- The first of the records with the greatest date. -/
theorem foldl_newer (records : List R) (b : R) :
    ∃ latest ∈ b :: records, records.foldl (newer kind) (some b) = some latest ∧
      ∀ other ∈ b :: records, kind.publishedAtMs other ≤ kind.publishedAtMs latest := by
  induction records generalizing b with
  | nil =>
    refine ⟨b, List.mem_singleton_self b, rfl, fun other member => ?_⟩
    rw [List.mem_singleton.mp member]
    exact UInt64.le_refl _
  | cons record records ih =>
    rw [List.foldl_cons, newer]
    split
    next later =>
      obtain ⟨latest, member, found, greatest⟩ := ih record
      refine ⟨latest, List.mem_cons_of_mem _ member, found, fun other listed => ?_⟩
      obtain rfl | among := List.mem_cons.mp listed
      · exact UInt64.le_trans (UInt64.le_of_lt later) (greatest record List.mem_cons_self)
      · exact greatest other among
    next earlier =>
      obtain ⟨latest, member, found, greatest⟩ := ih b
      have before : kind.publishedAtMs record ≤ kind.publishedAtMs b := UInt64.not_lt.mp earlier
      refine ⟨latest, ?_, found, fun other listed => ?_⟩
      · obtain rfl | among := List.mem_cons.mp member
        · exact List.mem_cons_self
        · exact List.mem_cons_of_mem _ (List.mem_cons_of_mem _ among)
      · obtain rfl | among := List.mem_cons.mp listed
        · exact greatest _ List.mem_cons_self
        obtain rfl | among := List.mem_cons.mp among
        · exact UInt64.le_trans before (greatest b List.mem_cons_self)
        · exact greatest other (List.mem_cons_of_mem _ among)

theorem getLatest_spec (kind : RecordKind R) (store : RecordStore R) (publisherPubkey : Bytes)
    (now : UInt64) :
    (store.getLatest kind publisherPubkey now = none ↔ store.get kind publisherPubkey now = []) ∧
      ∀ record, store.getLatest kind publisherPubkey now = some record →
        record ∈ store.get kind publisherPubkey now ∧
          ∀ other ∈ store.get kind publisherPubkey now,
            kind.publishedAtMs other ≤ kind.publishedAtMs record := by
  rw [getLatest_eq]
  cases store.get kind publisherPubkey now with
  | nil => exact ⟨iff_of_true rfl rfl, nofun⟩
  | cons b records =>
    obtain ⟨latest, member, found, greatest⟩ := @foldl_newer R kind records b
    have answer : (b :: records).foldl (newer kind) none = some latest := found
    rw [answer]
    refine ⟨iff_of_false nofun nofun, fun record same => ?_⟩
    cases same
    exact ⟨member, greatest⟩

/-- What an answer brings is held, and verifies. -/
theorem Filed.returned {e : StoreEvent R} (filed : Filed kind store)
    (taken : store.Step kind e store') {p : Bytes} (returns : e.Returns p record) :
    kind.verifySignature record = .ok true ∧ kind.publisherPubkey record = p ∧
      kind.expired record e.now = false := by
  obtain ⟨call, now, answer⟩ := e
  have listed : record ∈ store.get kind p now := by
    obtain ⟨found, rfl, rfl, member⟩ | ⟨rfl, rfl⟩ := returns
    · have equal : StoreAnswer.records (store.get kind p now) = .records found :=
        congrArg Prod.snd (Except.ok.inj taken)
      cases equal
      exact member
    · have equal : StoreAnswer.latest (store.getLatest kind p now) = .latest (some record) :=
        congrArg Prod.snd (Except.ok.inj taken)
      injection equal with latest
      exact ((getLatest_spec kind store p now).2 record latest).1
  obtain ⟨⟨key, found⟩, fresh⟩ := mem_get.mp listed
  obtain ⟨publisher, -, verified⟩ := filed p key record found
  exact ⟨verified, publisher, fresh⟩

end RecordStore

/-! ### The first record accepted -/

section

variable {events : List (StoreEvent R)} {e : StoreEvent R} {record : R} {p n : Bytes}

/-- An event in a history to which one more has been added. -/
theorem split_concat {α : Type} {l before after : List α} {a x : α}
    (equal : l ++ [a] = before ++ x :: after) :
    (after = [] ∧ x = a ∧ before = l) ∨ ∃ rest, after = rest ++ [a] ∧ l = before ++ x :: rest := by
  obtain rfl | ⟨rest, last, rfl⟩ := List.eq_nil_or_concat after
  · obtain ⟨rfl, same⟩ := List.append_inj' equal rfl
    exact .inl ⟨rfl, (List.singleton_inj.mp same).symm, rfl⟩
  · rw [List.concat_eq_append, ← List.cons_append, ← List.append_assoc] at equal
    obtain ⟨rfl, same⟩ := List.append_inj' equal rfl
    rw [List.concat_eq_append, List.singleton_inj.mp same]
    exact .inr ⟨rest, rfl, rfl⟩

/-- Two events of a history: one of them is the earlier one, or they are the same. -/
theorem split_split {α : Type} {before after before' after' : List α} {a x : α}
    (equal : before ++ a :: after = before' ++ x :: after') :
    (∃ between, before = before' ++ x :: between ∧ after' = between ++ a :: after) ∨
      (before' = before ∧ x = a) ∨ x ∈ after := by
  obtain ⟨between, rfl, rest⟩ | ⟨between, rfl, rest⟩ := List.append_eq_append_iff.mp equal
  · cases between with
    | nil =>
      obtain ⟨rfl, rfl⟩ := List.cons_eq_cons.mp rest
      exact .inr (.inl ⟨List.append_nil _, rfl⟩)
    | cons y between =>
      obtain ⟨rfl, rfl⟩ := List.cons_eq_cons.mp rest
      exact .inr (.inr (List.mem_append_right _ List.mem_cons_self))
  · cases between with
    | nil =>
      obtain ⟨rfl, rfl⟩ := List.cons_eq_cons.mp rest
      exact .inr (.inl ⟨(List.append_nil _).symm, rfl⟩)
    | cons y between =>
      obtain ⟨rfl, rfl⟩ := List.cons_eq_cons.mp rest
      exact .inl ⟨between, rfl, rfl⟩

theorem Cleared.concat (cleared : Cleared kind events p n)
    (other : ∀ r, e.Accepts r → kind.publisherPubkey r = p → kind.nonce r ≠ n) :
    Cleared kind (events ++ [e]) p n := by
  intro before x after r equal accepts publisher nonce
  obtain ⟨rfl, rfl, rfl⟩ | ⟨rest, rfl, rfl⟩ := split_concat equal
  · exact absurd nonce (other r accepts publisher)
  · obtain ⟨later, member, drops⟩ := cleared before x rest r rfl accepts publisher nonce
    exact ⟨later, List.mem_append_left _ member, drops⟩

theorem FirstAccepted.concat (first : FirstAccepted kind events record)
    (kept : ¬e.Drops kind record)
    (other : ∀ r, e.Accepts r → kind.publisherPubkey r = kind.publisherPubkey record →
      kind.nonce r ≠ kind.nonce record) : FirstAccepted kind (events ++ [e]) record := by
  obtain ⟨before, x, after, rfl, accepts, cleared, stays, single⟩ := first
  refine ⟨before, x, after ++ [e], by simp, accepts, cleared, fun later member => ?_,
    fun later member => ?_⟩
  · obtain inside | last := List.mem_append.mp member
    · exact stays later inside
    · rw [List.mem_singleton.mp last]
      exact kept
  · obtain inside | last := List.mem_append.mp member
    · exact single later inside
    · rw [List.mem_singleton.mp last]
      exact other

theorem StoreEvent.Accepts.unique {other : R} (left : e.Accepts record) (right : e.Accepts other) :
    record = other := by
  injection left.1.symm.trans right.1

/-- When the record is dropped, nothing is left of its publisher and nonce. -/
theorem FirstAccepted.cleared (first : FirstAccepted kind events record)
    (drops : e.Drops kind record) :
    Cleared kind (events ++ [e]) (kind.publisherPubkey record) (kind.nonce record) := by
  obtain ⟨before, x, after, rfl, accepts, cleared, stays, single⟩ := first
  intro before' x' after' r equal accepts' publisher nonce
  obtain ⟨rfl, rfl, rfl⟩ | ⟨rest, rfl, split⟩ := split_concat equal
  · have call := drops.1
    rw [accepts'.1] at call
    cases call
  have last : e ∈ rest ++ [e] := List.mem_append_right _ (List.mem_singleton_self e)
  obtain ⟨between, rfl, rfl⟩ | ⟨-, rfl⟩ | behind := split_split split
  · -- an earlier one has been dropped before
    obtain ⟨later, member, dropped⟩ := cleared before' x' between r rfl accepts' publisher nonce
    exact ⟨later, by simp [member], dropped⟩
  · exact ⟨e, last, accepts.unique accepts' ▸ drops⟩
  · exact absurd nonce (single x' behind r accepts' publisher)

/-- What a history leaves under a publisher and a nonce. -/
def Leaves (kind : RecordKind R) (events : List (StoreEvent R)) (store : RecordStore R) : Prop :=
  ∀ p n, (store.lookup p (p ++ n) = none → Cleared kind events p n) ∧
    ∀ record, store.lookup p (p ++ n) = some record → FirstAccepted kind events record

theorem Leaves.step {store store' : RecordStore R} (leaves : Leaves kind events store)
    (filed : store.Filed kind) (taken : store.Step kind e store') :
    Leaves kind (events ++ [e]) store' := by
  intro p n
  obtain ⟨cleared, first⟩ := leaves p n
  cases RecordStore.stepped taken with
  | @accepts added accepted verified new =>
    rw [RecordStore.lookup_put]
    by_cases here : kind.publisherPubkey added = p ∧ kind.recordKey added = p ++ n
    · rw [if_pos here]
      refine ⟨nofun, fun record same => ?_⟩
      cases same
      obtain ⟨rfl, key⟩ := here
      have nonce : kind.nonce added = n := List.append_cancel_left key
      rw [RecordStore.find, key] at new
      subst nonce
      exact ⟨events, e, [], rfl, accepted, cleared new, nofun, nofun⟩
    · rw [if_neg here]
      have elsewhere : ∀ r, e.Accepts r → kind.publisherPubkey r = p → kind.nonce r ≠ n := by
        intro r accepts publisher nonce
        obtain rfl := accepted.unique accepts
        exact here ⟨publisher, by rw [RecordKind.recordKey, publisher, nonce]⟩
      refine ⟨fun none => (cleared none).concat elsewhere, fun record found => ?_⟩
      obtain ⟨publisher, nonce⟩ := filed.publisher_nonce found
      refine (first record found).concat (fun drops => ?_) ?_
      · have call := drops.1
        rw [accepted.1] at call
        cases call
      · rw [publisher, nonce]
        exact elsewhere
  | prunes call =>
    have none_accepted : ∀ r, ¬e.Accepts r := by
      intro r accepts
      rw [accepts.1] at call
      cases call
    rw [RecordStore.lookup_pruneExpired]
    cases found : store.lookup p (p ++ n) with
    | none =>
      exact ⟨fun _ => (cleared found).concat fun r accepts => absurd accepts (none_accepted r), nofun⟩
    | some record =>
      obtain ⟨publisher, nonce⟩ := filed.publisher_nonce found
      cases gone : kind.expired record e.now with
      | true =>
        rw [Option.filter_some, gone]
        refine ⟨fun _ => ?_, nofun⟩
        rw [← publisher, ← nonce]
        exact (first record found).cleared ⟨call, gone⟩
      | false =>
        rw [Option.filter_some, gone]
        refine ⟨nofun, fun other same => ?_⟩
        cases same
        refine (first record found).concat (fun drops => ?_) fun r accepts =>
          absurd accepts (none_accepted r)
        rw [drops.2] at gone
        cases gone
  | stays quiet kept =>
    refine ⟨fun none => (cleared none).concat fun r accepts => absurd accepts (quiet r),
      fun record found => ?_⟩
    exact (first record found).concat (fun drops => kept drops.1) fun r accepts =>
      absurd accepts (quiet r)

end

/-! ### With and without pruning -/

namespace RecordStore

variable {store pruned pruned' : RecordStore R} {now : UInt64} {removed : Bytes → Bytes → Prop}

/-- The second store misses some records that have expired. -/
def Misses (kind : RecordKind R) (now : UInt64) (removed : Bytes → Bytes → Prop)
    (store pruned : RecordStore R) : Prop :=
  ∀ p k, pruned.lookup p k = store.lookup p k ∨
    (removed p k ∧ pruned.lookup p k = none ∧
      ∃ old, store.lookup p k = some old ∧ kind.expired old now = true)

/-- What is missing is not returned anyway. -/
theorem Misses.filter (misses : Misses kind now removed store pruned) (lawful : kind.Lawful)
    {t : UInt64} (later : now ≤ t) (p k : Bytes) :
    (pruned.lookup p k).filter (fun record => !kind.expired record t) =
      (store.lookup p k).filter fun record => !kind.expired record t := by
  obtain same | ⟨-, missing, old, found, gone⟩ := misses p k
  · rw [same]
  · rw [missing, found, Option.filter_some, lawful.expired_mono old later gone]
    rfl

theorem Misses.get (misses : Misses kind now removed store pruned) (lawful : kind.Lawful)
    {t : UInt64} (later : now ≤ t) (p : Bytes) : store.get kind p t = pruned.get kind p t :=
  Nested.filter_values_congr fun k => (misses.filter lawful later p k).symm

/-- The events that do not put a record in the place of a missing one. -/
def Apart (kind : RecordKind R) (now : UInt64) (removed : Bytes → Bytes → Prop)
    (e : StoreEvent R) : Prop :=
  now ≤ e.now ∧ ∀ record, e.call = .put record →
    ¬removed (kind.publisherPubkey record) (kind.recordKey record)

theorem Misses.step (misses : Misses kind now removed store pruned) (lawful : kind.Lawful)
    {e : StoreEvent R} (apart : Apart kind now removed e) (taken : pruned.Step kind e pruned') :
    ∃ e' store', store.Step kind e' store' ∧ Alike (· ≠ .pruneExpired) e e' ∧
      Misses kind now removed store' pruned' := by
  obtain ⟨call, t, answer⟩ := e
  obtain ⟨later, elsewhere⟩ := apart
  cases call with
  | put record =>
    obtain ⟨⟨left, result⟩, put, equal⟩ := map_eq_ok.mp taken
    cases equal
    have place : store.find kind record = pruned.find kind record := by
      obtain same | ⟨gone, -⟩ := misses (kind.publisherPubkey record) (kind.recordKey record)
      · exact same.symm
      · exact absurd gone (elsewhere record rfl)
    obtain ⟨rfl, answers⟩ | ⟨rfl, answers⟩ := put_alike put place
    · refine ⟨⟨.put record, t, .put result⟩, store, ?_, ⟨rfl, rfl, fun _ => rfl⟩, misses⟩
      exact map_eq_ok.mpr ⟨_, answers, rfl⟩
    · refine ⟨⟨.put record, t, .put result⟩, _, map_eq_ok.mpr ⟨_, answers, rfl⟩,
        ⟨rfl, rfl, fun _ => rfl⟩, fun p k => ?_⟩
      rw [lookup_put, lookup_put]
      split
      · exact .inl rfl
      · exact misses p k
  | get p =>
    have equal := Except.ok.inj taken
    obtain rfl : pruned = pruned' := congrArg Prod.fst equal
    refine ⟨⟨.get p, t, .records (store.get kind p t)⟩, store, rfl, ⟨rfl, rfl, fun _ => ?_⟩, misses⟩
    rw [misses.get lawful later p]
    exact congrArg Prod.snd equal
  | getLatest p =>
    have equal := Except.ok.inj taken
    obtain rfl : pruned = pruned' := congrArg Prod.fst equal
    refine ⟨⟨.getLatest p, t, .latest (store.getLatest kind p t)⟩, store, rfl,
      ⟨rfl, rfl, fun _ => ?_⟩, misses⟩
    rw [getLatest_eq, misses.get lawful later p, ← getLatest_eq]
    exact congrArg Prod.snd equal
  | pruneExpired =>
    have equal := Except.ok.inj taken
    obtain rfl : (pruned.pruneExpired kind t).1 = pruned' := congrArg Prod.fst equal
    refine ⟨⟨.pruneExpired, t, .pruned (store.pruneExpired kind t).2⟩,
      (store.pruneExpired kind t).1, rfl, ⟨rfl, rfl, fun compared => absurd rfl compared⟩,
      fun p k => ?_⟩
    rw [lookup_pruneExpired, lookup_pruneExpired]
    exact .inl (misses.filter lawful later p k)

/-- The place of a record that is held and one that is not yet. -/
theorem Filed.apart {e : StoreEvent R} (filed : store.Filed kind) (later : now ≤ e.now)
    (other : ∀ record, e.call = .put record → ∀ old, store.Holds old → kind.expired old now = true →
      kind.publisherPubkey old = kind.publisherPubkey record → kind.nonce old ≠ kind.nonce record) :
    Apart kind now (fun p k => ∃ old, store.lookup p k = some old ∧ kind.expired old now = true) e := by
  refine ⟨later, fun record call => ?_⟩
  rintro ⟨old, found, gone⟩
  obtain ⟨publisher, key, -⟩ := filed _ _ old found
  exact other record call old ⟨_, _, found⟩ gone publisher ((recordKey_inj publisher).mp key)

end RecordStore

end

/-! ### Both stores -/

private def lapsed : ProviderRecord :=
  ⟨List.replicate 32 1, [ascii "a"], 10, 10, List.replicate 16 2, List.replicate 64 3, []⟩

private def renewed : ProviderRecord := { lapsed with publishedAtMs := 20 }

end FinBit.P2P
