import FinBit.Lib.Rotation
import FinBit.Media.RoomKeys

/-! # Room keys follow the epoch

What the registry holds after any calls, in terms of the secrets that were accepted: the current
secret, the one before it, and in the cache only keys that were derived from one of the two.
-/

namespace FinBit.Media

open FinBit.Lib

inductive RoomKeyCall
  | setSecret (secret : Bytes) (epoch : UInt32)
  | openKey (senderPubkey : Bytes) (frameEpoch : UInt32)

/-- A secret that was accepted for an epoch, and when. -/
abbrev RoomSecret := Generation UInt32 Bytes

namespace RoomKeyRegistry

section

variable (derive : Bytes → Bytes → UInt32 → Bytes)

/-- One call, with the time at which it is made. -/
def call (r : RoomKeyRegistry) : Nat × RoomKeyCall → RoomKeyRegistry
  | (now, .setSecret secret epoch) => r.setSecret derive now secret epoch
  | (now, .openKey senderPubkey frameEpoch) => (r.openKey derive now senderPubkey frameEpoch).1

def calls (r : RoomKeyRegistry) (made : List (Nat × RoomKeyCall)) : RoomKeyRegistry :=
  made.foldl (call derive) r

/-- A secret is accepted with an epoch above that of the last one. -/
def accept (accepted : List RoomSecret) : Nat × RoomKeyCall → List RoomSecret
  | (now, .setSecret secret epoch) => Generation.install accepted ⟨epoch, secret, now⟩
  | (_, .openKey _ _) => accepted

/-- The secrets that were accepted, the newest first. -/
def accepted (made : List (Nat × RoomKeyCall)) : List RoomSecret :=
  made.foldl accept []

structure Current (r : RoomKeyRegistry) (a : RoomSecret) : Prop where
  has : r.has = true
  epoch : r.curEpoch = a.number
  secret : r.curSecret = a.secret
  sealing : r.curSeal = ⟨derive a.secret r.myPubkey a.number, a.number⟩

structure Previous (r : RoomKeyRegistry) (a b : RoomSecret) : Prop where
  has : r.hasPrev = true
  epoch : r.prevEpoch = b.number
  secret : r.prevSecret = b.secret
  expires : r.prevUntil = a.since + r.grace

/-- The two slots of the registry. -/
inductive Slots (r : RoomKeyRegistry) : List RoomSecret → Prop
  | empty (has : r.has = false) (hasPrev : r.hasPrev = false) (epoch : r.curEpoch = 0) : Slots r []
  | first {a : RoomSecret} (current : Current derive r a) (hasPrev : r.hasPrev = false) : Slots r [a]
  | rotated {a b : RoomSecret} {rest : List RoomSecret} (current : Current derive r a)
      (previous : Previous r a b) : Slots r (a :: b :: rest)

/-- The slots and the cache after a run. -/
structure Follows (r : RoomKeyRegistry) (accepted : List RoomSecret) : Prop where
  slots : Slots derive r accepted
  rising : Generation.Rising accepted
  cached : ∀ senderPubkey epoch key, r.cache (senderPubkey, epoch) = some key →
    ∃ a ∈ accepted.take 2, a.number = epoch ∧ key = derive a.secret senderPubkey epoch

end

section

variable {derive : Bytes → Bytes → UInt32 → Bytes} {r : RoomKeyRegistry}
  {accepted : List RoomSecret}

theorem follows_new (derive : Bytes → Bytes → UInt32 → Bytes) (myPubkey : Bytes) (grace : Nat) :
    Follows derive (new myPubkey grace) [] where
  slots := .empty rfl rfl rfl
  rising := .nil
  cached := nofun

/-! ### A new secret -/

theorem setSecret_of_stale {now : Nat} {secret : Bytes} {epoch : UInt32} {a : RoomSecret}
    (current : Current derive r a) (stale : ¬a.number < epoch) :
    r.setSecret derive now secret epoch = r := by
  rw [setSecret, if_pos]
  rw [current.epoch]
  exact ⟨current.has, UInt32.not_lt.mp stale⟩

/-- The current secret becomes the previous one, and the cache keeps what belongs to the two. -/
theorem setSecret_of_higher {epoch : UInt32} {a : RoomSecret} (current : Current derive r a)
    (higher : a.number < epoch) (now : Nat) (secret : Bytes) (rest : List RoomSecret) :
    Slots derive (r.setSecret derive now secret epoch) (⟨epoch, secret, now⟩ :: a :: rest) ∧
      ∀ senderPubkey e, (r.setSecret derive now secret epoch).cache (senderPubkey, e) =
        if e = epoch ∨ e = a.number then r.cache (senderPubkey, e) else none := by
  have fresh : ¬(r.has = true ∧ epoch ≤ r.curEpoch) := by
    rw [current.epoch]
    exact fun both => UInt32.not_lt.mpr both.2 higher
  rw [setSecret, if_neg fresh, retire, if_pos current.has]
  constructor
  · exact .rotated ⟨rfl, rfl, rfl, rfl⟩ ⟨rfl, current.epoch, current.secret, rfl⟩
  · intro senderPubkey e
    simp only [current.epoch, true_and]

/-- There is no secret yet, or a current one. -/
theorem Slots.current (slots : Slots derive r accepted) :
    accepted = [] ∨ ∃ a rest, accepted = a :: rest ∧ Current derive r a := by
  cases slots with
  | empty => exact .inl rfl
  | first current => exact .inr ⟨_, _, rfl, current⟩
  | rotated current => exact .inr ⟨_, _, rfl, current⟩

theorem Follows.setSecret (follows : Follows derive r accepted) (now : Nat) (secret : Bytes)
    (epoch : UInt32) :
    Follows derive (r.setSecret derive now secret epoch)
      (Generation.install accepted ⟨epoch, secret, now⟩) := by
  have rising := follows.rising.install (g := ⟨epoch, secret, now⟩)
  obtain rfl | ⟨a, rest, rfl, current⟩ := follows.slots.current
  · -- the first secret; the cache is empty
    have empty (k : Bytes × UInt32) : r.cache k = none := by
      cases held : r.cache k with
      | none => rfl
      | some key =>
        obtain ⟨a, member, -⟩ := follows.cached k.1 k.2 key held
        cases member
    cases follows.slots with
    | empty has hasPrev =>
      rw [RoomKeyRegistry.setSecret, if_neg (by simp [has]), retire, if_neg (by simp [has])]
      refine ⟨.first ⟨rfl, rfl, rfl, rfl⟩ hasPrev, rising, ?_⟩
      intro senderPubkey e key held
      simp [empty] at held
  · rw [Generation.install] at rising ⊢
    split
    next higher =>
      rw [if_pos higher] at rising
      obtain ⟨slots, cache⟩ := setSecret_of_higher current higher now secret rest
      refine ⟨slots, rising, ?_⟩
      intro senderPubkey e key held
      rw [cache] at held
      split at held
      next kept =>
        obtain ⟨b, member, number, derived⟩ := follows.cached senderPubkey e key held
        have listed : b ∈ a :: rest := List.mem_of_mem_take member
        -- an older secret has neither of the two epochs
        have newest : b = a := by
          apply follows.rising.unique listed List.mem_cons_self
          obtain rfl | rfl := kept
          · have lower := (List.pairwise_cons.mp rising).1 b listed
            rw [number] at lower
            exact absurd lower (UInt32.lt_irrefl _)
          · exact number
        exact ⟨a, by simp, newest ▸ number, newest ▸ derived⟩
      next => cases held
    next stale =>
      rw [setSecret_of_stale current stale]
      exact follows

/-! ### Opening a frame -/

theorem slots_cache (slots : Slots derive r accepted) (cache : Bytes × UInt32 → Option Bytes) :
    Slots derive { r with cache := cache } accepted := by
  cases slots with
  | empty has hasPrev epoch => exact .empty has hasPrev epoch
  | first current hasPrev =>
    exact .first ⟨current.has, current.epoch, current.secret, current.sealing⟩ hasPrev
  | rotated current previous =>
    exact .rotated ⟨current.has, current.epoch, current.secret, current.sealing⟩
      ⟨previous.has, previous.epoch, previous.secret, previous.expires⟩

/-- The secret that covers an epoch is the one that was accepted for it, while it is good. -/
theorem coveringSecret_eq (slots : Slots derive r accepted) (now : Nat) (frameEpoch : UInt32) :
    r.coveringSecret now frameEpoch =
      ((Generation.live r.grace now accepted).find? fun a => a.number = frameEpoch).map
        Generation.secret := by
  rw [coveringSecret]
  cases slots with
  | empty has hasPrev => simp [has, hasPrev, Generation.live]
  | @first a current hasPrev =>
    rw [Generation.live, List.find?_cons, current.has, current.epoch, current.secret, hasPrev]
    · by_cases here : frameEpoch = a.number
      · simp [here]
      · simp [here, Ne.symm here]
    · simp
  | @rotated a b rest current previous =>
    rw [Generation.live, current.has, current.epoch, current.secret, previous.has, previous.epoch,
      previous.secret, previous.expires]
    by_cases inTime : now < a.since + r.grace
    · rw [if_pos inTime]
      by_cases here : frameEpoch = a.number
      · simp [here]
      · by_cases before : frameEpoch = b.number
        · rw [before] at here
          simp [inTime, before, here, Ne.symm here]
        · simp [here, inTime, before, Ne.symm here, Ne.symm before]
    · rw [if_neg inTime]
      by_cases here : frameEpoch = a.number
      · simp [here]
      · simp [here, inTime, Ne.symm here]

theorem found_live {grace now : Nat} {frameEpoch : UInt32} {a : RoomSecret}
    (found : ((Generation.live grace now accepted).find? fun a => a.number = frameEpoch) = some a) :
    a ∈ accepted.take 2 ∧ a.number = frameEpoch := by
  have covers := List.find?_some found
  exact ⟨Generation.live_subset _ _ _ (List.mem_of_find?_eq_some found), of_decide_eq_true covers⟩

/-- What is in the cache is what would be derived. -/
theorem openKey_eq (follows : Follows derive r accepted) (now : Nat) (senderPubkey : Bytes)
    (frameEpoch : UInt32) :
    (r.openKey derive now senderPubkey frameEpoch).2 =
      ((Generation.live r.grace now accepted).find? fun a => a.number = frameEpoch).map fun a =>
        derive a.secret senderPubkey frameEpoch := by
  rw [openKey, coveringSecret_eq follows.slots]
  cases found : (Generation.live r.grace now accepted).find? fun a => a.number = frameEpoch with
  | none => rfl
  | some a =>
    obtain ⟨recent, number⟩ := found_live found
    rw [Option.map_some]
    dsimp only
    cases held : r.cache (senderPubkey, frameEpoch) with
    | none => rfl
    | some key =>
      obtain ⟨b, member, number', derived⟩ := follows.cached _ _ _ held
      have same : b = a := follows.rising.unique (List.mem_of_mem_take member)
        (List.mem_of_mem_take recent) (number'.trans number.symm)
      rw [derived, same]
      rfl

theorem Follows.openKey (follows : Follows derive r accepted) (now : Nat) (senderPubkey : Bytes)
    (frameEpoch : UInt32) :
    Follows derive (r.openKey derive now senderPubkey frameEpoch).1 accepted := by
  rw [RoomKeyRegistry.openKey, coveringSecret_eq follows.slots]
  cases found : (Generation.live r.grace now accepted).find? fun a => a.number = frameEpoch with
  | none => exact follows
  | some a =>
    rw [Option.map_some]
    dsimp only
    split
    · exact follows
    · refine ⟨slots_cache follows.slots _, follows.rising, ?_⟩
      intro sender epoch key held
      by_cases here : (sender, epoch) = (senderPubkey, frameEpoch)
      · -- the key that was just derived
        obtain ⟨rfl, rfl⟩ := Prod.mk.inj here
        obtain ⟨recent, number⟩ := found_live found
        refine ⟨a, recent, number, ?_⟩
        dsimp only at held
        rw [Function.update_self] at held
        exact (Option.some.inj held).symm
      · dsimp only at held
        rw [Function.update_of_ne here] at held
        exact follows.cached sender epoch key held

/-! ### Runs -/

theorem Follows.call (follows : Follows derive r accepted) (c : Nat × RoomKeyCall) :
    Follows derive (r.call derive c) (accept accepted c) := by
  obtain ⟨now, secret | sender⟩ := c
  · exact follows.setSecret now secret _
  · exact follows.openKey now sender _

theorem Follows.calls (follows : Follows derive r accepted) (made : List (Nat × RoomKeyCall)) :
    Follows derive (r.calls derive made) (made.foldl accept accepted) := by
  induction made generalizing r accepted with
  | nil => exact follows
  | cons c made ih => exact ih (follows.call c)

theorem Follows.epoch_le_call (follows : Follows derive r accepted) (c : Nat × RoomKeyCall) :
    r.curEpoch ≤ (r.call derive c).curEpoch := by
  obtain ⟨now, ⟨secret, epoch⟩ | ⟨sender, epoch⟩⟩ := c
  · rw [RoomKeyRegistry.call, RoomKeyRegistry.setSecret]
    split
    · exact UInt32.le_refl _
    next fresh =>
      have stored : r.curEpoch ≤ epoch := by
        obtain rfl | ⟨a, rest, -, current⟩ := follows.slots.current
        · cases follows.slots with
          | empty has hasPrev zero =>
            rw [zero]
            exact UInt32.zero_le
        · exact UInt32.le_of_lt (UInt32.not_le.mp fun low => fresh ⟨current.has, low⟩)
      exact stored
  · -- opening a frame changes the cache only
    have kept : (r.openKey derive now sender epoch).1.curEpoch = r.curEpoch := by
      rw [RoomKeyRegistry.openKey]
      split
      · rfl
      · split <;> rfl
    rw [RoomKeyRegistry.call, kept]
    exact UInt32.le_refl _

theorem Follows.epoch_le_calls (follows : Follows derive r accepted)
    (made : List (Nat × RoomKeyCall)) : r.curEpoch ≤ (r.calls derive made).curEpoch := by
  induction made generalizing r accepted with
  | nil => exact UInt32.le_refl _
  | cons c made ih => exact UInt32.le_trans (follows.epoch_le_call c) (ih (follows.call c))

/-- No call changes whose registry it is, or for how long it keeps a secret. -/
theorem owner_calls (derive : Bytes → Bytes → UInt32 → Bytes) (r : RoomKeyRegistry)
    (made : List (Nat × RoomKeyCall)) :
    (r.calls derive made).myPubkey = r.myPubkey ∧ (r.calls derive made).grace = r.grace := by
  induction made generalizing r with
  | nil => exact ⟨rfl, rfl⟩
  | cons c made ih =>
    have kept : (r.call derive c).myPubkey = r.myPubkey ∧ (r.call derive c).grace = r.grace := by
      obtain ⟨now, secret | sender⟩ := c
      · rw [call, RoomKeyRegistry.setSecret]
        split
        · exact ⟨rfl, rfl⟩
        · rw [retire]
          split <;> exact ⟨rfl, rfl⟩
      · rw [call, RoomKeyRegistry.openKey]
        split
        · exact ⟨rfl, rfl⟩
        · split <;> exact ⟨rfl, rfl⟩
    exact ⟨(ih _).1.trans kept.1, (ih _).2.trans kept.2⟩

theorem current_eq (slots : Slots derive r accepted) :
    r.current = accepted.head?.map (fun a => (a.number, a.secret)) ∧
      r.sealKey = accepted.head?.map fun a => ⟨derive a.secret r.myPubkey a.number, a.number⟩ := by
  rw [RoomKeyRegistry.current, sealKey]
  obtain rfl | ⟨a, rest, rfl, current⟩ := slots.current
  · cases slots with
    | empty has => simp [has]
  · simp [current.has, current.epoch, current.secret, current.sealing]

end

/-- The keys of a registry are those of the secrets that were accepted, and of no other. -/
structure KeysFollow (H : Hkdf) (r : RoomKeyRegistry) (accepted : List RoomSecret) : Prop where
  /-- An epoch stands for one of the secrets. -/
  rising : Generation.Rising accepted
  current : r.current = accepted.head?.map fun a => (a.number, a.secret)
  sealing : r.sealKey = accepted.head?.map fun a =>
    ⟨deriveRoomSframeKey H a.secret r.myPubkey a.number, a.number⟩
  opened : ∀ now senderPubkey frameEpoch key,
    (r.openKey (deriveRoomSframeKey H) now senderPubkey frameEpoch).2 = some key →
      ∃ a ∈ accepted, a.number = frameEpoch ∧
        key = deriveRoomSframeKey H a.secret senderPubkey frameEpoch
  /-- For the current epoch, or the one before it within the grace period. -/
  opens : ∀ now senderPubkey frameEpoch,
    (r.openKey (deriveRoomSframeKey H) now senderPubkey frameEpoch).2.isSome = true ↔
      ∃ a ∈ Generation.live r.grace now accepted, a.number = frameEpoch

/-- After any calls the keys follow the secrets that were accepted, and the epoch never falls. -/
theorem keys_follow_epoch (H : Hkdf) (myPubkey : Bytes) (grace : Nat)
    (made : List (Nat × RoomKeyCall)) :
    let r := (new myPubkey grace).calls (deriveRoomSframeKey H) made
    KeysFollow H r (accepted made) ∧ r.myPubkey = myPubkey ∧ r.grace = grace ∧
      ∀ more, r.curEpoch ≤ (r.calls (deriveRoomSframeKey H) more).curEpoch := by
  intro r
  have follows : Follows (deriveRoomSframeKey H) r (accepted made) :=
    (follows_new _ myPubkey grace).calls made
  obtain ⟨owner, kept⟩ := owner_calls (deriveRoomSframeKey H) (new myPubkey grace) made
  refine ⟨⟨follows.rising, (current_eq follows.slots).1, (current_eq follows.slots).2, ?_, ?_⟩,
    owner, kept, follows.epoch_le_calls⟩
  · intro now senderPubkey frameEpoch key opened
    rw [openKey_eq follows, Option.map_eq_some_iff] at opened
    obtain ⟨a, found, rfl⟩ := opened
    obtain ⟨recent, number⟩ := found_live found
    exact ⟨a, List.mem_of_mem_take recent, number, rfl⟩
  · intro now senderPubkey frameEpoch
    rw [openKey_eq follows, Option.isSome_map, List.find?_isSome]
    simp only [decide_eq_true_eq]

end RoomKeyRegistry

end FinBit.Media
