import Mathlib.Logic.Function.Basic
import FinBit.Lib.Bytes

/-! # The keys of a room

`RoomKeyRegistry` holds the secret of a voice room and what is derived from it. A new secret takes
the place of the current one only with a higher epoch; the one that it replaces stays for a while,
for frames that are still under way.
-/

namespace FinBit.Media

open FinBit.Lib

/-- HKDF with SHA-256. -/
structure Hkdf where
  /-- Of a salt and the input. -/
  extract : Bytes → Bytes → Bytes
  /-- To a number of bytes. -/
  expand : Bytes → Bytes → Nat → Bytes

def deriveRoomSframeKey (H : Hkdf) (roomSecret senderPubkey : Bytes) (epoch : UInt32) : Bytes :=
  let info := ascii "FinBit-SFrame-room-v1" ++ senderPubkey ++ be32 epoch
  (H.expand (H.extract [] roomSecret) info 32).take 32

structure SealKey where
  key : Bytes
  epoch : UInt32

/-- `RoomKeyRegistry`. Times are in milliseconds of the steady clock. -/
structure RoomKeyRegistry where
  myPubkey : Bytes
  grace : Nat
  has : Bool
  curSecret : Bytes
  curEpoch : UInt32
  curSeal : SealKey
  hasPrev : Bool
  prevSecret : Bytes
  prevEpoch : UInt32
  prevUntil : Nat
  /-- The derived keys, by sender and epoch. -/
  cache : Bytes × UInt32 → Option Bytes

def zeros : Bytes :=
  List.replicate 32 0

namespace RoomKeyRegistry

def new (myPubkey : Bytes) (grace : Nat) : RoomKeyRegistry where
  myPubkey := myPubkey
  grace := grace
  has := false
  curSecret := zeros
  curEpoch := 0
  curSeal := ⟨zeros, 0⟩
  hasPrev := false
  prevSecret := zeros
  prevEpoch := 0
  prevUntil := 0
  cache _ := none

section

variable (derive : Bytes → Bytes → UInt32 → Bytes) (r : RoomKeyRegistry)

/-- The current secret moves to the slot of the previous one. -/
def retire (now : Nat) : RoomKeyRegistry :=
  if r.has = true then
    { r with
      prevSecret := r.curSecret
      prevEpoch := r.curEpoch
      hasPrev := true
      prevUntil := now + r.grace }
  else r

/-- `set_secret`; `derive` is `derive_room_sframe_key`. -/
def setSecret (now : Nat) (secret : Bytes) (epoch : UInt32) : RoomKeyRegistry :=
  -- stale or duplicate
  if r.has = true ∧ epoch ≤ r.curEpoch then r
  else
    let r := r.retire now
    { r with
      curSecret := secret
      curEpoch := epoch
      has := true
      curSeal := ⟨derive secret r.myPubkey epoch, epoch⟩
      cache := fun k =>
        if k.2 = epoch ∨ r.hasPrev = true ∧ k.2 = r.prevEpoch then r.cache k else none }

/-- `seal_key`. -/
def sealKey : Option SealKey :=
  if r.has = true then some r.curSeal else none

/-- The secret that covers the epoch of a frame. -/
def coveringSecret (now : Nat) (frameEpoch : UInt32) : Option Bytes :=
  if r.has = true ∧ frameEpoch = r.curEpoch then some r.curSecret
  else if r.hasPrev = true ∧ frameEpoch = r.prevEpoch ∧ now < r.prevUntil then some r.prevSecret
  else none

/-- `open_key`. -/
def openKey (now : Nat) (senderPubkey : Bytes) (frameEpoch : UInt32) :
    RoomKeyRegistry × Option Bytes :=
  match r.coveringSecret now frameEpoch with
  | none => (r, none)
  | some secret =>
    match r.cache (senderPubkey, frameEpoch) with
    | some key => (r, some key)
    | none =>
      let key := derive secret senderPubkey frameEpoch
      ({ r with cache := Function.update r.cache (senderPubkey, frameEpoch) (some key) }, some key)

/-- The epoch and the secret that a call seals with. -/
def current : Option (UInt32 × Bytes) :=
  if r.has = true then some (r.curEpoch, r.curSecret) else none

end

variable {derive : Bytes → Bytes → UInt32 → Bytes} {r : RoomKeyRegistry}

theorem current_new (myPubkey : Bytes) (grace : Nat) : (new myPubkey grace).current = none :=
  rfl

/-- A secret that is given becomes the current one, unless its epoch is not above that of the
current one. -/
theorem current_setSecret (now : Nat) (secret : Bytes) (epoch : UInt32) :
    (r.setSecret derive now secret epoch).current =
      if r.has = true ∧ epoch ≤ r.curEpoch then r.current else some (epoch, secret) := by
  unfold setSecret
  split
  · rfl
  · rfl

/-- There is a secret once one has been given. -/
theorem exists_current_setSecret (derive : Bytes → Bytes → UInt32 → Bytes) (now : Nat)
    (secret : Bytes) (epoch : UInt32) :
    ∃ cur, (r.setSecret derive now secret epoch).current = some cur := by
  rw [current_setSecret]
  split
  next stale => exact ⟨_, if_pos stale.1⟩
  · exact ⟨_, rfl⟩

/-- It is the current one afterwards if it was not stale, or has been the current one before. -/
theorem current_setSecret_iff {now : Nat} {secret : Bytes} {epoch : UInt32} :
    (r.setSecret derive now secret epoch).current = some (epoch, secret) ↔
      ∀ cur, r.current = some cur → cur.1 < epoch ∨ cur = (epoch, secret) := by
  rw [current_setSecret]
  by_cases has : r.has = true
  · have held : r.current = some (r.curEpoch, r.curSecret) := if_pos has
    rw [held]
    by_cases stale : epoch ≤ r.curEpoch
    · rw [if_pos ⟨has, stale⟩]
      simp [UInt32.not_lt.mpr stale]
    · rw [if_neg fun both => stale both.2]
      simp [UInt32.not_le.mp stale]
  · have nothing : r.current = none := if_neg has
    simp [nothing, has]

end RoomKeyRegistry

end FinBit.Media
