import FinBit.Desktop.VoiceRooms
import FinBit.Lib.Runs
import FinBit.Media.RoomKeys

/-! # Two copies of a room's secret

The client keeps the secret of a room in `room_secrets`, and once more in the `RoomKeyRegistry` that
the calls of the room are keyed from. Both are written together: with the exported secret of an MLS
group when a roster is applied, and with the secret of a `RoomKey` message. The first takes what
comes, the other only a higher epoch.
-/

namespace FinBit.Desktop

open FinBit.Lib FinBit.Media

structure RoomSecrets where
  /-- `room_secrets`. -/
  roomSecrets : Bytes → Option (UInt32 × Bytes)
  roomRegistries : Bytes → Option RoomKeyRegistry

namespace RoomSecrets

def new : RoomSecrets :=
  ⟨fun _ => none, fun _ => none⟩

section

variable (derive : Bytes → Bytes → UInt32 → Bytes) (me : Bytes) (k : RoomSecrets)

/-- `room_registry`: the registry of a room, which is made if it is not there. -/
def roomRegistry (roomId : Bytes) : RoomKeyRegistry :=
  (k.roomRegistries roomId).getD (.new me 3000)

/-- A call that asks for the registry. -/
def touch (roomId : Bytes) : RoomSecrets :=
  { k with roomRegistries :=
      Function.update k.roomRegistries roomId (some (k.roomRegistry me roomId)) }

/-- What both writers do with a secret. -/
def put (now : Nat) (roomId : Bytes) (epoch : UInt32) (secret : Bytes) : RoomSecrets where
  roomSecrets := Function.update k.roomSecrets roomId (some (epoch, secret))
  roomRegistries := Function.update k.roomRegistries roomId
    (some ((k.roomRegistry me roomId).setSecret derive now secret epoch))

/-- The part of `apply_room_roster` for an MLS channel. The slot is made if it is not there. -/
def onExported (now : Nat) (roomId : Bytes) (epoch : UInt32) (secret : Bytes) : RoomSecrets :=
  let slot := (k.roomSecrets roomId).getD (0, zeros)
  if slot.1 ≠ epoch ∨ slot.2 ≠ secret then k.put derive me now roomId epoch secret
  else { k with roomSecrets := Function.update k.roomSecrets roomId (some slot) }

/-- The `kRoomKey` payload. -/
def onRoomKey (now : Nat) (roomId : Bytes) (epoch : UInt32) (secret : Bytes) : RoomSecrets :=
  if secret.length = 32 ∧ roomId ≠ [] then k.put derive me now roomId epoch secret else k

end

/-! ### Runs -/

inductive SecretEvent
  /-- A roster of a room whose MLS group exports this secret. -/
  | exported (roomId : Bytes) (epoch : UInt32) (secret : Bytes)
  | roomKey (roomId : Bytes) (epoch : UInt32) (secret : Bytes)
  | touched (roomId : Bytes)

inductive SecretStep (derive : Bytes → Bytes → UInt32 → Bytes) (me : Bytes) :
    RoomSecrets → SecretEvent → RoomSecrets → Prop
  | exported (k : RoomSecrets) (now : Nat) (roomId : Bytes) (epoch : UInt32) (secret : Bytes) :
      SecretStep derive me k (.exported roomId epoch secret)
        (k.onExported derive me now roomId epoch secret)
  | roomKey (k : RoomSecrets) (now : Nat) (roomId : Bytes) (epoch : UInt32) (secret : Bytes) :
      SecretStep derive me k (.roomKey roomId epoch secret)
        (k.onRoomKey derive me now roomId epoch secret)
  | touched (k : RoomSecrets) (roomId : Bytes) :
      SecretStep derive me k (.touched roomId) (k.touch me roomId)

/-- Epoch and secret that the registry of a room is at. -/
def keyed (k : RoomSecrets) (roomId : Bytes) : Option (UInt32 × Bytes) :=
  (k.roomRegistries roomId).bind RoomKeyRegistry.current

/-- Where there are both copies, they are the same. -/
def Agree (k : RoomSecrets) : Prop :=
  ∀ roomId held cur, k.roomSecrets roomId = some held → k.keyed roomId = some cur → cur = held

/-- A secret is not behind the registry of its room, or the one that is there already. -/
def UpToDate (k : RoomSecrets) (roomId : Bytes) (epoch : UInt32) (secret : Bytes) : Prop :=
  ∀ cur, k.keyed roomId = some cur → cur.1 < epoch ∨ cur = (epoch, secret)

/-- Of a secret that is taken. -/
def Timely (k : RoomSecrets) : SecretEvent → Prop
  | .exported roomId epoch secret => k.UpToDate roomId epoch secret
  | .roomKey roomId epoch secret =>
    secret.length = 32 → roomId ≠ [] → k.UpToDate roomId epoch secret
  | .touched _ => True

section

variable {derive : Bytes → Bytes → UInt32 → Bytes} {me : Bytes} {k : RoomSecrets}

theorem current_roomRegistry (roomId : Bytes) :
    (k.roomRegistry me roomId).current = k.keyed roomId := by
  unfold roomRegistry keyed
  cases k.roomRegistries roomId with
  | none => exact RoomKeyRegistry.current_new me 3000
  | some r => rfl

/-- Agreement in one room is all that a change in that room can break. -/
theorem agree_update_iff (agree : k.Agree) {k' : RoomSecrets} {roomId : Bytes}
    (held : UInt32 × Bytes)
    (secrets : k'.roomSecrets = Function.update k.roomSecrets roomId (some held))
    (elsewhere : ∀ other, other ≠ roomId → k'.keyed other = k.keyed other) :
    k'.Agree ↔ ∀ cur, k'.keyed roomId = some cur → cur = held := by
  constructor
  · intro agree' cur current
    exact agree' roomId held cur (by rw [secrets, Function.update_self]) current
  · intro here roomId' held' cur found current
    by_cases same : roomId' = roomId
    · subst same
      rw [secrets, Function.update_self] at found
      obtain rfl := Option.some.inj found
      exact here cur current
    · rw [secrets, Function.update_of_ne same] at found
      rw [elsewhere roomId' same] at current
      exact agree roomId' held' cur found current

theorem keyed_put (now : Nat) (roomId : Bytes) (epoch : UInt32) (secret : Bytes) :
    (k.put derive me now roomId epoch secret).keyed roomId =
      ((k.roomRegistry me roomId).setSecret derive now secret epoch).current := by
  simp [keyed, put]

theorem agree_put_iff (agree : k.Agree) (now : Nat) (roomId : Bytes) (epoch : UInt32)
    (secret : Bytes) :
    (k.put derive me now roomId epoch secret).Agree ↔ k.UpToDate roomId epoch secret := by
  have elsewhere : ∀ other, other ≠ roomId →
      (k.put derive me now roomId epoch secret).keyed other = k.keyed other := by
    intro other different
    simp [keyed, put, different]
  obtain ⟨cur, current⟩ := (k.roomRegistry me roomId).exists_current_setSecret derive now
    secret epoch
  have taken : cur = (epoch, secret) ↔
      ((k.roomRegistry me roomId).setSecret derive now secret epoch).current =
        some (epoch, secret) := by
    rw [current, Option.some_inj]
  rw [agree_update_iff agree _ rfl elsewhere, keyed_put, current]
  simp only [Option.some_inj, forall_eq', taken]
  rw [RoomKeyRegistry.current_setSecret_iff, current_roomRegistry]
  exact Iff.rfl

theorem agree_touch (agree : k.Agree) (roomId : Bytes) : (k.touch me roomId).Agree := by
  intro roomId' held cur found current
  have same : (k.touch me roomId).keyed roomId' = k.keyed roomId' := by
    by_cases here : roomId' = roomId
    · subst here
      simp only [keyed, touch, Function.update_self, Option.bind_some]
      exact current_roomRegistry roomId'
    · simp [keyed, touch, here]
  exact agree roomId' held cur found (same ▸ current)

/-- Copies that agree agree after a step exactly if its secret is taken. -/
theorem agree_step_iff {k' : RoomSecrets} {event : SecretEvent}
    (step : SecretStep derive me k event k') (agree : k.Agree) : k'.Agree ↔ k.Timely event := by
  cases step with
  | exported now roomId epoch secret =>
    unfold onExported
    dsimp only
    split
    · exact agree_put_iff agree now roomId epoch secret
    next unchanged =>
      -- the slot holds the secret already, or has been made with it
      obtain ⟨rfl, rfl⟩ : _ = epoch ∧ _ = secret := by
        simpa only [not_or, ne_eq, not_not] using unchanged
      refine (agree_update_iff agree ((k.roomSecrets roomId).getD (0, zeros)) ?_ ?_).trans
        (forall₂_congr fun cur current => ?_)
      · rfl
      · exact fun _ _ => rfl
      constructor
      · exact .inr
      rintro (behind | same)
      · cases slot : k.roomSecrets roomId with
        | none =>
          rw [slot] at behind
          exact absurd behind (UInt32.not_lt.mpr (UInt32.zero_le))
        | some held => exact agree roomId held cur slot current
      · exact same
  | roomKey now roomId epoch secret =>
    unfold onRoomKey
    split
    next valid =>
      rw [agree_put_iff agree]
      exact ⟨fun fresh _ _ => fresh, fun fresh => fresh valid.1 valid.2⟩
    next invalid => exact iff_of_true agree fun size named => absurd ⟨size, named⟩ invalid
  | touched roomId => exact iff_of_true (agree_touch agree roomId) trivial

/-- The two copies agree after a step exactly if its secret is not behind the registry, and they
agree throughout a run in which no secret is. -/
theorem room_secrets_agree (derive : Bytes → Bytes → UInt32 → Bytes) (me : Bytes) :
    (∀ (k k' : RoomSecrets) (event : SecretEvent), SecretStep derive me k event k' → k.Agree →
      (k'.Agree ↔ k.Timely event)) ∧
    ∀ (events : List SecretEvent) (k : RoomSecrets),
      Run (Guarded (SecretStep derive me) Timely) new events k → k.Agree := by
  refine ⟨fun k k' event step agree => agree_step_iff step agree, fun events k run => ?_⟩
  refine run.invariant Agree (fun _ _ _ agree step => (agree_step_iff step.2 agree).mpr step.1) ?_
  intro roomId held cur found
  cases found

end

/-! ### An old epoch -/

private def studio : Bytes := List.replicate 32 7

/-- The secret of epoch 4 arrives after that of epoch 5. -/
theorem old_epoch_divides : ∃ (events : List SecretEvent) (k : RoomSecrets),
    Run (SecretStep (fun _ _ _ => zeros) studio) new events k ∧
    k.roomSecrets studio = some (4, zeros) ∧ k.keyed studio = some (5, studio) := by
  refine ⟨[.roomKey studio 5 studio, .roomKey studio 4 zeros], _,
    .cons (.roomKey _ 0 _ _ _) (.cons (.roomKey _ 0 _ _ _) (.nil _)), ?_, ?_⟩
  · decide
  · decide

/-- In order the two agree. -/
theorem room_secrets_agree_in_order : ∃ (events : List SecretEvent) (k : RoomSecrets),
    Run (SecretStep (fun _ _ _ => zeros) studio) new events k ∧
    k.roomSecrets studio = some (5, studio) ∧ k.Agree := by
  have run : Run (Guarded (SecretStep (fun _ _ _ => zeros) studio) Timely) new
      [.roomKey studio 5 studio] (new.onRoomKey (fun _ _ _ => zeros) studio 0 studio 5 studio) :=
    .cons ⟨fun _ _ cur current => (nomatch current), .roomKey _ 0 _ _ _⟩ (.nil _)
  exact ⟨_, _, run.unguarded, by decide, (room_secrets_agree _ studio).2 _ _ run⟩

end RoomSecrets

/-! ### The rooms of the client -/

namespace Rooms

variable (me : Bytes) (hasSession : Bytes → Bool) (exported : Option (UInt32 × Bytes))
  (rooms : Rooms) (rr : RoomRoster)

@[simp]
theorem meshBootstrapOrDial_secrets (peer : Bytes) :
    (meshBootstrapOrDial hasSession rooms peer).secrets = rooms.secrets := by
  unfold meshBootstrapOrDial
  split <;> rfl

theorem dials_secrets (peers : List Bytes) :
    (peers.foldl (meshBootstrapOrDial hasSession) rooms).secrets = rooms.secrets := by
  induction peers generalizing rooms with
  | nil => rfl
  | cons peer rest ih => rw [List.foldl_cons, ih, meshBootstrapOrDial_secrets]

theorem applyRoomRoster_secrets (room : rr.roomId.length = 32) :
    (applyRoomRoster me hasSession exported rooms rr).secrets =
      match exported with
      | none => rooms.secrets
      | some secret => Function.update rooms.secrets rr.roomId secret := by
  have noted : (noted me exported rooms rr).secrets =
      match exported with
      | none => rooms.secrets
      | some secret => Function.update rooms.secrets rr.roomId secret := by
    cases exported <;> rfl
  rw [applyRoomRoster_eq, if_neg (not_not_intro room), ← noted]
  split
  · unfold forwarderPlan
    split
    · rfl
    dsimp only
    split
    · rfl
    · rw [meshBootstrapOrDial_secrets]
  · exact dials_secrets hasSession _ _

end Rooms

namespace RoomSecrets

/-- The secrets that the rooms of the client show. -/
def Shown (k : RoomSecrets) (rooms : Rooms) : Prop :=
  ∀ roomId held, k.roomSecrets roomId = some held → rooms.secrets roomId = held

variable {derive : Bytes → Bytes → UInt32 → Bytes} {me : Bytes} {k : RoomSecrets} {rooms : Rooms}

theorem Shown.update (shown : k.Shown rooms) {k' : RoomSecrets} {rooms' : Rooms} {roomId : Bytes}
    {held : UInt32 × Bytes}
    (kept : k'.roomSecrets = Function.update k.roomSecrets roomId (some held))
    (secrets : rooms'.secrets = Function.update rooms.secrets roomId held) : k'.Shown rooms' := by
  intro roomId' held' found
  rw [kept] at found
  rw [secrets]
  by_cases same : roomId' = roomId
  · subst same
    rw [Function.update_self] at found
    rw [Function.update_self]
    exact Option.some.inj found
  · rw [Function.update_of_ne same] at found
    rw [Function.update_of_ne same]
    exact shown roomId' held' found

/-- A roster shows the exported secret. -/
theorem Shown.onExported (shown : k.Shown rooms) (now : Nat) (hasSession : Bytes → Bool)
    (epoch : UInt32) (secret : Bytes) {rr : RoomRoster} (room : rr.roomId.length = 32) :
    (k.onExported derive me now rr.roomId epoch secret).Shown
      (rooms.applyRoomRoster me hasSession (some (epoch, secret)) rr) := by
  refine shown.update ?_ (rooms.applyRoomRoster_secrets me hasSession _ rr room)
  unfold RoomSecrets.onExported
  dsimp only
  split
  · rfl
  next unchanged =>
    obtain ⟨rfl, rfl⟩ : _ = epoch ∧ _ = secret := by
      simpa only [not_or, ne_eq, not_not] using unchanged
    rfl

theorem Shown.onRoomKey (shown : k.Shown rooms) (now : Nat) {roomId : Bytes} (named : roomId ≠ [])
    (epoch : UInt32) {secret : Bytes} (size : secret.length = 32) :
    (k.onRoomKey derive me now roomId epoch secret).Shown
      (rooms.installSecret roomId epoch secret) := by
  refine shown.update ?_ rfl
  rw [RoomSecrets.onRoomKey, if_pos ⟨size, named⟩]
  rfl

end RoomSecrets

end FinBit.Desktop
