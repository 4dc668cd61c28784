import FinBit.Media.MediaFrames

/-! # No key and nonce twice

The key and the nonce of a frame are derived from base key, epoch and counter, so no two frames may have
all three in common. The counter of a member starts over whenever the context of the room is set; it is
the epoch that has to rise in between.
-/

namespace FinBit.Media.MediaCall

open FinBit.Lib

variable {H : Hkdf} {A : NonceAead} {c : MediaCall}

section

variable (H : Hkdf) (A : NonceAead)

/-- The base key, the epoch and the counter that each frame of a run is sealed with. -/
def used : MediaCall → List MediaEvent → List (Bytes × UInt32 × UInt64)
  | _, [] => []
  | c, .frame plaintext :: rest =>
    (c.sealing.map fun s => (s.1, s.2, c.sendCounter)).toList ++
      used (c.step H A (.frame plaintext)) rest
  | c, e :: rest => used (c.step H A e) rest

/-- The context is set only when no frame has been sealed in the epoch there is then. -/
def Renewed (c : MediaCall) (events : List MediaEvent) : Prop :=
  ∀ before m after, events = before ++ .setRoomContext m :: after →
    ∀ u ∈ used H A c before, u.2.1 < (c.run H A before).registry.curEpoch

/-- A call in a room, whose registry holds what it has been given. -/
structure InRoom (c : MediaCall) (accepted : List RoomSecret) : Prop where
  mode : c.roomMode = true
  follows : RoomKeyRegistry.Follows (deriveRoomSframeKey H) c.registry accepted

end

def frames (events : List MediaEvent) : Nat :=
  events.countP fun e => e matches .frame _

/-- The secrets after an event. -/
def acceptedAfter (accepted : List RoomSecret) (e : MediaEvent) : List RoomSecret :=
  (registryCall e).elim accepted (RoomKeyRegistry.accept accepted)

theorem mem_used_frame {plaintext : Bytes} {rest : List MediaEvent} {u : Bytes × UInt32 × UInt64} :
    u ∈ used H A c (.frame plaintext :: rest) ↔
      (∃ s, c.sealing = some s ∧ u = (s.1, s.2, c.sendCounter)) ∨
        u ∈ used H A (c.step H A (.frame plaintext)) rest := by
  rw [used, List.mem_append, Option.mem_toList, Option.map_eq_some_iff]
  simp only [eq_comm]

/-- A frame that comes in changes at most the registry. -/
theorem step_arrives (now : Nat) (ctx : OpenCtx) (sealed : Bytes) :
    ∃ registry, c.step H A (.arrives now ctx sealed) = { c with registry } := by
  cases ctx with
  | fixed baseKey =>
    refine ⟨c.registry, ?_⟩
    rw [step, openProbe, sframeOpenV1_eq]
    rfl
  | room senderPubkey =>
    rw [step, openProbe]
    cases sframePeekEpoch sealed with
    | none => exact ⟨c.registry, rfl⟩
    | some frameEpoch =>
      refine ⟨(c.registry.openKey (deriveRoomSframeKey H) now senderPubkey frameEpoch).1, ?_⟩
      dsimp only
      cases (c.registry.openKey (deriveRoomSframeKey H) now senderPubkey frameEpoch).2 with
      | none => rfl
      | some key =>
        dsimp only
        rw [sframeOpenV1_eq]
        rfl

theorem InRoom.step {accepted : List RoomSecret} (room : InRoom H c accepted) (e : MediaEvent) :
    InRoom H (c.step H A e) (acceptedAfter accepted e) := by
  constructor
  · cases e with
    | setSecret now secret epoch => exact room.mode
    | setRoomContext m => rfl
    | frame plaintext =>
      rw [MediaCall.step, sealProbe_eq]
      split
      · exact room.mode
      · exact room.mode
    | arrives now ctx sealed =>
      obtain ⟨registry, same⟩ := step_arrives (H := H) (A := A) (c := c) now ctx sealed
      rw [same]
      exact room.mode
  · rw [registry_step, acceptedAfter]
    cases registryCall e with
    | none => exact room.follows
    | some call => exact room.follows.call call

theorem InRoom.sealing_eq {accepted : List RoomSecret} (room : InRoom H c accepted) :
    c.sealing = accepted.head?.map fun a =>
      (deriveRoomSframeKey H a.secret c.registry.myPubkey a.number, a.number) := by
  rw [sealing, if_pos room.mode, (RoomKeyRegistry.current_eq room.follows.slots).2]
  cases accepted.head? <;> rfl

theorem InRoom.epoch_eq {accepted : List RoomSecret} (room : InRoom H c accepted) {a : RoomSecret}
    (current : accepted.head? = some a) : c.registry.curEpoch = a.number := by
  obtain rfl | ⟨b, rest, rfl, held⟩ := room.follows.slots.current
  · cases current
  · cases current
    exact held.epoch

/-- Frames only take the counter further. -/
theorem counter_step (e : MediaEvent) (other : ∀ m, e ≠ .setRoomContext m) :
    (c.step H A e).sendCounter = c.sendCounter ∨
      (∃ plaintext, e = .frame plaintext) ∧ (c.step H A e).sendCounter = c.sendCounter + 1 := by
  cases e with
  | setSecret now secret epoch => exact .inl rfl
  | setRoomContext m => exact absurd rfl (other m)
  | frame plaintext =>
    rw [step, sealProbe_eq]
    split
    · exact .inl rfl
    · exact .inr ⟨⟨plaintext, rfl⟩, rfl⟩
  | arrives now ctx sealed =>
    obtain ⟨registry, same⟩ := step_arrives (H := H) (A := A) (c := c) now ctx sealed
    rw [same]
    exact .inl rfl

/-! ### Counters within one context -/

theorem InRoom.epoch_le_step {accepted : List RoomSecret} (room : InRoom H c accepted)
    (e : MediaEvent) : c.registry.curEpoch ≤ (c.step H A e).registry.curEpoch := by
  rw [registry_step]
  cases registryCall e with
  | none => exact UInt32.le_refl _
  | some call => exact room.follows.epoch_le_call call

/-- No frame is sealed in an epoch below the one there is. -/
theorem InRoom.epoch_le_used {accepted : List RoomSecret} {events : List MediaEvent}
    (room : InRoom H c accepted) : ∀ u ∈ used H A c events, c.registry.curEpoch ≤ u.2.1 := by
  induction events generalizing c accepted with
  | nil => exact fun u member => absurd member List.not_mem_nil
  | cons e rest ih =>
    have later : ∀ u ∈ used H A (c.step H A e) rest, c.registry.curEpoch ≤ u.2.1 := by
      intro u member
      exact UInt32.le_trans (room.epoch_le_step e) (ih (room.step e) u member)
    cases e with
    | frame plaintext =>
      intro u member
      obtain ⟨s, sealing, rfl⟩ | behind := mem_used_frame.mp member
      · rw [room.sealing_eq, Option.map_eq_some_iff] at sealing
        obtain ⟨a, current, rfl⟩ := sealing
        rw [room.epoch_eq current]
        exact UInt32.le_refl _
      · exact later u behind
    | setSecret now secret epoch => exact later
    | setRoomContext m => exact later
    | arrives now ctx sealed => exact later

/-- A frame is sealed after the context has been set again, or its counter is not below the one there
is. -/
theorem counter_le_used {events : List MediaEvent}
    (few : c.sendCounter.toNat + frames events < 2 ^ 64) :
    ∀ u ∈ used H A c events, c.sendCounter ≤ u.2.2 ∨ ∃ before m after,
      events = before ++ .setRoomContext m :: after ∧
        u ∈ used H A ((c.run H A before).setRoomContext m) after := by
  induction events generalizing c with
  | nil => exact fun u member => absurd member List.not_mem_nil
  | cons e rest ih =>
    -- what is sealed later, if this event does not set the context
    have later : (c.step H A e).sendCounter.toNat + frames rest < 2 ^ 64 →
        c.sendCounter ≤ (c.step H A e).sendCounter → ∀ u ∈ used H A (c.step H A e) rest,
        c.sendCounter ≤ u.2.2 ∨ ∃ before m after, e :: rest = before ++ .setRoomContext m :: after ∧
          u ∈ used H A ((c.run H A before).setRoomContext m) after := by
      intro fits mounting u member
      obtain above | ⟨before, m, after, rfl, there⟩ := ih fits u member
      · exact .inl (UInt64.le_trans mounting above)
      · exact .inr ⟨e :: before, m, after, rfl, there⟩
    cases e with
    | frame plaintext =>
      have counted : frames (.frame plaintext :: rest) = frames rest + 1 := by simp [frames]
      rw [counted] at few
      have next : (c.sendCounter + 1).toNat = c.sendCounter.toNat + 1 := by
        rw [UInt64.toNat_add, UInt64.toNat_one, Nat.mod_eq_of_lt (by omega)]
      intro u member
      obtain ⟨s, -, rfl⟩ | behind := mem_used_frame.mp member
      · exact .inl (UInt64.le_refl _)
      · refine later ?_ ?_ u behind
        · obtain same | ⟨-, same⟩ := counter_step (H := H) (A := A) (c := c) (.frame plaintext) (by simp)
          · rw [same]
            omega
          · rw [same, next]
            omega
        · obtain same | ⟨-, same⟩ := counter_step (H := H) (A := A) (c := c) (.frame plaintext) (by simp)
          · rw [same]
            exact UInt64.le_refl _
          · rw [same, UInt64.le_iff_toNat_le, next]
            omega
    | setRoomContext m =>
      exact fun u member => .inr ⟨[], m, rest, rfl, member⟩
    | setSecret now secret epoch =>
      have counted : frames (.setSecret now secret epoch :: rest) = frames rest := by simp [frames]
      rw [counted] at few
      exact later few (UInt64.le_refl _)
    | arrives now ctx sealed =>
      have counted : frames (.arrives now ctx sealed :: rest) = frames rest := by simp [frames]
      rw [counted] at few
      obtain ⟨registry, same⟩ := step_arrives (H := H) (A := A) (c := c) now ctx sealed
      rw [same] at later
      change ∀ u ∈ used H A (c.step H A (.arrives now ctx sealed)) rest, _
      rw [same]
      exact later few (UInt64.le_refl _)

/-! ### Counters across contexts -/

theorem Renewed.tail {e : MediaEvent} {rest : List MediaEvent} (renewed : Renewed H A c (e :: rest)) :
    Renewed H A (c.step H A e) rest := by
  intro before m after split u member
  refine renewed (e :: before) m after (by rw [split]; rfl) u ?_
  cases e with
  | frame plaintext => exact mem_used_frame.mpr (.inr member)
  | setSecret now secret epoch => exact member
  | setRoomContext m' => exact member
  | arrives now ctx sealed => exact member

theorem InRoom.run {accepted : List RoomSecret} (room : InRoom H c accepted)
    (events : List MediaEvent) :
    InRoom H (c.run H A events) (events.foldl acceptedAfter accepted) := by
  induction events generalizing c accepted with
  | nil => exact room
  | cons e rest ih => exact ih (room.step e)

theorem nodup_used {accepted : List RoomSecret} {events : List MediaEvent} (room : InRoom H c accepted)
    (renewed : Renewed H A c events) (few : c.sendCounter.toNat + frames events < 2 ^ 64) :
    ((used H A c events).map Prod.snd).Nodup := by
  induction events generalizing c accepted with
  | nil => exact List.nodup_nil
  | cons e rest ih =>
    have later := fun fits => ih (room.step e) renewed.tail fits
    cases e with
    | frame plaintext =>
      have counted : frames (.frame plaintext :: rest) = frames rest + 1 := by simp [frames]
      rw [counted] at few
      have next : (c.sendCounter + 1).toNat = c.sendCounter.toNat + 1 := by
        rw [UInt64.toNat_add, UInt64.toNat_one, Nat.mod_eq_of_lt (by omega)]
      rw [used]
      cases sealing : c.sealing with
      | none =>
        have same : c.step H A (.frame plaintext) = c := by rw [step, sealProbe_eq, sealing]
        rw [same] at later ⊢
        exact later (by omega)
      | some s =>
        have same : (c.step H A (.frame plaintext)).sendCounter = c.sendCounter + 1 := by
          rw [step, sealProbe_eq, sealing]
        have fits : (c.step H A (.frame plaintext)).sendCounter.toNat + frames rest < 2 ^ 64 := by
          rw [same, next]
          omega
        refine List.nodup_cons.mpr ⟨fun twice => ?_, later fits⟩
        obtain ⟨u, member, header⟩ := List.mem_map.mp twice
        obtain above | ⟨before, m, after, rfl, there⟩ := counter_le_used fits u member
        · -- the counter has gone on
          rw [header, same, UInt64.le_iff_toNat_le, next] at above
          exact absurd above (by simp)
        · -- the epoch has risen
          have risen := renewed (.frame plaintext :: before) m after rfl (s.1, s.2, c.sendCounter)
            (mem_used_frame.mpr (.inl ⟨s, sealing, rfl⟩))
          have reached : InRoom H (((c.step H A (.frame plaintext)).run H A before).setRoomContext m) _ :=
            ((room.step (A := A) (.frame plaintext)).run before).step (A := A) (.setRoomContext m)
          have bound := reached.epoch_le_used u there
          rw [header] at bound
          exact absurd bound (UInt32.not_le.mpr risen)
    | setSecret now secret epoch =>
      have counted : frames (.setSecret now secret epoch :: rest) = frames rest := by simp [frames]
      rw [counted] at few
      exact later few
    | setRoomContext m =>
      have counted : frames (.setRoomContext m :: rest) = frames rest := by simp [frames]
      rw [counted] at few
      have start : (c.step H A (.setRoomContext m)).sendCounter.toNat = 0 := rfl
      exact later (by rw [start]; omega)
    | arrives now ctx sealed =>
      have counted : frames (.arrives now ctx sealed :: rest) = frames rest := by simp [frames]
      rw [counted] at few
      obtain ⟨registry, same⟩ := step_arrives (H := H) (A := A) (c := c) now ctx sealed
      refine later ?_
      rw [same]
      exact few

/-- The frames that go out one after the other. -/
theorem used_frames {s : Bytes × UInt32} (sealing : c.sealing = some s) (plaintexts : List Bytes) :
    used H A c (plaintexts.map .frame) =
      (List.range plaintexts.length).map fun i => (s.1, s.2, c.sendCounter + UInt64.ofNat i) := by
  induction plaintexts generalizing c with
  | nil => rfl
  | cons plaintext rest ih =>
    have stepped : c.step H A (.frame plaintext) = { c with sendCounter := c.sendCounter + 1 } := by
      rw [step, sealProbe_eq, sealing]
    have kept : (c.step H A (.frame plaintext)).sealing = some s := by
      rw [stepped]
      exact sealing
    have first : c.sendCounter + UInt64.ofNat 0 = c.sendCounter := UInt64.add_zero _
    rw [List.map_cons, used, sealing, ih kept, stepped, List.length_cons, List.range_succ_eq_map,
      List.map_cons, List.map_map, first]
    refine congrArg (List.cons _) (List.map_congr_left fun i _ => ?_)
    have shifted : c.sendCounter + 1 + UInt64.ofNat i = c.sendCounter + UInt64.ofNat (i + 1) := by
      rw [UInt64.ofNat_add, UInt64.add_assoc, UInt64.add_comm (UInt64.ofNat i)]
      rfl
    rw [shifted]
    rfl

theorem used_append (before after : List MediaEvent) :
    used H A c (before ++ after) = used H A c before ++ used H A (c.run H A before) after := by
  induction before generalizing c with
  | nil => rfl
  | cons e rest ih =>
    cases e with
    | frame plaintext =>
      rw [List.cons_append, used, ih, used, List.append_assoc]
      rfl
    | setSecret now secret epoch => exact ih
    | setRoomContext m => exact ih
    | arrives now ctx sealed => exact ih

theorem accept_subset {accepted : List RoomSecret} (e : MediaEvent) :
    accepted ⊆ acceptedAfter accepted e := by
  rw [acceptedAfter]
  cases registryCall e with
  | none => exact List.Subset.refl _
  | some call =>
    obtain ⟨now, ⟨secret, epoch⟩ | ⟨sender, epoch⟩⟩ := call
    · change accepted ⊆ Generation.install accepted _
      cases accepted with
      | nil => exact List.nil_subset _
      | cons a rest =>
        rw [Generation.install]
        split
        · exact List.subset_cons_self _ _
        · exact List.Subset.refl _
    · exact List.Subset.refl _

theorem owner_step (e : MediaEvent) : (c.step H A e).registry.myPubkey = c.registry.myPubkey := by
  rw [registry_step]
  cases registryCall e with
  | none => rfl
  | some call => exact (RoomKeyRegistry.owner_calls (deriveRoomSframeKey H) c.registry [call]).1

theorem owner_run (events : List MediaEvent) :
    (c.run H A events).registry.myPubkey = c.registry.myPubkey := by
  induction events generalizing c with
  | nil => rfl
  | cons e rest ih => exact (ih (c := c.step H A e)).trans (owner_step e)

theorem accepted_subset {accepted : List RoomSecret} (events : List MediaEvent) :
    accepted ⊆ events.foldl acceptedAfter accepted := by
  induction events generalizing accepted with
  | nil => exact List.Subset.refl _
  | cons e rest ih => exact List.Subset.trans (accept_subset e) ih

/-- Every frame is sealed with the member's own key of a secret that has been accepted. -/
theorem used_accepted {accepted : List RoomSecret} {events : List MediaEvent}
    (room : InRoom H c accepted) : ∀ u ∈ used H A c events,
      ∃ a ∈ events.foldl acceptedAfter accepted, u.2.1 = a.number ∧
        u.1 = deriveRoomSframeKey H a.secret c.registry.myPubkey a.number := by
  induction events generalizing c accepted with
  | nil => exact fun u member => absurd member List.not_mem_nil
  | cons e rest ih =>
    have later : ∀ u ∈ used H A (c.step H A e) rest,
        ∃ a ∈ (e :: rest).foldl acceptedAfter accepted, u.2.1 = a.number ∧
          u.1 = deriveRoomSframeKey H a.secret c.registry.myPubkey a.number := by
      intro u member
      obtain ⟨a, known, number, key⟩ := ih (room.step e) u member
      rw [owner_step] at key
      exact ⟨a, known, number, key⟩
    cases e with
    | frame plaintext =>
      intro u member
      obtain ⟨s, sealing, rfl⟩ | behind := mem_used_frame.mp member
      · rw [room.sealing_eq, Option.map_eq_some_iff] at sealing
        obtain ⟨a, current, rfl⟩ := sealing
        exact ⟨a, accepted_subset _ (List.mem_of_mem_head? current), rfl, rfl⟩
      · exact later u behind
    | setSecret now secret epoch => exact later
    | setRoomContext m => exact later
    | arrives now ctx sealed => exact later

/-- A frame that was sealed in the epoch there is comes up again, key and all, once the context has been
set anew and enough frames have gone out. -/
theorem used_again {accepted : List RoomSecret} {before : List MediaEvent}
    {m : Bytes → Option Bytes} {u : Bytes × UInt32 × UInt64} {plaintexts : List Bytes}
    (room : InRoom H c accepted) (member : u ∈ used H A c before)
    (early : ¬u.2.1 < (c.run H A before).registry.curEpoch)
    (many : u.2.2.toNat < plaintexts.length) :
    u ∈ used H A ((c.run H A before).setRoomContext m) (plaintexts.map .frame) := by
  obtain ⟨a, known, number, key⟩ := used_accepted room u member
  have reached := room.run (A := A) before
  -- the secret that it was sealed with is the current one
  obtain none | ⟨b, rest, all, held⟩ := reached.follows.slots.current
  · rw [none] at known
    cases known
  · have current : a = b := by
      rw [all] at known
      obtain here | older := List.mem_cons.mp known
      · exact here
      · have rising := reached.follows.rising
        rw [all] at rising
        have below := (List.pairwise_cons.mp rising).1 a older
        rw [number, held.epoch] at early
        exact absurd below early
    have again : InRoom H ((c.run H A before).setRoomContext m) (b :: rest) :=
      ⟨rfl, all ▸ reached.follows⟩
    have sealing := again.sealing_eq
    rw [List.head?_cons, Option.map_some] at sealing
    rw [used_frames sealing]
    refine List.mem_map.mpr ⟨u.2.2.toNat, List.mem_range.mpr many, ?_⟩
    have owner : ((c.run H A before).setRoomContext m).registry.myPubkey = c.registry.myPubkey :=
      owner_run before
    have counter : ((c.run H A before).setRoomContext m).sendCounter + UInt64.ofNat u.2.2.toNat =
        u.2.2 := by
      rw [UInt64.ofNat_toNat]
      exact UInt64.zero_add _
    rw [owner, counter, ← current, ← key, ← number]

/-- The call of a member whose registry has a history of its own. -/
theorem inRoom_start (H : Hkdf) (A : NonceAead) (me : Bytes) (grace : Nat) (earlier : List MediaEvent)
    (m : Bytes → Option Bytes) :
    InRoom H (((new me grace).run H A earlier).setRoomContext m) (accepted earlier) :=
  ⟨rfl, (follows_run H A me grace earlier).1⟩

/-- In a room no two frames of a member have the same epoch and counter, if the context is set again
only after the epoch has risen above that of every frame that has gone out. -/
theorem headers_once (H : Hkdf) (A : NonceAead) (me : Bytes) (grace : Nat) (earlier : List MediaEvent)
    (m : Bytes → Option Bytes) (events : List MediaEvent)
    (renewed : Renewed H A (((new me grace).run H A earlier).setRoomContext m) events)
    (few : frames events < 2 ^ 64) :
    ((used H A (((new me grace).run H A earlier).setRoomContext m) events).map Prod.snd).Nodup := by
  refine nodup_used (inRoom_start H A me grace earlier m) renewed ?_
  change 0 + frames events < 2 ^ 64
  rwa [Nat.zero_add]

theorem headers_once_two :
    ((used joined .plain (((new [1] 0).run joined .plain [.setSecret 0 zeros 5]).setRoomContext
      fun _ => none) [.frame [7], .frame [8]]).map Prod.snd).Nodup := by
  refine headers_once joined .plain [1] 0 [.setSecret 0 zeros 5] (fun _ => none)
    [.frame [7], .frame [8]] (fun before m after split => ?_) (by decide)
  have member : MediaEvent.setRoomContext m ∈ [MediaEvent.frame [7], .frame [8]] :=
    split ▸ List.mem_append_right _ List.mem_cons_self
  simp at member

/-- If it is set again earlier, a base key, epoch and counter come up twice as soon as as many frames
have followed as had gone out before. And in a call of two, the frames of the one side have those of the
other, one by one. -/
theorem headers_again (H : Hkdf) (A : NonceAead) :
    (∀ (me : Bytes) (grace : Nat) (earlier : List MediaEvent) (m : Bytes → Option Bytes)
        (before : List MediaEvent) (m' : Bytes → Option Bytes) (u : Bytes × UInt32 × UInt64)
        (plaintexts : List Bytes),
      u ∈ used H A (((new me grace).run H A earlier).setRoomContext m) before →
      ¬u.2.1 < ((((new me grace).run H A earlier).setRoomContext m).run H A before).registry.curEpoch →
      u.2.2.toNat < plaintexts.length →
      ¬(used H A (((new me grace).run H A earlier).setRoomContext m)
        (before ++ .setRoomContext m' :: plaintexts.map .frame)).Nodup) ∧
    ∀ (caller callee : MediaCall) (sharedSecret callId : Bytes) (spoken answered : List Bytes),
      spoken.length = answered.length →
      used H A (caller.setSframeContext H sharedSecret callId) (spoken.map .frame) =
        used H A (callee.setSframeContext H sharedSecret callId) (answered.map .frame) := by
  constructor
  · intro me grace earlier m before m' u plaintexts member early many once
    rw [used_append] at once
    have again := used_again (m := m') (inRoom_start H A me grace earlier m) member early many
    exact (List.nodup_append.mp once).2.2 u member u again rfl
  · intro caller callee sharedSecret callId spoken answered same
    have sealing : ∀ c : MediaCall, (c.setSframeContext H sharedSecret callId).sealing =
        some ((c.setSframeContext H sharedSecret callId).baseKey, 1) := fun c => rfl
    rw [used_frames (sealing caller), used_frames (sealing callee), same]
    rfl

theorem headers_again_two :
    ¬(used joined .plain (((new [1] 0).run joined .plain [.setSecret 0 zeros 5]).setRoomContext
      fun _ => none) ([.frame [7]] ++ .setRoomContext (fun _ => none) :: [[8]].map .frame)).Nodup :=
  (headers_again joined .plain).1 [1] 0 [.setSecret 0 zeros 5] (fun _ => none) [.frame [7]]
    (fun _ => none) (deriveRoomSframeKey joined zeros [1] 5, 5, 0) [[8]] (by decide)
    (by decide) (by decide)

end FinBit.Media.MediaCall
