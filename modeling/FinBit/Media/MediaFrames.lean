import FinBit.Media.RoomKeyRuns
import FinBit.Media.Sframe

/-! # The frames of a call

Probes in the media pipeline seal each frame that goes out and open each one that comes in. In a call
of two both sides use one base key; in a forwarded room every member seals with a key of its own, which
the registry of the room derives, and opens each track with the key of the member that the track carries.
-/

namespace FinBit.Media

open FinBit.Lib

/-- `SframeOpenCtx`, which a pad gets when it appears. -/
inductive OpenCtx
  /-- The registry, for the member that the track carries. -/
  | room (senderPubkey : Bytes)
  | fixed (baseKey : Bytes)

/-- `MediaCall`, with its `SframeSealCtx` and the registry of the room. -/
structure MediaCall where
  registry : RoomKeyRegistry
  /-- `reg` is set; this is `room_mode_`. -/
  roomMode : Bool
  sframeEnabled : Bool
  baseKey : Bytes
  epoch : UInt32
  sendCounter : UInt64
  midToSender : Bytes → Option Bytes

inductive MediaEvent
  /-- `set_secret` of the registry. -/
  | setSecret (now : Nat) (secret : Bytes) (epoch : UInt32)
  /-- `set_room_context`, for which the offers of the forwarder give occasion. -/
  | setRoomContext (midToSender : Bytes → Option Bytes)
  /-- A frame goes out. -/
  | frame (plaintext : Bytes)
  /-- A frame comes in. -/
  | arrives (now : Nat) (ctx : OpenCtx) (sealed : Bytes)

def nibble (n : UInt8) : UInt8 := if n < 10 then n + 48 else n + 87

def lowerHex (octets : Bytes) : Bytes := octets.flatMap fun (b : UInt8) => [nibble (b >>> 4), nibble (b &&& 15)]

namespace MediaCall

def new (myPubkey : Bytes) (grace : Nat) : MediaCall :=
  ⟨.new myPubkey grace, false, false, zeros, 1, 0, fun _ => none⟩

section

variable (H : Hkdf) (A : NonceAead) (c : MediaCall)

/-- `set_sframe_context`. -/
def setSframeContext (sharedSecret callId : Bytes) : MediaCall :=
  let info := ascii "FinBit-SFrame-call-v1-" ++ lowerHex callId
  { c with
    baseKey := (H.expand (H.extract [] sharedSecret) info 32).take 32
    roomMode := false
    epoch := 1
    sendCounter := 0
    sframeEnabled := true }

/-- `set_room_context`. -/
def setRoomContext (midToSender : Bytes → Option Bytes) : MediaCall :=
  { c with roomMode := true, sendCounter := 0, midToSender, sframeEnabled := false }

/-- The context of a pad that appears; `none` for a pad without a probe. -/
def openCtx (mid : Bytes) : Option OpenCtx :=
  if c.roomMode then some (.room ((c.midToSender mid).getD []))
  else if c.sframeEnabled then some (.fixed c.baseKey)
  else none

/-- The key and the epoch that a frame would be sealed with. -/
def sealing : Option (Bytes × UInt32) :=
  if c.roomMode then c.registry.sealKey.map fun sk => (sk.key, sk.epoch)
  else some (c.baseKey, c.epoch)

/-- `sframe_seal_probe`, with the frame that goes on from there. -/
def sealProbe (hw : Bool) (frame : Bytes) : MediaCall × Bytes :=
  match c.sealing with
  -- no room secret yet
  | none => (c, frame)
  | some (key, epoch) =>
    let c' := { c with sendCounter := c.sendCounter + 1 }
    match sframeSealV1 H A hw key epoch c.sendCounter frame with
    | .ok sealed => (c', sealed)
    | .error _ => (c', frame)

/-- `sframe_open_probe`, with the frame that goes on from there; `none` is a frame that is dropped. -/
def openProbe (hw : Bool) (now : Nat) (sealed : Bytes) :
    OpenCtx → Except String (MediaCall × Option Bytes)
  | .room senderPubkey =>
    match sframePeekEpoch sealed with
    | none => .ok (c, none)
    | some frameEpoch =>
      let (registry, key) := c.registry.openKey (deriveRoomSframeKey H) now senderPubkey frameEpoch
      match key with
      | none => .ok ({ c with registry }, none)
      | some key => (sframeOpenV1 H A hw key sealed).map fun opened => ({ c with registry }, opened)
  | .fixed baseKey => (sframeOpenV1 H A hw baseKey sealed).map fun opened => (c, opened)

/-- One event, where the cipher is available. -/
def step : MediaEvent → MediaCall
  | .setSecret now secret epoch =>
    { c with registry := c.registry.setSecret (deriveRoomSframeKey H) now secret epoch }
  | .setRoomContext midToSender => c.setRoomContext midToSender
  | .frame plaintext => (c.sealProbe H A true plaintext).1
  | .arrives now ctx sealed =>
    match c.openProbe H A true now sealed ctx with
    | .ok (c', _) => c'
    | .error _ => c

def run (events : List MediaEvent) : MediaCall := events.foldl (step H A) c

/-- What goes out for a frame. -/
def sends (plaintext : Bytes) : Bytes := (c.sealProbe H A true plaintext).2

/-- What is heard of a frame that comes in. -/
def hears (now : Nat) (ctx : OpenCtx) (sealed : Bytes) : Option Bytes :=
  match c.openProbe H A true now sealed ctx with
  | .ok (_, heard) => heard
  | .error _ => none

end

/-- The call of the registry that an event makes. -/
def registryCall : MediaEvent → Option (Nat × RoomKeyCall)
  | .setSecret now secret epoch => some (now, .setSecret secret epoch)
  | .arrives now (.room senderPubkey) sealed =>
    (sframePeekEpoch sealed).map fun frameEpoch => (now, .openKey senderPubkey frameEpoch)
  | _ => none

/-- The secrets of the room that were accepted, the newest first. -/
def accepted (events : List MediaEvent) : List RoomSecret :=
  RoomKeyRegistry.accepted (events.filterMap registryCall)

variable {H : Hkdf} {A : NonceAead} {c : MediaCall}

/-! ### The registry under the probes -/

theorem sealProbe_eq (frame : Bytes) :
    c.sealProbe H A true frame =
      match c.sealing with
      | none => (c, frame)
      | some (key, epoch) => ({ c with sendCounter := c.sendCounter + 1 },
          sealedFrame H A key epoch c.sendCounter frame) := by
  rw [sealProbe]
  cases c.sealing with
  | none => rfl
  | some with_ =>
    dsimp only
    rw [sframeSealV1_eq]

theorem registry_step (e : MediaEvent) :
    (c.step H A e).registry =
      (registryCall e).elim c.registry (c.registry.call (deriveRoomSframeKey H)) := by
  cases e with
  | setSecret now secret epoch => rfl
  | setRoomContext midToSender => rfl
  | frame plaintext =>
    rw [step, sealProbe_eq]
    split <;> rfl
  | arrives now ctx sealed =>
    cases ctx with
    | fixed baseKey =>
      rw [step, openProbe, sframeOpenV1_eq]
      rfl
    | room senderPubkey =>
      rw [step, openProbe, registryCall]
      cases sframePeekEpoch sealed with
      | none => rfl
      | some frameEpoch =>
        dsimp only
        cases found : (c.registry.openKey (deriveRoomSframeKey H) now senderPubkey frameEpoch).2 with
        | none => rfl
        | some key =>
          dsimp only
          rw [sframeOpenV1_eq]
          rfl

theorem registry_run (events : List MediaEvent) :
    (c.run H A events).registry =
      c.registry.calls (deriveRoomSframeKey H) (events.filterMap registryCall) := by
  induction events generalizing c with
  | nil => rfl
  | cons e rest ih =>
    change ((c.step H A e).run H A rest).registry = _
    rw [ih, registry_step]
    cases called : registryCall e with
    | none => rw [List.filterMap_cons_none called]; rfl
    | some call => rw [List.filterMap_cons_some called]; rfl

theorem follows_run (H : Hkdf) (A : NonceAead) (myPubkey : Bytes) (grace : Nat)
    (events : List MediaEvent) :
    RoomKeyRegistry.Follows (deriveRoomSframeKey H) ((new myPubkey grace).run H A events).registry
        (accepted events) ∧
      ((new myPubkey grace).run H A events).registry.myPubkey = myPubkey ∧
        ((new myPubkey grace).run H A events).registry.grace = grace := by
  rw [registry_run]
  exact ⟨(RoomKeyRegistry.follows_new _ myPubkey grace).calls _, RoomKeyRegistry.owner_calls ..⟩

/-! ### What is heard -/

/-- A track is heard exactly of frames that its member sealed in an epoch that the registry covers. -/
theorem hears_iff {accepted : List RoomSecret} {now : Nat} {senderPubkey sealed plaintext : Bytes}
    (follows : RoomKeyRegistry.Follows (deriveRoomSframeKey H) c.registry accepted) :
    c.hears H A now (.room senderPubkey) sealed = some plaintext ↔
      ∃ b ∈ Generation.live c.registry.grace now accepted, ∃ counter, sealed =
        sealedFrame H A (deriveRoomSframeKey H b.secret senderPubkey b.number) b.number counter
          plaintext := by
  have opened (frameEpoch : UInt32) (peeked : sframePeekEpoch sealed = some frameEpoch) :
      c.hears H A now (.room senderPubkey) sealed = some plaintext ↔
        ∃ a, (Generation.live c.registry.grace now accepted).find?
            (fun a => a.number = frameEpoch) = some a ∧
          ∃ epoch counter, sealed = sealedFrame H A
            (deriveRoomSframeKey H a.secret senderPubkey frameEpoch) epoch counter plaintext := by
    rw [hears, openProbe, peeked]
    dsimp only
    rw [RoomKeyRegistry.openKey_eq follows]
    cases (Generation.live c.registry.grace now accepted).find? fun a => a.number = frameEpoch with
    | none => simp
    | some a =>
      simp only [Option.map_some, Option.some.injEq, exists_eq_left']
      rw [← sframeOpenV1_eq_some_iff, sframeOpenV1_eq]
      simp [Except.map]
  constructor
  · intro heard
    cases peeked : sframePeekEpoch sealed with
    | none =>
      rw [hears, openProbe, peeked] at heard
      cases heard
    | some frameEpoch =>
      obtain ⟨a, found, epoch, counter, rfl⟩ := (opened frameEpoch peeked).mp heard
      -- the epoch that was peeked at is the one of the frame
      rw [peek_sealedFrame, Option.some.injEq] at peeked
      have number : a.number = frameEpoch := by simpa using List.find?_some found
      refine ⟨a, List.mem_of_find?_eq_some found, counter, ?_⟩
      rw [number, peeked]
  · rintro ⟨b, live, counter, rfl⟩
    refine (opened b.number (peek_sealedFrame ..)).mpr ?_
    cases found : (Generation.live c.registry.grace now accepted).find? fun a => a.number = b.number with
    | none => exact absurd (decide_eq_true rfl) (List.find?_eq_none.mp found b live)
    | some a =>
      have number : a.number = b.number := by simpa using List.find?_some found
      have recent : ∀ x ∈ Generation.live c.registry.grace now accepted, x ∈ accepted := fun x good =>
        List.mem_of_mem_take (Generation.live_subset _ _ _ good)
      obtain rfl := follows.rising.unique (recent a (List.mem_of_find?_eq_some found)) (recent b live)
        number
      exact ⟨a, rfl, a.number, counter, rfl⟩

/-- In a room, what goes out is sealed with the newest secret, or it is the frame itself while there
is none. -/
theorem sends_eq {accepted : List RoomSecret} (inRoom : c.roomMode = true)
    (follows : RoomKeyRegistry.Follows (deriveRoomSframeKey H) c.registry accepted)
    (plaintext : Bytes) :
    c.sends H A plaintext = match accepted.head? with
      | none => plaintext
      | some a => sealedFrame H A (deriveRoomSframeKey H a.secret c.registry.myPubkey a.number)
          a.number c.sendCounter plaintext := by
  rw [sends, sealProbe_eq, sealing, if_pos inRoom, (RoomKeyRegistry.current_eq follows.slots).2]
  cases accepted.head? with
  | none => rfl
  | some a => rfl

/-- Two members of a room, each after any history of its own, who have not been given different secrets
for one epoch. What the one sends is heard by the other, on the track that carries the one, as long as
the other's registry covers the epoch, and then as it was; and on no track is anything heard that the
member whom it carries has not sealed in an epoch that the registry covers. -/
theorem frames_reach_members (H : Hkdf) (A : NonceAead) (me you : Bytes) (grace grace' : Nat)
    (sent got : List MediaEvent) (a : RoomSecret)
    (inRoom : ((new me grace).run H A sent).roomMode = true)
    (current : (accepted sent).head? = some a)
    (agree : ∀ b ∈ accepted got, b.number = a.number → b.secret = a.secret) (now : Nat) :
    (∀ plaintext heard,
      ((new you grace').run H A got).hears H A now (.room me)
          (((new me grace).run H A sent).sends H A plaintext) = some heard ↔
        heard = plaintext ∧ ∃ b ∈ Generation.live grace' now (accepted got), b.number = a.number) ∧
    ∀ track sealed heard, ((new you grace').run H A got).hears H A now (.room track) sealed =
        some heard →
      ∃ b ∈ Generation.live grace' now (accepted got), ∃ counter, sealed =
        sealedFrame H A (deriveRoomSframeKey H b.secret track b.number) b.number counter heard := by
  obtain ⟨follows, owner, -⟩ := follows_run H A me grace sent
  obtain ⟨follows', -, kept⟩ := follows_run H A you grace' got
  constructor
  · intro plaintext heard
    rw [sends_eq inRoom follows, current, hears_iff follows', owner, kept]
    constructor
    · rintro ⟨b, live, counter, same⟩
      obtain ⟨number, rfl⟩ := sealedFrame_inj same
      have member : b ∈ accepted got := List.mem_of_mem_take (Generation.live_subset _ _ _ live)
      rw [agree b member number.symm, ← number] at same
      exact ⟨(A.encrypt_inj (List.append_cancel_left same)).symm, b, live, number.symm⟩
    · rintro ⟨rfl, b, live, number⟩
      have member : b ∈ accepted got := List.mem_of_mem_take (Generation.live_subset _ _ _ live)
      exact ⟨b, live, _, by rw [agree b member number, number]⟩
  · intro track sealed heard opened
    rw [← kept]
    exact (hears_iff follows').mp opened

/-- A key derivation for closed statements. -/
def joined : Hkdf := ⟨fun _ input => input, fun prk info _ => prk ++ info⟩

theorem frames_reach_members_pair :
    ((new [2] 0).run joined .plain [.setSecret 3 zeros 5]).hears joined .plain 4 (.room [1])
      (((new [1] 0).run joined .plain [.setSecret 0 zeros 5, .setRoomContext fun _ => none]).sends
        joined .plain [7]) = some [7] :=
  ((frames_reach_members joined .plain [1] [2] 0 0 [.setSecret 0 zeros 5, .setRoomContext fun _ => none]
    [.setSecret 3 zeros 5] ⟨5, zeros, 0⟩ rfl rfl
    (by rintro b member -; rw [List.mem_singleton.mp member]) 4).1 [7] [7]).mpr
      ⟨rfl, ⟨5, zeros, 3⟩, List.mem_singleton.mpr rfl, rfl⟩

end MediaCall

end FinBit.Media
