import FinBit.Net.WebSocket

/-! # The WebSocket frame parser

`FrameParser` puts messages together from the data frames of a connection and passes over pings and
pongs. What has been framed comes out as it went in. A peer that begins a message before it has
ended the one before makes the parser forget what it had of it.
-/

namespace FinBit.Net

open FinBit.Lib

/-- The message that is being put together, `partial_` in the source. -/
structure Fragments where
  assembled : Bytes
  inFragment : Bool

/-- What a call can give besides an error. -/
inductive WsOut
  | message (payload : Bytes)
  | close

inductive Verdict
  | emit (out : WsOut)
  | skip
  | bad (error : String)

/-- The part of `try_pop` behind the reading of a frame. -/
def accept (s : Fragments) (f : WsFrame) : Fragments × Verdict :=
  if f.opcode = 0x8 then (s, .emit .close)
  else if f.opcode = 0x9 then (s, .skip)
  else if f.opcode = 0xA then (s, .skip)
  else if f.opcode = 0x0 ∧ s.inFragment = false then (s, .bad "continuation without prior data frame")
  else if f.opcode = 0x1 ∨ f.opcode = 0x2 ∨ f.opcode = 0x0 then
    let s : Fragments := if f.opcode ≠ 0x0 then ⟨[], true⟩ else s
    let assembled := s.assembled ++ f.payload
    if assembled.length > kMaxMessageBytes then
      (⟨assembled, s.inFragment⟩, .bad "fragmented message too large")
    else if f.fin then (⟨[], false⟩, .emit (.message assembled))
    else (⟨assembled, s.inFragment⟩, .skip)
  else (s, .bad "unknown opcode")

abbrev FrameParser := Incoming Fragments String

namespace FrameParser

def new : FrameParser := .fresh ⟨[], false⟩

/-- `FrameParser::try_pop`. -/
def tryPop (expectMasked : Bool) (p : FrameParser) : FrameParser × Popped WsOut String :=
  match p.error with
  | some e => (p, .error e)
  | none =>
    match _parsed : parseFrame expectMasked p.buffer with
    | .more => (p, .needMore)
    | .bad e => ({ p with error := some e }, .error e)
    | .frame f rest =>
      match accept p.state f with
      | (s, .emit out) => (⟨s, rest, none⟩, .ready out)
      | (s, .skip) => tryPop expectMasked ⟨s, rest, none⟩
      | (s, .bad e) => (⟨s, rest, some e⟩, .error e)
termination_by p.buffer.length
decreasing_by exact parseFrame_lt _parsed

end FrameParser

/-- What `try_pop` makes of the buffer in one round. -/
def takeWsFrame (expectMasked : Bool) (s : Fragments) (buffer : Bytes) :
    Taken Fragments WsOut String :=
  match parseFrame expectMasked buffer with
  | .more => .more
  | .bad e => .broken s e buffer
  | .frame f rest =>
    match accept s f with
    | (t, .emit out) => .took t (some out) rest
    | (t, .skip) => .took t none rest
    | (t, .bad e) => .broken t e rest

theorem takeWsFrame_append {expectMasked : Bool} {s : Fragments} {buffer : Bytes} (later : Bytes)
    (whole : takeWsFrame expectMasked s buffer ≠ .more) :
    takeWsFrame expectMasked s (buffer ++ later) =
      match takeWsFrame expectMasked s buffer with
      | .more => .more
      | .took t out rest => .took t out (rest ++ later)
      | .broken t e rest => .broken t e (rest ++ later) := by
  unfold takeWsFrame at whole ⊢
  have behind := @parseFrame_append expectMasked buffer later
  cases parsed : parseFrame expectMasked buffer with
  | more => exact absurd (by rw [parsed]) whole
  | bad e => rw [behind (by rw [parsed]; nofun), parsed]
  | frame f rest =>
    rw [behind (by rw [parsed]; nofun), parsed]
    dsimp only
    split <;> rfl

/-- One round of `try_pop` after the other. -/
def frameParser (expectMasked : Bool) : StreamDecoder Fragments WsOut String where
  take := takeWsFrame expectMasked
  take_lt := by
    intro s t out buffer rest taken
    unfold takeWsFrame at taken
    split at taken
    · cases taken
    · cases taken
    next parsed =>
      have shorter := parseFrame_lt parsed
      split at taken <;> cases taken <;> exact shorter
  took_append := by
    intro s t out buffer rest later taken
    rw [takeWsFrame_append later (by rw [taken]; nofun), taken]
  broken_append := by
    intro s t e buffer rest later taken
    rw [takeWsFrame_append later (by rw [taken]; nofun), taken]

namespace FrameParser

/-- A call of `try_pop`, by its first round. -/
theorem tryPop_frame {expectMasked : Bool} {p : FrameParser} {f : WsFrame} {rest : Bytes}
    (sound : p.error = none) (parsed : parseFrame expectMasked p.buffer = .frame f rest) :
    p.tryPop expectMasked =
      match accept p.state f with
      | (s, .emit out) => (⟨s, rest, none⟩, .ready out)
      | (s, .skip) => tryPop expectMasked ⟨s, rest, none⟩
      | (s, .bad e) => (⟨s, rest, some e⟩, .error e) := by
  rw [tryPop, sound]
  dsimp only
  split <;> simp_all

theorem tryPop_eq (expectMasked : Bool) (p : FrameParser) :
    p.tryPop expectMasked = p.pop (frameParser expectMasked) := by
  induction size : p.buffer.length using Nat.strongRecOn generalizing p with
  | _ n ih =>
    cases sound : p.error with
    | some e => rw [Incoming.pop_broken sound, tryPop, sound]
    | none =>
      have take : (frameParser expectMasked).take p.state p.buffer =
        takeWsFrame expectMasked p.state p.buffer := rfl
      unfold takeWsFrame at take
      cases parsed : parseFrame expectMasked p.buffer with
      | more =>
        rw [parsed] at take
        rw [Incoming.pop_more sound take, tryPop, sound]
        dsimp only
        split <;> simp_all
      | bad e =>
        rw [parsed] at take
        rw [Incoming.pop_breaks sound take, tryPop, sound]
        dsimp only
        split <;> simp_all
      | frame f rest =>
        rw [parsed] at take
        rw [tryPop_frame sound parsed]
        dsimp only at take
        split at take
        next t out _ => rw [Incoming.pop_ready sound take]
        next t _ =>
          rw [Incoming.pop_skips sound take]
          exact ih rest.length (size ▸ parseFrame_lt parsed) ⟨t, rest, none⟩ rfl
        next t e _ => rw [Incoming.pop_breaks sound take]

theorem idle (expectMasked : Bool) : new.drain (frameParser expectMasked) = (new, []) :=
  Incoming.drain_more rfl rfl

end FrameParser

/-! ### Messages -/

/-- The frames of messages, each in one frame or in a data frame and continuations, with pings and
pongs anywhere. With `some` the frames begin within a message of which these octets are gone. -/
inductive MessageFrames : Option Bytes → List WsFrame → List Bytes → Prop
  | done : MessageFrames none [] []
  | control {within : Option Bytes} {f : WsFrame} {frames : List WsFrame} {payloads : List Bytes}
      (kind : f.opcode = 0x9 ∨ f.opcode = 0xA) (others : MessageFrames within frames payloads) :
      MessageFrames within (f :: frames) payloads
  | whole {payload : Bytes} {frames : List WsFrame} {payloads : List Bytes}
      (others : MessageFrames none frames payloads) :
      MessageFrames none (⟨true, 0x2, payload⟩ :: frames) (payload :: payloads)
  | first {part : Bytes} {frames : List WsFrame} {payloads : List Bytes}
      (others : MessageFrames (some part) frames payloads) :
      MessageFrames none (⟨false, 0x2, part⟩ :: frames) payloads
  | continued {gone part : Bytes} {frames : List WsFrame} {payloads : List Bytes}
      (others : MessageFrames (some (gone ++ part)) frames payloads) :
      MessageFrames (some gone) (⟨false, 0x0, part⟩ :: frames) payloads
  | last {gone part : Bytes} {frames : List WsFrame} {payloads : List Bytes}
      (others : MessageFrames none frames payloads) :
      MessageFrames (some gone) (⟨true, 0x0, part⟩ :: frames) ((gone ++ part) :: payloads)

namespace MessageFrames

variable {within : Option Bytes} {frames : List WsFrame} {payloads : List Bytes}

/-- The octets that are gone are the beginning of the next payload. -/
theorem gone_prefix {gone : Bytes} (messages : MessageFrames (some gone) frames payloads) :
    ∃ payload ∈ payloads, gone.length ≤ payload.length := by
  generalize open_ : some gone = within at messages
  induction messages generalizing gone with
  | done => cases open_
  | control _ _ ih => exact ih open_
  | whole _ _ => cases open_
  | first _ _ => cases open_
  | @continued gone' part _ _ _ ih =>
    obtain rfl := Option.some.inj open_
    obtain ⟨payload, payload_mem, longer⟩ := ih rfl
    rw [List.length_append] at longer
    exact ⟨payload, payload_mem, by omega⟩
  | @last gone' part _ _ _ _ =>
    obtain rfl := Option.some.inj open_
    exact ⟨gone ++ part, List.mem_cons_self, by rw [List.length_append]; omega⟩

/-- What the parser holds of a message. -/
def held : Option Bytes → Fragments
  | none => ⟨[], false⟩
  | some gone => ⟨gone, true⟩

end MessageFrames

/-- A mask has four octets, and there is one where the parser asks for it. -/
structure MaskedFor (expectMasked : Bool) (mask : Option Bytes) : Prop where
  sized : ∀ key, mask = some key → key.length = 4
  directed : expectMasked = true → mask.isSome = true

/-- A frame behind the mask that has been drawn for it. -/
abbrev MaskedFrame := Option Bytes × WsFrame

def encodeMasked (unit : MaskedFrame) : Bytes :=
  encodeWsFrame unit.1 unit.2

section

variable {expectMasked : Bool} {s t u : Fragments} {mask : Option Bytes} {f : WsFrame}
  {units : List MaskedFrame} {outs : List WsOut}

/-- A frame on the wire is taken as `accept` takes it. -/
theorem take_encoded (masked : MaskedFor expectMasked mask) (nibble : f.opcode.toNat < 16)
    (fits : f.payload.length ≤ kMaxMessageBytes) (rest : Bytes) :
    (frameParser expectMasked).take s (encodeMasked (mask, f) ++ rest) =
      match accept s f with
      | (t, .emit out) => .took t (some out) rest
      | (t, .skip) => .took t none rest
      | (t, .bad e) => .broken t e rest := by
  change takeWsFrame expectMasked s (encodeWsFrame mask f ++ rest) = _
  rw [takeWsFrame, parseFrame_encode masked.sized masked.directed nibble fits rest]

theorem takes_skip (masked : MaskedFor expectMasked mask) (nibble : f.opcode.toNat < 16)
    (fits : f.payload.length ≤ kMaxMessageBytes) (accepted : accept s f = (t, .skip))
    (others : Incoming.Takes (frameParser expectMasked) encodeMasked t units outs u) :
    Incoming.Takes (frameParser expectMasked) encodeMasked s ((mask, f) :: units) outs u :=
  .cons (fun rest => by rw [take_encoded masked nibble fits rest, accepted]) others

theorem takes_emit {out : WsOut} (masked : MaskedFor expectMasked mask)
    (nibble : f.opcode.toNat < 16) (fits : f.payload.length ≤ kMaxMessageBytes)
    (accepted : accept s f = (t, .emit out))
    (others : Incoming.Takes (frameParser expectMasked) encodeMasked t units outs u) :
    Incoming.Takes (frameParser expectMasked) encodeMasked s ((mask, f) :: units) (out :: outs) u :=
  .cons (fun rest => by rw [take_encoded masked nibble fits rest, accepted]) others

end

theorem accept_control (s : Fragments) {f : WsFrame} (kind : f.opcode = 0x9 ∨ f.opcode = 0xA) :
    accept s f = (s, .skip) := by
  obtain kind | kind := kind <;> simp [accept, kind]

/-- A data frame that begins a message. -/
theorem accept_first (s : Fragments) {f : WsFrame} (kind : f.opcode = 0x1 ∨ f.opcode = 0x2)
    (fits : f.payload.length ≤ kMaxMessageBytes) :
    accept s f =
      if f.fin then (⟨[], false⟩, .emit (.message f.payload)) else (⟨f.payload, true⟩, .skip) := by
  have short : ¬f.payload.length > kMaxMessageBytes := Nat.not_lt.mpr fits
  obtain kind | kind := kind <;> simp [accept, kind, short]

theorem accept_continuation {s : Fragments} {f : WsFrame} (kind : f.opcode = 0x0)
    (within : s.inFragment = true)
    (fits : (s.assembled ++ f.payload).length ≤ kMaxMessageBytes) :
    accept s f =
      if f.fin then (⟨[], false⟩, .emit (.message (s.assembled ++ f.payload)))
      else (⟨s.assembled ++ f.payload, true⟩, .skip) := by
  obtain ⟨gone, _⟩ := s
  cases within
  rw [List.length_append] at fits
  have short : ¬kMaxMessageBytes < gone.length + f.payload.length := Nat.not_lt.mpr fits
  simp [accept, kind, short]

/-- The frames of messages give the messages. -/
theorem MessageFrames.takes {expectMasked : Bool} {within : Option Bytes} {frames : List WsFrame}
    {payloads : List Bytes} (messages : MessageFrames within frames payloads)
    (fit : ∀ p ∈ payloads, p.length ≤ kMaxMessageBytes) {units : List MaskedFrame}
    (wired : units.map Prod.snd = frames) (masked : ∀ unit ∈ units, MaskedFor expectMasked unit.1)
    (controls : ∀ f ∈ frames, f.opcode = 0x9 ∨ f.opcode = 0xA → f.payload.length ≤ kMaxMessageBytes) :
    Incoming.Takes (frameParser expectMasked) encodeMasked (held within) units
      (payloads.map .message) (held none) := by
  induction messages generalizing units with
  | done =>
    obtain rfl := List.map_eq_nil_iff.mp wired
    exact .nil _
  | @control within f frames payloads kind others ih =>
    obtain ⟨⟨mask, _⟩, units, rfl, rfl, rfl⟩ := List.map_eq_cons_iff.mp wired
    obtain ⟨here, masked⟩ := List.forall_mem_cons.mp masked
    obtain ⟨small, controls⟩ := List.forall_mem_cons.mp controls
    refine takes_skip here ?_ (small kind) (accept_control _ kind) (ih fit rfl masked controls)
    obtain kind | kind := kind <;> rw [kind] <;> decide
  | @whole payload frames payloads others ih =>
    obtain ⟨⟨mask, _⟩, units, rfl, rfl, rfl⟩ := List.map_eq_cons_iff.mp wired
    obtain ⟨here, masked⟩ := List.forall_mem_cons.mp masked
    obtain ⟨small, fit⟩ := List.forall_mem_cons.mp fit
    have controls := (List.forall_mem_cons.mp controls).2
    exact takes_emit here (by simp) small (accept_first _ (.inr rfl) small)
      (ih fit rfl masked controls)
  | @first part frames payloads others ih =>
    obtain ⟨⟨mask, _⟩, units, rfl, rfl, rfl⟩ := List.map_eq_cons_iff.mp wired
    obtain ⟨here, masked⟩ := List.forall_mem_cons.mp masked
    have controls := (List.forall_mem_cons.mp controls).2
    obtain ⟨payload, payload_mem, longer⟩ := others.gone_prefix
    have small : part.length ≤ kMaxMessageBytes := longer.trans (fit payload payload_mem)
    exact takes_skip here (by simp) small (accept_first _ (.inr rfl) small)
      (ih fit rfl masked controls)
  | @continued gone part frames payloads others ih =>
    obtain ⟨⟨mask, _⟩, units, rfl, rfl, rfl⟩ := List.map_eq_cons_iff.mp wired
    obtain ⟨here, masked⟩ := List.forall_mem_cons.mp masked
    have controls := (List.forall_mem_cons.mp controls).2
    obtain ⟨payload, payload_mem, longer⟩ := others.gone_prefix
    have small : (gone ++ part).length ≤ kMaxMessageBytes := longer.trans (fit payload payload_mem)
    have part_small : part.length ≤ kMaxMessageBytes := by
      rw [List.length_append] at small
      omega
    exact takes_skip here (by simp) part_small (accept_continuation rfl rfl small)
      (ih fit rfl masked controls)
  | @last gone part frames payloads others ih =>
    obtain ⟨⟨mask, _⟩, units, rfl, rfl, rfl⟩ := List.map_eq_cons_iff.mp wired
    obtain ⟨here, masked⟩ := List.forall_mem_cons.mp masked
    obtain ⟨small, fit⟩ := List.forall_mem_cons.mp fit
    have controls := (List.forall_mem_cons.mp controls).2
    have part_small : part.length ≤ kMaxMessageBytes := by
      rw [List.length_append] at small
      omega
    exact takes_emit here (by simp) part_small (accept_continuation rfl rfl small)
      (ih fit rfl masked controls)

namespace FrameParser

/-- Payloads within the limit come out as they were framed, each in a binary frame or in such a
frame and continuations, with pings and pongs anywhere, and however the octets are cut. The
builders of both ends write such frames. -/
theorem messages_of_any_cut :
    (∀ mask payload, buildClientBinaryFrame mask payload =
      encodeWsFrame (some mask) ⟨true, 0x2, payload⟩) ∧
    (∀ payload, Server.buildServerBinaryFrame payload = encodeWsFrame none ⟨true, 0x2, payload⟩) ∧
    ∀ (expectMasked : Bool) (payloads : List Bytes),
      (∀ p ∈ payloads, p.length ≤ kMaxMessageBytes) →
      ∀ units : List MaskedFrame, MessageFrames none (units.map Prod.snd) payloads →
        (∀ unit ∈ units, MaskedFor expectMasked unit.1) →
        (∀ f ∈ units.map Prod.snd, f.opcode = 0x9 ∨ f.opcode = 0xA →
          f.payload.length ≤ kMaxMessageBytes) →
        ∀ pieces : List Bytes, pieces.flatten = units.flatMap encodeMasked →
          (new.receive (frameParser expectMasked) pieces).2 = payloads.map .message ∧
            (new.receive (frameParser expectMasked) pieces).1.error = none := by
  refine ⟨buildClientBinaryFrame_eq, buildServerBinaryFrame_eq, ?_⟩
  intro expectMasked payloads fit units messages masked controls pieces cut
  obtain ⟨alike, outs⟩ := Incoming.receive_flatten (idle expectMasked) pieces
  have all := (messages.takes fit rfl masked controls).drain []
  rw [List.append_nil] at all
  have fed : new.feed pieces.flatten =
      ⟨MessageFrames.held none, units.flatMap encodeMasked, none⟩ := by
    rw [cut]
    rfl
  have last : Incoming.drain (frameParser expectMasked) ⟨MessageFrames.held none, [], none⟩ =
    (new, []) := idle expectMasked
  rw [fed, all, last] at alike outs
  exact ⟨by rw [outs, List.append_nil], alike.error⟩

/-- A message in two frames around a ping, cut inside each of them. -/
theorem messages_of_any_cut_around_ping :
    (new.receive (frameParser true)
      [[0x02, 0x81, 1, 2], [3, 4, 105, 0x89], [0x80, 0, 0, 0, 0, 0x80], [0x81, 1, 1, 1, 1, 104]]).2 =
      [.message [104, 105]] := by
  refine (messages_of_any_cut.2.2 true [[104, 105]] (by decide)
    [(some [1, 2, 3, 4], ⟨false, 0x2, [104]⟩), (some [0, 0, 0, 0], ⟨true, 0x9, []⟩),
      (some [1, 1, 1, 1], ⟨true, 0x0, [105]⟩)] (.first (.control (.inl rfl) (.last .done))) ?_ ?_ _
    (by decide)).1
  · intro unit unit_mem
    simp only [List.mem_cons, List.not_mem_nil, or_false] at unit_mem
    obtain rfl | rfl | rfl := unit_mem <;> exact ⟨by simp, fun _ => rfl⟩
  · decide

end FrameParser

/-! ### What is kept -/

def isDataFrame (f : WsFrame) : Bool :=
  f.opcode = 0x0 || f.opcode = 0x1 || f.opcode = 0x2

/-- The payloads of data frames. -/
def dataOctets (frames : List WsFrame) : Bytes :=
  (frames.filter isDataFrame).flatMap WsFrame.payload

/-- The payloads of the data frames behind the last one that was final. -/
def openOctets (frames : List WsFrame) : Bytes :=
  frames.foldl (fun gone f => if isDataFrame f then if f.fin then [] else gone ++ f.payload else gone) []

/-- No message begins while octets of another are open. -/
def Orderly (frames : List WsFrame) : Prop :=
  ∀ before f, before ++ [f] <+: frames → f.opcode = 0x1 ∨ f.opcode = 0x2 → openOctets before = []

theorem Orderly.nil : Orderly [] := by
  intro before f inside
  simp at inside

theorem orderly_concat (frames : List WsFrame) (f : WsFrame) :
    Orderly (frames ++ [f]) ↔
      Orderly frames ∧ (f.opcode = 0x1 ∨ f.opcode = 0x2 → openOctets frames = []) := by
  constructor
  · intro orderly
    exact ⟨fun before g inside => orderly before g (inside.trans (List.prefix_append _ _)),
      orderly frames f (List.prefix_refl _)⟩
  · rintro ⟨orderly, last⟩ before g inside starts
    obtain whole | inside := List.prefix_concat_iff.mp inside
    · obtain ⟨rfl, same⟩ := List.append_inj' whole rfl
      obtain rfl := List.singleton_inj.mp same
      exact last starts
    · exact orderly before g inside starts

theorem dataOctets_concat (frames : List WsFrame) (f : WsFrame) :
    dataOctets (frames ++ [f]) =
      dataOctets frames ++ if isDataFrame f then f.payload else [] := by
  cases data : isDataFrame f <;> simp [dataOctets, data]

theorem openOctets_concat (frames : List WsFrame) (f : WsFrame) :
    openOctets (frames ++ [f]) =
      if isDataFrame f then if f.fin then [] else openOctets frames ++ f.payload
      else openOctets frames := by
  simp [openOctets]

/-- Frames that are accepted one after the other, and the messages they give. -/
inductive Accepted : List WsFrame → List Bytes → Fragments → Prop
  | nil : Accepted [] [] ⟨[], false⟩
  | skip {frames : List WsFrame} {popped : List Bytes} {s t : Fragments} {f : WsFrame}
      (before : Accepted frames popped s) (accepted : accept s f = (t, .skip)) :
      Accepted (frames ++ [f]) popped t
  | message {frames : List WsFrame} {popped : List Bytes} {s t : Fragments} {f : WsFrame}
      {payload : Bytes} (before : Accepted frames popped s)
      (accepted : accept s f = (t, .emit (.message payload))) :
      Accepted (frames ++ [f]) (popped ++ [payload]) t

/-- What is kept of a message with one more of its frames. -/
def grown (s : Fragments) (f : WsFrame) : Bytes :=
  if f.opcode = 0x0 then s.assembled ++ f.payload else f.payload

/-- All that a frame can do besides ending the connection. -/
theorem accept_cases {s t : Fragments} {f : WsFrame} {verdict : Verdict}
    (accepted : accept s f = (t, verdict)) :
    verdict = .emit .close ∨ (∃ e, verdict = .bad e) ∨
      (isDataFrame f = false ∧ t = s ∧ verdict = .skip) ∨
      (isDataFrame f = true ∧ f.fin = true ∧ t.assembled = [] ∧
        verdict = .emit (.message (grown s f))) ∨
      (isDataFrame f = true ∧ f.fin = false ∧ t.assembled = grown s f ∧ verdict = .skip) := by
  unfold accept at accepted
  split at accepted
  · cases accepted
    exact .inl rfl
  split at accepted
  next ping =>
    cases accepted
    exact .inr (.inr (.inl ⟨by simp [isDataFrame, ping], rfl, rfl⟩))
  split at accepted
  next pong =>
    cases accepted
    exact .inr (.inr (.inl ⟨by simp [isDataFrame, pong], rfl, rfl⟩))
  split at accepted
  · cases accepted
    exact .inr (.inl ⟨_, rfl⟩)
  split at accepted
  next kind =>
    have data : isDataFrame f = true := by
      obtain kind | kind | kind := kind <;> simp [isDataFrame, kind]
    have assembled : (if f.opcode ≠ 0x0 then ⟨[], true⟩ else s : Fragments).assembled ++ f.payload =
        grown s f := by
      by_cases continues : f.opcode = 0x0 <;> simp [grown, continues]
    dsimp only at accepted
    rw [assembled] at accepted
    split at accepted
    · cases accepted
      exact .inr (.inl ⟨_, rfl⟩)
    split at accepted
    next last =>
      cases accepted
      exact .inr (.inr (.inr (.inl ⟨data, last, rfl, rfl⟩)))
    next more =>
      cases accepted
      exact .inr (.inr (.inr (.inr ⟨data, Bool.eq_false_iff.mpr more, rfl, rfl⟩)))
  · cases accepted
    exact .inr (.inl ⟨_, rfl⟩)

/-- What has been given out and what is being put together are no more than the payloads, and
are all of them as long as messages do not begin within others. -/
structure Keeps (frames : List WsFrame) (kept gone : Bytes) : Prop where
  length_le : (kept ++ gone).length ≤ (dataOctets frames).length
  whole : kept ++ gone = dataOctets frames ↔ Orderly frames
  gone_eq : Orderly frames → gone = openOctets frames

theorem Keeps.control {frames : List WsFrame} {kept gone : Bytes} (keeps : Keeps frames kept gone)
    {f : WsFrame} (control : isDataFrame f = false) : Keeps (frames ++ [f]) kept gone := by
  have octets : dataOctets (frames ++ [f]) = dataOctets frames := by
    simp [dataOctets_concat, control]
  have orderly : Orderly (frames ++ [f]) ↔ Orderly frames := by
    rw [orderly_concat, and_iff_left]
    intro starts
    obtain starts | starts := starts <;> simp [isDataFrame, starts] at control
  refine ⟨?_, ?_, fun before => ?_⟩
  · rw [octets]
    exact keeps.length_le
  · rw [octets, orderly]
    exact keeps.whole
  · rw [openOctets_concat, control]
    exact keeps.gone_eq (orderly.mp before)

/-- A frame that begins a message lets go of what there is. -/
theorem Keeps.starts {frames : List WsFrame} {kept gone : Bytes} (keeps : Keeps frames kept gone)
    {f : WsFrame} (starts : f.opcode = 0x1 ∨ f.opcode = 0x2) :
    (kept ++ f.payload).length ≤ (dataOctets (frames ++ [f])).length ∧
      (kept ++ f.payload = dataOctets (frames ++ [f]) ↔ Orderly (frames ++ [f])) ∧
      (Orderly (frames ++ [f]) → f.payload = openOctets frames ++ f.payload) := by
  have data : isDataFrame f = true := by
    obtain starts | starts := starts <;> simp [isDataFrame, starts]
  have octets : dataOctets (frames ++ [f]) = dataOctets frames ++ f.payload := by
    simp [dataOctets_concat, data]
  have length_le := keeps.length_le
  rw [octets, orderly_concat, List.append_cancel_right_eq]
  rw [List.length_append] at length_le
  refine ⟨by rw [List.length_append, List.length_append]; omega, ⟨fun all => ?_, ?_⟩, ?_⟩
  · -- what was given out before is all there was, so nothing is let go
    have none : gone = [] := by
      rw [← all] at length_le
      exact List.eq_nil_of_length_eq_zero (by omega)
    have orderly : Orderly frames := keeps.whole.mp (by rw [none, List.append_nil, all])
    exact ⟨orderly, fun _ => (keeps.gone_eq orderly).symm.trans none⟩
  · rintro ⟨orderly, closed⟩
    have none : gone = [] := (keeps.gone_eq orderly).trans (closed starts)
    have all := keeps.whole.mpr orderly
    rwa [none, List.append_nil] at all
  · rintro ⟨-, closed⟩
    rw [closed starts, List.nil_append]

/-- One that goes on with a message adds to it. -/
theorem Keeps.continues {frames : List WsFrame} {kept gone : Bytes} (keeps : Keeps frames kept gone)
    {f : WsFrame} (continues : f.opcode = 0x0) :
    (kept ++ (gone ++ f.payload)).length ≤ (dataOctets (frames ++ [f])).length ∧
      (kept ++ (gone ++ f.payload) = dataOctets (frames ++ [f]) ↔ Orderly (frames ++ [f])) ∧
      (Orderly (frames ++ [f]) → gone ++ f.payload = openOctets frames ++ f.payload) := by
  have octets : dataOctets (frames ++ [f]) = dataOctets frames ++ f.payload := by
    simp [dataOctets_concat, isDataFrame, continues]
  have orderly : Orderly (frames ++ [f]) ↔ Orderly frames := by
    rw [orderly_concat, and_iff_left]
    intro starts
    simp [continues] at starts
  have length_le := keeps.length_le
  rw [octets, orderly, ← List.append_assoc, List.append_cancel_right_eq, List.length_append,
    @List.length_append _ (dataOctets frames)]
  exact ⟨by omega, keeps.whole, fun before => by rw [keeps.gone_eq before]⟩

theorem Keeps.grown {frames : List WsFrame} {kept : Bytes} {s : Fragments}
    (keeps : Keeps frames kept s.assembled) {f : WsFrame} (data : isDataFrame f = true) :
    (kept ++ grown s f).length ≤ (dataOctets (frames ++ [f])).length ∧
      (kept ++ grown s f = dataOctets (frames ++ [f]) ↔ Orderly (frames ++ [f])) ∧
      (Orderly (frames ++ [f]) → grown s f = openOctets frames ++ f.payload) := by
  by_cases continues : f.opcode = 0x0
  · simp only [Net.grown, continues, if_true]
    exact keeps.continues continues
  · simp only [Net.grown, continues, if_false]
    have starts : f.opcode = 0x1 ∨ f.opcode = 0x2 := by
      simpa [isDataFrame, continues] using data
    exact keeps.starts starts

theorem Accepted.keeps {frames : List WsFrame} {popped : List Bytes} {s : Fragments}
    (accepted : Accepted frames popped s) : Keeps frames popped.flatten s.assembled := by
  induction accepted with
  | nil => exact ⟨Nat.le_refl 0, iff_of_true rfl Orderly.nil, fun _ => rfl⟩
  | @skip frames popped s t f before accepted ih =>
    obtain closed | ⟨e, bad⟩ | ⟨control, rfl, -⟩ | ⟨-, -, -, emitted⟩ | ⟨data, more, assembled, -⟩ :=
      accept_cases accepted
    · cases closed
    · cases bad
    · exact ih.control control
    · cases emitted
    · obtain ⟨length_le, whole, gone_eq⟩ := ih.grown data
      rw [← assembled] at length_le whole gone_eq
      refine ⟨length_le, whole, fun orderly => ?_⟩
      rw [openOctets_concat, data, more]
      exact gone_eq orderly
  | @message frames popped s t f payload before accepted ih =>
    obtain closed | ⟨e, bad⟩ | ⟨-, -, skipped⟩ | ⟨data, last, assembled, emitted⟩ |
        ⟨-, -, -, skipped⟩ := accept_cases accepted
    · cases closed
    · cases bad
    · cases skipped
    · cases emitted
      obtain ⟨length_le, whole, -⟩ := ih.grown data
      have out : (popped ++ [grown s f]).flatten = popped.flatten ++ grown s f := by simp
      rw [out, assembled]
      refine ⟨by rwa [List.append_nil], by rwa [List.append_nil], fun _ => ?_⟩
      rw [openOctets_concat, data, last]
      rfl
    · cases skipped

namespace FrameParser

/-- The frames that a call of `try_pop` takes off the buffer. -/
def consumed (expectMasked : Bool) (p : FrameParser) : List WsFrame :=
  match p.error with
  | some _ => []
  | none =>
    match _parsed : parseFrame expectMasked p.buffer with
    | .frame f rest =>
      match accept p.state f with
      | (s, .skip) => f :: consumed expectMasked ⟨s, rest, none⟩
      | _ => [f]
    | _ => []
termination_by p.buffer.length
decreasing_by exact parseFrame_lt _parsed

/-- The messages of an answer that is neither an error nor a close. -/
def given : Popped WsOut String → Option (List Bytes)
  | .needMore => some []
  | .ready (.message payload) => some [payload]
  | .ready .close => none
  | .error _ => none

/-- A parser that has been fed in any pieces and popped at any times, with the messages that it has
given and the frames that it has consumed, as long as it has answered neither with an error nor with
a close. -/
inductive Run (expectMasked : Bool) : FrameParser → List Bytes → List WsFrame → Prop
  | fresh : Run expectMasked new [] []
  | feed {p : FrameParser} {popped : List Bytes} {frames : List WsFrame} (chunk : Bytes)
      (run : Run expectMasked p popped frames) : Run expectMasked (p.feed chunk) popped frames
  | pop {p q : FrameParser} {popped messages : List Bytes} {frames : List WsFrame}
      {answer : Popped WsOut String} (run : Run expectMasked p popped frames)
      (called : p.tryPop expectMasked = (q, answer)) (gave : given answer = some messages) :
      Run expectMasked q (popped ++ messages) (frames ++ p.consumed expectMasked)

theorem consumed_frame {expectMasked : Bool} {p : FrameParser} {f : WsFrame} {rest : Bytes}
    (sound : p.error = none) (parsed : parseFrame expectMasked p.buffer = .frame f rest) :
    p.consumed expectMasked =
      match accept p.state f with
      | (s, .skip) => f :: consumed expectMasked ⟨s, rest, none⟩
      | _ => [f] := by
  rw [consumed, sound]
  dsimp only
  split <;> simp_all

theorem consumed_more {expectMasked : Bool} {p : FrameParser}
    (parsed : parseFrame expectMasked p.buffer = .more) : p.consumed expectMasked = [] := by
  rw [consumed]
  split
  · rfl
  · split <;> simp_all

/-- A call that waits or gives a message has accepted what it consumed. -/
theorem accepted_tryPop {expectMasked : Bool} {p q : FrameParser} {answer : Popped WsOut String}
    (called : p.tryPop expectMasked = (q, answer)) {messages : List Bytes}
    (gave : given answer = some messages) (sound : p.error = none) {frames : List WsFrame}
    {popped : List Bytes} (accepted : Accepted frames popped p.state) :
    Accepted (frames ++ p.consumed expectMasked) (popped ++ messages) q.state ∧ q.error = none := by
  induction size : p.buffer.length using Nat.strongRecOn generalizing p frames with
  | _ n ih =>
    have take : (frameParser expectMasked).take p.state p.buffer =
      takeWsFrame expectMasked p.state p.buffer := rfl
    unfold takeWsFrame at take
    cases parsed : parseFrame expectMasked p.buffer with
    | more =>
      rw [parsed] at take
      rw [tryPop_eq, Incoming.pop_more sound take] at called
      cases called
      cases gave
      rw [consumed_more parsed, List.append_nil, List.append_nil]
      exact ⟨accepted, sound⟩
    | bad e =>
      rw [parsed] at take
      rw [tryPop_eq, Incoming.pop_breaks sound take] at called
      cases called
      cases gave
    | frame f rest =>
      rw [tryPop_frame sound parsed] at called
      rw [consumed_frame sound parsed]
      cases result : accept p.state f with
      | mk t verdict =>
      cases verdict with
      | bad e =>
        rw [result] at called
        cases called
        cases gave
      | emit out =>
        rw [result] at called
        cases called
        cases out with
        | close => cases gave
        | message payload =>
          cases gave
          exact ⟨.message accepted result, rfl⟩
      | skip =>
        rw [result] at called
        -- the rest of the call is a call from the next state
        have next := ih rest.length (size ▸ parseFrame_lt parsed) called rfl
          (.skip accepted result) rfl
        rw [List.append_assoc] at next
        exact next

theorem Run.accepted {expectMasked : Bool} {p : FrameParser} {popped : List Bytes}
    {frames : List WsFrame} (run : Run expectMasked p popped frames) :
    Accepted frames popped p.state ∧ p.error = none := by
  induction run with
  | fresh => exact ⟨.nil, rfl⟩
  | feed chunk run ih =>
    obtain ⟨accepted, sound⟩ := ih
    simp only [Incoming.feed, sound]
    exact ⟨accepted, rfl⟩
  | pop run called gave ih =>
    exact accepted_tryPop called gave ih.2 ih.1

/-- What has been given out and what is being put together are the payloads of the data frames
that have been consumed exactly as long as no message has begun while octets of another were open. -/
theorem keeps_all_iff {expectMasked : Bool} {p : FrameParser} {popped : List Bytes}
    {frames : List WsFrame} (run : Run expectMasked p popped frames) :
    popped.flatten ++ p.state.assembled = dataOctets frames ↔ Orderly frames :=
  run.accepted.1.keeps.whole

/-- A text message that a binary one cuts off. -/
private theorem cut_off : ∃ p : FrameParser,
    Run false p [[98]] [⟨false, 0x1, [97]⟩, ⟨true, 0x2, [98]⟩] ∧ p.state.assembled = [] := by
  have first : parseFrame false [0x01, 0x01, 97, 0x82, 0x01, 98] =
    .frame ⟨false, 0x1, [97]⟩ [0x82, 0x01, 98] := rfl
  have second : parseFrame false [0x82, 0x01, 98] = .frame ⟨true, 0x2, [98]⟩ [] := rfl
  have called : tryPop false (new.feed [0x01, 0x01, 97, 0x82, 0x01, 98]) =
      (new, .ready (.message [98])) := by
    rw [tryPop_frame rfl first]
    exact tryPop_frame (p := ⟨⟨[97], true⟩, [0x82, 0x01, 98], none⟩) rfl second
  have frames : consumed false (new.feed [0x01, 0x01, 97, 0x82, 0x01, 98]) =
      [⟨false, 0x1, [97]⟩, ⟨true, 0x2, [98]⟩] := by
    rw [consumed_frame rfl first]
    exact congrArg _ (consumed_frame (p := ⟨⟨[97], true⟩, [0x82, 0x01, 98], none⟩) rfl second)
  have run : Run false new [[98]] (consumed false (new.feed [0x01, 0x01, 97, 0x82, 0x01, 98])) :=
    .pop (.feed [0x01, 0x01, 97, 0x82, 0x01, 98] .fresh) called rfl
  exact ⟨new, frames ▸ run, rfl⟩

/-- The octet of the first message is gone although no error has been given. -/
theorem not_keeps_all : ¬∀ (expectMasked : Bool) (p : FrameParser) (popped : List Bytes)
    (frames : List WsFrame), Run expectMasked p popped frames →
      popped.flatten ++ p.state.assembled = dataOctets frames := by
  intro all
  obtain ⟨p, run, empty⟩ := cut_off
  have kept := all false p _ _ run
  rw [empty] at kept
  exact absurd kept (by decide)

theorem keeps_all_iff_cut_off :
    ([[98]] : List Bytes).flatten ++ ([] : Bytes) ≠
        dataOctets [⟨false, 0x1, [97]⟩, ⟨true, 0x2, [98]⟩] ∧
      ¬Orderly [⟨false, 0x1, [97]⟩, ⟨true, 0x2, [98]⟩] := by
  obtain ⟨p, run, empty⟩ := cut_off
  have iff := keeps_all_iff run
  rw [empty] at iff
  exact ⟨by decide, fun orderly => absurd (iff.mpr orderly) (by decide)⟩

end FrameParser

end FinBit.Net
