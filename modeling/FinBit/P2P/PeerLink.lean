import FinBit.Lib.Runs
import FinBit.Net.ClientUpgrade
import FinBit.Net.ComputeAccept
import FinBit.P2P.Detection

/-! # One link of PeerNet

A worker that dials, and the thread of the connection that is accepted. The dialer asks for a
WebSocket first, if it is to look like a browser, and then writes what is queued; the acceptor finds
out what it is spoken to in and hands on the frames. Either can stop at any point, also within
something that it writes, and what is on its way can be read in any pieces.
-/

namespace FinBit.P2P

open FinBit.Lib FinBit.Net

/-- What a worker that dials is made with. -/
structure Dial where
  /-- `PeerDialerOptions::wss`. -/
  wss : Bool
  hostHeader : Bytes
  port : UInt16
  /-- The octets that are drawn for the key. -/
  keyRaw : Bytes

namespace Dial

variable (d : Dial)

/-- The request of `ws_client_upgrade`. -/
def upgrade : ClientUpgrade :=
  buildClientUpgradeRequest d.keyRaw d.hostHeader d.port (ascii "/") .standard

/-- What is sent ahead of all frames. -/
def lead : Bytes := if d.wss then d.upgrade.request else []

/-- `frame_out` of the dialer, with the mask that is drawn for the frame. -/
def frameOut (mask payload : Bytes) : Bytes :=
  if d.wss then buildClientBinaryFrame mask payload else encodeFrame payload

/-- What the `ClientHandshakeParser` of the dialer expects. -/
def expectedAccept : Bytes := computeAccept true Base64.encode d.upgrade.secKey

end Dial

/-- How far a thread has come with its connection. -/
inductive Phase
  /-- The dialer has no connection yet; the acceptor has read nothing. -/
  | waiting
  | upgrading (hp : HandshakeState)
  /-- `run_loop` with plain frames. -/
  | plain (dec : FrameDecoder)
  /-- `run_loop` with WebSocket frames. -/
  | webSocket (wsp : FrameParser)
  /-- The thread has returned. -/
  | ended

namespace Phase

/-- `feed` and `deliver_ready` of `run_loop`. -/
def deliver (expectMasked : Bool) : Phase → Bytes → Phase × List Bytes
  | plain dec, octets =>
    let (dec, frames) := (dec.feed octets).serve frameDecoder some
    (plain dec, frames)
  | webSocket wsp, octets =>
    let (wsp, frames) := (wsp.feed octets).serve (frameParser expectMasked) WsOut.frame
    (webSocket wsp, frames)
  | phase, _ => (phase, [])

/-- `run_loop` begins with the octets that have been read already. -/
def begin (expectMasked : Bool) (phase : Phase) (prebuffered : Bytes) : Phase × List Bytes :=
  if prebuffered = [] then (phase, []) else phase.deliver expectMasked prebuffered

/-- The acceptor feeds its handshake. With the new phase, what it answers and what it delivers. -/
def acceptUpgrade (hp : HandshakeState) (octets : Bytes) : Phase × Bytes × List Bytes :=
  match HandshakeParser.feed hp octets with
  | (hp, .needMore) => (upgrading hp, [], [])
  | (_, .rejected) => (ended, [], [])
  | (hp, .accepted) =>
    let (phase, frames) := begin true (webSocket .new) hp.trailing
    (phase, build101Response (computeAccept true Base64.encode hp.clientKey), frames)

/-- The acceptor has read octets. -/
def acceptorReads : Phase → Bytes → Phase × Bytes × List Bytes
  | waiting, first =>
    if looksHttp first then acceptUpgrade .new first
    else
      let (phase, frames) := begin false (plain .new) first
      (phase, [], frames)
  | upgrading hp, octets => acceptUpgrade hp octets
  | phase, octets =>
    let (phase, frames) := phase.deliver true octets
    (phase, [], frames)

/-- A read of the acceptor whose time was up. -/
def acceptorWaits : Phase → Phase
  | waiting => plain .new
  | upgrading _ => ended
  | phase => phase

/-- The dialer has read octets. -/
def dialerReads (expectedAccept : Bytes) : Phase → Bytes → Phase × List Bytes
  | upgrading hp, octets =>
    match ClientHandshakeParser.feed expectedAccept hp octets with
    | (hp, .needMore) => (upgrading hp, [])
    | (_, .rejected) => (ended, [])
    | (hp, .accepted) => begin false (webSocket .new) hp.trailing
  | phase, octets => phase.deliver false octets

/-- `run_loop` is at work, so that what is queued is written. -/
def Running : Phase → Prop
  | plain _ => True
  | webSocket _ => True
  | _ => False

end Phase

structure Link where
  dialer : Phase
  acceptor : Phase
  /-- `Worker::writes` of the dialer. -/
  writes : List Bytes
  /-- The octets on their way. -/
  toAcceptor : Bytes
  toDialer : Bytes
  /-- What has been handed to the callback of the acceptor. -/
  received : List Bytes
  /-- What has been handed to that of the dialer. -/
  returned : List Bytes

def Link.new : Link := ⟨.waiting, .waiting, [], [], [], [], []⟩

inductive LinkEvent
  /-- `PeerNet::send`. -/
  | send (message : Bytes)
  /-- The dialer has its connection, and has written its request. -/
  | connects
  /-- The dialer writes the message at the front of its queue. -/
  | writes (mask : Bytes)
  | acceptorReads
  | acceptorWaits
  | dialerReads
  /-- A thread ends: it is told to, its time is up, or the connection fails. -/
  | dialerEnds
  | acceptorEnds

/-- The events that put a message into the queue. -/
def LinkEvent.sent : LinkEvent → Option Bytes
  | .send message => some message
  | _ => none

/-- What is sent in the course of a run. -/
def sends (es : List LinkEvent) : List Bytes := es.filterMap LinkEvent.sent

section

variable (d : Dial)

inductive LinkStep : Link → LinkEvent → Link → Prop
  | send (s : Link) (message : Bytes) :
      LinkStep s (.send message) { s with writes := s.writes ++ [message] }
  | connects {s : Link} (waits : s.dialer = .waiting) :
      LinkStep s .connects { s with
        dialer := if d.wss then .upgrading .new else .plain .new
        toAcceptor := s.toAcceptor ++ d.lead }
  | writes {s : Link} (mask : Bytes) {message : Bytes} {later : List Bytes}
      (drawn : mask.length = 4) (running : s.dialer.Running) (queued : s.writes = message :: later) :
      LinkStep s (.writes mask) { s with
        writes := later, toAcceptor := s.toAcceptor ++ d.frameOut mask message }
  | acceptorReads {s : Link} {octets rest answer : Bytes} {phase : Phase} {frames : List Bytes}
      (some_octet : octets ≠ []) (sized : octets.length ≤ kReadBytes)
      (alive : s.acceptor ≠ .ended) (there : s.toAcceptor = octets ++ rest)
      (read : s.acceptor.acceptorReads octets = (phase, answer, frames)) :
      LinkStep s .acceptorReads { s with
        acceptor := phase, toAcceptor := rest, toDialer := s.toDialer ++ answer
        received := s.received ++ frames }
  | acceptorWaits {s : Link} :
      LinkStep s .acceptorWaits { s with acceptor := s.acceptor.acceptorWaits }
  | dialerReads {s : Link} {octets rest : Bytes} {phase : Phase} {frames : List Bytes}
      (some_octet : octets ≠ []) (sized : octets.length ≤ kReadBytes)
      (begun : s.dialer ≠ .waiting) (alive : s.dialer ≠ .ended) (there : s.toDialer = octets ++ rest)
      (read : s.dialer.dialerReads d.expectedAccept octets = (phase, frames)) :
      LinkStep s .dialerReads { s with
        dialer := phase, toDialer := rest, returned := s.returned ++ frames }
  /-- What was being written may be cut off. -/
  | requestBreaksOff {s : Link} {part : Bytes} (waits : s.dialer = .waiting)
      (inside : part <+: d.lead) :
      LinkStep s .dialerEnds { s with dialer := .ended, toAcceptor := s.toAcceptor ++ part }
  | writeBreaksOff {s : Link} {mask part message : Bytes} {later : List Bytes}
      (drawn : mask.length = 4) (running : s.dialer.Running) (queued : s.writes = message :: later)
      (inside : part <+: d.frameOut mask message) :
      LinkStep s .dialerEnds { s with
        dialer := .ended, writes := later, toAcceptor := s.toAcceptor ++ part }
  | dialerEnds {s : Link} : LinkStep s .dialerEnds { s with dialer := .ended }
  | answerBreaksOff {s : Link} {octets rest answer part : Bytes} {phase : Phase}
      {frames : List Bytes} (there : s.toAcceptor = octets ++ rest)
      (read : s.acceptor.acceptorReads octets = (phase, answer, frames))
      (inside : part <+: answer) :
      LinkStep s .acceptorEnds { s with
        acceptor := .ended, toAcceptor := rest, toDialer := s.toDialer ++ part }
  | acceptorEnds {s : Link} : LinkStep s .acceptorEnds { s with acceptor := .ended }

/-! ### What the acceptor makes of the octets -/

/-- A message with the mask that is drawn for its frame. -/
abbrev Framed := Bytes × Bytes

namespace Dial

/-- Messages as the dialer writes them. -/
def framing (units : List Framed) : Bytes :=
  units.flatMap fun unit => d.frameOut unit.1 unit.2

end Dial

/-- A message within the limit of the decoders. -/
def fits (message : Bytes) : Bool := message.length ≤ kMaxFrameBytes

/-- The length of a message is below the number that `GET ` spells. Larger messages could be taken
for requests. -/
def Short (message : Bytes) : Prop := message.length < 0x47455420

instance (message : Bytes) : Decidable (Short message) := inferInstanceAs (Decidable (_ < _))

/-- The octets of plain frames come to the messages before the first that is too large. -/
theorem plain_outputs {units : List Framed} (short : ∀ unit ∈ units, Short unit.2) :
    FrameDecoder.new.outputs frameDecoder (units.flatMap fun unit => encodeFrame unit.2) =
      (units.map Prod.snd).takeWhile fits := by
  have idle : (Incoming.drain frameDecoder ⟨(), [], none⟩).2 = [] :=
    congrArg Prod.snd FrameDecoder.idle
  have all := @Incoming.drain_takeWhile _ _ _ frameDecoder Framed (fun unit => encodeFrame unit.2)
    Prod.snd (fun unit => fits unit.2) () idle units
    (fun unit _ fit rest => FrameDecoder.take_encodeFrame (by simpa [fits] using fit) rest) ?_
  · rw [List.takeWhile_map]
    exact all
  · intro unit member large rest
    have small : unit.2.length < 256 ^ 4 := lt_trans (short unit member) (by decide)
    have header : (encodeFrame unit.2 ++ rest).take 4 = beBytes 4 unit.2.length := by
      rw [encodeFrame, List.append_assoc]
      exact List.take_left' (length_beBytes 4 _)
    have length : beNat ((encodeFrame unit.2 ++ rest).take 4) = unit.2.length := by
      rw [header, beNat_beBytes, Nat.mod_eq_of_lt small]
    refine ⟨(), "frame exceeds kMaxFrameBytes", encodeFrame unit.2 ++ rest, ?_⟩
    have take : frameDecoder.take () (encodeFrame unit.2 ++ rest) =
      takeFrame (encodeFrame unit.2 ++ rest) := rfl
    unfold takeFrame at take
    dsimp only at take
    rw [take, length, if_neg (by simp [encodeFrame]), if_pos (by simpa [fits] using large)]

/-- A frame that is too large is refused by its length. -/
theorem parseFrame_oversized {mask message : Bytes} (large : kMaxMessageBytes < message.length)
    (short : Short message) (rest : Bytes) :
    parseFrame true (buildClientBinaryFrame mask message ++ rest) = .bad "frame payload too large" := by
  unfold kMaxMessageBytes at large
  unfold Short at short
  have written : buildClientBinaryFrame mask message ++ rest =
      0x82 :: 0xFF :: (beBytes 8 message.length ++ (mask ++ applyMask mask message ++ rest)) := by
    have two : (0x80 : UInt8) ||| 0x2 = 0x82 := rfl
    have all : (0x80 : UInt8) ||| 127 = 0xFF := rfl
    rw [buildClientBinaryFrame, buildMaskedFrame, lengthBytes, if_neg (by omega), if_neg (by omega),
      two, all]
    simp
  have length : lengthField (buildClientBinaryFrame mask message ++ rest) =
      some (message.length, 10) := by
    have octet : ((0xFF : UInt8) &&& 0x7f).toNat = 127 := rfl
    have taken : (beBytes 8 message.length ++ (mask ++ applyMask mask message ++ rest)).take 8 =
        beBytes 8 message.length := List.take_left' (length_beBytes 8 _)
    rw [written]
    unfold lengthField
    simp only [List.getD_cons_succ, List.getD_cons_zero]
    rw [octet, if_neg (by decide), if_pos rfl, if_neg (by simp)]
    simp only [List.drop_succ_cons, List.drop_zero, taken, beNat_beBytes]
    rw [Nat.mod_eq_of_lt (by omega)]
  have second : (buildClientBinaryFrame mask message ++ rest).getD 1 0 = 0xFF := by rw [written]; rfl
  have two : ¬(buildClientBinaryFrame mask message ++ rest).length < 2 := by
    rw [written, List.length_cons, List.length_cons]
    omega
  unfold parseFrame
  dsimp only
  rw [if_neg two, second, length, if_neg (by decide)]
  dsimp only
  rw [if_pos (by unfold kMaxMessageBytes; exact large)]

/-- The octets of masked frames come to the same messages. -/
theorem webSocket_outputs {units : List Framed} (masked : ∀ unit ∈ units, unit.1.length = 4)
    (short : ∀ unit ∈ units, Short unit.2) :
    FrameParser.new.outputs (frameParser true)
        (units.flatMap fun unit => buildClientBinaryFrame unit.1 unit.2) =
      ((units.map Prod.snd).takeWhile fits).map .message := by
  have idle : (Incoming.drain (frameParser true) ⟨⟨[], false⟩, [], none⟩).2 = [] :=
    congrArg Prod.snd (FrameParser.idle true)
  have all := @Incoming.drain_takeWhile _ _ _ (frameParser true) Framed
    (fun unit => buildClientBinaryFrame unit.1 unit.2) (fun unit => .message unit.2)
    (fun unit => fits unit.2) ⟨[], false⟩ idle units ?_ ?_
  · rw [List.takeWhile_map, List.map_map]
    exact all
  · intro unit member fit rest
    have within : unit.2.length ≤ kMaxMessageBytes := of_decide_eq_true fit
    have sized : MaskedFor true (some unit.1) :=
      ⟨fun key drawn => Option.some.inj drawn ▸ masked unit member, fun _ => rfl⟩
    have binary : (0x2 : UInt8).toNat < 16 := by decide
    have taken := take_encoded (s := ⟨[], false⟩) (f := ⟨true, 0x2, unit.2⟩) sized binary within rest
    rw [accept_first _ (.inr rfl) within] at taken
    rw [buildClientBinaryFrame_eq]
    exact taken
  · intro unit member large rest
    have beyond : kMaxMessageBytes < unit.2.length :=
      Nat.lt_of_not_le (of_decide_eq_false large)
    refine ⟨⟨[], false⟩, "frame payload too large", buildClientBinaryFrame unit.1 unit.2 ++ rest, ?_⟩
    have take : (frameParser true).take ⟨[], false⟩ (buildClientBinaryFrame unit.1 unit.2 ++ rest) =
      takeWsFrame true ⟨[], false⟩ (buildClientBinaryFrame unit.1 unit.2 ++ rest) := rfl
    rw [take, takeWsFrame, parseFrame_oversized beyond (short unit member) rest]

/-- What the octets of frames come to, in either framing. -/
def delivered (units : List Framed) : List Bytes := (units.map Prod.snd).takeWhile fits

/-- The acceptor after it has read octets, and what it has delivered, as long as it is alive. -/
inductive Reads : Bytes → Phase → List Bytes → Prop
  | waiting : Reads [] .waiting []
  | upgrading {hp : HandshakeState} {chunks : List Bytes} (asked : d.wss = true)
      (waits : Waiting hp chunks) : Reads chunks.flatten (.upgrading hp) []
  | plain {dec : FrameDecoder} {octets : Bytes}
      (alike : Incoming.Alike ((FrameDecoder.new.feed octets).drain frameDecoder).1 dec) :
      Reads octets (.plain dec) (FrameDecoder.new.outputs frameDecoder octets)
  | webSocket {wsp : FrameParser} {behind : Bytes} (asked : d.wss = true)
      (alike : Incoming.Alike ((FrameParser.new.feed behind).drain (frameParser true)).1 wsp) :
      Reads (d.lead ++ behind) (.webSocket wsp)
        ((FrameParser.new.outputs (frameParser true) behind).filterMap WsOut.frame)

/-- What the dialer writes: its request, and frames of messages. -/
structure Stream (units : List Framed) : Prop where
  /-- The host does not end the line, and does not name the header of the key. -/
  host : d.wss = true → Harmless keyNeedle (hostHdr d.hostHeader d.port)
  drawn : d.keyRaw ≠ []
  masked : ∀ unit ∈ units, unit.1.length = 4
  short : ∀ unit ∈ units, Short unit.2

section

variable {d} {units : List Framed} {taken octets : Bytes} {expectMasked : Bool}

theorem Stream.lead_settled (stream : Stream d units) (asked : d.wss = true) (rest : Bytes) :
    settled checkRequest (d.lead ++ rest) = ⟨.accepted, d.upgrade.secKey, rest⟩ := by
  have sendable : Sendable (hostHdr d.hostHeader d.port) (ascii "/") .standard :=
    ⟨stream.host asked, harmless_ofList (by decide), by rw [keyNeedle_eq]; decide,
      by rw [keyNeedle_eq]; decide⟩
  rw [Dial.lead, if_pos asked]
  exact settled_request stream.drawn sendable rest

/-- Octets in which the headers have ended hold the whole request. -/
theorem Stream.lead_le (stream : Stream d units) (asked : d.wss = true)
    (inside : taken <+: d.lead ++ d.framing units)
    (finished : (search terminator taken).isSome = true) : d.lead <+: taken := by
  obtain ⟨more, whole⟩ := inside
  obtain ⟨place, found⟩ := Option.isSome_iff_exists.mp finished
  have after := @settled_append checkRequest taken more finished
  rw [whole, stream.lead_settled asked] at after
  -- what is behind the headers is what is behind the request
  have rest : d.framing units = (settled checkRequest taken).rest ++ more := congrArg Outcome.rest after
  rw [rest, ← List.append_assoc] at whole
  have front : taken = d.lead ++ (settled checkRequest taken).rest := List.append_cancel_right whole
  exact ⟨_, front.symm⟩

/-! ### What can have been delivered -/

theorem Dial.framing_plain (asked : d.wss = false) (units : List Framed) :
    d.framing units = units.flatMap fun unit => encodeFrame unit.2 := by
  simp [Dial.framing, Dial.frameOut, asked]

theorem Dial.framing_webSocket (asked : d.wss = true) (units : List Framed) :
    d.framing units = units.flatMap fun unit => buildClientBinaryFrame unit.1 unit.2 := by
  simp [Dial.framing, Dial.frameOut, asked]

theorem Stream.plain (stream : Stream d units) (asked : d.wss = false)
    (inside : taken <+: d.framing units) :
    FrameDecoder.new.outputs frameDecoder taken <+: delivered units := by
  obtain ⟨more, whole⟩ := inside
  rw [delivered, ← plain_outputs stream.short, ← Dial.framing_plain asked, ← whole]
  exact Incoming.drain_prefix taken more

theorem Stream.messages (stream : Stream d units) (asked : d.wss = true)
    (inside : taken <+: d.framing units) :
    FrameParser.new.outputs (frameParser true) taken <+: (delivered units).map .message := by
  obtain ⟨more, whole⟩ := inside
  rw [delivered, ← webSocket_outputs stream.masked stream.short, ← Dial.framing_webSocket asked, ← whole]
  exact Incoming.drain_prefix taken more

theorem Dial.lead_eq (asked : d.wss = true) : ∃ more, d.lead = ascii "GET " ++ more := by
  rw [Dial.lead, if_pos asked, Dial.upgrade, buildClientUpgradeRequest, linesBefore]
  exact ⟨_, by simp only [unlines, List.cons_append, List.flatMap_cons, List.append_assoc]; rfl⟩

/-- A request that is read as plain frames is a frame beyond the limit. -/
theorem Dial.lead_plain (asked : d.wss = true) (inside : taken <+: d.lead ++ d.framing units) :
    FrameDecoder.new.outputs frameDecoder taken = [] := by
  obtain ⟨request, lead⟩ := Dial.lead_eq asked
  obtain ⟨more, whole⟩ := inside
  have fed : FrameDecoder.new.feed taken = ⟨(), taken, none⟩ := rfl
  have take : frameDecoder.take () taken = takeFrame taken := rfl
  unfold takeFrame at take
  dsimp only at take
  rw [Incoming.outputs, fed]
  by_cases short : taken.length < 4
  · rw [if_pos short] at take
    rw [Incoming.drain_more rfl take]
  · have length : beNat (taken.take 4) = 0x47455420 := by
      have front : taken.take 4 = (taken ++ more).take 4 :=
        (List.take_append_of_le_length (Nat.le_of_not_lt short)).symm
      rw [front, whole, lead]
      rfl
    rw [if_neg short, length, if_pos (by decide)] at take
    rw [Incoming.drain_breaks rfl take]

/-- Nothing but what has been sent, up to the first message that is too large, has been delivered. -/
theorem Reads.delivered {phase : Phase} {received : List Bytes} (reads : Reads d taken phase received)
    (stream : Stream d units) (inside : taken <+: d.lead ++ d.framing units) :
    received <+: delivered units := by
  cases reads with
  | waiting => exact List.nil_prefix
  | upgrading asked waits => exact List.nil_prefix
  | plain alike =>
    cases asked : d.wss with
    | true =>
      rw [Dial.lead_plain asked inside]
      exact List.nil_prefix
    | false =>
      have none : d.lead = [] := by simp [Dial.lead, asked]
      rw [none, List.nil_append] at inside
      exact stream.plain asked inside
  | webSocket asked alike =>
    rw [List.prefix_append_right_inj] at inside
    have messages := (stream.messages asked inside).filterMap WsOut.frame
    have frames : WsOut.frame ∘ WsOut.message = some := rfl
    rwa [List.filterMap_map, frames, List.filterMap_some] at messages

/-! ### One read of the acceptor -/

theorem Reads.deliver_plain {dec : FrameDecoder} {phase : Phase} {frames : List Bytes}
    (alike : Incoming.Alike ((FrameDecoder.new.feed taken).drain frameDecoder).1 dec)
    (read : (Phase.plain dec).deliver expectMasked octets = (phase, frames)) :
    Reads d (taken ++ octets) phase (FrameDecoder.new.outputs frameDecoder taken ++ frames) := by
  obtain ⟨alike', outs⟩ := Incoming.outputs_append alike octets
  rw [Phase.deliver, Incoming.serve_some] at read
  cases read
  rw [← outs]
  exact .plain alike'

theorem Reads.deliver_webSocket {wsp : FrameParser} {phase : Phase} {frames : List Bytes}
    (stream : Stream d units) (asked : d.wss = true)
    (alike : Incoming.Alike ((FrameParser.new.feed taken).drain (frameParser true)).1 wsp)
    (inside : taken ++ octets <+: d.framing units)
    (read : (Phase.webSocket wsp).deliver true octets = (phase, frames)) :
    Reads d (d.lead ++ (taken ++ octets)) phase
      ((FrameParser.new.outputs (frameParser true) taken).filterMap WsOut.frame ++ frames) := by
  obtain ⟨alike', outs⟩ := Incoming.outputs_append alike octets
  -- the dialer writes no frame that would close the connection
  have open_ : ∀ out ∈ ((wsp.feed octets).drain (frameParser true)).2, (WsOut.frame out).isSome = true := by
    intro out member
    have among : out ∈ FrameParser.new.outputs (frameParser true) (taken ++ octets) := by
      rw [outs]
      exact List.mem_append_right _ member
    obtain ⟨message, -, rfl⟩ := List.mem_map.mp ((stream.messages asked inside).subset among)
    rfl
  rw [Phase.deliver, Incoming.serve_frames open_] at read
  cases read
  rw [← List.filterMap_append, ← outs]
  exact .webSocket asked alike'

theorem Reads.begin_plain {phase : Phase} {frames : List Bytes}
    (begun : Phase.begin expectMasked (.plain .new) taken = (phase, frames)) :
    Reads d taken phase frames := by
  have idle : Incoming.Alike ((FrameDecoder.new.feed []).drain frameDecoder).1
      FrameDecoder.new := by
    rw [Incoming.feed_nil, FrameDecoder.idle]
    exact .refl _
  have nothing : FrameDecoder.new.outputs frameDecoder [] = [] := by
    rw [Incoming.outputs, Incoming.feed_nil, FrameDecoder.idle]
  rw [Phase.begin] at begun
  split at begun
  next empty =>
    cases begun
    rw [empty]
    have reads := Reads.plain (d := d) idle
    rwa [nothing] at reads
  · have reads := Reads.deliver_plain (d := d) idle begun
    rwa [nothing] at reads

theorem Reads.begin_webSocket {phase : Phase} {frames : List Bytes} (stream : Stream d units)
    (asked : d.wss = true) (inside : taken <+: d.framing units)
    (begun : Phase.begin true (.webSocket .new) taken = (phase, frames)) :
    Reads d (d.lead ++ taken) phase frames := by
  have idle : Incoming.Alike ((FrameParser.new.feed []).drain (frameParser true)).1
      FrameParser.new := by
    rw [Incoming.feed_nil, FrameParser.idle]
    exact .refl _
  have nothing : FrameParser.new.outputs (frameParser true) [] = [] := by
    rw [Incoming.outputs, Incoming.feed_nil, FrameParser.idle]
  rw [Phase.begin] at begun
  split at begun
  next empty =>
    cases begun
    rw [empty]
    have reads := Reads.webSocket asked idle
    rwa [nothing] at reads
  · have inside : [] ++ taken <+: d.framing units := inside
    have reads := Reads.deliver_webSocket stream asked idle inside begun
    rwa [nothing] at reads

/-- Frames of short messages do not look like a request. -/
theorem Stream.looksHttp (stream : Stream d units) (asked : d.wss = false) {first : Bytes}
    (inside : first <+: d.lead ++ d.framing units) : looksHttp first = false := by
  have none : d.lead = [] := by simp [Dial.lead, asked]
  rw [none, List.nil_append, Dial.framing_plain asked] at inside
  rw [Bool.eq_false_iff, P2P.looksHttp]
  intro http
  have spelled := (List.isPrefixOf_iff_prefix.mp http).trans inside
  cases units with
  | nil => exact absurd (List.prefix_nil.mp spelled) (by decide)
  | cons unit units =>
    have length : ascii "GET " = beBytes 4 unit.2.length := by
      have four : ascii "GET " <+: beBytes 4 unit.2.length ++
          (unit.2 ++ units.flatMap fun unit => encodeFrame unit.2) := by
        rw [← List.append_assoc]
        exact spelled
      exact List.IsPrefix.eq_of_length
        (List.prefix_of_prefix_length_le four (List.prefix_append _ _) (by simp [ascii])) (by simp [ascii])
    have number := congrArg beNat length
    rw [beNat_beBytes] at number
    have short := stream.short unit List.mem_cons_self
    have spells : beNat (ascii "GET ") = 0x47455420 := rfl
    unfold Short at short
    omega

/-- The handshake is fed, and goes over to frames when it is complete. -/
theorem Reads.upgrade {hp : HandshakeState} {chunks : List Bytes} {phase : Phase} {answer : Bytes}
    {frames : List Bytes} (stream : Stream d units) (asked : d.wss = true) (waits : Waiting hp chunks)
    (inside : chunks.flatten ++ octets <+: d.lead ++ d.framing units)
    (read : Phase.acceptUpgrade hp octets = (phase, answer, frames)) :
    Reads d (chunks.flatten ++ octets) phase frames ∨ phase = .ended ∧ frames = [] := by
  have whole : (chunks ++ [octets]).flatten = chunks.flatten ++ octets := by simp
  obtain ⟨q, status, fed, cases⟩ := @feed_cases "headers too large" checkRequest _ _ waits octets
  have fed' : HandshakeParser.feed hp octets = (q, status) := fed
  rw [Phase.acceptUpgrade, fed'] at read
  rw [whole] at cases
  obtain ⟨rfl, next, -⟩ | ⟨rfl, -⟩ | ⟨left, finished, settles⟩ := cases
  · cases read
    rw [← whole]
    exact .inl (.upgrading asked next)
  · cases read
    exact .inr ⟨rfl, rfl⟩
  · obtain ⟨behind, front⟩ := stream.lead_le asked inside finished
    rw [← front, stream.lead_settled asked] at settles
    obtain ⟨rfl, -, trailing⟩ := Outcome.mk.inj settles
    rw [← front, List.prefix_append_right_inj] at inside
    cases begun : Phase.begin true (.webSocket .new) q.trailing with
    | mk phase' frames' =>
      dsimp only at read
      rw [begun] at read
      cases read
      rw [trailing] at begun
      rw [← front]
      exact .inl (Reads.begin_webSocket stream asked inside begun)

/-- The octets of the first read are a request, part of one, or plain frames. -/
theorem Reads.first {first : Bytes} {phase : Phase} {answer : Bytes} {frames : List Bytes}
    (stream : Stream d units) (inside : first <+: d.lead ++ d.framing units)
    (read : Phase.waiting.acceptorReads first = (phase, answer, frames)) :
    Reads d first phase frames ∨ phase = .ended ∧ frames = [] := by
  rw [Phase.acceptorReads] at read
  split at read
  next http =>
    have asked : d.wss = true := by
      by_contra plain
      exact absurd http (by simp [stream.looksHttp (Bool.eq_false_iff.mpr plain) inside])
    exact Reads.upgrade stream asked waiting_new inside read
  · cases begun : Phase.begin false (.plain .new) first with
    | mk phase' frames' =>
      rw [begun] at read
      cases read
      exact .inl (Reads.begin_plain begun)

/-- What a read of the acceptor keeps. -/
theorem Reads.step {phase phase' : Phase} {received frames : List Bytes} {answer : Bytes}
    (reads : Reads d taken phase received) (stream : Stream d units)
    (inside : taken ++ octets <+: d.lead ++ d.framing units)
    (read : phase.acceptorReads octets = (phase', answer, frames)) :
    Reads d (taken ++ octets) phase' (received ++ frames) ∨ phase' = .ended ∧ frames = [] := by
  cases reads with
  | waiting => exact Reads.first stream inside read
  | upgrading asked waits => exact Reads.upgrade stream asked waits inside read
  | @plain dec _ alike =>
    cases delivers : (Phase.plain dec).deliver true octets with
    | mk phase'' frames'' =>
      rw [Phase.acceptorReads, delivers] at read
      · cases read
        exact .inl (Reads.deliver_plain alike delivers)
      · simp
      · simp
  | @webSocket wsp behind asked alike =>
    rw [List.append_assoc, List.prefix_append_right_inj] at inside
    cases delivers : (Phase.webSocket wsp).deliver true octets with
    | mk phase'' frames'' =>
      rw [Phase.acceptorReads, delivers] at read
      · cases read
        rw [List.append_assoc]
        exact .inl (Reads.deliver_webSocket stream asked alike inside delivers)
      · simp
      · simp

/-- An acceptor whose time is up. -/
theorem Reads.waits {phase : Phase} {received : List Bytes} (reads : Reads d taken phase received) :
    Reads d taken phase.acceptorWaits received ∨ phase.acceptorWaits = .ended ∧ received = [] := by
  cases reads with
  | waiting =>
    have begun : Phase.begin false (.plain FrameDecoder.new) [] = (.plain FrameDecoder.new, []) := rfl
    exact .inl (Reads.begin_plain begun)
  | upgrading asked waits => exact .inr ⟨rfl, rfl⟩
  | plain alike => exact .inl (.plain alike)
  | webSocket asked alike => exact .inl (.webSocket asked alike)

end

/-! ### The link -/

/-- What the dialer has written. -/
structure Written (units : List Framed) (octets : Bytes) (sent : List Bytes) (s : Link) : Prop where
  messages : units.map Prod.snd <+: sent
  inside : octets <+: d.lead ++ d.framing units
  waiting : s.dialer = .waiting → octets = [] ∧ units = [] ∧ s.writes = sent
  open_ : s.dialer ≠ .waiting → s.dialer ≠ .ended →
    octets = d.lead ++ d.framing units ∧ sent = units.map Prod.snd ++ s.writes

/-- The state of a link on which these messages have been sent. -/
def Linked (sent : List Bytes) (s : Link) : Prop :=
  ∃ units taken, Stream d units ∧ Written d units (taken ++ s.toAcceptor) sent s ∧
    (Reads d taken s.acceptor s.received ∨
      s.acceptor = .ended ∧ s.received <+: sent.takeWhile fits)

section

variable {d} {units : List Framed} {octets : Bytes} {sent : List Bytes} {s t : Link}

theorem takeWhile_front {α : Type} {p : α → Bool} {xs ys : List α} (front : xs <+: ys) :
    xs.takeWhile p <+: ys.takeWhile p := by
  induction xs generalizing ys with
  | nil => exact List.nil_prefix
  | cons x xs ih =>
    obtain ⟨more, rfl⟩ := front
    rw [List.cons_append]
    cases holds : p x with
    | true =>
      rw [List.takeWhile_cons_of_pos holds, List.takeWhile_cons_of_pos holds]
      exact (List.cons_prefix_cons).mpr ⟨rfl, ih (List.prefix_append xs more)⟩
    | false =>
      rw [List.takeWhile_cons_of_neg (by simp [holds])]
      exact List.nil_prefix

theorem Written.taken {taken : Bytes} (written : Written d units (taken ++ s.toAcceptor) sent s) :
    taken <+: d.lead ++ d.framing units :=
  (List.prefix_append taken _).trans written.inside

/-- What has been delivered is the beginning of what has been sent. -/
theorem Linked.received (linked : Linked d sent s) : s.received <+: sent.takeWhile fits := by
  obtain ⟨units, taken, stream, written, reads | ⟨-, received⟩⟩ := linked
  · exact (reads.delivered stream written.taken).trans (takeWhile_front written.messages)
  · exact received

/-- A step of which only the acceptor takes notice. -/
theorem Written.same (written : Written d units octets sent s) (dialer : t.dialer = s.dialer)
    (writes : t.writes = s.writes) : Written d units octets sent t := by
  obtain ⟨messages, inside, waiting, open_⟩ := written
  exact ⟨messages, inside, by rwa [dialer, writes], by rwa [dialer, writes]⟩

theorem Written.ends {part : Bytes} (written : Written d units octets sent s)
    (inside : octets ++ part <+: d.lead ++ d.framing units) (ended : t.dialer = .ended) :
    Written d units (octets ++ part) sent t :=
  ⟨written.messages, inside, by simp [ended], by simp [ended]⟩

/-- The dialer goes on with one more frame, of which a part is written. -/
theorem Written.writes {mask message part : Bytes} {later : List Bytes}
    (written : Written d units octets sent s) (running : s.dialer.Running)
    (queued : s.writes = message :: later) (inside : part <+: d.frameOut mask message)
    (writes : t.writes = later)
    (dialer : t.dialer = .ended ∨ part = d.frameOut mask message ∧ t.dialer = s.dialer) :
    Written d (units ++ [(mask, message)]) (octets ++ part) sent t := by
  have begun : s.dialer ≠ .waiting := by
    intro waits
    rw [waits] at running
    exact running
  have alive : s.dialer ≠ .ended := by
    intro ended
    rw [ended] at running
    exact running
  obtain ⟨rfl, rfl⟩ := written.open_ begun alive
  have framing : d.framing (units ++ [(mask, message)]) = d.framing units ++ d.frameOut mask message := by
    simp [Dial.framing]
  refine ⟨?_, ?_, ?_, ?_⟩
  · rw [queued, List.map_append, List.prefix_append_right_inj]
    exact ⟨later, rfl⟩
  · rw [framing, ← List.append_assoc, List.prefix_append_right_inj]
    exact inside
  · intro waits
    obtain ended | ⟨-, same⟩ := dialer
    · rw [waits] at ended
      cases ended
    · exact absurd (same.symm.trans waits) begun
  · intro _ lives
    obtain ended | ⟨rfl, -⟩ := dialer
    · exact absurd ended lives
    · exact ⟨by rw [framing, List.append_assoc], by rw [queued, writes]; simp⟩

/-- The dialer does not go back to waiting by what it reads. -/
theorem waiting_of_dialerReads {expected : Bytes} {phase phase' : Phase} {frames : List Bytes}
    (read : phase.dialerReads expected octets = (phase', frames)) :
    phase' = .waiting ↔ phase = .waiting := by
  have begins : ∀ prebuffered, (Phase.begin false (.webSocket .new) prebuffered).1 ≠ .waiting := by
    intro prebuffered
    rw [Phase.begin]
    split <;> simp [Phase.deliver]
  cases phase with
  | waiting =>
    cases read
    simp
  | upgrading hp =>
    simp only [Phase.dialerReads] at read
    cases fed : ClientHandshakeParser.feed expected hp octets with
    | mk q status =>
      rw [fed] at read
      cases status with
      | needMore => cases read; simp
      | rejected => cases read; simp
      | accepted =>
        have phase_eq := congrArg Prod.fst read
        dsimp only at phase_eq
        rw [← phase_eq]
        simp [begins]
  | plain dec => cases read; simp
  | webSocket wsp => cases read; simp
  | ended => cases read; simp

theorem Stream.concat {mask message : Bytes} (stream : Stream d units) (drawn : mask.length = 4)
    (short : Short message) : Stream d (units ++ [(mask, message)]) :=
  ⟨stream.host, stream.drawn,
    List.forall_mem_append.mpr ⟨stream.masked, List.forall_mem_singleton.mpr drawn⟩,
    List.forall_mem_append.mpr ⟨stream.short, List.forall_mem_singleton.mpr short⟩⟩

/-- A queued message has been sent. -/
theorem Written.mem_sent {message : Bytes} {later : List Bytes} (written : Written d units octets sent s)
    (running : s.dialer.Running) (queued : s.writes = message :: later) : message ∈ sent := by
  have begun : s.dialer ≠ .waiting := by
    intro waits
    rw [waits] at running
    exact running
  have alive : s.dialer ≠ .ended := by
    intro ended
    rw [ended] at running
    exact running
  rw [(written.open_ begun alive).2, queued]
  simp

theorem Linked.silent {e : LinkEvent} (quiet : e.sent = none) (linked : Linked d sent t) :
    Linked d (sent ++ e.sent.toList) t := by
  rw [quiet, Option.toList_none, List.append_nil]
  exact linked

/-- A step of the link. -/
theorem Linked.step {e : LinkEvent} (linked : Linked d sent s) (step : LinkStep d s e t)
    (short : ∀ message ∈ sent, Short message) : Linked d (sent ++ e.sent.toList) t := by
  obtain ⟨units, taken, stream, written, acceptor⟩ := linked
  cases step with
  | send message =>
    refine ⟨units, taken, stream, ⟨written.messages.trans (List.prefix_append _ _), written.inside,
      fun waits => ?_, fun begun alive => ?_⟩, ?_⟩
    · obtain ⟨nothing, none, all⟩ := written.waiting waits
      exact ⟨nothing, none, congrArg (· ++ [message]) all⟩
    · obtain ⟨all, rfl⟩ := written.open_ begun alive
      exact ⟨all, List.append_assoc _ _ _⟩
    · exact acceptor.imp_right fun ⟨ended, received⟩ =>
        ⟨ended, received.trans (takeWhile_front (List.prefix_append _ _))⟩
  | connects waits =>
    obtain ⟨nothing, rfl, all⟩ := written.waiting waits
    obtain ⟨rfl, idle⟩ := List.append_eq_nil_iff.mp nothing
    apply Linked.silent rfl
    refine ⟨[], [], stream, ⟨List.nil_prefix, ?_, fun again => ?_, fun _ _ => ⟨?_, ?_⟩⟩, acceptor⟩
    · simp [idle]
    · dsimp only at again
      split at again <;> cases again
    · simp [idle, Dial.framing]
    · exact all.symm
  | @writes mask message later drawn running queued =>
    apply Linked.silent rfl
    refine ⟨units ++ [(mask, message)], taken, stream.concat drawn ?_, ?_, acceptor⟩
    · exact short _ (written.mem_sent running queued)
    · rw [← List.append_assoc]
      exact written.writes running queued (List.prefix_refl _) rfl (.inr ⟨rfl, rfl⟩)
  | @acceptorReads octets rest answer phase frames some_octet sized alive there read =>
    apply Linked.silent rfl
    have reads := acceptor.resolve_right fun both => alive both.1
    have split : taken ++ s.toAcceptor = taken ++ octets ++ rest := by rw [there, List.append_assoc]
    rw [split] at written
    refine ⟨units, taken ++ octets, stream, written.same rfl rfl, ?_⟩
    obtain next | ⟨ended, nothing⟩ :=
      reads.step stream ((List.prefix_append _ rest).trans written.inside) read
    · exact .inl next
    · refine .inr ⟨ended, ?_⟩
      dsimp only
      rw [nothing, List.append_nil]
      exact (reads.delivered stream ((List.prefix_append _ _).trans
        ((List.prefix_append _ rest).trans written.inside))).trans
          (takeWhile_front written.messages)
  | acceptorWaits =>
    apply Linked.silent rfl
    refine ⟨units, taken, stream, written.same rfl rfl, ?_⟩
    obtain reads | ⟨ended, received⟩ := acceptor
    · obtain reads | ⟨ended, nothing⟩ := reads.waits
      · exact .inl reads
      · exact .inr ⟨ended, nothing ▸ List.nil_prefix⟩
    · refine .inr ⟨?_, received⟩
      dsimp only
      rw [ended]
      rfl
  | @dialerReads octets rest phase frames some_octet sized begun alive there read =>
    apply Linked.silent rfl
    have waits := waiting_of_dialerReads read
    exact ⟨units, taken, stream, ⟨written.messages, written.inside,
      fun waiting => written.waiting (waits.mp waiting),
      fun _ _ => written.open_ begun alive⟩, acceptor⟩
  | @requestBreaksOff part waits inside =>
    apply Linked.silent rfl
    obtain ⟨nothing, rfl, all⟩ := written.waiting waits
    refine ⟨[], taken, stream, ?_, acceptor⟩
    rw [← List.append_assoc]
    exact written.ends (by rw [nothing]; exact inside.trans (List.prefix_append _ _)) rfl
  | @writeBreaksOff mask part message later drawn running queued inside =>
    apply Linked.silent rfl
    refine ⟨units ++ [(mask, message)], taken, stream.concat drawn ?_, ?_, acceptor⟩
    · exact short _ (written.mem_sent running queued)
    · rw [← List.append_assoc]
      exact written.writes running queued inside rfl (.inl rfl)
  | dialerEnds =>
    apply Linked.silent rfl
    exact ⟨units, taken, stream, ⟨written.messages, written.inside, by simp, by simp⟩, acceptor⟩
  | @answerBreaksOff octets rest answer part phase frames there read inside =>
    apply Linked.silent rfl
    have received : s.received <+: sent.takeWhile fits :=
      Linked.received ⟨units, taken, stream, written, acceptor⟩
    have split : taken ++ s.toAcceptor = taken ++ octets ++ rest := by rw [there, List.append_assoc]
    rw [split] at written
    exact ⟨units, taken ++ octets, stream, written.same rfl rfl, .inr ⟨rfl, received⟩⟩
  | acceptorEnds =>
    apply Linked.silent rfl
    have received : s.received <+: sent.takeWhile fits :=
      Linked.received ⟨units, taken, stream, written, acceptor⟩
    exact ⟨units, taken, stream, written.same rfl rfl, .inr ⟨rfl, received⟩⟩

/-! ### When everything has arrived -/

/-- Both threads are there, and the acceptor has not taken a request for plain frames. -/
structure Sound (d : Dial) (s : Link) : Prop where
  dialer : s.dialer ≠ .ended
  acceptor : s.acceptor ≠ .ended
  upgrades : d.wss = true → ∀ dec, s.acceptor ≠ .plain dec

theorem Dial.frameOut_ne_nil (mask message : Bytes) : d.frameOut mask message ≠ [] := by
  unfold Dial.frameOut
  split
  · simp [buildClientBinaryFrame, buildMaskedFrame]
  · intro empty
    have length := congrArg List.length empty
    simp [encodeFrame] at length

theorem Dial.framing_eq_nil (nothing : d.framing units = []) : units = [] := by
  cases units with
  | nil => rfl
  | cons unit units =>
    exact absurd (List.append_eq_nil_iff.mp nothing).1 (Dial.frameOut_ne_nil _ _)

/-- The whole request has been read, and more. -/
theorem Stream.finished (stream : Stream d units) (asked : d.wss = true) (rest : Bytes) :
    search terminator (d.lead ++ rest) ≠ none := by
  intro unfinished
  have settles := stream.lead_settled asked rest
  rw [settled, unfinished] at settles
  cases settles

/-- If nothing is queued and nothing on its way, everything up to a message that is too large has
been delivered. -/
theorem Linked.quiet (linked : Linked d sent s) (sound : Sound d s) (queue : s.writes = [])
    (way : s.toAcceptor = []) : s.received = sent.takeWhile fits := by
  have received := linked.received
  obtain ⟨units, taken, stream, written, acceptor⟩ := linked
  have reads := acceptor.resolve_right fun both => sound.acceptor both.1
  by_cases waits : s.dialer = .waiting
  · obtain ⟨-, -, all⟩ := written.waiting waits
    rw [queue] at all
    subst all
    exact List.prefix_nil.mp received
  · obtain ⟨whole, rfl⟩ := written.open_ waits sound.dialer
    rw [way, List.append_nil] at whole
    rw [queue, List.append_nil] at received ⊢
    have upgrades := sound.upgrades
    generalize s.acceptor = phase at reads upgrades
    generalize s.received = got at reads received ⊢
    cases reads with
    | waiting =>
      obtain ⟨-, nothing⟩ := List.append_eq_nil_iff.mp whole.symm
      rw [Dial.framing_eq_nil nothing]
      rfl
    | upgrading asked waits =>
      have unfinished := waits.unfinished
      rw [whole] at unfinished
      exact absurd unfinished (stream.finished asked _)
    | plain alike =>
      have asked : d.wss = false := by
        by_contra webSocket
        exact upgrades (by simpa using webSocket) _ rfl
      have none : d.lead = [] := by simp [Dial.lead, asked]
      rw [whole, none, List.nil_append, Dial.framing_plain asked]
      exact plain_outputs stream.short
    | webSocket asked alike =>
      have frames : WsOut.frame ∘ WsOut.message = some := rfl
      rw [List.append_cancel_left whole, Dial.framing_webSocket asked,
        webSocket_outputs stream.masked stream.short, List.filterMap_map, frames, List.filterMap_some]

theorem sends_append (es : List LinkEvent) (e : LinkEvent) :
    sends (es ++ [e]) = sends es ++ e.sent.toList := by
  rw [sends, sends, List.filterMap_append]
  cases sent : e.sent <;> simp [sent]

theorem linked_of_run {es : List LinkEvent} (run : Run (LinkStep d) .new es s)
    (host : d.wss = true → Harmless keyNeedle (hostHdr d.hostHeader d.port)) (drawn : d.keyRaw ≠ [])
    (short : ∀ message ∈ sends es, Short message) : Linked d (sends es) s := by
  refine run.invariant_history (fun history s => (∀ message ∈ sends history, Short message) →
    Linked d (sends history) s) ?_ ?_ short
  · intro history s e t linked step short
    rw [sends_append] at short ⊢
    have before : ∀ message ∈ sends history, Short message :=
      fun message member => short message (List.mem_append_left _ member)
    exact (linked before).step step before
  · intro _
    exact ⟨[], [], ⟨host, drawn, List.forall_mem_nil _, List.forall_mem_nil _⟩,
      ⟨List.nil_prefix, List.nil_prefix, fun _ => ⟨rfl, rfl, rfl⟩, fun begun => absurd rfl begun⟩,
      .inl .waiting⟩

end

end

/-- However the two threads are interleaved, however what is on its way is cut and whenever either of
them ends: what the acceptor hands on is the beginning of what has been sent, in its order and without
repetition. It is all of it, up to the first message above the limit, once nothing is queued and
nothing is on its way. -/
theorem delivers_in_order {d : Dial} {es : List LinkEvent} {s : Link}
    (run : Run (LinkStep d) .new es s)
    (host : d.wss = true → Harmless keyNeedle (hostHdr d.hostHeader d.port)) (drawn : d.keyRaw ≠ [])
    (short : ∀ message ∈ sends es, Short message) :
    s.received <+: (sends es).takeWhile fits ∧
      (Sound d s → s.writes = [] → s.toAcceptor = [] → s.received = (sends es).takeWhile fits) :=
  have linked := linked_of_run run host drawn short
  ⟨linked.received, linked.quiet⟩

/-- One message in plain frames. -/
theorem delivers_in_order_plain : ∃ s,
    Run (LinkStep ⟨false, [], 443, [0]⟩) .new
        [.send [7], .connects, .writes [0, 0, 0, 0], .acceptorReads] s ∧ s.received = [[7]] := by
  let d : Dial := ⟨false, [], 443, [0]⟩
  let way : Bytes := encodeFrame [7]
  let read := Phase.waiting.acceptorReads way
  let s : Link := ⟨.plain FrameDecoder.new, read.1, [], [], read.2.1, read.2.2, []⟩
  have alive : Phase.waiting ≠ .ended := by rintro ⟨⟩
  have run : Run (LinkStep d) .new [.send [7], .connects, .writes [0, 0, 0, 0], .acceptorReads] s :=
    .cons (.send _ [7]) (.cons (.connects rfl) (.cons (.writes [0, 0, 0, 0] (by decide) trivial rfl)
      (.cons (@LinkStep.acceptorReads d _ way [] read.2.1 read.1 read.2.2 (by decide) (by decide)
        alive rfl rfl) (.nil _))))
  have plain : ∃ dec, read.1 = .plain dec := by
    have frame : looksHttp way = false := by decide
    have some_octet : way ≠ [] := by decide
    simp only [read, Phase.acceptorReads, frame, Phase.begin, if_neg some_octet, Phase.deliver]
    exact ⟨_, rfl⟩
  have sound : Sound d s := by
    obtain ⟨dec, same⟩ := plain
    exact ⟨by simp [s], by simp [s, same], by simp [d]⟩
  have all := delivers_in_order run (by simp [d]) (by simp [d])
    (List.forall_mem_singleton.mpr (by decide : Short [7]))
  exact ⟨s, run, all.2 sound rfl rfl⟩

end FinBit.P2P
