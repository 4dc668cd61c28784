import FinBit.Lib.Pausing
import FinBit.Net.FrameCodec
import FinBit.Net.FrameParser
import FinBit.Net.Handshake

/-! # Inbound connections of PeerNet

A listener finds out from the first octets of a connection whether its peer speaks WebSocket or the
plain frames. It looks only at what the first read brings, so that a request whose first octets come
apart is taken for plain frames.
-/

namespace FinBit.P2P

open FinBit.Lib FinBit.Net

inductive WsRole
  | kNone
  | kDialer
  | kAcceptor
  deriving DecidableEq

structure WsDetect where
  role : WsRole
  prebuffer : Bytes

/-- The size of the buffers that octets are read into. -/
def kReadBytes : Nat := 4096

def build101Response (accept : Bytes) : Bytes :=
  ascii "HTTP/1.1 101 Switching Protocols\r\nUpgrade: websocket\r\nConnection: Upgrade\r\nSec-WebSocket-Accept: " ++
    accept ++ ascii "\r\n\r\n"

def looksHttp (first : Bytes) : Bool :=
  (ascii "GET ").isPrefixOf first

/-- The loop that feeds the handshake. A read without octets is one whose time was up. -/
def upgrade (hp : HandshakeState) : List Bytes → HandshakeState × HandshakeStatus × List Bytes
  | [] => (hp, .needMore, [])
  | read :: reads =>
    if read = [] then (hp, .needMore, reads)
    else
      match HandshakeParser.feed hp read with
      | (hp, .needMore) => upgrade hp reads
      | (hp, status) => (hp, status, reads)

section

variable (computeAccept : Bytes → Bytes)

/-- `ws_detect_and_accept`, with what it sends and the reads that it leaves. -/
def wsDetectAndAccept : List Bytes → Except String (WsDetect × Bytes × List Bytes)
  | [] => .ok (⟨.kNone, []⟩, [], [])
  | first :: reads =>
    if first = [] then .ok (⟨.kNone, []⟩, [], reads)
    else if looksHttp first = false then .ok (⟨.kNone, first⟩, [], reads)
    else
      match upgrade .new (first :: reads) with
      | (hp, .accepted, reads) =>
        .ok (⟨.kAcceptor, hp.trailing⟩, build101Response (computeAccept hp.clientKey), reads)
      | _ => .error "ws_detect_and_accept: handshake failed"

end

/-- A close frame is not ready. -/
def WsOut.frame : WsOut → Option Bytes
  | .message payload => some payload
  | .close => none

/-- What `run_loop` hands to the callback. A read without octets is passed over. -/
def runLoop (role : WsRole) (prebuffered : Bytes) (reads : List Bytes) : List Bytes :=
  let pieces := (prebuffered :: reads).filter (· ≠ [])
  match role with
  | .kNone => (FrameDecoder.new.serveAll frameDecoder some pieces).2
  | role => (FrameParser.new.serveAll (frameParser (role = .kAcceptor)) WsOut.frame pieces).2

/-- What comes of a connection: how it is read, what has been sent on it, and its frames. -/
structure Inbound where
  role : WsRole
  sent : Bytes
  frames : List Bytes

/-- The thread of an accepted connection. It ends when the detection throws. -/
def inbound (computeAccept : Bytes → Bytes) (reads : List Bytes) : Option Inbound :=
  match wsDetectAndAccept computeAccept reads with
  | .error _ => none
  | .ok (det, sent, reads) => some ⟨det.role, sent, runLoop det.role det.prebuffer reads⟩

/-- A way in which the octets of a stream are read. -/
structure Delivery (stream : Bytes) where
  reads : List Bytes
  whole : reads.flatten = stream
  sized : ∀ read ∈ reads, read.length ≤ kReadBytes

/-! ### The handshake -/

/-- The reads up to the first one without octets. -/
def live (reads : List Bytes) : List Bytes :=
  reads.takeWhile (· ≠ [])

/-- The headers come to an end before any read is without octets, and no read before ends beyond
the limit. -/
def Arrives (reads : List Bytes) : Prop :=
  (search terminator (live reads).flatten).isSome = true ∧ ¬Overruns (live reads)

theorem upgrade_eq (hp : HandshakeState) (reads : List Bytes) :
    ∃ q status unfed, feedUntil HandshakeParser.feed hp (live reads) = (q, status, unfed) ∧
      (status = .needMore → (upgrade hp reads).2.1 = .needMore) ∧
      (status ≠ .needMore →
        upgrade hp reads = (q, status, unfed ++ reads.dropWhile (· ≠ []))) := by
  induction reads generalizing hp with
  | nil => exact ⟨hp, .needMore, [], rfl, fun _ => rfl, fun more => absurd rfl more⟩
  | cons read reads ih =>
    by_cases silent : read = []
    · subst silent
      exact ⟨hp, .needMore, [], rfl, fun _ => rfl, fun more => absurd rfl more⟩
    · have alive : live (read :: reads) = read :: live reads :=
        List.takeWhile_cons_of_pos (decide_eq_true silent)
      have dead : (read :: reads).dropWhile (· ≠ []) = reads.dropWhile (· ≠ []) :=
        List.dropWhile_cons_of_pos (decide_eq_true silent)
      rw [alive, dead, feedUntil, upgrade, if_neg silent]
      cases fed : HandshakeParser.feed hp read with
      | mk q status =>
        cases status with
        | needMore => exact ih q
        | accepted =>
          refine ⟨q, .accepted, live reads, rfl, by simp, fun _ => ?_⟩
          rw [live, List.takeWhile_append_dropWhile]
        | rejected =>
          refine ⟨q, .rejected, live reads, rfl, by simp, fun _ => ?_⟩
          rw [live, List.takeWhile_append_dropWhile]

/-- Where a handshake is accepted. -/
theorem feedUntil_accepted {hp q : HandshakeState} {taken chunks unfed : List Bytes}
    (waiting : Waiting hp taken)
    (fed : feedUntil HandshakeParser.feed hp chunks = (q, .accepted, unfed)) :
    ∃ before chunk, chunks = before ++ chunk :: unfed ∧
      search terminator (taken ++ before).flatten = none ∧
      (⟨.accepted, q.clientKey, q.trailing⟩ : Outcome) =
        settled checkRequest (taken ++ before ++ [chunk]).flatten := by
  induction chunks generalizing hp taken with
  | nil => cases fed
  | cons chunk chunks ih =>
    obtain ⟨p, status, step, cases⟩ := @feed_cases "headers too large" checkRequest _ _ waiting chunk
    have step' : HandshakeParser.feed hp chunk = (p, status) := step
    rw [feedUntil, step'] at fed
    obtain ⟨rfl, next, -⟩ | ⟨rfl, -⟩ | ⟨left, -, settles⟩ := cases
    · obtain ⟨before, last, rfl, unfinished, settles⟩ := ih next fed
      refine ⟨chunk :: before, last, rfl, ?_, ?_⟩
      · simpa using unfinished
      · simpa using settles
    · cases fed
    · cases status with
      | needMore => exact absurd rfl left
      | rejected => cases fed
      | accepted =>
        cases fed
        exact ⟨[], chunk, rfl, by simpa using waiting.unfinished, by simpa using settles⟩

/-- The request in the octets is one that is accepted. -/
def Upgrades (stream : Bytes) : Prop :=
  (settled checkRequest stream).status = .accepted

theorem flatten_live (reads : List Bytes) :
    reads.flatten = (live reads).flatten ++ (reads.dropWhile (· ≠ [])).flatten := by
  rw [← List.flatten_append, live, List.takeWhile_append_dropWhile]

/-- A handshake that arrives is settled by the reads up to the pause. -/
theorem settled_live {reads : List Bytes} (arrives : Arrives reads) :
    (settled checkRequest reads.flatten).status =
      (settled checkRequest (live reads).flatten).status := by
  rw [flatten_live, settled_append _ arrives.1]

theorem upgrade_status (reads : List Bytes) :
    (upgrade .new reads).2.1 = .accepted ↔ Arrives reads ∧ Upgrades reads.flatten := by
  obtain ⟨q, status, unfed, fed, more, done⟩ := upgrade_eq .new reads
  have verdict : (outcome HandshakeParser.feed .new (live reads)).status = status := by
    rw [outcome, fed]
  have same : (upgrade .new reads).2.1 = status := by
    by_cases waits : status = .needMore
    · rw [more waits, waits]
    · rw [done waits]
  obtain ⟨beyond, within⟩ :=
    @outcome_eq "headers too large" checkRequest _ _ waiting_new (live reads) not_overruns_nil
  rw [List.nil_append] at beyond within
  rw [same, ← verdict, HandshakeParser.feed]
  by_cases overruns : Overruns (live reads)
  · rw [beyond overruns]
    exact iff_of_false (by simp) fun both => both.1.2 overruns
  · rw [within overruns]
    by_cases finished : (search terminator (live reads).flatten).isSome = true
    · have arrives : Arrives reads := ⟨finished, overruns⟩
      rw [Upgrades, settled_live arrives]
      exact ⟨fun accepted => ⟨arrives, accepted⟩, And.right⟩
    · have unfinished : search terminator (live reads).flatten = none := by simpa using finished
      rw [settled, unfinished]
      exact iff_of_false (by simp) fun both => finished both.1.1

/-- The read in which the headers of an accepted request end. -/
theorem upgrade_turns {reads rest : List Bytes} {hp : HandshakeState}
    (accepted : upgrade .new reads = (hp, .accepted, rest)) :
    ∃ before last, reads = before ++ last :: rest ∧ (∀ read ∈ before ++ [last], read ≠ []) ∧
      search terminator before.flatten = none ∧
      (⟨.accepted, hp.clientKey, hp.trailing⟩ : Outcome) =
        settled checkRequest (before ++ [last]).flatten := by
  obtain ⟨q, status, unfed, fed, more, done⟩ := upgrade_eq .new reads
  by_cases waits : status = .needMore
  · rw [accepted] at more
    exact absurd (more waits) nofun
  · have ended := done waits
    rw [accepted] at ended
    cases ended
    obtain ⟨before, last, split, unfinished, settles⟩ := feedUntil_accepted waiting_new fed
    rw [List.nil_append] at unfinished settles
    refine ⟨before, last, ?_, fun read member => ?_, unfinished, settles⟩
    · rw [← List.cons_append, ← List.append_assoc, ← split, live, List.takeWhile_append_dropWhile]
    · have inside : read ∈ live reads := by
        rw [split, List.mem_append, List.mem_cons]
        rw [List.mem_append, List.mem_singleton] at member
        exact member.imp_right .inl
      simpa using List.mem_takeWhile_imp inside

/-! ### Behind the headers -/

/-- The length of the headers, the empty line included. -/
def headersLength (stream : Bytes) : Nat :=
  (search terminator stream).getD 0 + 4

/-- What a WebSocket connection holds behind the headers. -/
def framesBehind (stream : Bytes) : List WsOut :=
  FrameParser.new.outputs (frameParser true) (stream.drop (headersLength stream))

/-- The reads bring `run_loop` to a place behind the headers of the stream. -/
def ReachesBehind (stream : Bytes) (reads : List Bytes) : Nat → Prop :=
  Pausing.Reached WsOut.frame (framesBehind stream)
    ((reads.filter (· ≠ [])).inits.map fun before =>
      (FrameParser.new.outputs (frameParser true) (before.flatten.drop (headersLength stream))).length)

theorem headersLength_le {reads rest : List Bytes} {hp : HandshakeState}
    (accepted : upgrade .new reads = (hp, .accepted, rest)) :
    ∃ before last, reads = before ++ last :: rest ∧ (∀ read ∈ before ++ [last], read ≠ []) ∧
      before.flatten.length ≤ headersLength reads.flatten ∧
      hp.trailing = (before ++ [last]).flatten.drop (headersLength reads.flatten) ∧
      headersLength reads.flatten ≤ (before ++ [last]).flatten.length ∧
      hp.clientKey = (settled checkRequest reads.flatten).clientKey := by
  obtain ⟨before, last, split, alive, unfinished, settles⟩ := upgrade_turns accepted
  have whole : reads.flatten = (before ++ [last]).flatten ++ rest.flatten := by
    rw [split, ← List.flatten_append, List.append_assoc, List.singleton_append]
  cases found : search terminator (before ++ [last]).flatten with
  | none =>
    rw [settled, found] at settles
    cases settles
  | some place =>
    have length : headersLength reads.flatten = place + 4 := by
      rw [headersLength, whole, search_append _ found]
      rfl
    have key : hp.clientKey = (settled checkRequest reads.flatten).clientKey := by
      rw [whole, settled_append _ (by rw [found]; rfl), ← settles]
    have trailing : hp.trailing = (before ++ [last]).flatten.drop (place + 4) := by
      rw [settled, found] at settles
      exact congrArg Outcome.rest settles
    rw [length]
    refine ⟨before, last, split, alive, ?_, trailing, search_le found, key⟩
    rw [List.flatten_append] at found
    exact Nat.le_of_lt (lt_of_search_append found unfinished)

/-- What the frames are read from is what is behind the headers. -/
theorem flatten_behind {reads rest : List Bytes} {hp : HandshakeState}
    (accepted : upgrade .new reads = (hp, .accepted, rest)) :
    ((hp.trailing :: rest).filter (· ≠ [])).flatten =
      reads.flatten.drop (headersLength reads.flatten) := by
  obtain ⟨before, last, split, -, -, trailing, late, -⟩ := headersLength_le accepted
  have whole : reads.flatten = (before ++ [last]).flatten ++ rest.flatten := by
    rw [split, ← List.flatten_append, List.append_assoc, List.singleton_append]
  rw [List.flatten_filter_ne_nil, List.flatten_cons, trailing]
  generalize headersLength reads.flatten = n at late
  rw [whole, List.drop_append_of_le_length late]

/-- The pieces by what they bring, where the first one may be empty. -/
theorem countP_inits_filter {f : Bytes → Nat} (zero : f [] = 0) (piece : Bytes)
    (pieces : List Bytes) (k : Nat) :
    ((((piece :: pieces).filter (· ≠ [])).inits.map fun before => f before.flatten).countP (k < ·)) =
      (if k < f piece then 1 else 0) +
        (((pieces.filter (· ≠ [])).inits.tail.map fun before => f (piece ++ before.flatten)).countP
          (k < ·)) := by
  by_cases nothing : piece = []
  · rw [List.filter_cons_of_neg (by simp [nothing]), nothing, zero]
    cases pieces.filter (· ≠ []) <;> simp [zero]
  · rw [List.filter_cons_of_pos (by simp [nothing])]
    cases pieces.filter (· ≠ []) <;> simp [zero, Pausing.countP_lt_cons, Function.comp_def]

/-- Reads within the headers bring nothing. -/
theorem countP_inits_behind {f : Bytes → Nat} (zero : f [] = 0) {before rest : List Bytes}
    {last : Bytes} {n : Nat} (early : before.flatten.length ≤ n)
    (alive : ∀ read ∈ before ++ [last], read ≠ []) (late : n ≤ (before ++ [last]).flatten.length)
    (k : Nat) :
    ((((before ++ last :: rest).filter (· ≠ [])).inits.map fun before =>
        f (before.flatten.drop n)).countP (k < ·)) =
      (if k < f ((before ++ [last]).flatten.drop n) then 1 else 0) +
        (((rest.filter (· ≠ [])).inits.tail.map fun later =>
          f ((before ++ [last]).flatten.drop n ++ later.flatten)).countP (k < ·)) := by
  have split : (before ++ last :: rest).filter (· ≠ []) =
      (before ++ [last]) ++ rest.filter (· ≠ []) := by
    have kept : (before ++ [last]).filter (· ≠ []) = before ++ [last] :=
      List.filter_eq_self.mpr fun read member => decide_eq_true (alive read member)
    rw [List.append_cons, List.filter_append, kept]
  have first : (before.inits.map fun before => f (before.flatten.drop n)).countP (k < ·) = 0 := by
    rw [List.countP_eq_zero]
    intro m member
    obtain ⟨front, inside, rfl⟩ := List.mem_map.mp member
    obtain ⟨more, rfl⟩ := (List.mem_inits _ _).mp inside
    rw [List.flatten_append, List.length_append] at early
    rw [List.drop_eq_nil_of_le (by omega), zero]
    simp
  have behind : ((((rest.filter (· ≠ [])).inits.tail.map fun later => (before ++ [last]) ++ later).map
        fun before => f (before.flatten.drop n))) =
      (rest.filter (· ≠ [])).inits.tail.map fun later =>
        f ((before ++ [last]).flatten.drop n ++ later.flatten) := by
    rw [List.map_map]
    refine List.map_congr_left fun later _ => ?_
    rw [Function.comp_apply, List.flatten_append, List.drop_append_of_le_length late]
  rw [split, List.inits_append, List.map_append, List.countP_append, behind, List.inits_append,
    List.map_append, List.countP_append, first, Nat.zero_add]
  congr 1
  simp

/-- `run_loop` reaches a place by the reads that the handshake leaves exactly when all the reads
bring it there. -/
theorem reaches_behind {reads rest : List Bytes} {hp : HandshakeState}
    (accepted : upgrade .new reads = (hp, .accepted, rest)) (place : Nat) :
    FrameParser.new.Reaches (frameParser true) WsOut.frame
        ((hp.trailing :: rest).filter (· ≠ [])) place ↔
      ReachesBehind reads.flatten reads place := by
  obtain ⟨before, last, split, alive, early, trailing, late, -⟩ := headersLength_le accepted
  have zero : (FrameParser.new.outputs (frameParser true) []).length = 0 := by
    rw [Incoming.outputs, Incoming.feed_nil, FrameParser.idle]
    rfl
  rw [Incoming.Reaches, ReachesBehind, framesBehind, flatten_behind accepted]
  refine Pausing.reached_congr (fun k => ?_) place
  generalize headersLength reads.flatten = n at early trailing late
  have within := @countP_inits_behind (fun octets =>
    (FrameParser.new.outputs (frameParser true) octets).length) zero before rest last n early alive
    late k
  have left := @countP_inits_filter (fun octets =>
    (FrameParser.new.outputs (frameParser true) octets).length) zero hp.trailing rest k
  rw [split, within, ← trailing]
  exact left

/-! ### Both ways of delivering a stream -/

def startsHttp (reads : List Bytes) : Bool :=
  reads.head?.any looksHttp

section

variable {computeAccept : Bytes → Bytes} {reads reads' : List Bytes}

/-- A peer whose first read is no request is read as plain frames. -/
theorem inbound_plain (other : startsHttp reads = false) :
    inbound computeAccept reads =
      some ⟨.kNone, [], (FrameDecoder.new.receive frameDecoder (reads.filter (· ≠ []))).2⟩ := by
  cases reads with
  | nil => rfl
  | cons first reads =>
    have plain : looksHttp first = false := other
    rw [inbound, wsDetectAndAccept]
    by_cases silent : first = []
    · subst silent
      rw [if_pos rfl]
      dsimp only
      rw [runLoop, Incoming.serveAll_some]
    · rw [if_neg silent, if_pos plain]
      dsimp only
      rw [runLoop, Incoming.serveAll_some]

/-- A peer whose first read is one is read as WebSocket frames, or not at all. -/
theorem inbound_http (http : startsHttp reads = true) :
    inbound computeAccept reads =
      match upgrade .new reads with
      | (hp, .accepted, rest) =>
        some ⟨.kAcceptor, build101Response (computeAccept hp.clientKey),
          (FrameParser.new.serveAll (frameParser true) WsOut.frame
            ((hp.trailing :: rest).filter (· ≠ []))).2⟩
      | _ => none := by
  cases reads with
  | nil => cases http
  | cons first reads =>
    have http : looksHttp first = true := http
    have some_octets : first ≠ [] := by
      rintro rfl
      cases http
    rw [inbound, wsDetectAndAccept, if_neg some_octets, if_neg (by simp [http])]
    cases upgrade .new (first :: reads) with
    | mk hp ended =>
      obtain ⟨status, rest⟩ := ended
      cases status <;> rfl

/-- What a connection that goes over to WebSocket gives, if it does. -/
theorem inbound_upgrades (http : startsHttp reads = true) (upgrades : Upgrades reads.flatten) :
    (¬Arrives reads → inbound computeAccept reads = none) ∧
      (Arrives reads → ∃ taken,
        inbound computeAccept reads =
          some ⟨.kAcceptor,
            build101Response (computeAccept (settled checkRequest reads.flatten).clientKey),
            ((framesBehind reads.flatten).take taken).filterMap WsOut.frame⟩ ∧
        ∀ place, place < taken ↔ ReachesBehind reads.flatten reads place) := by
  have status := upgrade_status reads
  rw [inbound_http http]
  cases ended : upgrade .new reads with
  | mk hp ended' =>
    obtain ⟨verdict, rest⟩ := ended'
    rw [ended] at status
    constructor
    · intro late
      cases verdict with
      | accepted => exact absurd (status.mp rfl).1 late
      | needMore => rfl
      | rejected => rfl
    · intro arrives
      obtain rfl : verdict = .accepted := status.mpr ⟨arrives, upgrades⟩
      obtain ⟨-, -, -, -, -, -, -, key⟩ := headersLength_le ended
      obtain ⟨taken, takes, reaches⟩ := @Incoming.serveAll_taken _ _ _ _ (frameParser true)
        WsOut.frame FrameParser.new (FrameParser.idle true) ((hp.trailing :: rest).filter (· ≠ []))
      rw [flatten_behind ended] at takes
      refine ⟨taken, ?_, fun place => (reaches place).trans (reaches_behind ended place)⟩
      dsimp only
      rw [takes, key]
      rfl

theorem inbound_refuses (http : startsHttp reads = true) (other : ¬Upgrades reads.flatten) :
    inbound computeAccept reads = none := by
  have status := upgrade_status reads
  rw [inbound_http http]
  cases ended : upgrade .new reads with
  | mk hp ended' =>
    obtain ⟨verdict, rest⟩ := ended'
    rw [ended] at status
    cases verdict with
    | accepted => exact absurd (status.mp rfl).2 other
    | needMore => rfl
    | rejected => rfl

/-- Of two ways in which a request is delivered, what comes of the connection is the same exactly
when the headers arrive in both or in neither, and the reads bring `run_loop` to the same messages. -/
theorem inbound_http_eq_iff (same : reads.flatten = reads'.flatten)
    (http : startsHttp reads = true) (http' : startsHttp reads' = true)
    (upgrades : Upgrades reads.flatten) :
    inbound computeAccept reads = inbound computeAccept reads' ↔
      (Arrives reads ↔ Arrives reads') ∧
        (Arrives reads → ∀ place payload, (framesBehind reads.flatten)[place]? = some (.message payload) →
          (ReachesBehind reads.flatten reads place ↔ ReachesBehind reads.flatten reads' place)) := by
  obtain ⟨none, some⟩ := @inbound_upgrades computeAccept reads http upgrades
  obtain ⟨none', some'⟩ := @inbound_upgrades computeAccept reads' http' (same ▸ upgrades)
  rw [← same] at some'
  by_cases here : Arrives reads <;> by_cases there : Arrives reads'
  · obtain ⟨taken, gives, reaches⟩ := some here
    obtain ⟨taken', gives', reaches'⟩ := some' there
    have frames :=
      @Pausing.filterMap_take_eq_iff _ _ WsOut.frame (framesBehind reads.flatten) taken taken'
    rw [gives, gives']
    simp only [reaches, reaches'] at frames
    constructor
    · intro equal
      have equal : ((framesBehind reads.flatten).take taken).filterMap WsOut.frame =
          ((framesBehind reads.flatten).take taken').filterMap WsOut.frame := by
        injection equal with equal
        injection equal
      refine ⟨iff_of_true here there, fun _ place payload found => frames.mp equal place ?_⟩
      rw [found]
      rfl
    · rintro ⟨-, all⟩
      rw [frames.mpr fun place framed => ?_]
      cases found : (framesBehind reads.flatten)[place]? with
      | none =>
        rw [found] at framed
        cases framed
      | some out =>
        cases out with
        | message payload => exact all here place payload found
        | close =>
          rw [found] at framed
          cases framed
  · obtain ⟨taken, gives, -⟩ := some here
    rw [gives, none' there]
    exact iff_of_false nofun fun both => there (both.1.mp here)
  · obtain ⟨taken, gives, -⟩ := some' there
    rw [gives, none here]
    exact iff_of_false nofun fun both => here (both.1.mpr there)
  · rw [none here, none' there]
    exact iff_of_true rfl ⟨iff_of_false here there, fun arrives => absurd arrives here⟩

/-- Read as plain frames, the pieces do not matter. -/
theorem inbound_plain_eq (same : reads.flatten = reads'.flatten) (other : startsHttp reads = false)
    (other' : startsHttp reads' = false) :
    inbound computeAccept reads = inbound computeAccept reads' := by
  have cut : (reads.filter (· ≠ [])).flatten = (reads'.filter (· ≠ [])).flatten := by
    rw [List.flatten_filter_ne_nil, List.flatten_filter_ne_nil, same]
  rw [inbound_plain other, inbound_plain other',
    (Incoming.receive_eq FrameDecoder.idle cut).1]

theorem inbound_plain_ne_http (other : startsHttp reads = false) (http : startsHttp reads' = true) :
    inbound computeAccept reads ≠ inbound computeAccept reads' := by
  rw [inbound_plain other, inbound_http http]
  split
  · intro equal
    injection equal with equal
    injection equal with role
    cases role
  · nofun

end

/-- What comes of a connection does not depend on how its octets are read exactly when the first
read brings the beginning of a request in both ways or in neither, and, if the request is one for a
WebSocket, the headers arrive in both ways or in neither and the reads bring `run_loop` to the same
messages. -/
theorem inbound_eq_iff (computeAccept : Bytes → Bytes) {stream : Bytes} (d d' : Delivery stream) :
    inbound computeAccept d.reads = inbound computeAccept d'.reads ↔
      startsHttp d.reads = startsHttp d'.reads ∧
      (startsHttp d.reads = true → Upgrades stream →
        (Arrives d.reads ↔ Arrives d'.reads) ∧
          (Arrives d.reads → ∀ place payload,
            (framesBehind stream)[place]? = some (.message payload) →
              (ReachesBehind stream d.reads place ↔ ReachesBehind stream d'.reads place))) := by
  have same : d.reads.flatten = d'.reads.flatten := d.whole.trans d'.whole.symm
  cases http : startsHttp d.reads <;> cases http' : startsHttp d'.reads
  · exact iff_of_true (inbound_plain_eq same http http') ⟨rfl, nofun⟩
  · exact iff_of_false (inbound_plain_ne_http http http') fun both => nomatch both.1
  · exact iff_of_false (inbound_plain_ne_http http' http).symm fun both => nomatch both.1
  · by_cases upgrades : Upgrades stream
    · have both := @inbound_http_eq_iff computeAccept _ _ same http http' (d.whole.symm ▸ upgrades)
      rw [d.whole] at both
      rw [both]
      exact ⟨fun agree => ⟨rfl, fun _ _ => agree⟩, fun agree => agree.2 rfl upgrades⟩
    · have other : ¬Upgrades d.reads.flatten := d.whole.symm ▸ upgrades
      rw [inbound_refuses http other, inbound_refuses http' (same ▸ other)]
      exact iff_of_true rfl ⟨rfl, fun _ yes => absurd yes upgrades⟩

/-- A request for a WebSocket. -/
def shortRequest : Bytes :=
  ascii "GET / HTTP/1.1\r\nUpgrade: websocket\r\nSec-WebSocket-Key: eA==\r\n\r\n"

/-- If its first three octets come alone, the peer is read as plain frames. -/
theorem not_independent_of_reads :
    ¬∀ (computeAccept : Bytes → Bytes) (stream : Bytes) (d d' : Delivery stream),
      inbound computeAccept d.reads = inbound computeAccept d'.reads := by
  intro all
  let whole : Delivery shortRequest :=
    ⟨[shortRequest], List.flatten_singleton, by rw [shortRequest, ascii_ofList]; decide⟩
  let cut : Delivery shortRequest :=
    ⟨[shortRequest.take 3, shortRequest.drop 3], by simp, by rw [shortRequest, ascii_ofList]; decide⟩
  have plain : startsHttp [shortRequest.take 3, shortRequest.drop 3] = false := by
    rw [shortRequest, ascii_ofList]
    decide
  have http : startsHttp [shortRequest] = true := by
    rw [shortRequest, ascii_ofList]
    decide
  exact inbound_plain_ne_http plain http (all id shortRequest cut whole)

end FinBit.P2P
