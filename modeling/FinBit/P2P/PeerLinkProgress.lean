import FinBit.P2P.PeerLink

/-! # The two sides of a link get through to each other

What the acceptor answers to the request is what the dialer waits for, so that the handshake comes to
its end on both sides and the queue of the dialer can be written. A link on which neither thread has
ended never gets stuck.
-/

namespace FinBit.P2P

open FinBit.Lib FinBit.Net

/-! ### The response is accepted -/

/-- The name of the header of the answer, as it is searched for. -/
def acceptNeedle : Bytes := ascii "sec-websocket-accept:"

/-- The lines of a response in front of its last one. -/
def responseLines : List Bytes :=
  [ascii "HTTP/1.1 101 Switching Protocols", ascii "Upgrade: websocket", ascii "Connection: Upgrade"]

theorem length_responseLines : (unlines responseLines).length = 75 := by
  rw [responseLines]
  repeat rw [ascii_ofList]
  rfl

theorem one_line_responseLines : ∀ line ∈ responseLines, line ≠ [] ∧ OneLine line := by
  rw [responseLines]
  repeat rw [ascii_ofList]
  unfold OneLine
  decide

theorem build101Response_eq (accept : Bytes) :
    build101Response accept =
      unlines (responseLines ++ [ascii "Sec-WebSocket-Accept:" ++ 32 :: accept]) ++ crlf := by
  have head : ascii "HTTP/1.1 101 Switching Protocols\r\nUpgrade: websocket\r\nConnection: Upgrade\r\nSec-WebSocket-Accept: " =
      unlines responseLines ++ (ascii "Sec-WebSocket-Accept:" ++ [32]) := by
    rw [responseLines]
    repeat rw [ascii_ofList]
    rfl
  have last : ascii "\r\n\r\n" = crlf ++ crlf := ascii_ofList _
  rw [build101Response, head, last]
  simp [unlines]

section

variable {accept : Bytes}

/-- The last line of the answer. -/
theorem oneLine_accept (solid : ∀ c ∈ accept, Net.isSpace c = false) :
    OneLine (ascii "Sec-WebSocket-Accept:" ++ 32 :: accept) := by
  have name : OneLine (ascii "Sec-WebSocket-Accept:") := by
    rw [OneLine, ascii_ofList]
    decide
  exact name.append (.of_solid solid) (by decide)

theorem checkResponse_unlines (solid : ∀ c ∈ accept, Net.isSpace c = false) (filled : accept ≠ []) :
    checkResponse accept (build101Response accept) = ⟨none, none⟩ := by
  have names : Names acceptNeedle (ascii "Sec-WebSocket-Accept:") responseLines := by
    rw [acceptNeedle, responseLines]
    repeat rw [ascii_ofList]
    exact ⟨by decide, by decide, by decide, by decide, by decide⟩
  have one := oneLine_accept solid
  have cut : build101Response accept =
      unlines responseLines ++ (ascii "Sec-WebSocket-Accept:" ++ 32 :: accept ++ crlf ++ crlf) := by
    rw [build101Response_eq]
    simp [unlines]
  have place : search acceptNeedle (lower (build101Response accept)) =
      some (unlines responseLines).length := by
    rw [cut, List.append_assoc, List.append_assoc]
    exact names.search _
  have text := names.headerText one (unlines responseLines) crlf
  rw [trimWs_eq solid, ← cut] at text
  have status : (build101Response accept).take 5 = ascii "HTTP/" := by
    have long : 5 ≤ (unlines responseLines).length := by rw [length_responseLines]; decide
    rw [cut, List.take_append_of_le_length long, responseLines]
    repeat rw [ascii_ofList]
    rfl
  have code : search (ascii " 101 ") (build101Response accept) ≠ none := by
    have inside : ascii " 101 " <:+: unlines responseLines := by
      rw [responseLines]
      repeat rw [ascii_ofList]
      decide
    rw [cut]
    exact Option.isSome_iff_ne_none.mp (search_isSome (inside.trans (List.prefix_append _ _).isInfix))
  have upgrades : icontains (build101Response accept) (ascii "Upgrade: websocket") = true := by
    have listed : ascii "Upgrade: websocket" ∈ responseLines := by simp [responseLines]
    rw [cut]
    exact search_isSome (((infix_unlines listed).trans (List.prefix_append _ _).isInfix).map toLower)
  rw [checkResponse, status, upgrades, if_neg (by simp [code]), if_neg (by simp)]
  dsimp only
  rw [← acceptNeedle, place]
  dsimp only
  rw [text, if_neg (by simp [filled])]

/-- What the dialer makes of the response, whatever comes behind it. -/
theorem settled_response (solid : ∀ c ∈ accept, Net.isSpace c = false) (filled : accept ≠ []) (rest : Bytes) :
    settled (checkResponse accept) (build101Response accept ++ rest) = ⟨.accepted, [], rest⟩ := by
  have one := oneLine_accept solid
  have whole : ∀ line ∈ responseLines ++ [ascii "Sec-WebSocket-Accept:" ++ 32 :: accept],
      line ≠ [] ∧ OneLine line :=
    List.forall_mem_append.mpr ⟨one_line_responseLines, List.forall_mem_singleton.mpr ⟨by simp, one⟩⟩
  obtain ⟨place, found, size⟩ := search_terminator (by simp) whole rest
  rw [← build101Response_eq] at found size
  rw [settled, found]
  dsimp only
  rw [size, List.take_left, List.drop_left, checkResponse_unlines solid filled]
  rfl

theorem solid_expectedAccept (d : Dial) : ∀ c ∈ d.expectedAccept, Net.isSpace c = false :=
  solid_encode _

theorem length_digest (concat : Bytes) : (ComputeAccept.digest concat).length = 20 := by
  rw [ComputeAccept.digest_eq]
  simp [Sha1.sha1, Sha1.Buffer.octets, be32]

theorem expectedAccept_ne_nil (d : Dial) : d.expectedAccept ≠ [] := by
  have longer := Base64.length_le_length_encode (ComputeAccept.digest (d.upgrade.secKey ++ kMagicGuid))
  intro empty
  have accept : Base64.encode (ComputeAccept.digest (d.upgrade.secKey ++ kMagicGuid)) = [] := empty
  rw [accept, length_digest] at longer
  simp at longer

theorem length_response_le (d : Dial) :
    (build101Response d.expectedAccept).length ≤ maxHeaderBytes := by
  have accept : d.expectedAccept.length ≤ 4 * 20 :=
    le_of_le_of_eq (Base64.length_encode_le _) (by rw [length_digest])
  have name : (ascii "Sec-WebSocket-Accept:").length = 21 := by rw [ascii_ofList]; rfl
  rw [build101Response_eq, unlines, List.flatMap_append, ← unlines]
  simp only [List.flatMap_cons, List.flatMap_nil, List.length_append, List.length_cons,
    length_responseLines, name, crlf, List.length_nil, maxHeaderBytes]
  omega

end

/-! ### The answer on its way -/

section

variable {d : Dial} {units : List Framed} {taken octets : Bytes} {sent : List Bytes} {s t : Link}

/-- What an acceptor has answered. -/
def answerOf (d : Dial) : Phase → Bytes
  | .webSocket _ => build101Response d.expectedAccept
  | _ => []

/-- What comes of octets that the handshake of the acceptor is fed. -/
theorem acceptUpgrade_cases {hp : HandshakeState} {chunks : List Bytes} {phase : Phase}
    {answer : Bytes} {frames : List Bytes} (stream : Stream d units) (asked : d.wss = true)
    (small : d.lead.length ≤ maxHeaderBytes) (waits : Waiting hp chunks)
    (inside : chunks.flatten ++ octets <+: d.lead ++ d.framing units)
    (read : Phase.acceptUpgrade hp octets = (phase, answer, frames)) :
    (∃ hp, phase = .upgrading hp ∧ answer = []) ∨
      ∃ wsp, phase = .webSocket wsp ∧ answer = build101Response d.expectedAccept := by
  have whole : (chunks ++ [octets]).flatten = chunks.flatten ++ octets := by simp
  obtain ⟨q, status, fed, cases⟩ := @feed_cases "headers too large" checkRequest _ _ waits octets
  have fed' : HandshakeParser.feed hp octets = (q, status) := fed
  rw [Phase.acceptUpgrade, fed'] at read
  rw [whole] at cases
  obtain ⟨rfl, next, -⟩ | ⟨rfl, -, -, large, unfinished⟩ | ⟨left, finished, settles⟩ := cases
  · cases read
    exact .inl ⟨q, rfl, rfl⟩
  · -- a request that is larger than the limit is a whole one
    have lead : d.lead <+: chunks.flatten ++ octets :=
      List.prefix_of_prefix_length_le (List.prefix_append _ _) inside (by omega)
    obtain ⟨rest, front⟩ := lead
    rw [← front] at unfinished
    exact absurd unfinished (stream.finished asked rest)
  · obtain ⟨behind, front⟩ := stream.lead_le asked inside finished
    rw [← front, stream.lead_settled asked] at settles
    obtain ⟨rfl, key, trailing⟩ := Outcome.mk.inj settles
    dsimp only at read
    rw [key, Phase.begin] at read
    split at read
    · cases read
      exact .inr ⟨FrameParser.new, rfl, rfl⟩
    · cases read
      exact .inr ⟨_, rfl, rfl⟩

/-- One read of an acceptor adds to its answer, and does not end it. -/
theorem Reads.answer {phase phase' : Phase} {received frames : List Bytes} {answer : Bytes}
    (reads : Reads d taken phase received) (stream : Stream d units)
    (small : d.lead.length ≤ maxHeaderBytes)
    (inside : taken ++ octets <+: d.lead ++ d.framing units)
    (read : phase.acceptorReads octets = (phase', answer, frames)) :
    phase' ≠ .ended ∧ answerOf d phase' = answerOf d phase ++ answer := by
  cases reads with
  | waiting =>
    rw [Phase.acceptorReads] at read
    split at read
    next http =>
      have asked : d.wss = true := by
        by_contra plain
        have other : looksHttp octets = false := stream.looksHttp (Bool.eq_false_iff.mpr plain) inside
        exact Bool.noConfusion (http.symm.trans other)
      obtain ⟨hp, rfl, rfl⟩ | ⟨wsp, rfl, rfl⟩ :=
        acceptUpgrade_cases stream asked small waiting_new inside read
      · exact ⟨by simp, rfl⟩
      · exact ⟨by simp, rfl⟩
    · cases begun : Phase.begin false (.plain FrameDecoder.new) octets with
      | mk plain delivered =>
        rw [begun] at read
        cases read
        rw [Phase.begin] at begun
        split at begun <;> cases begun <;> exact ⟨by simp, rfl⟩
  | upgrading asked waits =>
    obtain ⟨hp, rfl, rfl⟩ | ⟨wsp, rfl, rfl⟩ :=
      acceptUpgrade_cases stream asked small waits inside read
    · exact ⟨by simp, rfl⟩
    · exact ⟨by simp, rfl⟩
  | plain alike =>
    cases read
    exact ⟨by simp, rfl⟩
  | webSocket asked alike =>
    cases read
    exact ⟨by simp, (List.append_nil _).symm⟩

/-- The dialer has read octets of the answer, and waits for the rest of it if there is one. -/
structure Answered (d : Dial) (taken : Bytes) (s : Link) : Prop where
  whole : taken ++ s.toDialer = answerOf d s.acceptor
  upgrading : ∀ hp, s.dialer = .upgrading hp → ∃ chunks, Waiting hp chunks ∧ chunks.flatten = taken
  asked : ∀ hp, s.dialer = .upgrading hp → d.wss = true
  waiting : s.dialer = .waiting → taken = []

/-- As long as neither thread has ended. -/
def Handshaking (d : Dial) (s : Link) : Prop :=
  s.dialer = .ended ∨ s.acceptor = .ended ∨ ∃ taken, Answered d taken s

/-- What comes of octets of the answer that the handshake of the dialer is fed. -/
theorem dialerReads_cases {hp : HandshakeState} {chunks : List Bytes} {phase : Phase}
    {frames : List Bytes} (waits : Waiting hp chunks)
    (inside : chunks.flatten ++ octets <+: build101Response d.expectedAccept)
    (read : (Phase.upgrading hp).dialerReads d.expectedAccept octets = (phase, frames)) :
    (∃ hp, phase = .upgrading hp ∧ Waiting hp (chunks ++ [octets])) ∨
      (∃ wsp, phase = .webSocket wsp) ∧ chunks.flatten ++ octets = build101Response d.expectedAccept := by
  have whole : (chunks ++ [octets]).flatten = chunks.flatten ++ octets := by simp
  have response := settled_response (solid_expectedAccept d) (expectedAccept_ne_nil d)
  obtain ⟨rest, all⟩ := inside
  obtain ⟨q, status, fed, cases⟩ :=
    @feed_cases "response headers too large" (checkResponse d.expectedAccept) _ _ waits octets
  have fed' : ClientHandshakeParser.feed d.expectedAccept hp octets = (q, status) := fed
  rw [Phase.dialerReads, fed'] at read
  rw [whole] at cases
  obtain ⟨rfl, next, -⟩ | ⟨rfl, -, -, large, -⟩ | ⟨left, finished, settles⟩ := cases
  · cases read
    exact .inl ⟨q, rfl, next⟩
  · -- the answer is far below the limit
    have small := length_response_le d
    rw [← all, List.length_append] at small
    omega
  · have after := @settled_append (checkResponse d.expectedAccept) _ rest finished
    have alone := response []
    rw [List.append_nil] at alone
    rw [all, alone] at after
    obtain ⟨accepted, -, nothing⟩ := Outcome.mk.inj after
    obtain ⟨-, none⟩ := List.append_eq_nil_iff.mp nothing.symm
    rw [none, List.append_nil] at all
    rw [all, alone] at settles
    obtain ⟨rfl, -, trailing⟩ := Outcome.mk.inj settles
    dsimp only at read
    rw [trailing, Phase.begin, if_pos rfl] at read
    cases read
    exact .inr ⟨⟨_, rfl⟩, all⟩

/-- What a dialer reads is a part of the answer. -/
theorem Answered.inside {rest : Bytes} (answered : Answered d taken s) (some_octet : octets ≠ [])
    (there : s.toDialer = octets ++ rest) : taken ++ octets <+: build101Response d.expectedAccept := by
  have whole := answered.whole
  rw [there, ← List.append_assoc] at whole
  cases acceptor : s.acceptor with
  | webSocket wsp =>
    rw [acceptor] at whole
    exact ⟨rest, whole⟩
  | waiting => rw [acceptor] at whole; simp [answerOf, some_octet] at whole
  | upgrading hp => rw [acceptor] at whole; simp [answerOf, some_octet] at whole
  | plain dec => rw [acceptor] at whole; simp [answerOf, some_octet] at whole
  | ended => rw [acceptor] at whole; simp [answerOf, some_octet] at whole

/-- A dialer that has read more of it. -/
theorem Answered.dialerReads {rest : Bytes} {phase : Phase} {frames : List Bytes}
    (answered : Answered d taken s) (some_octet : octets ≠ []) (begun : s.dialer ≠ .waiting)
    (there : s.toDialer = octets ++ rest)
    (read : s.dialer.dialerReads d.expectedAccept octets = (phase, frames)) :
    Answered d (taken ++ octets)
      { s with dialer := phase, toDialer := rest, returned := s.returned ++ frames } := by
  have inside := answered.inside some_octet there
  obtain ⟨whole, upgrading, asked, -⟩ := answered
  have waits := waiting_of_dialerReads read
  have goes_on : ∀ hp, phase = .upgrading hp → d.wss = true ∧
      ∃ chunks, Waiting hp chunks ∧ chunks.flatten = taken ++ octets := by
    rintro hp rfl
    cases dialer : s.dialer with
    | waiting => exact absurd dialer begun
    | plain dec => rw [dialer] at read; cases read
    | webSocket wsp => rw [dialer] at read; cases read
    | ended => rw [dialer] at read; cases read
    | upgrading hp' =>
      obtain ⟨chunks, waits, rfl⟩ := upgrading hp' dialer
      rw [dialer] at read
      obtain ⟨hp'', same, next⟩ | ⟨⟨wsp, other⟩, -⟩ := dialerReads_cases waits inside read
      · cases same
        exact ⟨asked hp' dialer, _, next, by simp⟩
      · cases other
  exact ⟨by rw [← whole, there, List.append_assoc], fun hp now => (goes_on hp now).2,
    fun hp now => (goes_on hp now).1, fun waiting => absurd (waits.mp waiting) begun⟩

/-- A step of the acceptor that adds to its answer. -/
theorem Answered.acceptor {answer : Bytes} (answered : Answered d taken s) (dialer : t.dialer = s.dialer)
    (sent : t.toDialer = s.toDialer ++ answer)
    (grown : answerOf d t.acceptor = answerOf d s.acceptor ++ answer) : Answered d taken t := by
  obtain ⟨whole, upgrading, asked, waiting⟩ := answered
  rw [← dialer] at upgrading asked waiting
  exact ⟨by rw [sent, grown, ← whole, List.append_assoc], upgrading, asked, waiting⟩

theorem Answered.same (answered : Answered d taken s) (dialer : t.dialer = s.dialer)
    (way : t.toDialer = s.toDialer) (acceptor : t.acceptor = s.acceptor) : Answered d taken t :=
  @Answered.acceptor d taken s t [] answered dialer (by rw [way, List.append_nil])
    (by rw [acceptor, List.append_nil])

theorem answerOf_acceptorWaits {phase : Phase} (alive : phase.acceptorWaits ≠ .ended) :
    answerOf d phase.acceptorWaits = answerOf d phase := by
  cases phase with
  | upgrading hp => exact absurd rfl alive
  | waiting => rfl
  | plain dec => rfl
  | webSocket wsp => rfl
  | ended => rfl

/-- A thread that has ended does not begin again. -/
theorem LinkStep.dialer_ended {e : LinkEvent} (step : LinkStep d s e t) (ended : s.dialer = .ended) :
    t.dialer = .ended := by
  cases step with
  | connects waits => rw [waits] at ended; cases ended
  | writes mask drawn running queued => rw [ended] at running; exact running.elim
  | dialerReads some_octet sized begun alive there read => exact absurd ended alive
  | send message => exact ended
  | acceptorReads some_octet sized alive there read => exact ended
  | acceptorWaits => exact ended
  | requestBreaksOff waits inside => rfl
  | writeBreaksOff drawn running queued inside => rfl
  | dialerEnds => rfl
  | answerBreaksOff there read inside => exact ended
  | acceptorEnds => exact ended

theorem LinkStep.acceptor_ended {e : LinkEvent} (step : LinkStep d s e t)
    (ended : s.acceptor = .ended) : t.acceptor = .ended := by
  cases step with
  | acceptorReads some_octet sized alive there read => exact absurd ended alive
  | acceptorWaits => simp [ended, Phase.acceptorWaits]
  | answerBreaksOff there read inside => rfl
  | acceptorEnds => rfl
  | send message => exact ended
  | connects waits => exact ended
  | writes mask drawn running queued => exact ended
  | dialerReads some_octet sized begun alive there read => exact ended
  | requestBreaksOff waits inside => exact ended
  | writeBreaksOff drawn running queued inside => exact ended
  | dialerEnds => exact ended

/-- A step of the link, with what is known of its messages. -/
theorem Handshaking.step {e : LinkEvent} (handshaking : Handshaking d s) (linked : Linked d sent s)
    (small : d.lead.length ≤ maxHeaderBytes) (step : LinkStep d s e t) : Handshaking d t := by
  by_cases finished : s.dialer = .ended ∨ s.acceptor = .ended
  · obtain ended | ended := finished
    · exact .inl (step.dialer_ended ended)
    · exact .inr (.inl (step.acceptor_ended ended))
  obtain ⟨dialing, accepting⟩ := not_or.mp finished
  obtain ⟨taken, answered⟩ := (handshaking.resolve_left dialing).resolve_left accepting
  cases step with
  | send message => exact .inr (.inr ⟨taken, answered.same rfl rfl rfl⟩)
  | connects waits =>
    obtain ⟨whole, upgrading, asked, waiting⟩ := answered
    refine .inr (.inr ⟨taken, whole, fun hp now => ?_, fun hp now => ?_, fun now => ?_⟩)
    · dsimp only at now
      split at now <;> cases now
      exact ⟨[], waiting_new, (waiting waits).symm⟩
    · dsimp only at now
      split at now
      next asked => exact asked
      · cases now
    · dsimp only at now
      split at now <;> cases now
  | writes mask drawn running queued => exact .inr (.inr ⟨taken, answered.same rfl rfl rfl⟩)
  | @acceptorReads octets rest answer phase frames some_octet sized alive there read =>
    obtain ⟨units, read', stream, written, acceptor⟩ := linked
    have reads := acceptor.resolve_right fun both => alive both.1
    have inside : read' ++ octets <+: d.lead ++ d.framing units := by
      have before := written.inside
      rw [there, ← List.append_assoc] at before
      exact (List.prefix_append _ rest).trans before
    obtain ⟨-, grown⟩ := reads.answer stream small inside read
    exact .inr (.inr ⟨taken, answered.acceptor rfl rfl grown⟩)
  | acceptorWaits =>
    by_cases alive : s.acceptor.acceptorWaits = .ended
    · exact .inr (.inl alive)
    · refine .inr (.inr ⟨taken, ?_⟩)
      exact @Answered.acceptor d taken s _ [] answered rfl (List.append_nil _).symm
        (by rw [List.append_nil]; exact answerOf_acceptorWaits alive)
  | dialerReads some_octet sized begun alive there read =>
    exact .inr (.inr ⟨_, answered.dialerReads some_octet begun there read⟩)
  | requestBreaksOff waits inside => exact .inl rfl
  | writeBreaksOff drawn running queued inside => exact .inl rfl
  | dialerEnds => exact .inl rfl
  | answerBreaksOff there read inside => exact .inr (.inl rfl)
  | acceptorEnds => exact .inr (.inl rfl)

/-- What is known of a link on which neither thread has ended. -/
structure Going (d : Dial) (sent : List Bytes) (s : Link) : Prop where
  linked : Linked d sent s
  sound : Sound d s
  handshaking : ∃ taken, Answered d taken s

/-- Steps in which nothing is sent. -/
def Leads (d : Dial) (s t : Link) : Prop :=
  ∃ es, Run (LinkStep d) s es t ∧ sends es = []

theorem Leads.refl (s : Link) : Leads d s s :=
  ⟨[], .nil s, rfl⟩

theorem Leads.cons {e : LinkEvent} {u : Link} (step : LinkStep d s e t) (quiet : e.sent = none)
    (later : Leads d t u) : Leads d s u := by
  obtain ⟨es, run, none⟩ := later
  exact ⟨e :: es, .cons step run, by rw [sends, List.filterMap_cons_none quiet, ← sends, none]⟩

theorem Leads.trans {u : Link} (first : Leads d s t) (second : Leads d t u) : Leads d s u := by
  obtain ⟨es, run, none⟩ := first
  obtain ⟨fs, later, none'⟩ := second
  exact ⟨es ++ fs, run.append later, by rw [sends, List.filterMap_append, ← sends, ← sends, none, none']; rfl⟩

/-- A step that ends neither thread, and in which the acceptor takes no request for frames. -/
theorem Going.step {e : LinkEvent} (going : Going d sent s) (step : LinkStep d s e t)
    (quiet : e.sent = none) (short : ∀ message ∈ sent, Short message)
    (small : d.lead.length ≤ maxHeaderBytes) (sound : Sound d t) : Going d sent t := by
  have linked := going.linked.step step short
  rw [quiet, Option.toList_none, List.append_nil] at linked
  have handshaking : Handshaking d t :=
    Handshaking.step (.inr (.inr going.handshaking)) going.linked small step
  exact ⟨linked, sound, (handshaking.resolve_left sound.dialer).resolve_left sound.acceptor⟩

/-- An acceptor whose first read brings the beginning of the request does not read plain frames. -/
theorem Reads.upgrades {phase phase' : Phase} {received frames : List Bytes} {answer : Bytes}
    (reads : Reads d taken phase received) (stream : Stream d units) (asked : d.wss = true)
    (small : d.lead.length ≤ maxHeaderBytes)
    (inside : taken ++ octets <+: d.lead ++ d.framing units)
    (read : phase.acceptorReads octets = (phase', answer, frames))
    (way : ∀ dec, phase ≠ .plain dec) (first : phase = .waiting → looksHttp octets = true) :
    ∀ dec, phase' ≠ .plain dec := by
  intro dec
  cases reads with
  | waiting =>
    rw [Phase.acceptorReads, if_pos (first rfl)] at read
    obtain ⟨hp, rfl, -⟩ | ⟨wsp, rfl, -⟩ :=
      acceptUpgrade_cases stream asked small waiting_new inside read
    · simp
    · simp
  | upgrading asked waits =>
    obtain ⟨hp, rfl, -⟩ | ⟨wsp, rfl, -⟩ :=
      acceptUpgrade_cases stream asked small waits inside read
    · simp
    · simp
  | plain alike => exact absurd rfl (way _)
  | webSocket asked alike =>
    cases read
    simp

theorem Reads.nothing {received : List Bytes} (reads : Reads d taken .waiting received) :
    taken = [] := by
  cases reads
  rfl

/-- The first octets of a request, as many as are read at once. -/
theorem looksHttp_take (asked : d.wss = true) (rest : Bytes) :
    looksHttp ((d.lead ++ rest).take kReadBytes) = true := by
  obtain ⟨request, lead⟩ := Dial.lead_eq asked
  rw [looksHttp, List.isPrefixOf_iff_prefix, lead, List.append_assoc]
  exact List.prefix_of_prefix_length_le (List.prefix_append _ _) (List.take_prefix _ _)
    (by simp [ascii, kReadBytes])

/-- The acceptor reads what is on its way. -/
theorem Going.drains (going : Going d sent s) (short : ∀ message ∈ sent, Short message)
    (small : d.lead.length ≤ maxHeaderBytes) :
    ∃ t, Leads d s t ∧ Going d sent t ∧ t.toAcceptor = [] ∧ t.dialer = s.dialer ∧
      t.writes = s.writes := by
  induction size : s.toAcceptor.length using Nat.strongRecOn generalizing s with
  | _ n ih =>
    by_cases nothing : s.toAcceptor = []
    · exact ⟨s, .refl s, going, nothing, rfl, rfl⟩
    obtain ⟨units, taken, stream, written, acceptor⟩ := going.linked
    have reads := acceptor.resolve_right fun both => going.sound.acceptor both.1
    have some_octet : s.toAcceptor.take kReadBytes ≠ [] := by
      rw [Ne, List.take_eq_nil_iff]
      rintro (none | empty)
      · cases none
      · exact nothing empty
    have there : s.toAcceptor = s.toAcceptor.take kReadBytes ++ s.toAcceptor.drop kReadBytes :=
      (List.take_append_drop _ _).symm
    have inside : taken ++ s.toAcceptor.take kReadBytes <+: d.lead ++ d.framing units := by
      have before := written.inside
      rw [there, ← List.append_assoc] at before
      exact (List.prefix_append _ _).trans before
    cases read : s.acceptor.acceptorReads (s.toAcceptor.take kReadBytes) with
    | mk phase result =>
      obtain ⟨answer, frames⟩ := result
      have step : LinkStep d s .acceptorReads _ :=
        .acceptorReads some_octet (List.length_take_le _ _) going.sound.acceptor there read
      have first : d.wss = true → s.acceptor = .waiting →
          looksHttp (s.toAcceptor.take kReadBytes) = true := by
        intro asked waiting
        -- the whole of what has been written is still on its way
        rw [waiting] at reads
        obtain rfl := reads.nothing
        by_cases waits : s.dialer = .waiting
        · exact absurd (written.waiting waits).1 nothing
        · have whole := (written.open_ waits going.sound.dialer).1
          rw [List.nil_append] at whole
          rw [whole]
          exact looksHttp_take asked _
      have sound : Sound d { s with
          acceptor := phase, toAcceptor := s.toAcceptor.drop kReadBytes
          toDialer := s.toDialer ++ answer, received := s.received ++ frames } :=
        ⟨going.sound.dialer, (reads.answer stream small inside read).1, fun asked =>
          reads.upgrades stream asked small inside read (going.sound.upgrades asked) (first asked)⟩
      have shorter : (s.toAcceptor.drop kReadBytes).length < n := by
        have positive := List.length_pos_iff.mpr nothing
        rw [List.length_drop, ← size, kReadBytes]
        omega
      obtain ⟨t, leads, goes, empty, dialer, writes⟩ :=
        ih _ shorter (going.step step rfl short small sound) rfl
      exact ⟨t, .cons step rfl leads, goes, empty, dialer, writes⟩

/-- When all of the request has been read, the acceptor reads frames. -/
theorem Going.upgraded (going : Going d sent s) (asked : d.wss = true) (begun : s.dialer ≠ .waiting)
    (empty : s.toAcceptor = []) : ∃ wsp, s.acceptor = .webSocket wsp := by
  obtain ⟨units, taken, stream, written, acceptor⟩ := going.linked
  have reads := acceptor.resolve_right fun both => going.sound.acceptor both.1
  have whole := (written.open_ begun going.sound.dialer).1
  rw [empty, List.append_nil] at whole
  have way := going.sound.upgrades asked
  generalize s.acceptor = phase at reads way ⊢
  generalize s.received = received at reads
  cases reads with
  | waiting =>
    obtain ⟨request, lead⟩ := Dial.lead_eq asked
    rw [lead] at whole
    exact absurd whole.symm (by simp [ascii])
  | upgrading asked waits =>
    have unfinished := waits.unfinished
    rw [whole] at unfinished
    exact absurd unfinished (stream.finished asked _)
  | plain alike => exact absurd rfl (way _)
  | webSocket asked alike => exact ⟨_, rfl⟩

/-- The dialer reads the answer to its end. -/
theorem Going.hears (going : Going d sent s) (short : ∀ message ∈ sent, Short message)
    (small : d.lead.length ≤ maxHeaderBytes) {wsp : FrameParser} (upgraded : s.acceptor = .webSocket wsp)
    {hp : HandshakeState} (upgrading : s.dialer = .upgrading hp) :
    ∃ t, Leads d s t ∧ Going d sent t ∧ t.dialer.Running ∧ t.toAcceptor = s.toAcceptor ∧
      t.writes = s.writes := by
  induction size : s.toDialer.length using Nat.strongRecOn generalizing s hp with
  | _ n ih =>
    obtain ⟨taken, answered⟩ := going.handshaking
    obtain ⟨chunks, waits, rfl⟩ := answered.upgrading hp upgrading
    have whole : chunks.flatten ++ s.toDialer = build101Response d.expectedAccept := by
      rw [answered.whole, upgraded, answerOf]
    have nonempty : s.toDialer ≠ [] := by
      intro empty
      have settles := settled_response (solid_expectedAccept d) (expectedAccept_ne_nil d) []
      rw [empty, List.append_nil] at whole
      have unfinished := waits.unfinished
      rw [whole] at unfinished
      rw [List.append_nil, settled, unfinished] at settles
      cases settles
    have some_octet : s.toDialer.take kReadBytes ≠ [] := by
      rw [Ne, List.take_eq_nil_iff]
      rintro (none | empty)
      · cases none
      · exact nonempty empty
    have there : s.toDialer = s.toDialer.take kReadBytes ++ s.toDialer.drop kReadBytes :=
      (List.take_append_drop _ _).symm
    have begun : s.dialer ≠ .waiting := by simp [upgrading]
    cases read : s.dialer.dialerReads d.expectedAccept (s.toDialer.take kReadBytes) with
    | mk phase frames =>
      have step : LinkStep d s .dialerReads _ :=
        .dialerReads some_octet (List.length_take_le _ _) begun going.sound.dialer there read
      have inside := answered.inside some_octet there
      rw [upgrading] at read
      obtain ⟨hp', rfl, -⟩ | ⟨⟨wsp', rfl⟩, -⟩ := dialerReads_cases waits inside read
      · have sound : Sound d { s with
            dialer := .upgrading hp', toDialer := s.toDialer.drop kReadBytes
            returned := s.returned ++ frames } :=
          ⟨by simp, going.sound.acceptor, going.sound.upgrades⟩
        have shorter : (s.toDialer.drop kReadBytes).length < n := by
          have positive := List.length_pos_iff.mpr nonempty
          rw [List.length_drop, ← size, kReadBytes]
          omega
        obtain ⟨t, leads, goes, running, way, writes⟩ :=
          ih _ shorter (going.step step rfl short small sound) upgraded rfl rfl
        exact ⟨t, .cons step rfl leads, goes, running, way, writes⟩
      · have sound : Sound d { s with
            dialer := .webSocket wsp', toDialer := s.toDialer.drop kReadBytes
            returned := s.returned ++ frames } :=
          ⟨by simp, going.sound.acceptor, going.sound.upgrades⟩
        exact ⟨_, .cons step rfl (.refl _), going.step step rfl short small sound, trivial, rfl, rfl⟩

/-- The dialer comes to its frames. -/
theorem Going.runs (going : Going d sent s) (short : ∀ message ∈ sent, Short message)
    (small : d.lead.length ≤ maxHeaderBytes) :
    ∃ t, Leads d s t ∧ Going d sent t ∧ t.dialer.Running := by
  have begins : ∃ t, Leads d s t ∧ Going d sent t ∧ t.dialer ≠ .waiting := by
    by_cases waits : s.dialer = .waiting
    · have step : LinkStep d s .connects _ := .connects waits
      have begun : (if d.wss then Phase.upgrading .new else .plain FrameDecoder.new) ≠ .waiting := by
        split <;> simp
      have alive : (if d.wss then Phase.upgrading .new else .plain FrameDecoder.new) ≠ .ended := by
        split <;> simp
      exact ⟨_, .cons step rfl (.refl _), going.step step rfl short small
        ⟨alive, going.sound.acceptor, going.sound.upgrades⟩, begun⟩
    · exact ⟨s, .refl s, going, waits⟩
  obtain ⟨t, leads, goes, begun⟩ := begins
  obtain ⟨u, drains, goes, empty, same, -⟩ := goes.drains short small
  rw [← same] at begun
  cases dialer : u.dialer with
  | waiting => exact absurd dialer begun
  | ended => exact absurd dialer goes.sound.dialer
  | plain dec => exact ⟨u, leads.trans drains, goes, by rw [dialer]; trivial⟩
  | webSocket wsp => exact ⟨u, leads.trans drains, goes, by rw [dialer]; trivial⟩
  | upgrading hp =>
    obtain ⟨taken, answered⟩ := goes.handshaking
    obtain ⟨wsp, upgraded⟩ := goes.upgraded (answered.asked hp dialer) begun empty
    obtain ⟨v, hears, goes, running, -, -⟩ := goes.hears short small upgraded dialer
    exact ⟨v, (leads.trans drains).trans hears, goes, running⟩

end

end FinBit.P2P
