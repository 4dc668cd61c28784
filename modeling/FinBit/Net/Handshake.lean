import FinBit.Lib.Bytes

/-! # WebSocket handshakes

Both ends of a WebSocket connection read HTTP headers up to the empty line before anything else, and
refuse them when they are too large. The size is looked at only as long as the empty line has not
come, so that in large headers it depends on the pieces in which they come.
-/

namespace FinBit.Net

open FinBit.Lib

/-- `std::search`: the first place of the needle. -/
def search (needle : Bytes) : Bytes → Option Nat
  | [] => if needle = [] then some 0 else none
  | octet :: octets =>
    if needle.isPrefixOf (octet :: octets) then some 0 else (search needle octets).map (· + 1)

/-- `std::string::find` from a place on. -/
def find (hay needle : Bytes) (pos : Nat) : Option Nat :=
  (search needle (hay.drop pos)).map (· + pos)

/-- `std::tolower` in the "C" locale. -/
def toLower (c : UInt8) : UInt8 :=
  if 65 ≤ c ∧ c ≤ 90 then c + 32 else c

def lower (s : Bytes) : Bytes :=
  s.map toLower

/-- `std::isspace` in the "C" locale. -/
def isSpace (c : UInt8) : Bool :=
  c = 32 || (9 ≤ c && c ≤ 13)

def trimWs (s : Bytes) : Bytes :=
  ((s.dropWhile isSpace).reverse.dropWhile isSpace).reverse

def icontains (hay needle : Bytes) : Bool :=
  (search (lower needle) (lower hay)).isSome

inductive HandshakeStatus
  | needMore
  | accepted
  | rejected
  deriving DecidableEq

/-- The fields of both parsers; that of the client has no key. -/
structure HandshakeState where
  buf : Bytes
  headersEnd : Nat
  clientKey : Bytes
  reason : String

namespace HandshakeState

def new : HandshakeState := ⟨[], 0, [], ""⟩

/-- The octets behind the headers. -/
def trailing (p : HandshakeState) : Bytes :=
  p.buf.drop p.headersEnd

end HandshakeState

/-- What the checks of whole headers set: the key, and the reason to refuse them. -/
structure Checked where
  clientKey : Option Bytes
  reason : Option String

def terminator : Bytes := [13, 10, 13, 10]

def maxHeaderBytes : Nat := 16384

/-- `feed` of either parser, by its reason for headers that are too large and its checks. -/
def feedHeaders (tooLarge : String) (check : Bytes → Checked) (p : HandshakeState) (bytes : Bytes) :
    HandshakeState × HandshakeStatus :=
  let buf := p.buf ++ bytes
  match search terminator buf with
  | none =>
    if buf.length > maxHeaderBytes then ({ p with buf, reason := tooLarge }, .rejected)
    else ({ p with buf }, .needMore)
  | some place =>
    let headersEnd := place + 4
    let checked := check (buf.take headersEnd)
    (⟨buf, headersEnd, checked.clientKey.getD p.clientKey, checked.reason.getD p.reason⟩,
      if checked.reason.isSome then .rejected else .accepted)

/-- The text between the name of a header and the end of its line. -/
def headerText (headers needle : Bytes) (pos : Nat) : Bytes :=
  let eol := (find headers [13, 10] pos).getD headers.length
  trimWs ((headers.drop (pos + needle.length)).take (eol - pos - needle.length))

/-- The checks of `HandshakeParser`. -/
def checkRequest (headers : Bytes) : Checked :=
  if !icontains headers (ascii "Upgrade: websocket") && !icontains headers (ascii "upgrade: websocket")
  then ⟨none, some "not a WebSocket upgrade"⟩
  else
    let needle := ascii "sec-websocket-key:"
    match search needle (lower headers) with
    | none => ⟨none, some "missing Sec-WebSocket-Key"⟩
    | some pos =>
      let key := headerText headers needle pos
      if key = [] then ⟨some key, some "empty Sec-WebSocket-Key"⟩ else ⟨some key, none⟩

/-- `HandshakeParser::feed`. -/
def HandshakeParser.feed : HandshakeState → Bytes → HandshakeState × HandshakeStatus :=
  feedHeaders "headers too large" checkRequest

/-- The checks of `ClientHandshakeParser`, by the `compute_accept` of its key. -/
def checkResponse (expectedAccept headers : Bytes) : Checked :=
  if headers.take 5 ≠ ascii "HTTP/" ∨ search (ascii " 101 ") headers = none then
    ⟨none, some "server did not return 101 Switching Protocols"⟩
  else if !icontains headers (ascii "Upgrade: websocket") then
    ⟨none, some "missing Upgrade: websocket in response"⟩
  else
    let needle := ascii "sec-websocket-accept:"
    match search needle (lower headers) with
    | none => ⟨none, some "missing Sec-WebSocket-Accept"⟩
    | some pos =>
      if expectedAccept = [] ∨ headerText headers needle pos ≠ expectedAccept then
        ⟨none, some "Sec-WebSocket-Accept mismatch"⟩
      else ⟨none, none⟩

/-- `ClientHandshakeParser::feed`. -/
def ClientHandshakeParser.feed (expectedAccept : Bytes) :
    HandshakeState → Bytes → HandshakeState × HandshakeStatus :=
  feedHeaders "response headers too large" (checkResponse expectedAccept)

/-- A parser is fed until it needs no more; with what it has come to, the chunks that it has not
been fed. -/
def feedUntil (feed : HandshakeState → Bytes → HandshakeState × HandshakeStatus)
    (p : HandshakeState) : List Bytes → HandshakeState × HandshakeStatus × List Bytes
  | [] => (p, .needMore, [])
  | chunk :: chunks =>
    match feed p chunk with
    | (q, .needMore) => feedUntil feed q chunks
    | (q, status) => (q, status, chunks)

/-- What counts of a handshake: the verdict, the key, and all the octets behind the headers. -/
structure Outcome where
  status : HandshakeStatus
  clientKey : Bytes
  rest : Bytes

def outcome (feed : HandshakeState → Bytes → HandshakeState × HandshakeStatus)
    (p : HandshakeState) (chunks : List Bytes) : Outcome :=
  let (q, status, unfed) := feedUntil feed p chunks
  ⟨status, q.clientKey, q.trailing ++ unfed.flatten⟩

/-! ### The first place -/

theorem search_empty (hay : Bytes) : search [] hay = some 0 := by
  cases hay <;> rfl

theorem search_le {needle hay : Bytes} {place : Nat} (found : search needle hay = some place) :
    place + needle.length ≤ hay.length := by
  induction hay generalizing place with
  | nil =>
    unfold search at found
    split at found
    next empty =>
      cases found
      rw [empty]
      exact Nat.le_refl 0
    · cases found
  | cons octet octets ih =>
    unfold search at found
    split at found
    next here =>
      cases found
      rw [Nat.zero_add]
      exact (List.isPrefixOf_iff_prefix.mp here).length_le
    · obtain ⟨before, found', rfl⟩ := Option.map_eq_some_iff.mp found
      have inside := ih found'
      rw [List.length_cons]
      omega

theorem search_append {needle hay : Bytes} {place : Nat} (later : Bytes)
    (found : search needle hay = some place) : search needle (hay ++ later) = some place := by
  induction hay generalizing place with
  | nil =>
    unfold search at found
    split at found
    next empty =>
      cases found
      rw [empty, search_empty]
    · cases found
  | cons octet octets ih =>
    unfold search at found
    split at found
    next here =>
      cases found
      have still : needle.isPrefixOf (octet :: octets ++ later) = true := by
        rw [List.isPrefixOf_iff_prefix] at here ⊢
        exact here.trans (List.prefix_append _ _)
      exact if_pos still
    next elsewhere =>
      obtain ⟨before, found', rfl⟩ := Option.map_eq_some_iff.mp found
      have fits : needle.length ≤ octets.length := le_trans (Nat.le_add_left _ _) (search_le found')
      -- the needle is inside, so no part of what is appended can make another of it in front
      have still : ¬needle.isPrefixOf (octet :: octets ++ later) = true := by
        rw [List.isPrefixOf_iff_prefix] at elsewhere ⊢
        intro here
        exact elsewhere (List.prefix_of_prefix_length_le here (List.prefix_append _ _)
          (Nat.le_succ_of_le fits))
      exact (if_neg still).trans (congrArg (Option.map (· + 1)) (ih found'))

/-- What is found with the octets that come later ends in them. -/
theorem lt_of_search_append {needle hay later : Bytes} {place : Nat}
    (found : search needle (hay ++ later) = some place) (absent : search needle hay = none) :
    hay.length < place + needle.length := by
  induction hay generalizing place with
  | nil =>
    cases needle with
    | nil => cases absent
    | cons octet octets => exact Nat.succ_pos _
  | cons octet octets ih =>
    unfold search at absent
    split at absent
    · cases absent
    next elsewhere =>
      have absent' := Option.map_eq_none_iff.mp absent
      rw [List.cons_append] at found
      unfold search at found
      split at found
      next here =>
        cases found
        rw [List.isPrefixOf_iff_prefix] at elsewhere here
        by_contra fits
        refine elsewhere (List.prefix_of_prefix_length_le here
          (List.prefix_append _ _) ?_)
        omega
      · obtain ⟨before, found', rfl⟩ := Option.map_eq_some_iff.mp found
        have behind := ih found' absent'
        rw [List.length_cons]
        omega

/-! ### Headers in pieces -/

/-- Some chunk ends beyond the limit and before the end of the headers. -/
def Overruns (chunks : List Bytes) : Prop :=
  ∃ before, before <+: chunks ∧ maxHeaderBytes < before.flatten.length ∧
    search terminator before.flatten = none

/-- What a handshake comes to when the size is never looked at. -/
def settled (check : Bytes → Checked) (stream : Bytes) : Outcome :=
  match search terminator stream with
  | none => ⟨.needMore, [], stream⟩
  | some place =>
    let checked := check (stream.take (place + 4))
    ⟨if checked.reason.isSome then .rejected else .accepted, checked.clientKey.getD [],
      stream.drop (place + 4)⟩

/-- A parser that has taken these octets and needs more. -/
structure Waiting (p : HandshakeState) (taken : List Bytes) : Prop where
  buf : p.buf = taken.flatten
  headersEnd : p.headersEnd = 0
  clientKey : p.clientKey = []
  unfinished : search terminator taken.flatten = none

theorem waiting_new : Waiting .new [] :=
  ⟨rfl, rfl, rfl, rfl⟩

section

variable {tooLarge : String} {check : Bytes → Checked} {p : HandshakeState} {taken : List Bytes}

/-- What a chunk does to a parser that needs more. -/
theorem feed_cases (waiting : Waiting p taken) (chunk : Bytes) :
    ∃ q status, feedHeaders tooLarge check p chunk = (q, status) ∧
      ((status = .needMore ∧ Waiting q (taken ++ [chunk]) ∧
          (taken ++ [chunk]).flatten.length ≤ maxHeaderBytes) ∨
        (status = .rejected ∧ q.clientKey = [] ∧ q.trailing = (taken ++ [chunk]).flatten ∧
          maxHeaderBytes < (taken ++ [chunk]).flatten.length ∧
          search terminator (taken ++ [chunk]).flatten = none) ∨
        (status ≠ .needMore ∧ (search terminator (taken ++ [chunk]).flatten).isSome = true ∧
          ⟨status, q.clientKey, q.trailing⟩ = settled check (taken ++ [chunk]).flatten)) := by
  have buf : p.buf ++ chunk = (taken ++ [chunk]).flatten := by simp [waiting.buf]
  unfold feedHeaders
  dsimp only
  rw [buf]
  cases found : search terminator (taken ++ [chunk]).flatten with
  | none =>
    dsimp only
    split
    next large =>
      refine ⟨_, _, rfl, .inr (.inl ⟨rfl, waiting.clientKey, ?_, large, rfl⟩)⟩
      simp [HandshakeState.trailing, waiting.headersEnd]
    next small =>
      exact ⟨_, _, rfl, .inl ⟨rfl, ⟨rfl, waiting.headersEnd, waiting.clientKey, found⟩,
        Nat.le_of_not_lt small⟩⟩
  | some place =>
    refine ⟨_, _, rfl, .inr (.inr ⟨?_, rfl, ?_⟩)⟩
    · split <;> nofun
    · rw [settled, found]
      simp [HandshakeState.trailing, waiting.clientKey]

theorem settled_append {stream : Bytes} (later : Bytes)
    (finished : (search terminator stream).isSome = true) :
    settled check (stream ++ later) =
      ⟨(settled check stream).status, (settled check stream).clientKey,
        (settled check stream).rest ++ later⟩ := by
  obtain ⟨place, found⟩ := Option.isSome_iff_exists.mp finished
  have inside : place + 4 ≤ stream.length := search_le found
  unfold settled
  rw [found, search_append later found]
  dsimp only
  rw [List.take_append_of_le_length inside, List.drop_append_of_le_length inside]

theorem overruns_concat (taken : List Bytes) (chunk : Bytes) :
    Overruns (taken ++ [chunk]) ↔ Overruns taken ∨
      (maxHeaderBytes < (taken ++ [chunk]).flatten.length ∧
        search terminator (taken ++ [chunk]).flatten = none) := by
  constructor
  · rintro ⟨before, inside, large, unfinished⟩
    obtain rfl | inside := List.prefix_concat_iff.mp inside
    · exact .inr ⟨large, unfinished⟩
    · exact .inl ⟨before, inside, large, unfinished⟩
  · rintro (⟨before, inside, here⟩ | here)
    · exact ⟨before, inside.trans (List.prefix_append _ _), here⟩
    · exact ⟨_, List.prefix_refl _, here⟩

theorem Overruns.append {taken : List Bytes} (overruns : Overruns taken) (chunks : List Bytes) :
    Overruns (taken ++ chunks) := by
  obtain ⟨before, inside, here⟩ := overruns
  exact ⟨before, inside.trans (List.prefix_append _ _), here⟩

/-- Behind the end of the headers nothing overruns any more. -/
theorem Overruns.of_append {taken chunks : List Bytes} (overruns : Overruns (taken ++ chunks))
    (finished : (search terminator taken.flatten).isSome = true) : Overruns taken := by
  obtain ⟨before, inside, large, unfinished⟩ := overruns
  obtain ⟨place, found⟩ := Option.isSome_iff_exists.mp finished
  obtain shorter | ⟨more, rfl⟩ := List.prefix_or_prefix_of_prefix inside (List.prefix_append _ _)
  · exact ⟨before, shorter, large, unfinished⟩
  · rw [List.flatten_append, search_append _ found] at unfinished
    cases unfinished

theorem not_overruns_nil : ¬Overruns [] := by
  rintro ⟨before, inside, large, -⟩
  rw [List.prefix_nil.mp inside] at large
  exact Nat.not_lt_zero _ large

theorem not_overruns_small {chunks : List Bytes} (small : chunks.flatten.length ≤ maxHeaderBytes) :
    ¬Overruns chunks := by
  rintro ⟨before, ⟨more, rfl⟩, large, -⟩
  rw [List.flatten_append, List.length_append] at small
  omega

/-- What is behind the headers is less than everything. -/
theorem rejected_ne_settled (chunks : List Bytes) :
    (⟨.rejected, [], chunks.flatten⟩ : Outcome) ≠ settled check chunks.flatten := by
  unfold settled
  cases found : search terminator chunks.flatten with
  | none => exact fun equal => nomatch congrArg Outcome.status equal
  | some place =>
    intro equal
    have inside : place + 4 ≤ chunks.flatten.length := search_le found
    have shorter := congrArg (fun o => o.rest.length) equal
    dsimp only at shorter
    rw [List.length_drop] at shorter
    omega

/-- What an outcome is depends on the pieces only by whether they overrun. -/
theorem outcome_eq (waiting : Waiting p taken) (chunks : List Bytes)
    (sound : ¬Overruns taken) :
    (Overruns (taken ++ chunks) → outcome (feedHeaders tooLarge check) p chunks =
      ⟨.rejected, [], (taken ++ chunks).flatten⟩) ∧
    (¬Overruns (taken ++ chunks) → outcome (feedHeaders tooLarge check) p chunks =
      settled check (taken ++ chunks).flatten) := by
  induction chunks generalizing p taken with
  | nil =>
    rw [List.append_nil]
    refine ⟨fun overruns => absurd overruns sound, fun _ => ?_⟩
    simp [outcome, feedUntil, settled, waiting.unfinished, waiting.clientKey,
      HandshakeState.trailing, waiting.headersEnd, waiting.buf]
  | cons chunk chunks ih =>
    have whole : taken ++ chunk :: chunks = taken ++ [chunk] ++ chunks := by simp
    obtain ⟨q, status, fed, cases⟩ := @feed_cases tooLarge check _ _ waiting chunk
    rw [whole]
    obtain ⟨rfl, next, small⟩ | ⟨rfl, key, trailing, large, unfinished⟩ |
        ⟨left, finished, settles⟩ := cases
    · -- the parser goes on with the other chunks
      have goes_on : outcome (feedHeaders tooLarge check) p (chunk :: chunks) =
          outcome (feedHeaders tooLarge check) q chunks := by
        simp [outcome, feedUntil, fed]
      rw [goes_on]
      refine ih next fun overruns => ?_
      obtain before | ⟨large, -⟩ := (overruns_concat taken chunk).mp overruns
      · exact sound before
      · exact absurd small (Nat.not_le.mpr large)
    · have overruns : Overruns (taken ++ [chunk]) :=
        (overruns_concat taken chunk).mpr (.inr ⟨large, unfinished⟩)
      refine ⟨fun _ => ?_, fun fits => absurd (overruns.append chunks) fits⟩
      simp only [outcome, feedUntil, fed]
      rw [key, trailing, ← List.flatten_append]
    · have stays : outcome (feedHeaders tooLarge check) p (chunk :: chunks) =
          ⟨status, q.clientKey, q.trailing ++ chunks.flatten⟩ := by
        cases status with
        | needMore => exact absurd rfl left
        | accepted => simp [outcome, feedUntil, fed]
        | rejected => simp [outcome, feedUntil, fed]
      refine ⟨fun overruns => ?_, fun _ => ?_⟩
      · obtain before | ⟨-, unfinished⟩ :=
          (overruns_concat taken chunk).mp (overruns.of_append finished)
        · exact absurd before sound
        · rw [unfinished] at finished
          cases finished
      · rw [stays, List.flatten_append, settled_append _ finished, ← settles]

end

/-- Two ways of cutting a byte stream come to the same exactly when both overrun or neither does. -/
theorem outcome_eq_iff {tooLarge : String} {check : Bytes → Checked} {chunks chunks' : List Bytes}
    (same : chunks.flatten = chunks'.flatten) :
    outcome (feedHeaders tooLarge check) .new chunks =
        outcome (feedHeaders tooLarge check) .new chunks' ↔
      (Overruns chunks ↔ Overruns chunks') := by
  obtain ⟨beyond, within⟩ :=
    @outcome_eq tooLarge check _ _ waiting_new chunks not_overruns_nil
  obtain ⟨beyond', within'⟩ :=
    @outcome_eq tooLarge check _ _ waiting_new chunks' not_overruns_nil
  rw [List.nil_append] at beyond within beyond' within'
  rw [← same] at beyond' within'
  by_cases left : Overruns chunks <;> by_cases right : Overruns chunks'
  · rw [beyond left, beyond' right]
    exact iff_of_true rfl ⟨fun _ => right, fun _ => left⟩
  · rw [beyond left, within' right]
    exact iff_of_false (rejected_ne_settled chunks) fun both => right (both.mp left)
  · rw [within left, beyond' right]
    refine iff_of_false (fun equal => ?_) fun both => left (both.mpr right)
    exact rejected_ne_settled chunks equal.symm
  · rw [within left, within' right]
    exact iff_of_true rfl ⟨fun overruns => absurd overruns left, fun overruns => absurd overruns right⟩

/-- Handshakes do not depend on the packets that they come in exactly when a packet ends beyond
16384 octets and before the end of the headers in both ways of cutting them or in neither. -/
theorem handshakes_agree_iff {chunks chunks' : List Bytes}
    (same : chunks.flatten = chunks'.flatten) :
    (outcome HandshakeParser.feed .new chunks = outcome HandshakeParser.feed .new chunks' ↔
      (Overruns chunks ↔ Overruns chunks')) ∧
    ∀ expectedAccept : Bytes,
      (outcome (ClientHandshakeParser.feed expectedAccept) .new chunks =
          outcome (ClientHandshakeParser.feed expectedAccept) .new chunks' ↔
        (Overruns chunks ↔ Overruns chunks')) :=
  ⟨outcome_eq_iff same, fun _ => outcome_eq_iff same⟩

/-- The end of the headers cut in two. -/
theorem handshakes_agree_iff_small :
    outcome HandshakeParser.feed .new [[13, 10, 13], [10, 7]] =
      outcome HandshakeParser.feed .new [[13, 10, 13, 10], [7]] := by
  have same : ([[13, 10, 13], [10, 7]] : List Bytes).flatten = [[13, 10, 13, 10], [7]].flatten :=
    rfl
  exact (handshakes_agree_iff same).1.mpr
    (iff_of_false (not_overruns_small (by decide)) (not_overruns_small (by decide)))

/-- The headers of a request, up to the text of the last one. -/
def requestHead : Bytes :=
  ascii "GET / HTTP/1.1\r\nUpgrade: websocket\r\nSec-WebSocket-Key: eA==\r\nX: "

private theorem search_requestHead (rest : Bytes) :
    search terminator (requestHead ++ 97 :: rest) = (search terminator rest).map (· + 65) := by
  rw [requestHead, ascii_ofList]
  cases found : search terminator rest with
  | none => simpa [search, terminator] using found
  | some n => simpa [search, terminator] using found

private theorem check_requestHead (rest : Bytes) :
    checkRequest (requestHead ++ rest) = ⟨some (ascii "eA=="), none⟩ := by
  have upgrade : icontains (requestHead ++ rest) (ascii "Upgrade: websocket") = true := by
    rw [requestHead, ascii_ofList, ascii_ofList]
    rfl
  have place : search (ascii "sec-websocket-key:") (lower (requestHead ++ rest)) = some 36 := by
    rw [requestHead, ascii_ofList, ascii_ofList]
    rfl
  have text : headerText (requestHead ++ rest) (ascii "sec-websocket-key:") 36 = ascii "eA==" := by
    rw [requestHead, ascii_ofList, ascii_ofList, ascii_ofList]
    rfl
  simp only [checkRequest, upgrade, place, text]
  simp [ascii_ne_nil _ _]

/-- Headers of 16452 octets, but for the empty line at their end. -/
def longHeaders : Bytes :=
  requestHead ++ List.replicate 16384 97

private theorem search_replicate (n : Nat) (rest : Bytes) :
    search terminator (List.replicate n 97 ++ rest) = (search terminator rest).map (· + n) := by
  induction n with
  | zero => simp
  | succ n ih =>
    have other : terminator.isPrefixOf (97 :: (List.replicate n 97 ++ rest)) = false := rfl
    rw [List.replicate_succ, List.cons_append, search, other, if_neg (by decide), ih,
      Option.map_map]
    rfl

private theorem search_longHeaders (rest : Bytes) :
    search terminator (longHeaders ++ rest) = (search terminator rest).map (· + 16448) := by
  rw [longHeaders, List.replicate_succ, List.append_assoc, List.cons_append, search_requestHead,
    search_replicate, Option.map_map]
  rfl

/-- The verdict on such headers depends on whether the empty line comes with them. -/
theorem verdict_depends_on_cut :
    (outcome HandshakeParser.feed .new [longHeaders ++ terminator]).status = .accepted ∧
      (outcome HandshakeParser.feed .new [longHeaders, terminator]).status = .rejected := by
  have unfinished : search terminator longHeaders = none := by
    have alone := search_longHeaders []
    rwa [List.append_nil] at alone
  have place : search terminator (longHeaders ++ terminator) = some 16448 := search_longHeaders _
  have size : longHeaders.length = 16448 := by
    have head : requestHead.length = 64 := by
      rw [requestHead, ascii_ofList]
      rfl
    rw [longHeaders, List.length_append, List.length_replicate, head]
  constructor
  · have within : ¬Overruns [longHeaders ++ terminator] := by
      intro overruns
      obtain none | ⟨-, open_⟩ := (overruns_concat [] (longHeaders ++ terminator)).mp overruns
      · exact not_overruns_nil none
      · rw [List.nil_append, List.flatten_singleton, place] at open_
        cases open_
    have accepted : checkRequest ((longHeaders ++ terminator).take (16448 + 4)) =
        ⟨some (ascii "eA=="), none⟩ := by
      rw [List.take_of_length_le (by rw [List.length_append, size]; rfl), longHeaders,
        List.append_assoc, check_requestHead]
    have settles := (@outcome_eq "headers too large" checkRequest _ _ waiting_new
      [longHeaders ++ terminator] not_overruns_nil).2 within
    rw [HandshakeParser.feed, settles, List.nil_append, List.flatten_singleton, settled, place]
    dsimp only
    rw [accepted]
    rfl
  · have overruns : Overruns [longHeaders, terminator] :=
      ⟨[longHeaders], ⟨[terminator], rfl⟩, by rw [List.flatten_singleton, size]; decide,
        by rw [List.flatten_singleton, unfinished]⟩
    rw [HandshakeParser.feed, (outcome_eq waiting_new _ not_overruns_nil).1 overruns]

theorem not_independent_of_cut : ¬∀ chunks chunks' : List Bytes, chunks.flatten = chunks'.flatten →
    outcome HandshakeParser.feed .new chunks = outcome HandshakeParser.feed .new chunks' := by
  intro all
  have equal := all [longHeaders ++ terminator] [longHeaders, terminator] (by simp)
  obtain ⟨accepted, rejected⟩ := verdict_depends_on_cut
  rw [equal, rejected] at accepted
  cases accepted

end FinBit.Net
