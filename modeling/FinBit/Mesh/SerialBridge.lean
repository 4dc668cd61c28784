import Mathlib.Data.List.Induction
import FinBit.Lib.Reader
import FinBit.Lib.Streaming

/-! # The serial bridge

Payloads go over a serial line behind their length in two octets. A send that fails may have put a
part of its frame on the line, and nothing on the line says where the next frame begins.
-/

namespace FinBit.Mesh

open FinBit.Lib

structure MeshFrame where
  origin : String
  topic : String
  snrDb : Int
  hopLimit : Int
  payload : Bytes

/-! ### Sending -/

/-- The answers of `write`, and of the `select` that waits for a full line. -/
inductive WriteAnswer
  | wrote (n : Nat)
  | interrupted
  | full (ready : Bool)
  | failed

/-- What a call of `send` meets. -/
inductive LineAnswers
  | closed
  | posix (answers : List WriteAnswer)
  /-- The result of `WriteFile` and the octets that it has written. -/
  | windows (result : Bool) (written : Nat)

/-- The loop of `send` ends with the other answers. -/
def goesOn : WriteAnswer → Bool
  | .wrote _ | .interrupted | .full true => true
  | .full false | .failed => false

def wroteCount : WriteAnswer → Nat
  | .wrote n => n
  | _ => 0

def framed (payload : Bytes) : Bytes :=
  be16 payload.length ++ payload

/-- The loop of `send`: the octets that it writes and its result. Behind the last answer the line
stays full. -/
def writeAll : List WriteAnswer → Bytes → Bytes × Bool
  | _, [] => ([], true)
  | [], _ => ([], false)
  | .wrote n :: answers, octet :: left =>
    let (written, result) := writeAll answers ((octet :: left).drop n)
    ((octet :: left).take n ++ written, result)
  | .interrupted :: answers, octet :: left => writeAll answers (octet :: left)
  | .full ready :: answers, octet :: left =>
    if ready then writeAll answers (octet :: left) else ([], false)
  | .failed :: _, _ :: _ => ([], false)

/-- `send`, by what it meets: what it puts on the line, and its result. -/
def send (answers : LineAnswers) (payload : Bytes) : Bytes × Bool :=
  match answers with
  | .closed => ([], false)
  | .posix answers => if payload.length > 0xFFFF then ([], false) else writeAll answers (framed payload)
  | .windows result written =>
    if payload.length > 0xFFFF then ([], false)
    else ((framed payload).take written, result && written = (framed payload).length)

/-- How many octets a line takes that is given enough of them. -/
def LineAnswers.accepted : LineAnswers → Nat
  | .closed => 0
  | .posix answers => (answers.takeWhile goesOn).map wroteCount |>.sum
  | .windows _ written => written

/-- A call of `send`. -/
structure Sending where
  answers : LineAnswers
  payload : Bytes

namespace Sending

def written (s : Sending) : Bytes :=
  (send s.answers s.payload).1

def result (s : Sending) : Bool :=
  (send s.answers s.payload).2

end Sending

/-- What is on the line after calls of `send`. -/
def line (sends : List Sending) : Bytes :=
  sends.flatMap Sending.written

/-! ### Receiving -/

/-- One round of `drain_frames`. -/
def takeSerial (buf : Bytes) : Taken Unit MeshFrame Empty :=
  if buf.length < 2 then .more
  else
    let len := beNat (buf.take 2)
    if buf.length < 2 + len then .more
    else .took () (some ⟨"serial", "primary", 0, 0, (buf.drop 2).take len⟩) (buf.drop (2 + len))

/-- `drain_frames` has no state besides its buffer, and no error. -/
def serialDecoder : StreamDecoder Unit MeshFrame Empty where
  take _ := takeSerial
  take_lt := by
    intro s t out buffer rest taken
    unfold takeSerial at taken
    dsimp only at taken
    split at taken
    · cases taken
    split at taken
    · cases taken
    · cases taken
      rw [List.length_drop]
      omega
  took_append := by
    intro s t out buffer rest later taken
    unfold takeSerial at taken ⊢
    dsimp only at taken ⊢
    split at taken
    · cases taken
    next two =>
    split at taken
    · cases taken
    next whole =>
      cases taken
      have header : (buffer ++ later).take 2 = buffer.take 2 :=
        List.take_append_of_le_length (Nat.le_of_not_lt two)
      rw [if_neg (by rw [List.length_append]; omega), header,
        if_neg (by rw [List.length_append]; omega), List.drop_append_of_le_length (by omega),
        List.drop_append_of_le_length (Nat.le_of_not_lt whole),
        List.take_append_of_le_length (by rw [List.length_drop]; omega)]
  broken_append := by
    intro s t e
    exact e.elim

/-- The payloads that `read_loop` hands to `on_frame`, by what its reads bring. -/
def received (pieces : List Bytes) : List Bytes :=
  ((Incoming.fresh ()).receive serialDecoder pieces).2.map (·.payload)

/-- Whatever is sent next and reported as sent is received as it is, behind what has been received
before. -/
def Intact (sends : List Sending) : Prop :=
  ∀ later : List Sending, (∀ s ∈ later, s.result = true) →
    ∀ pieces : List Bytes, pieces.flatten = line (sends ++ later) →
      received pieces = received [line sends] ++ later.map (·.payload)

/-! ### What a call leaves on the line -/

theorem writeAll_cases (answers : List WriteAnswer) (left : Bytes) :
    (writeAll answers left).1 <+: left ∧
      ((writeAll answers left).2 = true → (writeAll answers left).1 = left) := by
  fun_induction writeAll answers left with
  | case1 => exact ⟨List.prefix_refl _, fun _ => rfl⟩
  | case2 => exact ⟨List.nil_prefix, nofun⟩
  | case3 n answers octet left written result writes ih =>
    rw [writes] at ih
    obtain ⟨⟨more, rest⟩, all⟩ := ih
    dsimp only at rest all ⊢
    refine ⟨⟨more, ?_⟩, fun sent => ?_⟩
    · rw [List.append_assoc, rest, List.take_append_drop]
    · rw [all sent, List.take_append_drop]
  | case4 => assumption
  | case5 => assumption
  | case6 => exact ⟨List.nil_prefix, nofun⟩
  | case7 => exact ⟨List.nil_prefix, nofun⟩

/-- A call writes a part of its frame, and the whole of it where it succeeds. -/
theorem send_cases (s : Sending) :
    (s.written = [] ∧ s.result = false) ∨
      (s.payload.length ≤ 0xFFFF ∧ s.written <+: framed s.payload ∧
        (s.result = true → s.written = framed s.payload)) := by
  obtain ⟨answers, payload⟩ := s
  unfold Sending.written Sending.result
  dsimp only
  cases answers with
  | closed => exact .inl ⟨rfl, rfl⟩
  | posix answers =>
    rw [send]
    split
    · exact .inl ⟨rfl, rfl⟩
    next fits =>
      obtain ⟨part, all⟩ := writeAll_cases answers (framed payload)
      exact .inr ⟨Nat.le_of_not_lt fits, part, all⟩
  | windows result written =>
    rw [send]
    split
    · exact .inl ⟨rfl, rfl⟩
    next fits =>
      refine .inr ⟨Nat.le_of_not_lt fits, List.take_prefix _ _, fun sent => ?_⟩
      simp only [Bool.and_eq_true, decide_eq_true_eq] at sent
      dsimp only
      rw [sent.2, List.take_length]

theorem written_of_result {s : Sending} (sent : s.result = true) :
    s.written = framed s.payload ∧ s.payload.length ≤ 0xFFFF := by
  obtain ⟨-, failed⟩ | ⟨fits, -, all⟩ := send_cases s
  · rw [sent] at failed
    cases failed
  · exact ⟨all sent, fits⟩

theorem length_framed (payload : Bytes) : (framed payload).length = 2 + payload.length := by
  rw [framed, List.length_append, length_be16]

/-- The line is given no more than there is to write. -/
theorem length_writeAll (answers : List WriteAnswer) (left : Bytes) :
    (writeAll answers left).1.length = min (LineAnswers.posix answers).accepted left.length := by
  fun_induction writeAll answers left with
  | case1 => rw [List.length_nil, Nat.min_zero]
  | case2 => rw [List.length_nil, LineAnswers.accepted, List.takeWhile_nil, List.map_nil,
      List.sum_nil, Nat.zero_min]
  | case3 n answers octet left written result writes ih =>
    rw [writes] at ih
    dsimp only at ih ⊢
    have first : (LineAnswers.posix (.wrote n :: answers)).accepted =
        n + (LineAnswers.posix answers).accepted := rfl
    rw [List.length_append, List.length_take, ih, first, List.length_drop]
    omega
  | case4 answers octet left ih =>
    have first : (LineAnswers.posix (.interrupted :: answers)).accepted =
        (LineAnswers.posix answers).accepted := Nat.zero_add _
    rw [first, ih]
  | case5 answers octet left ih =>
    have first : (LineAnswers.posix (.full true :: answers)).accepted =
        (LineAnswers.posix answers).accepted := Nat.zero_add _
    rw [first, ih]
  | case6 ready answers octet left gives_up =>
    have stays : ready = false := by simpa using gives_up
    subst stays
    exact (Nat.zero_min _).symm
  | case7 => exact (Nat.zero_min _).symm

theorem length_written {s : Sending} (fits : s.payload.length ≤ 0xFFFF) :
    s.written.length = min s.answers.accepted (2 + s.payload.length) := by
  obtain ⟨answers, payload⟩ := s
  rw [Sending.written, ← length_framed]
  dsimp only at fits ⊢
  cases answers with
  | closed => exact (Nat.zero_min _).symm
  | posix answers => rw [send, if_neg (Nat.not_lt.mpr fits), length_writeAll]
  | windows result written =>
    rw [send, if_neg (Nat.not_lt.mpr fits), List.length_take]
    rfl

/-! ### What is read of the line -/

/-- What `drain_frames` makes of octets at the beginning of a frame. -/
def decoded (octets : Bytes) : List Bytes :=
  ((Incoming.drain serialDecoder ⟨(), octets, none⟩).2).map (·.payload)

theorem idle : (Incoming.fresh ()).drain serialDecoder = (Incoming.fresh (), []) :=
  Incoming.drain_more rfl rfl

theorem received_eq (pieces : List Bytes) : received pieces = decoded pieces.flatten := by
  rw [received, (Incoming.receive_flatten idle pieces).2]
  rfl

theorem take_framed {payload : Bytes} (fits : payload.length ≤ 0xFFFF) (rest : Bytes) :
    takeSerial (framed payload ++ rest) =
      .took () (some ⟨"serial", "primary", 0, 0, payload⟩) rest := by
  have header : (framed payload ++ rest).take 2 = be16 payload.length := by
    rw [framed, List.append_assoc]
    exact List.take_left' (length_be16 _)
  have body : (framed payload ++ rest).drop 2 = payload ++ rest := by
    rw [framed, List.append_assoc]
    exact List.drop_left' (length_be16 _)
  have size : (framed payload ++ rest).length = 2 + payload.length + rest.length := by
    simp [framed, Nat.add_assoc]
  have len : beNat ((framed payload ++ rest).take 2) = payload.length := by
    rw [header, be16, beNat_beBytes, Nat.mod_eq_of_lt (by omega)]
  unfold takeSerial
  dsimp only
  rw [len, if_neg (by omega), if_neg (by omega), body, ← List.drop_drop, body, List.take_left,
    List.drop_left]

/-- Frames are read one after the other, whatever follows them. -/
theorem decoded_framed {payloads : List Bytes} (fit : ∀ p ∈ payloads, p.length ≤ 0xFFFF)
    (rest : Bytes) : decoded (payloads.flatMap framed ++ rest) = payloads ++ decoded rest := by
  induction payloads with
  | nil => rfl
  | cons payload payloads ih =>
    obtain ⟨first, others⟩ := List.forall_mem_cons.mp fit
    have taken : serialDecoder.take () (framed payload ++ (payloads.flatMap framed ++ rest)) = _ :=
      take_framed first _
    have later := ih others
    unfold decoded at later ⊢
    rw [List.flatMap_cons, List.append_assoc, Incoming.drain_took rfl taken]
    simp only [Option.toList_some, List.cons_append, List.nil_append, List.map_cons, later]

/-- Nothing is read of a frame that is not whole. -/
theorem decoded_more {octets : Bytes} (more : takeSerial octets = .more) : decoded octets = [] := by
  have taken : serialDecoder.take () octets = .more := more
  rw [decoded, Incoming.drain_more rfl taken]
  rfl

theorem decoded_frames {payloads : List Bytes} (fit : ∀ p ∈ payloads, p.length ≤ 0xFFFF) :
    decoded (payloads.flatMap framed) = payloads := by
  have nothing : decoded [] = [] := decoded_more rfl
  have read := decoded_framed fit []
  rwa [nothing, List.append_nil, List.append_nil] at read

theorem decoded_took {octets rest : Bytes} {frame : MeshFrame}
    (took : takeSerial octets = .took () (some frame) rest) :
    decoded octets = frame.payload :: decoded rest := by
  have taken : serialDecoder.take () octets = .took () (some frame) rest := took
  rw [decoded, Incoming.drain_took rfl taken]
  rfl

/-! ### Failures that leave the line whole -/

/-- A failed call that has written nothing, or everything. -/
def Sending.Clean (s : Sending) : Prop :=
  s.result = false → s.written = [] ∨ s.written = framed s.payload

/-- Whether a call is one shows in what it meets. -/
theorem Sending.clean_iff (s : Sending) :
    s.Clean ↔ (s.payload.length ≤ 0xFFFF →
      s.answers.accepted = 0 ∨ 2 + s.payload.length ≤ s.answers.accepted) := by
  obtain ⟨nothing, -⟩ | ⟨fits, part, all⟩ := send_cases s
  · refine iff_of_true (fun _ => .inl nothing) fun fits => .inl ?_
    have length := length_written fits
    rw [nothing, List.length_nil] at length
    omega
  · have length := length_written fits
    constructor
    · intro clean _
      have either : s.written = [] ∨ s.written = framed s.payload := by
        cases result : s.result with
        | true => exact .inr (all result)
        | false => exact clean result
      obtain nothing | whole := either
      · rw [nothing, List.length_nil] at length
        omega
      · rw [whole, length_framed] at length
        omega
    · intro cond _
      obtain none | enough := cond fits
      · rw [none, Nat.zero_min] at length
        exact .inl (List.eq_nil_of_length_eq_zero length)
      · refine .inr (part.eq_of_length ?_)
        rw [length, length_framed, Nat.min_eq_right enough]

/-- With such calls only there are whole frames on the line. -/
theorem line_eq {sends : List Sending} (clean : ∀ s ∈ sends, s.Clean) :
    ∃ payloads : List Bytes, line sends = payloads.flatMap framed ∧
      ∀ p ∈ payloads, p.length ≤ 0xFFFF := by
  induction sends with
  | nil => exact ⟨[], rfl, nofun⟩
  | cons s sends ih =>
    obtain ⟨here, others⟩ := List.forall_mem_cons.mp clean
    obtain ⟨payloads, rest, fit⟩ := ih others
    have all : line (s :: sends) = s.written ++ payloads.flatMap framed := by
      rw [← rest]
      rfl
    obtain ⟨nothing, -⟩ | ⟨small, -, sent⟩ := send_cases s
    · refine ⟨payloads, ?_, fit⟩
      rw [all, nothing, List.nil_append]
    · have either : s.written = [] ∨ s.written = framed s.payload := by
        cases result : s.result with
        | true => exact .inr (sent result)
        | false => exact here result
      obtain nothing | whole := either
      · refine ⟨payloads, ?_, fit⟩
        rw [all, nothing, List.nil_append]
      · refine ⟨s.payload :: payloads, ?_, List.forall_mem_cons.mpr ⟨small, fit⟩⟩
        rw [all, whole, List.flatMap_cons]

theorem line_append (sends later : List Sending) : line (sends ++ later) = line sends ++ line later :=
  List.flatMap_append

/-- Calls that succeed put their frames on the line. -/
theorem line_of_results {later : List Sending} (sent : ∀ s ∈ later, s.result = true) :
    line later = (later.map (·.payload)).flatMap framed ∧
      ∀ p ∈ later.map (·.payload), p.length ≤ 0xFFFF := by
  induction later with
  | nil => exact ⟨rfl, nofun⟩
  | cons s later ih =>
    obtain ⟨here, others⟩ := List.forall_mem_cons.mp sent
    obtain ⟨rest, fit⟩ := ih others
    obtain ⟨whole, small⟩ := written_of_result here
    refine ⟨?_, List.forall_mem_cons.mpr ⟨small, fit⟩⟩
    rw [List.map_cons, List.flatMap_cons, ← rest, ← whole]
    rfl

/-- If every call succeeds, exactly their payloads are received, however the line delivers them. -/
theorem received_of_results {sends : List Sending} (sent : ∀ s ∈ sends, s.result = true)
    {pieces : List Bytes} (cut : pieces.flatten = line sends) :
    received pieces = sends.map (·.payload) := by
  obtain ⟨frames, fit⟩ := line_of_results sent
  rw [received_eq, cut, frames, decoded_frames fit]

theorem intact_of_clean {sends : List Sending} (clean : ∀ s ∈ sends, s.Clean) : Intact sends := by
  intro later sent pieces cut
  obtain ⟨payloads, before, fit⟩ := line_eq clean
  obtain ⟨behind, fit'⟩ := line_of_results sent
  have alone : received [line sends] = payloads := by
    rw [received_eq, List.flatten_singleton, before, decoded_frames fit]
  rw [alone, received_eq, cut, line_append, before, behind, decoded_framed fit, decoded_frames fit']

/-! ### Failures that do not -/

/-- The beginning of a frame that is not whole. -/
theorem take_beginning {payload beginning : Bytes} (fits : payload.length ≤ 0xFFFF)
    (part : beginning <+: framed payload) (short : beginning ≠ framed payload) :
    takeSerial beginning = .more := by
  obtain ⟨more, whole⟩ := part
  have left : more ≠ [] := by
    rintro rfl
    rw [List.append_nil] at whole
    exact short whole
  cases taken : takeSerial beginning with
  | more => rfl
  | broken t e rest => exact e.elim
  | took t out rest =>
    -- it would be the whole frame, with what is missing behind it
    have grown := serialDecoder.took_append more (s := ()) taken
    have framed_take := take_framed fits []
    rw [List.append_nil, ← whole] at framed_take
    have same : (Taken.took t out (rest ++ more) : Taken Unit MeshFrame Empty) =
        .took () (some ⟨"serial", "primary", 0, 0, payload⟩) [] := grown.symm.trans framed_take
    injection same with _ _ nothing
    exact absurd (List.append_eq_nil_iff.mp nothing).2 left

/-- The beginning of a frame on the line spoils the next frame, for some payload of it. -/
theorem exists_spoiled {payload beginning : Bytes} (fits : payload.length ≤ 0xFFFF)
    (part : beginning <+: framed payload) (short : beginning ≠ framed payload)
    (some_octets : beginning ≠ []) :
    ∃ q : Bytes, q.length ≤ 0xFFFF ∧ decoded (beginning ++ framed q) ≠ [q] := by
  have unfinished := take_beginning fits part short
  cases beginning with
  | nil => exact absurd rfl some_octets
  | cons high rest =>
    cases rest with
    | nil =>
      by_cases zero : high = 0
      · -- the next length makes an empty frame with it
        subst zero
        have took : takeSerial ([0] ++ framed [0]) =
            .took () (some ⟨"serial", "primary", 0, 0, []⟩) [1, 0] := rfl
        refine ⟨[0], by decide, ?_⟩
        rw [decoded_took took]
        exact fun equal => by cases (List.cons.inj equal).1
      · have large : 256 ≤ beNat [high, 0] := by
          have positive : high.toNat ≠ 0 := fun none => zero (UInt8.toNat_inj.mp none)
          simp only [beNat, List.foldl_cons, List.foldl_nil]
          omega
        have more : takeSerial ([high] ++ framed []) = .more := by
          have octets : [high] ++ framed [] = [high, 0, 0] := rfl
          rw [octets, takeSerial, if_neg (by simp)]
          dsimp only [List.take]
          rw [if_pos (by simp only [List.length_cons, List.length_nil]; omega)]
        refine ⟨[], Nat.zero_le _, ?_⟩
        rw [decoded_more more]
        simp
    | cons low rest =>
      rw [takeSerial, if_neg (by simp)] at unfinished
      dsimp only [List.take] at unfinished
      split at unfinished
      next missing =>
        refine ⟨[], Nat.zero_le _, ?_⟩
        have octets : high :: low :: rest ++ framed [] = high :: low :: (rest ++ [0, 0]) := rfl
        by_cases enough : 2 + beNat [high, low] ≤ (high :: low :: (rest ++ [0, 0])).length
        · -- the next length is a part of the payload that was missing
          have took : takeSerial (high :: low :: (rest ++ [0, 0])) =
              .took () (some ⟨"serial", "primary", 0, 0, (rest ++ [0, 0]).take (beNat [high, low])⟩)
                ((high :: low :: (rest ++ [0, 0])).drop (2 + beNat [high, low])) := by
            rw [takeSerial, if_neg (by simp)]
            dsimp only [List.take]
            rw [if_neg (Nat.not_lt.mpr enough)]
            rfl
          rw [octets, decoded_took took]
          intro equal
          have empty := congrArg List.length (List.cons.inj equal).1
          dsimp only at empty
          simp only [List.length_take, List.length_append, List.length_cons, List.length_nil] at *
          omega
        · have more : takeSerial (high :: low :: (rest ++ [0, 0])) = .more := by
            rw [takeSerial, if_neg (by simp)]
            dsimp only [List.take]
            rw [if_pos (Nat.lt_of_not_le enough)]
          rw [octets, decoded_more more]
          simp
      · cases unfinished

/-- A failed call that has written a part of its frame. -/
theorem not_intact {sends : List Sending} (clean : ∀ s ∈ sends, s.Clean) {s : Sending}
    (spoils : ¬s.Clean) : ¬Intact (sends ++ [s]) := by
  intro intact
  obtain ⟨failed, written⟩ := Classical.not_imp.mp spoils
  obtain ⟨some_octets, short⟩ := not_or.mp written
  obtain ⟨nothing, -⟩ | ⟨fits, part, -⟩ := send_cases s
  · exact some_octets nothing
  obtain ⟨payloads, before, fit⟩ := line_eq clean
  obtain ⟨q, small, spoiled⟩ := exists_spoiled fits part short some_octets
  have on_line : line (sends ++ [s]) = payloads.flatMap framed ++ s.written := by
    rw [line_append, before]
    simp [line]
  -- the next call succeeds at once
  let next : Sending := ⟨.posix [.wrote (framed q).length], q⟩
  have writes : send next.answers next.payload = (framed q, true) := by
    have octets : ∃ octet left, framed q = octet :: left := ⟨_, _, rfl⟩
    obtain ⟨octet, left, split⟩ := octets
    dsimp only [next, send]
    rw [if_neg (Nat.not_lt.mpr small), split, writeAll, List.drop_length, List.take_length]
    simp [writeAll]
  have sent : ∀ s ∈ [next], s.result = true := by
    intro s member
    rw [List.mem_singleton.mp member, Sending.result, writes]
  have all : line (sends ++ [s] ++ [next]) = payloads.flatMap framed ++ (s.written ++ framed q) := by
    have last : line [next] = framed q := by
      simp [line, Sending.written, writes]
    rw [line_append, on_line, last, List.append_assoc]
  have reads := intact [next] sent [line (sends ++ [s] ++ [next])] List.flatten_singleton
  rw [received_eq, received_eq, List.flatten_singleton, List.flatten_singleton, all, on_line,
    decoded_framed fit, decoded_framed fit, decoded_more (take_beginning fits part short),
    List.append_nil] at reads
  exact spoiled (List.append_cancel_left reads)

theorem intact_iff_clean (sends : List Sending) :
    (∀ before, before <+: sends → Intact before) ↔ ∀ s ∈ sends, s.Clean := by
  constructor
  · intro intact
    induction sends using List.reverseRecOn with
    | nil => exact nofun
    | append_singleton sends s ih =>
      have clean := ih fun before inside => intact before (inside.trans (List.prefix_append _ _))
      intro s' member
      obtain earlier | last := List.mem_append.mp member
      · exact clean s' earlier
      · rw [List.mem_singleton.mp last]
        by_contra spoils
        exact not_intact clean spoils (intact _ (List.prefix_refl _))
  · intro clean before inside
    exact intact_of_clean fun s member => clean s (inside.subset member)

/-- Whatever the calls of `send` meet, at each point the frames of later calls that succeed are
received intact exactly when no call has met a line that took a part of its frame only. -/
theorem intact_iff (sends : List Sending) :
    (∀ before, before <+: sends → Intact before) ↔
      ∀ s ∈ sends, s.payload.length ≤ 0xFFFF →
        s.answers.accepted = 0 ∨ 2 + s.payload.length ≤ s.answers.accepted := by
  rw [intact_iff_clean]
  exact forall₂_congr fun s _ => s.clean_iff

/-- A line that takes three octets of a frame and then stays full. -/
def cutShort : Sending := ⟨.posix [.wrote 3, .full false], [104, 105]⟩

/-- The frame behind is lost. -/
theorem not_always_intact : ¬∀ sends : List Sending, Intact sends := by
  intro all
  let next : Sending := ⟨.posix [.wrote 3], [33]⟩
  have sent : ∀ s ∈ [next], s.result = true := by
    intro s member
    rw [List.mem_singleton.mp member]
    simp [next, Sending.result, send, framed, be16, beBytes, writeAll]
  have first : line [cutShort] = [0, 2, 104] := by
    simp [line, Sending.written, cutShort, send, framed, be16, beBytes, writeAll]
  have both : line [cutShort, next] = [0, 2, 104, 0, 1, 33] := by
    simp [line, Sending.written, cutShort, next, send, framed, be16, beBytes, writeAll]
  have took : takeSerial [0, 2, 104, 0, 1, 33] =
      .took () (some ⟨"serial", "primary", 0, 0, [104, 0]⟩) [1, 33] := rfl
  have reads := all [cutShort] [next] sent [line [cutShort, next]] List.flatten_singleton
  rw [received_eq, received_eq, List.flatten_singleton, List.flatten_singleton, both, first,
    decoded_took took, decoded_more rfl, decoded_more rfl] at reads
  cases (List.cons.inj reads).1

end FinBit.Mesh
