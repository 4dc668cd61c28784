import FinBit.Lib.Reader
import FinBit.Lib.Streaming

/-! # Length-prefixed frames

Frames on a TCP connection stand behind their length in four octets. `FrameDecoder` gets them back
from a byte stream that arrives in arbitrary pieces. A length above the limit breaks it.
-/

namespace FinBit.Net

open FinBit.Lib

def kMaxFrameBytes : Nat := 8 * 1024 * 1024

/-- `encode_frame`; the length is cast to 32 bits. -/
def encodeFrame (payload : Bytes) : Bytes :=
  beBytes 4 payload.length ++ payload

/-- What `try_pop` makes of the buffer. -/
def takeFrame (buffer : Bytes) : Taken Unit Bytes String :=
  if buffer.length < 4 then .more
  else
    let len := beNat (buffer.take 4)
    if len > kMaxFrameBytes then .broken () "frame exceeds kMaxFrameBytes" buffer
    else if buffer.length < 4 + len then .more
    else .took () (some ((buffer.drop 4).take len)) (buffer.drop (4 + len))

theorem takeFrame_append {buffer : Bytes} (later : Bytes) (whole : takeFrame buffer ≠ .more) :
    takeFrame (buffer ++ later) =
      match takeFrame buffer with
      | .more => .more
      | .took s out rest => .took s out (rest ++ later)
      | .broken s e rest => .broken s e (rest ++ later) := by
  unfold takeFrame at whole ⊢
  dsimp only at whole ⊢
  by_cases short : buffer.length < 4
  · exact absurd (if_pos short) whole
  rw [if_neg short] at whole ⊢
  have prefix_len : (buffer ++ later).take 4 = buffer.take 4 :=
    List.take_append_of_le_length (Nat.le_of_not_lt short)
  have longer : ¬(buffer ++ later).length < 4 := by
    rw [List.length_append]
    omega
  rw [if_neg longer, prefix_len]
  split
  · rfl
  next fits =>
  rw [if_neg fits] at whole
  by_cases missing : buffer.length < 4 + beNat (buffer.take 4)
  · exact absurd (if_pos missing) whole
  have complete : 4 + beNat (buffer.take 4) ≤ buffer.length := Nat.le_of_not_lt missing
  rw [if_neg missing, if_neg (by rw [List.length_append]; omega),
    List.drop_append_of_le_length (by omega), List.drop_append_of_le_length complete,
    List.take_append_of_le_length (by rw [List.length_drop]; omega)]

/-- `FrameDecoder`, which has no state besides its buffer and its error. -/
def frameDecoder : StreamDecoder Unit Bytes String where
  take _ := takeFrame
  take_lt := by
    intro s t out buffer rest taken
    unfold takeFrame at taken
    dsimp only at taken
    split at taken
    · cases taken
    split at taken
    · cases taken
    split at taken
    · cases taken
    · cases taken
      rw [List.length_drop]
      omega
  took_append := by
    intro s t out buffer rest later taken
    rw [takeFrame_append later (by rw [taken]; nofun), taken]
  broken_append := by
    intro s t e buffer rest later taken
    rw [takeFrame_append later (by rw [taken]; nofun), taken]

abbrev FrameDecoder := Incoming Unit String

namespace FrameDecoder

def new : FrameDecoder := .fresh ()

/-- `FrameDecoder::try_pop`. -/
def tryPop (d : FrameDecoder) : FrameDecoder × Popped Bytes String :=
  match d.error with
  | some e => (d, .error e)
  | none =>
    if d.buffer.length < 4 then (d, .needMore)
    else
      let len := beNat (d.buffer.take 4)
      if len > kMaxFrameBytes then
        ({ d with error := some "frame exceeds kMaxFrameBytes" },
          .error "frame exceeds kMaxFrameBytes")
      else if d.buffer.length < 4 + len then (d, .needMore)
      else
        ({ d with buffer := d.buffer.drop (4 + len) }, .ready ((d.buffer.drop 4).take len))

theorem tryPop_eq (d : FrameDecoder) : d.tryPop = d.pop frameDecoder := by
  unfold tryPop
  cases sound : d.error with
  | some e => rw [Incoming.pop_broken sound]
  | none =>
    dsimp only
    have take : frameDecoder.take d.state d.buffer = takeFrame d.buffer := rfl
    unfold takeFrame at take
    dsimp only at take
    split at take
    next short => rw [if_pos short, Incoming.pop_more sound take]
    next long =>
    rw [if_neg long]
    split at take
    next oversized => rw [if_pos oversized, Incoming.pop_breaks sound take]
    next fits =>
    rw [if_neg fits]
    split at take
    next missing => rw [if_pos missing, Incoming.pop_more sound take]
    next whole =>
      rw [if_neg whole, Incoming.pop_ready sound take, ← sound]

theorem idle : new.drain frameDecoder = (new, []) :=
  Incoming.drain_more rfl rfl

/-- A frame is read back, whatever follows it. -/
theorem take_encodeFrame {payload : Bytes} (fits : payload.length ≤ kMaxFrameBytes) (rest : Bytes) :
    takeFrame (encodeFrame payload ++ rest) = .took () (some payload) rest := by
  have small : payload.length < 256 ^ 4 := by
    unfold kMaxFrameBytes at fits
    omega
  have header : (encodeFrame payload ++ rest).take 4 = beBytes 4 payload.length := by
    rw [encodeFrame, List.append_assoc]
    exact List.take_left' (length_beBytes 4 _)
  have body : (encodeFrame payload ++ rest).drop 4 = payload ++ rest := by
    rw [encodeFrame, List.append_assoc]
    exact List.drop_left' (length_beBytes 4 _)
  have size : (encodeFrame payload ++ rest).length = 4 + payload.length + rest.length := by
    simp [encodeFrame, Nat.add_assoc]
  have len : beNat ((encodeFrame payload ++ rest).take 4) = payload.length := by
    rw [header, beNat_beBytes, Nat.mod_eq_of_lt small]
  unfold takeFrame
  dsimp only
  rw [len, if_neg (by omega), if_neg (by omega), if_neg (by omega), body,
    ← List.drop_drop, body, List.take_left, List.drop_left]

theorem takes_encodeFrame {payloads : List Bytes} (fit : ∀ p ∈ payloads, p.length ≤ kMaxFrameBytes) :
    Incoming.Takes frameDecoder encodeFrame () payloads payloads () := by
  induction payloads with
  | nil => exact .nil ()
  | cons payload rest ih =>
    obtain ⟨first, others⟩ := List.forall_mem_cons.mp fit
    have taken : Incoming.Takes frameDecoder encodeFrame () (payload :: rest)
        ((some payload).toList ++ rest) () := .cons (take_encodeFrame first) (ih others)
    exact taken

/-- Frames within the limit come out as they went in, however their octets are cut. Of any octets
at all, what comes out and the error at the end do not depend on the cut. -/
theorem frames_of_any_cut :
    (∀ payloads : List Bytes, (∀ p ∈ payloads, p.length ≤ kMaxFrameBytes) →
      ∀ pieces : List Bytes, pieces.flatten = payloads.flatMap encodeFrame →
        (new.receive frameDecoder pieces).2 = payloads ∧
          (new.receive frameDecoder pieces).1.error = none) ∧
    ∀ pieces pieces' : List Bytes, pieces.flatten = pieces'.flatten →
      (new.receive frameDecoder pieces).2 = (new.receive frameDecoder pieces').2 ∧
        (new.receive frameDecoder pieces).1.error = (new.receive frameDecoder pieces').1.error := by
  refine ⟨fun payloads fit pieces cut => ?_, fun pieces pieces' same => Incoming.receive_eq idle same⟩
  obtain ⟨alike, outs⟩ := Incoming.receive_flatten idle pieces
  have all := (takes_encodeFrame fit).drain []
  rw [List.append_nil] at all
  have fed : new.feed pieces.flatten = ⟨(), payloads.flatMap encodeFrame, none⟩ := by
    rw [cut]
    rfl
  have last : Incoming.drain frameDecoder ⟨(), [], none⟩ = (new, []) := idle
  rw [fed, all, last] at alike outs
  exact ⟨by rw [outs, List.append_nil], alike.error⟩

/-- A frame that is cut inside its length and inside its payload. -/
theorem frames_of_any_cut_inside :
    (new.receive frameDecoder [[0, 0], [0, 2, 104], [], [105]]).2 = [[104, 105]] :=
  (frames_of_any_cut.1 [[104, 105]] (by decide) [[0, 0], [0, 2, 104], [], [105]] (by decide)).1

end FrameDecoder

end FinBit.Net
