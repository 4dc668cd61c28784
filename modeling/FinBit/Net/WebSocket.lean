import Mathlib.Data.List.GetD
import FinBit.Lib.Reader
import FinBit.Lib.Streaming
import FinBit.Server.RelayServer

/-! # WebSocket frames

The frames of a WebSocket connection after its handshake. A message comes in one frame or in a data
frame and continuation frames, with control frames in between, and clients mask what they send.
`FrameParser` takes the frames off the front of what has arrived and puts messages together.
-/

namespace FinBit.Net

open FinBit.Lib

def kMaxMessageBytes : Nat := 8 * 1024 * 1024

/-- A frame without its length and its mask. -/
structure WsFrame where
  fin : Bool
  opcode : UInt8
  payload : Bytes

/-! ### Writing -/

/-- Octet by octet the key of four octets is added, again and again. -/
def applyMask (key octets : Bytes) : Bytes :=
  octets.mapIdx fun i octet => octet ^^^ key.getD (i % 4) 0

/-- The length, in one of three forms, under the mask bit. -/
def lengthBytes (maskBit : UInt8) (len : Nat) : Bytes :=
  if len < 126 then [maskBit ||| UInt8.ofNat len]
  else if len ≤ 0xFFFF then (maskBit ||| 126) :: beBytes 2 len
  else (maskBit ||| 127) :: beBytes 8 len

/-- `build_masked_frame`, with the mask that has been drawn. -/
def buildMaskedFrame (mask : Bytes) (opcode : UInt8) (payload : Bytes) : Bytes :=
  (0x80 ||| opcode) :: lengthBytes 0x80 payload.length ++ mask ++ applyMask mask payload

def buildClientBinaryFrame (mask payload : Bytes) : Bytes :=
  buildMaskedFrame mask 0x2 payload

/-- The high bit of an octet: of the last frame of a message, of a frame with a mask. -/
def highBit (bit : Bool) : UInt8 :=
  if bit then 0x80 else 0

/-- The payload behind its mask. -/
def maskedBody : Option Bytes → Bytes → Bytes
  | some key, payload => key ++ applyMask key payload
  | none, payload => payload

/-- Any frame in that layout, masked or not. -/
def encodeWsFrame (mask : Option Bytes) (f : WsFrame) : Bytes :=
  (highBit f.fin ||| f.opcode) ::
    (lengthBytes (highBit mask.isSome) f.payload.length ++ maskedBody mask f.payload)

theorem buildClientBinaryFrame_eq (mask payload : Bytes) :
    buildClientBinaryFrame mask payload = encodeWsFrame (some mask) ⟨true, 0x2, payload⟩ := by
  simp [buildClientBinaryFrame, buildMaskedFrame, encodeWsFrame, highBit, maskedBody]

theorem buildServerBinaryFrame_eq (payload : Bytes) :
    Server.buildServerBinaryFrame payload = encodeWsFrame none ⟨true, 0x2, payload⟩ := by
  unfold Server.buildServerBinaryFrame encodeWsFrame lengthBytes highBit maskedBody
  have first : (0x80 : UInt8) ||| 0x2 = 0x82 := by decide
  by_cases short : payload.length < 126
  · simp [short, first]
  by_cases medium : payload.length ≤ 0xFFFF
  · simp [short, medium, first]
  · simp [short, medium, first]

/-! ### Reading -/

/-- The length of the payload and that of the header up to the mask, once they are there. -/
def lengthField (buffer : Bytes) : Option (Nat × Nat) :=
  let len := (buffer.getD 1 0 &&& 0x7f).toNat
  if len = 126 then
    if buffer.length < 4 then none else some (beNat ((buffer.drop 2).take 2), 4)
  else if len = 127 then
    if buffer.length < 10 then none else some (beNat ((buffer.drop 2).take 8), 10)
  else some (len, 2)

def maskBytes (mask : Bool) : Nat :=
  if mask then 4 else 0

def maskKey (mask : Bool) (headerLen : Nat) (buffer : Bytes) : Bytes :=
  if mask then (buffer.drop headerLen).take 4 else [0, 0, 0, 0]

inductive Parsed
  | more
  | bad (error : String)
  | frame (f : WsFrame) (rest : Bytes)

/-- The part of `try_pop` that reads one frame. -/
def parseFrame (expectMasked : Bool) (buffer : Bytes) : Parsed :=
  if buffer.length < 2 then .more
  else
    let b0 := buffer.getD 0 0
    let mask : Bool := buffer.getD 1 0 &&& 0x80 ≠ 0
    if expectMasked = true ∧ mask = false then .bad "client frame missing mask"
    else
      match lengthField buffer with
      | none => .more
      | some (payloadLen, headerLen) =>
        if payloadLen > kMaxMessageBytes then .bad "frame payload too large"
        else
          let bodyOff := headerLen + maskBytes mask
          if buffer.length < bodyOff + payloadLen then .more
          else
            .frame ⟨b0 &&& 0x80 ≠ 0, b0 &&& 0x0f,
                applyMask (maskKey mask headerLen buffer) ((buffer.drop bodyOff).take payloadLen)⟩
              (buffer.drop (bodyOff + payloadLen))

/-! ### Frames that are read whole -/

theorem lengthField_append {buffer : Bytes} {field : Nat × Nat} (later : Bytes)
    (header : 2 ≤ buffer.length) (found : lengthField buffer = some field) :
    lengthField (buffer ++ later) = some field := by
  have second : (buffer ++ later).getD 1 0 = buffer.getD 1 0 := by
    rw [List.getD_append _ _ _ _ (by omega)]
  unfold lengthField at found ⊢
  dsimp only at found ⊢
  rw [second]
  split at found
  next two =>
    rw [if_pos two]
    split at found
    · cases found
    next there =>
      rw [if_neg (by rw [List.length_append]; omega), List.drop_append_of_le_length header,
        List.take_append_of_le_length (by rw [List.length_drop]; omega)]
      exact found
  next two =>
    rw [if_neg two]
    split at found
    next eight =>
      rw [if_pos eight]
      split at found
      · cases found
      next there =>
        rw [if_neg (by rw [List.length_append]; omega), List.drop_append_of_le_length header,
          List.take_append_of_le_length (by rw [List.length_drop]; omega)]
        exact found
    next eight =>
      rw [if_neg eight]
      exact found

/-- The header is at least two octets and there. -/
theorem lengthField_le {buffer : Bytes} {payloadLen headerLen : Nat} (header : 2 ≤ buffer.length)
    (found : lengthField buffer = some (payloadLen, headerLen)) :
    2 ≤ headerLen ∧ headerLen ≤ buffer.length := by
  unfold lengthField at found
  dsimp only at found
  split at found
  · split at found
    · cases found
    · cases found
      omega
  split at found
  · split at found
    · cases found
    · cases found
      omega
  · cases found
    omega

theorem maskKey_append {mask : Bool} {headerLen : Nat} {buffer : Bytes} (later : Bytes)
    (there : headerLen + maskBytes mask ≤ buffer.length) :
    maskKey mask headerLen (buffer ++ later) = maskKey mask headerLen buffer := by
  cases mask with
  | false => rfl
  | true =>
    have four : headerLen + 4 ≤ buffer.length := there
    simp only [maskKey, if_true]
    rw [List.drop_append_of_le_length (by omega),
      List.take_append_of_le_length (by rw [List.length_drop]; omega)]

/-- Octets behind a frame, or behind an error, make no difference. -/
theorem parseFrame_append {expectMasked : Bool} {buffer : Bytes} (later : Bytes)
    (whole : parseFrame expectMasked buffer ≠ .more) :
    parseFrame expectMasked (buffer ++ later) =
      match parseFrame expectMasked buffer with
      | .frame f rest => .frame f (rest ++ later)
      | parsed => parsed := by
  unfold parseFrame at whole ⊢
  by_cases short : buffer.length < 2
  · exact absurd (if_pos short) whole
  have header : 2 ≤ buffer.length := Nat.le_of_not_lt short
  have first : (buffer ++ later).getD 0 0 = buffer.getD 0 0 := List.getD_append _ _ _ _ (by omega)
  have second : (buffer ++ later).getD 1 0 = buffer.getD 1 0 := List.getD_append _ _ _ _ (by omega)
  rw [if_neg short] at whole ⊢
  rw [if_neg (by rw [List.length_append]; omega), first, second]
  dsimp only at whole ⊢
  split
  · rfl
  next directed =>
  rw [if_neg directed] at whole
  cases found : lengthField buffer with
  | none =>
    rw [found] at whole
    exact absurd rfl whole
  | some field =>
    obtain ⟨payloadLen, headerLen⟩ := field
    obtain ⟨-, inside⟩ := lengthField_le header found
    rw [found] at whole
    rw [lengthField_append later header found]
    dsimp only at whole ⊢
    split
    · rfl
    next fits =>
    rw [if_neg fits] at whole
    by_cases missing : buffer.length <
        headerLen + maskBytes (decide (buffer.getD 1 0 &&& 0x80 ≠ 0)) + payloadLen
    · exact absurd (if_pos missing) whole
    have enough := Nat.le_of_not_lt missing
    rw [if_neg missing, if_neg (by rw [List.length_append]; omega),
      maskKey_append later (by omega), List.drop_append_of_le_length (by omega),
      List.drop_append_of_le_length enough,
      List.take_append_of_le_length (by rw [List.length_drop]; omega)]

theorem parseFrame_lt {expectMasked : Bool} {buffer rest : Bytes} {f : WsFrame}
    (parsed : parseFrame expectMasked buffer = .frame f rest) : rest.length < buffer.length := by
  unfold parseFrame at parsed
  split at parsed
  · cases parsed
  next short =>
  dsimp only at parsed
  split at parsed
  · cases parsed
  cases found : lengthField buffer with
  | none =>
    rw [found] at parsed
    cases parsed
  | some field =>
    obtain ⟨payloadLen, headerLen⟩ := field
    obtain ⟨two, inside⟩ := lengthField_le (Nat.le_of_not_lt short) found
    rw [found] at parsed
    dsimp only at parsed
    split at parsed
    · cases parsed
    split at parsed
    · cases parsed
    · cases parsed
      rw [List.length_drop]
      omega

/-! ### Frames that have been written -/

@[simp]
theorem length_applyMask (key octets : Bytes) : (applyMask key octets).length = octets.length :=
  List.length_mapIdx

/-- To mask twice is not to mask. -/
theorem applyMask_applyMask (key octets : Bytes) : applyMask key (applyMask key octets) = octets := by
  unfold applyMask
  rw [List.mapIdx_mapIdx]
  refine List.ext_getElem (by simp) fun i _ _ => ?_
  rw [List.getElem_mapIdx, Function.comp_apply, UInt8.xor_assoc, UInt8.xor_self, UInt8.xor_zero]

theorem applyMask_zero (octets : Bytes) : applyMask [0, 0, 0, 0] octets = octets := by
  refine List.ext_getElem (by simp) fun i _ _ => ?_
  have none : ([0, 0, 0, 0] : Bytes).getD (i % 4) 0 = 0 := by
    have cases : i % 4 = 0 ∨ i % 4 = 1 ∨ i % 4 = 2 ∨ i % 4 = 3 := by omega
    obtain h | h | h | h := cases <;> rw [h] <;> rfl
  simp only [applyMask, List.getElem_mapIdx, none, UInt8.xor_zero]

/-- The octet of a length below 128 under a mask bit. -/
theorem highBit_or {masked : Bool} {n : Nat} (small : n < 128) :
    ((highBit masked ||| UInt8.ofNat n) &&& 0x7f).toNat = n ∧
      (decide ((highBit masked ||| UInt8.ofNat n) &&& 0x80 ≠ 0)) = masked := by
  have all : ∀ masked : Bool, ∀ n : Fin 128,
      ((highBit masked ||| UInt8.ofNat n) &&& 0x7f).toNat = n ∧
        (decide ((highBit masked ||| UInt8.ofNat n) &&& 0x80 ≠ 0)) = masked := by decide
  exact all masked ⟨n, small⟩

/-- The first octet of a length. -/
theorem lengthBytes_first (bit : UInt8) (len : Nat) : ∃ n tail, n < 128 ∧
    lengthBytes bit len = (bit ||| UInt8.ofNat n) :: tail := by
  unfold lengthBytes
  split
  next short => exact ⟨len, [], by omega, rfl⟩
  split
  · exact ⟨126, _, by decide, rfl⟩
  · exact ⟨127, _, by decide, rfl⟩

/-- The length is read back. -/
theorem lengthField_lengthBytes (b0 : UInt8) (masked : Bool) {len : Nat}
    (fits : len ≤ kMaxMessageBytes) (tail : Bytes) :
    lengthField (b0 :: (lengthBytes (highBit masked) len ++ tail)) =
      some (len, 1 + (lengthBytes (highBit masked) len).length) := by
  unfold kMaxMessageBytes at fits
  unfold lengthBytes lengthField
  dsimp only
  split
  next short =>
    have octet : ((highBit masked ||| UInt8.ofNat len) &&& 0x7f).toNat = len :=
      (highBit_or (by omega)).1
    simp only [List.cons_append, List.getD_cons_succ, List.getD_cons_zero, octet]
    rw [if_neg (by omega), if_neg (by omega)]
    rfl
  split
  next medium =>
    have octet : ((highBit masked ||| 126) &&& 0x7f).toNat = 126 := (highBit_or (by decide)).1
    have taken : (beBytes 2 len ++ tail).take 2 = beBytes 2 len := List.take_left' (length_beBytes 2 _)
    simp only [List.cons_append, List.getD_cons_succ, List.getD_cons_zero]
    rw [octet, if_pos rfl, if_neg (by simp)]
    simp only [List.drop_succ_cons, List.drop_zero, taken, beNat_beBytes, List.length_cons,
      length_beBytes]
    rw [Nat.mod_eq_of_lt (by omega)]
  next long =>
    have octet : ((highBit masked ||| 127) &&& 0x7f).toNat = 127 := (highBit_or (by decide)).1
    have taken : (beBytes 8 len ++ tail).take 8 = beBytes 8 len := List.take_left' (length_beBytes 8 _)
    simp only [List.cons_append, List.getD_cons_succ, List.getD_cons_zero]
    rw [octet, if_neg (by decide), if_pos rfl, if_neg (by simp)]
    simp only [List.drop_succ_cons, List.drop_zero, taken, beNat_beBytes, List.length_cons,
      length_beBytes]
    rw [Nat.mod_eq_of_lt (by omega)]

/-- The first octet of a frame. -/
theorem highBit_or_opcode (fin : Bool) {opcode : UInt8} (nibble : opcode.toNat < 16) :
    (decide ((highBit fin ||| opcode) &&& 0x80 ≠ 0)) = fin ∧
      (highBit fin ||| opcode) &&& 0x0f = opcode := by
  have all : ∀ fin : Bool, ∀ n : Fin 16,
      (decide ((highBit fin ||| UInt8.ofNat n) &&& 0x80 ≠ 0)) = fin ∧
        (highBit fin ||| UInt8.ofNat n) &&& 0x0f = UInt8.ofNat n := by decide
  have here := all fin ⟨opcode.toNat, nibble⟩
  rwa [UInt8.ofNat_toNat] at here

theorem length_maskedBody {mask : Option Bytes} (sized : ∀ key, mask = some key → key.length = 4)
    (payload : Bytes) :
    (maskedBody mask payload).length = maskBytes mask.isSome + payload.length := by
  cases mask with
  | none => simp [maskedBody, maskBytes]
  | some key => simp [maskedBody, maskBytes, sized key rfl]

/-- What is read of a buffer with a whole frame in front. -/
theorem parseFrame_whole {expectMasked mask : Bool} {buffer : Bytes} {payloadLen headerLen : Nat}
    (two : 2 ≤ buffer.length) (bit : decide (buffer.getD 1 0 &&& 0x80 ≠ 0) = mask)
    (directed : expectMasked = true → mask = true)
    (header : lengthField buffer = some (payloadLen, headerLen))
    (fits : payloadLen ≤ kMaxMessageBytes)
    (enough : headerLen + maskBytes mask + payloadLen ≤ buffer.length) :
    parseFrame expectMasked buffer =
      .frame ⟨buffer.getD 0 0 &&& 0x80 ≠ 0, buffer.getD 0 0 &&& 0x0f,
          applyMask (maskKey mask headerLen buffer)
            ((buffer.drop (headerLen + maskBytes mask)).take payloadLen)⟩
        (buffer.drop (headerLen + maskBytes mask + payloadLen)) := by
  have right_way : ¬(expectMasked = true ∧ mask = false) := by
    rintro ⟨expected, unmasked⟩
    exact Bool.noConfusion ((directed expected).symm.trans unmasked)
  unfold parseFrame
  dsimp only
  rw [if_neg (Nat.not_lt.mpr two), bit, if_neg right_way, header]
  dsimp only
  rw [if_neg (Nat.not_lt.mpr fits), if_neg (Nat.not_lt.mpr enough)]

/-- The payload behind its mask, and the octets behind the payload. -/
theorem unmasked_body {mask : Option Bytes} (sized : ∀ key, mask = some key → key.length = 4)
    {buffer payload rest : Bytes} {headerLen : Nat}
    (behind : buffer.drop headerLen = maskedBody mask payload ++ rest) :
    applyMask (maskKey mask.isSome headerLen buffer)
        ((buffer.drop (headerLen + maskBytes mask.isSome)).take payload.length) = payload ∧
      buffer.drop (headerLen + maskBytes mask.isSome + payload.length) = rest := by
  rw [Nat.add_assoc, ← List.drop_drop, ← List.drop_drop, behind]
  cases mask with
  | none =>
    simp [maskedBody, maskBytes, maskKey, applyMask_zero]
  | some key =>
    have four : key.length = 4 := sized key rfl
    have key_read : maskKey true headerLen buffer = key := by
      simp only [maskKey, if_true]
      rw [behind, maskedBody, List.append_assoc, List.take_left' four]
    have body : (maskedBody (some key) payload ++ rest).drop 4 = applyMask key payload ++ rest := by
      rw [maskedBody, List.append_assoc, List.drop_left' four]
    simp only [Option.isSome_some, maskBytes, if_true, key_read, body, ← List.drop_drop]
    rw [List.take_left' (length_applyMask key payload), applyMask_applyMask,
      List.drop_left' (length_applyMask key payload)]
    exact ⟨rfl, rfl⟩

/-- A frame that has been written is read, whatever follows it. -/
theorem parseFrame_encode {expectMasked : Bool} {mask : Option Bytes}
    (sized : ∀ key, mask = some key → key.length = 4)
    (directed : expectMasked = true → mask.isSome = true) {f : WsFrame}
    (nibble : f.opcode.toNat < 16) (fits : f.payload.length ≤ kMaxMessageBytes) (rest : Bytes) :
    parseFrame expectMasked (encodeWsFrame mask f ++ rest) = .frame f rest := by
  obtain ⟨fin, opcode, payload⟩ := f
  obtain ⟨n, tail, small, first⟩ := lengthBytes_first (highBit mask.isSome) payload.length
  have header := lengthField_lengthBytes (highBit fin ||| opcode) mask.isSome fits
    (maskedBody mask payload ++ rest)
  have written : encodeWsFrame mask ⟨fin, opcode, payload⟩ ++ rest =
      (highBit fin ||| opcode) :: (lengthBytes (highBit mask.isSome) payload.length ++
        (maskedBody mask payload ++ rest)) := by
    simp [encodeWsFrame]
  rw [← written] at header
  generalize encodeWsFrame mask ⟨fin, opcode, payload⟩ ++ rest = buffer at written header ⊢
  have two : 2 ≤ buffer.length := by
    rw [written, first]
    simp
  have second : decide (buffer.getD 1 0 &&& 0x80 ≠ 0) = mask.isSome := by
    rw [written, first]
    exact (highBit_or small).2
  have enough : 1 + (lengthBytes (highBit mask.isSome) payload.length).length +
      maskBytes mask.isSome + payload.length ≤ buffer.length := by
    rw [written, List.length_cons, List.length_append, List.length_append,
      length_maskedBody sized]
    omega
  have behind : buffer.drop (1 + (lengthBytes (highBit mask.isSome) payload.length).length) =
      maskedBody mask payload ++ rest := by
    rw [written, Nat.add_comm, List.drop_succ_cons, List.drop_left]
  have zeroth : buffer.getD 0 0 = highBit fin ||| opcode := by
    rw [written]
    rfl
  obtain ⟨bit, octet⟩ := highBit_or_opcode fin nibble
  obtain ⟨body, left⟩ := unmasked_body sized behind
  rw [parseFrame_whole two second directed header fits enough, body, left, zeroth, octet]
  exact congrArg (fun fin => Parsed.frame ⟨fin, opcode, payload⟩ rest) bit

end FinBit.Net
