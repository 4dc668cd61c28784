import FinBit.Lib.Reader
import FinBit.Lib.Utf8
import FinBit.Store.SqliteStore

/-! # Attachment frames

An attachment is kept in the column of the message text: a magic that starts with NUL, the mime type
and the file name behind their lengths of two octets, and the content. What is read from the column
is an attachment if it parses as a frame, and a text otherwise.
-/

namespace FinBit.Desktop

open FinBit.Lib FinBit.Store

/-! ### Frames -/

/-- `kMagic`. -/
def attachmentMagic : Bytes :=
  [0] ++ ascii "FBAT1" ++ [0]

/-- `frame_attachment`. -/
def frameAttachment (mime filename content : Bytes) : Bytes :=
  let mime := mime.take 0xFFFF
  let filename := filename.take 0xFFFF
  attachmentMagic ++ be16 mime.length ++ mime ++ be16 filename.length ++ filename ++ content

structure AttachmentFrame where
  mime : Bytes
  filename : Bytes
  content : Bytes
  deriving DecidableEq

/-- `is_framed_attachment`. -/
def isFramedAttachment (blob : Bytes) : Bool :=
  attachmentMagic.isPrefixOf blob

/-- `get_u16`, at an offset. -/
def getU16 (blob : Bytes) (off : Nat) : Nat :=
  (blob.getD off 0).toNat <<< 8 ||| (blob.getD (off + 1) 0).toNat

/-- A length and the octets that it counts, with the offset behind them. -/
def lengthPrefixed (blob : Bytes) (off : Nat) : Option (Bytes × Nat) :=
  if ¬off + 2 ≤ blob.length then none
  else
    let len := getU16 blob off
    let off := off + 2
    if ¬off + len ≤ blob.length then none
    else some ((blob.drop off).take len, off + len)

/-- `parse_attachment_frame`. -/
def parseAttachmentFrame (blob : Bytes) : Option AttachmentFrame :=
  if ¬isFramedAttachment blob then none
  else do
    let (mime, off) ← lengthPrefixed blob attachmentMagic.length
    let (filename, off) ← lengthPrefixed blob off
    return { mime := mime, filename := filename, content := blob.drop off }

/-! ### Parsing what was framed -/

theorem frameAttachment_of_short {mime filename content : Bytes} (mime_short : mime.length ≤ 65535)
    (filename_short : filename.length ≤ 65535) : frameAttachment mime filename content =
      attachmentMagic ++ (be16 mime.length ++ (mime ++ (be16 filename.length ++
        (filename ++ content)))) := by
  simp only [frameAttachment, List.take_of_length_le mime_short,
    List.take_of_length_le filename_short, List.append_assoc]

theorem getU16_eq {blob rest : Bytes} {off : Nat} {high low : UInt8}
    (found : blob.drop off = high :: low :: rest) :
    getU16 blob off = 256 * high.toNat + low.toNat := by
  have first : blob[off]? = some high := by
    rw [← Nat.add_zero off, ← List.getElem?_drop, found]
    rfl
  have second : blob[off + 1]? = some low := by
    rw [← List.getElem?_drop, found]
    rfl
  rw [getU16, List.getD_eq_getElem?_getD, List.getD_eq_getElem?_getD, first, second,
    Option.getD_some, Option.getD_some, shiftLeft_or low.toNat_lt, Nat.mul_comm]
  rfl

/-- What is read are two octets of length and as many octets behind them. -/
theorem spelled_of_lengthPrefixed {blob field : Bytes} {off off' : Nat}
    (parsed : lengthPrefixed blob off = some (field, off')) :
    blob.drop off = be16 field.length ++ (field ++ blob.drop off') ∧ field.length < 65536 ∧
      off' = off + 2 + field.length := by
  unfold lengthPrefixed at parsed
  split at parsed
  · cases parsed
  next present =>
    dsimp only at parsed
    split at parsed
    · cases parsed
    next covered =>
      obtain ⟨high, low, rest, found⟩ : ∃ high low rest, blob.drop off = high :: low :: rest := by
        have enough : 2 ≤ (blob.drop off).length := by
          rw [List.length_drop]
          omega
        match blob.drop off, enough with
        | high :: low :: rest, _ => exact ⟨high, low, rest, rfl⟩
      have behind : blob.drop (off + 2) = rest := by
        rw [← List.drop_drop, found]
        rfl
      have number := getU16_eq found
      have small := low.toNat_lt
      have small' := high.toNat_lt
      rw [Option.some.injEq, Prod.mk.injEq] at parsed
      obtain ⟨rfl, rfl⟩ := parsed
      have counted : ((blob.drop (off + 2)).take (getU16 blob off)).length = getU16 blob off := by
        rw [List.length_take, List.length_drop]
        omega
      refine ⟨?_, by omega, by omega⟩
      have whole := List.take_append_drop (getU16 blob off) (blob.drop (off + 2))
      rw [List.drop_drop] at whole
      rw [counted, be16_eq number, found, whole, behind]
      rfl

theorem lengthPrefixed_spelled {blob field : Bytes} {off : Nat} (small : field.length < 65536)
    (found : blob.drop off =
      be16 field.length ++ (field ++ blob.drop (off + 2 + field.length))) :
    lengthPrefixed blob off = some (field, off + 2 + field.length) := by
  obtain ⟨high, low, written, spelled⟩ := be16_spells small
  rw [written] at found
  have number := getU16_eq found
  have long := congrArg List.length found
  rw [List.length_drop, List.length_append, List.length_append, List.length_cons,
    List.length_singleton] at long
  have behind : blob.drop (off + 2) = field ++ blob.drop (off + 2 + field.length) := by
    conv_lhs => rw [← List.drop_drop, found]
    rfl
  unfold lengthPrefixed
  rw [if_neg (by omega), if_neg (by omega), number, ← spelled, behind, List.take_left]

/-- What the parser accepts, written out. -/
theorem parseAttachmentFrame_eq_some_iff {blob : Bytes} {frame : AttachmentFrame} :
    parseAttachmentFrame blob = some frame ↔
      blob = attachmentMagic ++ (be16 frame.mime.length ++ (frame.mime ++
          (be16 frame.filename.length ++ (frame.filename ++ frame.content)))) ∧
        frame.mime.length < 65536 ∧ frame.filename.length < 65536 := by
  unfold parseAttachmentFrame isFramedAttachment
  constructor
  · intro parsed
    split at parsed
    · cases parsed
    next framed =>
      obtain ⟨behind, rfl⟩ := List.isPrefixOf_iff_prefix.mp (Decidable.not_not.mp framed)
      obtain ⟨⟨mime, off⟩, first, parsed⟩ := Option.bind_eq_some_iff.mp parsed
      obtain ⟨⟨filename, off'⟩, second, parsed⟩ := Option.bind_eq_some_iff.mp parsed
      obtain ⟨mime_found, mime_short, rfl⟩ := spelled_of_lengthPrefixed first
      obtain ⟨filename_found, filename_short, rfl⟩ := spelled_of_lengthPrefixed second
      cases parsed
      rw [List.drop_left] at mime_found
      refine ⟨?_, mime_short, filename_short⟩
      rw [← filename_found, ← mime_found]
  · rintro ⟨rfl, mime_short, filename_short⟩
    generalize bytes : attachmentMagic ++ (be16 frame.mime.length ++ (frame.mime ++
      (be16 frame.filename.length ++ (frame.filename ++ frame.content)))) = blob
    have framed : attachmentMagic.isPrefixOf blob = true :=
      List.isPrefixOf_iff_prefix.mpr ⟨_, bytes⟩
    have behind_magic : blob.drop attachmentMagic.length = be16 frame.mime.length ++ (frame.mime ++
        (be16 frame.filename.length ++ (frame.filename ++ frame.content))) := by
      rw [← bytes, List.drop_left]
    have behind_mime : blob.drop (attachmentMagic.length + 2 + frame.mime.length) =
        be16 frame.filename.length ++ (frame.filename ++ frame.content) := by
      rw [← List.drop_drop, ← List.drop_drop, behind_magic, List.drop_left' (length_be16 _),
        List.drop_left]
    have behind_filename : blob.drop (attachmentMagic.length + 2 + frame.mime.length + 2 +
        frame.filename.length) = frame.content := by
      rw [← List.drop_drop, ← List.drop_drop, behind_mime, List.drop_left' (length_be16 _),
        List.drop_left]
    have first := lengthPrefixed_spelled mime_short (behind_mime.symm ▸ behind_magic)
    have second := lengthPrefixed_spelled filename_short (behind_filename.symm ▸ behind_mime)
    simp only [framed, not_true_eq_false, ↓reduceIte, first, second, Option.bind_eq_bind,
      Option.bind_some, behind_filename, Option.pure_def]

/-- A frame is read back, and what is read is the frame of what was returned. -/
theorem attachment_frames_exact :
    (∀ mime filename content : Bytes, mime.length ≤ 65535 → filename.length ≤ 65535 →
      parseAttachmentFrame (frameAttachment mime filename content) =
        some ⟨mime, filename, content⟩) ∧
      ∀ blob frame, parseAttachmentFrame blob = some frame →
        blob = frameAttachment frame.mime frame.filename frame.content := by
  constructor
  · intro mime filename content mime_short filename_short
    rw [frameAttachment_of_short mime_short filename_short]
    exact parseAttachmentFrame_eq_some_iff.mpr
      ⟨rfl, Nat.lt_succ_of_le mime_short, Nat.lt_succ_of_le filename_short⟩
  · intro blob frame parsed
    obtain ⟨spelled, mime_short, filename_short⟩ := parseAttachmentFrame_eq_some_iff.mp parsed
    rw [frameAttachment_of_short (Nat.le_of_lt_succ mime_short) (Nat.le_of_lt_succ filename_short)]
    exact spelled

theorem attachment_frames_exact_picture :
    parseAttachmentFrame (frameAttachment (ascii "image/png") (ascii "cat.png") [137, 80, 0]) =
        some ⟨ascii "image/png", ascii "cat.png", [137, 80, 0]⟩ ∧
      attachmentMagic ++ [0, 0, 0, 0, 7] = frameAttachment [] [] [7] :=
  ⟨attachment_frames_exact.1 (ascii "image/png") (ascii "cat.png") [137, 80, 0] (by decide)
      (by decide),
    attachment_frames_exact.2 (attachmentMagic ++ [0, 0, 0, 0, 7]) ⟨[], [], [7]⟩ (by decide)⟩

/-! ### Showing a message -/

/-- What the window is told of a channel message. -/
inductive ChannelSignal where
  | imageReceived (channel senderFp content mime filename : Bytes)
  | messageReceived (channel senderFp text : Bytes)
  deriving DecidableEq

/-- `dispatch_envelope`, once the message of a channel has been opened. -/
def channelReceived (chanName senderFp plaintext : Bytes) : ChannelSignal :=
  match parseAttachmentFrame plaintext with
  | some frame => .imageReceived chanName senderFp frame.content frame.mime frame.filename
  | none => .messageReceived chanName senderFp plaintext

structure ChannelHistoryEntry where
  senderFingerprint : Bytes := []
  isSelf : Bool := false
  text : Bytes := []
  timestampMs : Int64 := 0
  imageBytes : Bytes := []
  imageMime : Bytes := []

structure HistoryEntry where
  outgoing : Bool
  peerFingerprint : Bytes := []
  peerUsername : Bytes := []
  text : Bytes := []
  timestampMs : Int64 := 0
  imageBytes : Bytes := []
  imageMime : Bytes := []

section

variable (fingerprint : Bytes → Bytes)

/-- An entry of `load_recent_channel_history`. -/
def channelHistoryEntry (identity : Option Bytes) (row : SqliteStore.ChannelInboxRow) :
    ChannelHistoryEntry :=
  let e : ChannelHistoryEntry :=
    match parseAttachmentFrame row.plaintext with
    | some frame => { imageBytes := frame.content, imageMime := frame.mime }
    | none => { text := row.plaintext }
  let e := { e with timestampMs := row.timestampMs.toInt64 }
  if row.senderPub.length = 32 then
    { e with
      senderFingerprint := fingerprint row.senderPub
      isSelf := identity = some row.senderPub }
  else e

/-- `build` of `load_recent_history`; the store resolves the name of a peer. -/
def historyEntry (peerName : Bytes → Option Bytes) (row : SqliteStore.MessageRow) (outgoing : Bool) :
    HistoryEntry :=
  let e : HistoryEntry :=
    match parseAttachmentFrame row.plaintext with
    | some frame =>
      { outgoing := outgoing, imageBytes := frame.content, imageMime := frame.mime }
    | none => { outgoing := outgoing, text := row.plaintext }
  let e := { e with timestampMs := row.timestampMs.toInt64 }
  if row.peerPub.length = 32 then
    { e with
      peerFingerprint := fingerprint row.peerPub
      peerUsername := (peerName row.peerPub).getD [] }
  else e

end

/-- What one side has sent as a text is a text for the other, when it arrives and in the histories. -/
def ShownAsText (text : Bytes) : Prop :=
  (∀ chanName senderFp, channelReceived chanName senderFp text =
    .messageReceived chanName senderFp text) ∧
  (∀ fingerprint identity row, row.plaintext = text →
    let e := channelHistoryEntry fingerprint identity row
    e.text = text ∧ e.imageBytes = [] ∧ e.imageMime = []) ∧
  ∀ fingerprint peerName row outgoing, row.plaintext = text →
    let e := historyEntry fingerprint peerName row outgoing
    e.text = text ∧ e.imageBytes = [] ∧ e.imageMime = []

/-- The magic, and behind it two lengths of two octets, each covered by the octets that follow. -/
def SpellsFrame (b : Bytes) : Prop :=
  ∃ (high low high' low' : UInt8) (mime filename content : Bytes),
    b = attachmentMagic ++ high :: low :: (mime ++ high' :: low' :: (filename ++ content)) ∧
      mime.length = 256 * high.toNat + low.toNat ∧
      filename.length = 256 * high'.toNat + low'.toNat

theorem spellsFrame_iff {b : Bytes} :
    SpellsFrame b ↔ ∃ frame, parseAttachmentFrame b = some frame := by
  constructor
  · rintro ⟨high, low, high', low', mime, filename, content, rfl, mime_length, filename_length⟩
    have high_lt := high.toNat_lt
    have low_lt := low.toNat_lt
    have high_lt' := high'.toNat_lt
    have low_lt' := low'.toNat_lt
    refine ⟨⟨mime, filename, content⟩, parseAttachmentFrame_eq_some_iff.mpr ⟨?_, ?_, ?_⟩⟩
    · rw [be16_eq mime_length, be16_eq filename_length]
      rfl
    · change mime.length < 65536
      omega
    · change filename.length < 65536
      omega
  · rintro ⟨frame, parsed⟩
    obtain ⟨rfl, mime_short, filename_short⟩ := parseAttachmentFrame_eq_some_iff.mp parsed
    obtain ⟨high, low, written, mime_length⟩ := be16_spells mime_short
    obtain ⟨high', low', written', filename_length⟩ := be16_spells filename_short
    refine ⟨high, low, high', low', frame.mime, frame.filename, frame.content, ?_, mime_length,
      filename_length⟩
    rw [written, written']
    rfl

theorem shownAsText_iff {text : Bytes} :
    ShownAsText text ↔ parseAttachmentFrame text = none := by
  constructor
  · rintro ⟨received, -⟩
    specialize received [] []
    unfold channelReceived at received
    split at received
    · cases received
    next none => exact none
  · intro unframed
    refine ⟨fun _ _ => ?_, fun _ _ row stored => ?_, fun _ _ row _ stored => ?_⟩
    · rw [channelReceived, unframed]
    · subst stored
      dsimp only [channelHistoryEntry]
      rw [unframed]
      split <;> exact ⟨rfl, rfl, rfl⟩
    · subst stored
      dsimp only [historyEntry]
      rw [unframed]
      split <;> exact ⟨rfl, rfl, rfl⟩

/-- A text is shown as a text unless its octets are those of a frame. -/
theorem text_shown_iff (text : List Char) : ShownAsText (utf8 text) ↔ ¬SpellsFrame (utf8 text) := by
  rw [shownAsText_iff, spellsFrame_iff, Option.eq_none_iff_forall_ne_some, not_exists]

/-- A text that begins with U+0000: the magic and two lengths of zero. -/
def nulLedText : List Char := "\x00FBAT1\x00\x00\x00\x00\x00".toList

theorem nul_led_text_mistaken : ¬∀ text : List Char, ShownAsText (utf8 text) := by
  intro always
  have parsed : parseAttachmentFrame (utf8 nulLedText) = some ⟨[], [], []⟩ := by decide
  have unframed := shownAsText_iff.mp (always nulLedText)
  rw [parsed] at unframed
  cases unframed

end FinBit.Desktop
