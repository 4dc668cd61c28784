import FinBit.Web.ProtoFields

/-! # The messages of the web client

The builders of `finbit_proto.js` and the decoders that match them. A builder writes its fields one
after the other and leaves out those that have the default value; what a decoder finds under a field
number is therefore the value that was given, or nothing. The field numbers are those of the schema.
-/

namespace FinBit.Web.Proto

open FinBit.Lib

/-! ### Building -/

/-- The body types of a frame. -/
inductive FrameKind where
  | envelope | batch | control | hello | serverHello | keyUpload | keyFetch | keyFetchResp
  | registerReq | registerResp | chanSubscribe | chanUnsubscribe | helloAck | usernameLookup
  | usernameResp
  deriving DecidableEq

/-- `FRAME`. -/
def FrameKind.number : FrameKind → Nat
  | .envelope => 1
  | .batch => 2
  | .control => 3
  | .hello => 4
  | .serverHello => 5
  | .keyUpload => 6
  | .keyFetch => 7
  | .keyFetchResp => 8
  | .registerReq => 9
  | .registerResp => 10
  | .chanSubscribe => 11
  | .chanUnsubscribe => 12
  | .helloAck => 13
  | .usernameLookup => 14
  | .usernameResp => 15

def wrapFrame (kind : FrameKind) (innerBytes : Bytes) : Bytes :=
  writeBytes kind.number (some innerBytes)

/-- Octets that are left out when there are none. -/
def nonEmpty (bytes : Option Bytes) : Option Bytes := bytes.filter (· ≠ [])

structure ClientHello where
  identityPub : Bytes
  username : List Char
  protoVersion : Nat := 1

def encodeClientHello (m : ClientHello) : Bytes :=
  wrapFrame .hello
    (writeBytes 1 (some m.identityPub) ++ (writeString 2 m.username ++ writeUint32 3 m.protoVersion))

structure PreKeyBundle where
  identityPub : Bytes
  signedPrekey : Bytes
  publishedAtMs : Nat
  pqPubkey : Option Bytes := none
  pqPubkeySig : Option Bytes := none

def encodePreKeyBundle (m : PreKeyBundle) : Bytes :=
  writeBytes 1 (some m.identityPub) ++ (writeBytes 2 (some m.signedPrekey) ++
    (writeUint64 6 m.publishedAtMs ++ (writeBytes 7 (nonEmpty m.pqPubkey) ++
      writeBytes 8 (nonEmpty m.pqPubkeySig))))

structure KeyBundleFetch where
  username : List Char
  requestId : Nat := 0

def encodeKeyBundleFetch (m : KeyBundleFetch) : Bytes :=
  wrapFrame .keyFetch (writeString 1 m.username ++ writeUint64 2 m.requestId)

structure DmEnvelope where
  envelopeId : Bytes
  timestampMs : Nat
  senderPubkey : Bytes
  recipientPubkey : Bytes
  ciphertext : Bytes
  aeadAlg : Nat := 1
  protoVersion : Nat := 1
  pqCt : Option Bytes := none

def encodeDmEnvelope (m : DmEnvelope) : Bytes :=
  wrapFrame .envelope
    (writeBytes 1 (some m.envelopeId) ++ (writeUint64 2 m.timestampMs ++
      (writeBytes 3 (some m.senderPubkey) ++ (writeBytes 4 (some m.ciphertext) ++
        (writeUint32 6 m.aeadAlg ++ (writeUint32 7 m.protoVersion ++
          (writeBytes 9 (nonEmpty m.pqCt) ++ writeBytes 16 (some m.recipientPubkey))))))))

structure ChannelEnvelope where
  envelopeId : Bytes
  timestampMs : Nat
  senderPubkey : Bytes
  channelGroupId : Bytes
  ciphertext : Bytes
  aeadAlg : Nat := 1
  protoVersion : Nat := 1

def encodeChannelEnvelope (m : ChannelEnvelope) : Bytes :=
  wrapFrame .envelope
    (writeBytes 1 (some m.envelopeId) ++ (writeUint64 2 m.timestampMs ++
      (writeBytes 3 (some m.senderPubkey) ++ (writeBytes 4 (some m.ciphertext) ++
        (writeUint32 6 m.aeadAlg ++ (writeUint32 7 m.protoVersion ++
          writeBytes 17 (some m.channelGroupId)))))))

/-- The tag is written even where the text is empty. -/
def encodeDmPayloadText (text : List Char) : Bytes :=
  writeTag 1 2 ++ (encodeVarint (utf8 text).length ++ utf8 text)

structure ChannelKey where
  channelId : Bytes
  channelName : List Char
  distribution : Bytes

def encodeDmPayloadChannelKey (m : ChannelKey) : Bytes :=
  writeBytes 2 (some (writeBytes 1 (some m.channelId) ++ (writeString 2 m.channelName ++
    writeBytes 3 (some m.distribution))))

structure MediaSignal where
  callId : Bytes
  kind : Nat
  payload : Bytes
  epoch : Nat := 0

def encodeDmPayloadMediaSignal (m : MediaSignal) : Bytes :=
  writeBytes 3 (some (writeBytes 1 (some m.callId) ++ (writeUint32 2 m.kind ++
    (writeBytes 3 (some m.payload) ++ if m.epoch = 0 then [] else writeUint32 4 m.epoch))))

/-! ### Decoding -/

/-- `new TextDecoder().decode`, which takes a byte order mark off the front. -/
def textDecode (octets : Bytes) : List Char :=
  if [0xEF, 0xBB, 0xBF].isPrefixOf octets then utf8Decode (octets.drop 3) else utf8Decode octets

/-- The value of a property that counts as true. -/
def truthy : Option FieldValue → Option FieldValue
  | some (.bigint 0) => none
  | value => value

/-- `value || new Uint8Array()`. -/
def orEmpty (value : Option FieldValue) : FieldValue := (truthy value).getD (.bytes [])

/-- `Number(value || 0n)`; an array is first made a text. -/
def numberOr0 (value : Option FieldValue) : JsNumber :=
  match (truthy value).getD (.bigint 0) with
  | .bigint n => toNumber n
  | .bytes [] => .nat 0
  | .bytes [b] => .nat b.toNat
  | .bytes _ => .nan

/-- `value ? new TextDecoder().decode(value) : ""`; the decoder takes no integers. -/
def textOr (value : Option FieldValue) : Except String (List Char) :=
  match truthy value with
  | none => .ok []
  | some (.bytes b) => .ok (textDecode b)
  | some (.bigint _) => .error "TypeError"

/-- `parseFields` of a value; an integer has no length, and so no fields. -/
def parseValue : FieldValue → Except String Fields
  | .bytes b => parseFields b
  | .bigint _ => .ok fun _ => none

def frameKinds : List FrameKind :=
  [.envelope, .batch, .control, .hello, .serverHello, .keyUpload, .keyFetch, .keyFetchResp,
    .registerReq, .registerResp, .chanSubscribe, .chanUnsubscribe, .helloAck, .usernameLookup,
    .usernameResp]

/-- The first entry of known kind, in the order of the numbers; no kind is `unknown`. -/
def decodeFrame (buf : Bytes) : Except String (Option FrameKind × Fields) := do
  let fields ← parseFields buf
  match frameKinds.findSome? fun kind => (fields kind.number).map fun value => (kind, value) with
  | some (kind, value) => return (some kind, ← parseValue value)
  | none => return (none, fields)

structure DecodedEnvelope where
  envelopeId : FieldValue
  timestampMs : JsNumber
  senderPubkey : FieldValue
  ciphertext : FieldValue
  aeadAlg : JsNumber
  pqCt : FieldValue
  userPubkey : Option FieldValue
  channelGroupId : Option FieldValue
  deriving DecidableEq

def decodeEnvelope (inner : Fields) : DecodedEnvelope where
  envelopeId := orEmpty (inner 1)
  timestampMs := numberOr0 (inner 2)
  senderPubkey := orEmpty (inner 3)
  ciphertext := orEmpty (inner 4)
  aeadAlg := numberOr0 (inner 6)
  pqCt := orEmpty (inner 9)
  userPubkey := truthy (inner 16)
  channelGroupId := truthy (inner 17)

inductive DecodedPayload where
  | text (text : List Char)
  | channelKey (channelId : FieldValue) (channelName : List Char) (distribution : FieldValue)
  | mediaSignal (callId : FieldValue) (mediaKind : JsNumber) (payload : FieldValue) (epoch : JsNumber)
  | unknown
  deriving DecidableEq

def decodeDmPayload (buf : Bytes) : Except String DecodedPayload := do
  let fields ← parseFields buf
  if (truthy (fields 1)).isSome then
    return .text (← textOr (fields 1))
  match truthy (fields 2) with
  | some value =>
    let ckd ← parseValue value
    let channelName ← textOr (ckd 2)
    return .channelKey (orEmpty (ckd 1)) channelName (orEmpty (ckd 3))
  | none =>
    match truthy (fields 3) with
    | some value =>
      let ms ← parseValue value
      return .mediaSignal (orEmpty (ms 1)) (numberOr0 (ms 2)) (orEmpty (ms 3)) (numberOr0 (ms 4))
    | none => return .unknown

/-! ### Reading what was written -/

theorem terminated_encodeVarint (n : Nat) : Terminated (encodeVarint n) := by
  induction n using Nat.strongRecOn with
  | ind n ih =>
    rw [encodeVarint]
    split
    · refine .more ?_ (ih (n / 128) (by omega))
      rw [UInt8.toNat_ofNat']
      omega
    · refine .last ?_
      rw [UInt8.toNat_ofNat']
      omega

theorem varintValue_encodeVarint (n : Nat) : varintValue (encodeVarint n) = n := by
  induction n using Nat.strongRecOn with
  | ind n ih =>
    rw [encodeVarint]
    split
    · rw [varintValue, ih (n / 128) (by omega), UInt8.toNat_ofNat']
      omega
    · rw [varintValue, varintValue, UInt8.toNat_ofNat']
      omega

theorem toNumber_of_lt {n : Nat} (small : n < 2 ^ 53) : toNumber n = .nat n := if_pos small

theorem toInt32_of_lt {n : Nat} (small : n < 2 ^ 31) : (toNumber n).toInt32 = n := by
  have whole : (n : Int).bmod (2 ^ 32) = n := Int.bmod_eq_of_le (by omega) (by omega)
  rw [toNumber_of_lt (by omega)]
  unfold JsNumber.toInt32
  exact whole

/-- A tag carries its field number and its wire type. -/
theorem tag_eq {number wt : Nat} (small : number < 2 ^ 28) (wire : wt < 8) :
    Terminated (writeTag number wt) ∧ fieldNumber (varintValue (writeTag number wt)) = number ∧
      wireType (varintValue (writeTag number wt)) = wt := by
  have tag := varintValue_encodeVarint (number * 8 + wt)
  have whole := @toInt32_of_lt (number * 8 + wt) (by omega)
  refine ⟨terminated_encodeVarint _, ?_, ?_⟩
  · rw [writeTag, tag, fieldNumber, whole]
    omega
  · rw [writeTag, tag, wireType, whole]
    omega

theorem field_writeBytes {number : Nat} (small : number < 2 ^ 28) (b : Bytes) :
    Field number (.bytes b) (writeBytes number (some b)) := by
  obtain ⟨tagged, fnum, wire⟩ := tag_eq small (by decide : 2 < 8)
  have field := Field.lengthDelimited tagged wire (terminated_encodeVarint b.length)
    (varintValue_encodeVarint b.length).symm
  rwa [fnum] at field

theorem field_varint {number : Nat} (small : number < 2 ^ 28) (n : Nat) :
    Field number (.bigint n) (writeTag number 0 ++ encodeVarint n) := by
  obtain ⟨tagged, fnum, wire⟩ := tag_eq small (by decide : 0 < 8)
  have field := Field.varint tagged wire (terminated_encodeVarint n)
  rwa [fnum, varintValue_encodeVarint] at field

/-- A field number with its value, if it has one that is written. -/
abbrev Entry := Nat × Option FieldValue

def writeEntry : Entry → Bytes
  | (_, none) => []
  | (number, some (.bytes b)) => writeBytes number (some b)
  | (number, some (.bigint n)) => writeTag number 0 ++ encodeVarint n

/-- The object with the entries that have a value. -/
def entryMap : List Entry → Fields
  | [], _ => none
  | (number, value) :: entries, k => if k = number then value else entryMap entries k

theorem field_writeEntry {number : Nat} (small : number < 2 ^ 28) (value : FieldValue) :
    Field number value (writeEntry (number, some value)) := by
  cases value with
  | bytes b => exact field_writeBytes small b
  | bigint n => exact field_varint small n

theorem entryMap_of_not_mem {entries : List Entry} {number : Nat}
    (new : number ∉ entries.map Prod.fst) : entryMap entries number = none := by
  induction entries with
  | nil => rfl
  | cons entry entries ih =>
    obtain ⟨other, rest⟩ := not_or.mp (List.mem_cons.not.mp new)
    rw [entryMap, if_neg (fun same => other (Int.ofNat_inj.mp same)), ih rest]

theorem parseLoop_entries {entries : List Entry} (small : ∀ e ∈ entries, e.1 < 2 ^ 28)
    (once : (entries.map Prod.fst).Nodup) {buf : Bytes} {off : Nat} (fields : Fields)
    (next : buf.drop off = entries.flatMap writeEntry) :
    parseLoop buf fields off = .ok fun k => (entryMap entries k).or (fields k) := by
  induction entries generalizing off fields with
  | nil =>
    exact parseLoop_end fields (List.drop_eq_nil_iff.mp next)
  | cons entry entries ih =>
    obtain ⟨number, value⟩ := entry
    obtain ⟨first, others⟩ := List.forall_mem_cons.mp small
    obtain ⟨new, fresh⟩ := List.nodup_cons.mp once
    rw [List.flatMap_cons] at next
    cases value with
    | none =>
      rw [ih others fresh fields next]
      refine congrArg Except.ok (funext fun k => ?_)
      rw [entryMap]
      split
      next same => rw [same, entryMap_of_not_mem new]
      · rfl
    | some value =>
      obtain ⟨off', behind, read⟩ := parseLoop_field fields (field_writeEntry first value) next
      rw [read, ih others fresh _ behind]
      refine congrArg Except.ok (funext fun k => ?_)
      rw [entryMap, Fields.set]
      split
      next same =>
        rw [same, entryMap_of_not_mem new]
        rfl
      · rfl

/-- A message that was written field by field. -/
theorem parseFields_entries {entries : List Entry} (small : ∀ e ∈ entries, e.1 < 2 ^ 28)
    (once : (entries.map Prod.fst).Nodup) :
    parseFields (entries.flatMap writeEntry) = .ok (entryMap entries) := by
  rw [parseFields, parseLoop_entries small once (fun _ => none) rfl]
  exact congrArg Except.ok (funext fun k => Option.or_none)

/-! ### The entries of a message -/

def textEntry (number : Nat) (s : List Char) : Entry :=
  (number, if s = [] then none else some (.bytes (utf8 s)))

def uintEntry (number n : Nat) : Entry := (number, if n = 0 then none else some (.bigint n))

def bytesEntry (number : Nat) (b : Option Bytes) : Entry := (number, b.map .bytes)

theorem writeBytes_eq (number : Nat) (b : Option Bytes) :
    writeBytes number b = writeEntry (bytesEntry number b) := by
  cases b <;> rfl

theorem writeString_eq (number : Nat) (s : List Char) :
    writeString number s = writeEntry (textEntry number s) := by
  unfold writeString textEntry
  split <;> rfl

theorem writeUint32_eq (number n : Nat) :
    writeUint32 number n = writeEntry (uintEntry number n) := by
  unfold writeUint32 uintEntry
  split <;> rfl

theorem orEmpty_nonEmpty (b : Option Bytes) :
    orEmpty ((nonEmpty b).map .bytes) = .bytes (b.getD []) := by
  cases b with
  | none => rfl
  | some b => cases b <;> rfl

theorem numberOr0_uint {n : Nat} (small : n < 2 ^ 53) :
    numberOr0 (if n = 0 then none else some (.bigint n)) = .nat n := by
  split
  next zero =>
    subst zero
    exact toNumber_of_lt (by decide)
  next positive =>
    obtain ⟨m, rfl⟩ := Nat.exists_eq_succ_of_ne_zero positive
    exact toNumber_of_lt small

/-- The octets under a field number; a field that is absent has none. -/
def Fields.octets (fields : Fields) (number : Int) : Bytes :=
  match fields number with
  | some (.bytes b) => b
  | _ => []

/-- The integer under a field number; a field that is absent is zero. -/
def Fields.uint (fields : Fields) (number : Int) : Nat :=
  match fields number with
  | some (.bigint n) => n
  | _ => 0

theorem octets_some {fields : Fields} {number : Int} {b : Bytes}
    (found : fields number = some (.bytes b)) : fields.octets number = b := by
  rw [Fields.octets, found]

theorem octets_nonEmpty {fields : Fields} {number : Int} {b : Option Bytes}
    (found : fields number = (nonEmpty b).map .bytes) : fields.octets number = b.getD [] := by
  rw [Fields.octets, found]
  cases b with
  | none => rfl
  | some b => cases b <;> rfl

theorem octets_text {fields : Fields} {number : Int} {s : List Char}
    (found : fields number = (textEntry 0 s).2) : fields.octets number = utf8 s := by
  rw [Fields.octets, found]
  cases s <;> rfl

theorem uint_eq {fields : Fields} {number : Int} {n : Nat}
    (found : fields number = (uintEntry 0 n).2) : fields.uint number = n := by
  rw [Fields.uint, found]
  cases n <;> rfl

/-- A frame holds one body, which is read under its kind. -/
theorem decodeFrame_wrapFrame {kind : FrameKind} {inner : Bytes} {fields : Fields}
    (parsed : parseFields inner = .ok fields) :
    decodeFrame (wrapFrame kind inner) = .ok (some kind, fields) := by
  have small : kind.number < 2 ^ 28 := by cases kind <;> decide
  have outer : parseFields (wrapFrame kind inner) =
      .ok (entryMap [(kind.number, some (.bytes inner))]) := by
    have read := @parseFields_entries [(kind.number, some (.bytes inner))]
      (List.forall_mem_singleton.mpr small) (by simp)
    rwa [List.flatMap_singleton] at read
  have found : (frameKinds.findSome? fun other =>
      (entryMap [(kind.number, some (.bytes inner))] other.number).map fun value => (other, value)) =
        some (kind, .bytes inner) := by
    cases kind <;> rfl
  have body : parseValue (.bytes inner) = .ok fields := parsed
  simp only [decodeFrame, outer, bind, Except.bind, found, body]
  rfl

/-! ### Round trips -/

theorem dmEnvelope_round_trip {m : DmEnvelope} (time : m.timestampMs < 2 ^ 53)
    (alg : m.aeadAlg < 2 ^ 53) :
    ∃ inner, decodeFrame (encodeDmEnvelope m) = .ok (some .envelope, inner) ∧
      decodeEnvelope inner =
        { envelopeId := .bytes m.envelopeId
          timestampMs := .nat m.timestampMs
          senderPubkey := .bytes m.senderPubkey
          ciphertext := .bytes m.ciphertext
          aeadAlg := .nat m.aeadAlg
          pqCt := .bytes (m.pqCt.getD [])
          userPubkey := some (.bytes m.recipientPubkey)
          channelGroupId := none } ∧
      inner.uint 7 = m.protoVersion := by
  have read := @parseFields_entries
    [bytesEntry 1 (some m.envelopeId), uintEntry 2 m.timestampMs, bytesEntry 3 (some m.senderPubkey),
      bytesEntry 4 (some m.ciphertext), uintEntry 6 m.aeadAlg, uintEntry 7 m.protoVersion,
      bytesEntry 9 (nonEmpty m.pqCt), bytesEntry 16 (some m.recipientPubkey)]
    (by simp [bytesEntry, uintEntry]) (by simp [bytesEntry, uintEntry])
  simp only [List.flatMap_cons, List.flatMap_nil, List.append_nil, ← writeBytes_eq,
    ← writeUint32_eq] at read
  refine ⟨_, decodeFrame_wrapFrame read, ?_, uint_eq rfl⟩
  rw [DecodedEnvelope.mk.injEq]
  exact ⟨rfl, numberOr0_uint time, rfl, rfl, numberOr0_uint alg, orEmpty_nonEmpty m.pqCt, rfl, rfl⟩

theorem channelEnvelope_round_trip {m : ChannelEnvelope} (time : m.timestampMs < 2 ^ 53)
    (alg : m.aeadAlg < 2 ^ 53) :
    ∃ inner, decodeFrame (encodeChannelEnvelope m) = .ok (some .envelope, inner) ∧
      decodeEnvelope inner =
        { envelopeId := .bytes m.envelopeId
          timestampMs := .nat m.timestampMs
          senderPubkey := .bytes m.senderPubkey
          ciphertext := .bytes m.ciphertext
          aeadAlg := .nat m.aeadAlg
          pqCt := .bytes []
          userPubkey := none
          channelGroupId := some (.bytes m.channelGroupId) } ∧
      inner.uint 7 = m.protoVersion := by
  have read := @parseFields_entries
    [bytesEntry 1 (some m.envelopeId), uintEntry 2 m.timestampMs, bytesEntry 3 (some m.senderPubkey),
      bytesEntry 4 (some m.ciphertext), uintEntry 6 m.aeadAlg, uintEntry 7 m.protoVersion,
      bytesEntry 17 (some m.channelGroupId)]
    (by simp [bytesEntry, uintEntry]) (by simp [bytesEntry, uintEntry])
  simp only [List.flatMap_cons, List.flatMap_nil, List.append_nil, ← writeBytes_eq,
    ← writeUint32_eq] at read
  refine ⟨_, decodeFrame_wrapFrame read, ?_, uint_eq rfl⟩
  rw [DecodedEnvelope.mk.injEq]
  exact ⟨rfl, numberOr0_uint time, rfl, rfl, numberOr0_uint alg, rfl, rfl, rfl⟩

theorem clientHello_round_trip (m : ClientHello) :
    ∃ inner, decodeFrame (encodeClientHello m) = .ok (some .hello, inner) ∧
      inner.octets 1 = m.identityPub ∧ inner.octets 2 = utf8 m.username ∧
      inner.uint 3 = m.protoVersion := by
  have read := @parseFields_entries
    [bytesEntry 1 (some m.identityPub), textEntry 2 m.username, uintEntry 3 m.protoVersion]
    (by simp [bytesEntry, textEntry, uintEntry]) (by simp [bytesEntry, textEntry, uintEntry])
  simp only [List.flatMap_cons, List.flatMap_nil, List.append_nil, ← writeBytes_eq,
    ← writeString_eq, ← writeUint32_eq] at read
  exact ⟨_, decodeFrame_wrapFrame read, octets_some rfl, octets_text rfl, uint_eq rfl⟩

theorem keyBundleFetch_round_trip (m : KeyBundleFetch) :
    ∃ inner, decodeFrame (encodeKeyBundleFetch m) = .ok (some .keyFetch, inner) ∧
      inner.octets 1 = utf8 m.username ∧ inner.uint 2 = m.requestId := by
  have read := @parseFields_entries [textEntry 1 m.username, uintEntry 2 m.requestId]
    (by simp [textEntry, uintEntry]) (by simp [textEntry, uintEntry])
  simp only [List.flatMap_cons, List.flatMap_nil, List.append_nil, ← writeString_eq,
    ← writeUint32_eq] at read
  exact ⟨_, decodeFrame_wrapFrame read, octets_text rfl, uint_eq rfl⟩

theorem preKeyBundle_round_trip (m : PreKeyBundle) :
    ∃ fields, parseFields (encodePreKeyBundle m) = .ok fields ∧
      fields.octets 1 = m.identityPub ∧ fields.octets 2 = m.signedPrekey ∧
      fields.uint 6 = m.publishedAtMs ∧ fields.octets 7 = m.pqPubkey.getD [] ∧
      fields.octets 8 = m.pqPubkeySig.getD [] := by
  have read := @parseFields_entries
    [bytesEntry 1 (some m.identityPub), bytesEntry 2 (some m.signedPrekey),
      uintEntry 6 m.publishedAtMs, bytesEntry 7 (nonEmpty m.pqPubkey),
      bytesEntry 8 (nonEmpty m.pqPubkeySig)]
    (by simp [bytesEntry, uintEntry]) (by simp [bytesEntry, uintEntry])
  simp only [List.flatMap_cons, List.flatMap_nil, List.append_nil, ← writeBytes_eq,
    ← writeUint32_eq] at read
  exact ⟨_, read, octets_some rfl, octets_some rfl, uint_eq rfl, octets_nonEmpty rfl,
    octets_nonEmpty rfl⟩

/-- The body of a payload, read under its number. -/
theorem parseFields_body (number : Nat) (small : number < 2 ^ 28) (b : Bytes) :
    parseFields (writeBytes number (some b)) = .ok (entryMap [bytesEntry number (some b)]) := by
  have read := @parseFields_entries [bytesEntry number (some b)]
    (List.forall_mem_singleton.mpr small) (by simp)
  rwa [List.flatMap_singleton, ← writeBytes_eq] at read

theorem mediaSignal_round_trip {m : MediaSignal} (kind : m.kind < 2 ^ 53) (epoch : m.epoch < 2 ^ 53) :
    decodeDmPayload (encodeDmPayloadMediaSignal m) =
      .ok (.mediaSignal (.bytes m.callId) (.nat m.kind) (.bytes m.payload) (.nat m.epoch)) := by
  have read := @parseFields_entries
    [bytesEntry 1 (some m.callId), uintEntry 2 m.kind, bytesEntry 3 (some m.payload),
      uintEntry 4 m.epoch]
    (by simp [bytesEntry, uintEntry]) (by simp [bytesEntry, uintEntry])
  have twice : (if m.epoch = 0 then [] else writeUint32 4 m.epoch) = writeUint32 4 m.epoch := by
    unfold writeUint32
    split <;> rfl
  simp only [List.flatMap_cons, List.flatMap_nil, List.append_nil, ← writeBytes_eq,
    ← writeUint32_eq] at read
  rw [← twice] at read
  unfold decodeDmPayload encodeDmPayloadMediaSignal
  rw [parseFields_body 3 (by decide)]
  generalize writeBytes 1 (some m.callId) ++ _ = ms at read ⊢
  change (parseFields ms >>= fun ms => Except.ok (DecodedPayload.mediaSignal (orEmpty (ms 1))
    (numberOr0 (ms 2)) (orEmpty (ms 3)) (numberOr0 (ms 4)))) = _
  rw [read]
  refine congrArg Except.ok ?_
  rw [DecodedPayload.mediaSignal.injEq]
  exact ⟨rfl, numberOr0_uint kind, rfl, numberOr0_uint epoch⟩

/-- The byte order mark. -/
def byteOrderMark : Char := '\uFEFF'

/-- A mark at the front of a text is lost, and nothing else is. -/
theorem textDecode_utf8 (text : List Char) :
    textDecode (utf8 text) = if text.head? = some byteOrderMark then text.tail else text := by
  have marked : String.utf8EncodeChar byteOrderMark = [0xEF, 0xBB, 0xBF] := by decide
  unfold textDecode
  split
  next led =>
    obtain ⟨rest, split⟩ := List.isPrefixOf_iff_prefix.mp led
    have decoded := utf8Decode_utf8_append [byteOrderMark] rest
    rw [utf8_cons, utf8_nil, List.append_nil, marked, split, utf8Decode_utf8] at decoded
    rw [← split, decoded]
    rfl
  next unled =>
    rw [utf8Decode_utf8]
    split
    next head =>
      obtain ⟨text, rfl⟩ : ∃ rest, text = byteOrderMark :: rest :=
        List.head?_eq_some_iff.mp head
      rw [utf8_cons, marked] at unled
      exact absurd (List.isPrefixOf_iff_prefix.mpr (List.prefix_append _ _)) unled
    · rfl

theorem textDecode_eq_iff (text : List Char) :
    textDecode (utf8 text) = text ↔ text.head? ≠ some byteOrderMark := by
  rw [textDecode_utf8]
  split
  next head =>
    obtain ⟨rest, rfl⟩ := List.head?_eq_some_iff.mp head
    exact iff_of_false (fun same => List.cons_ne_self _ _ same.symm) (not_not_intro head)
  next head => exact iff_of_true rfl head

theorem decodeDmPayload_text (text : List Char) :
    decodeDmPayload (encodeDmPayloadText text) = .ok (.text (textDecode (utf8 text))) := by
  have written : encodeDmPayloadText text = writeBytes 1 (some (utf8 text)) := rfl
  unfold decodeDmPayload
  rw [written, parseFields_body 1 (by decide)]
  rfl

theorem decodeDmPayload_channelKey (m : ChannelKey) :
    decodeDmPayload (encodeDmPayloadChannelKey m) =
      .ok (.channelKey (.bytes m.channelId) (textDecode (utf8 m.channelName))
        (.bytes m.distribution)) := by
  have read := @parseFields_entries
    [bytesEntry 1 (some m.channelId), textEntry 2 m.channelName, bytesEntry 3 (some m.distribution)]
    (by simp [bytesEntry, textEntry]) (by simp [bytesEntry, textEntry])
  simp only [List.flatMap_cons, List.flatMap_nil, List.append_nil, ← writeBytes_eq,
    ← writeString_eq] at read
  have name : textOr (textEntry 2 m.channelName).2 = .ok (textDecode (utf8 m.channelName)) := by
    unfold textEntry
    split
    next none =>
      rw [none]
      rfl
    · rfl
  unfold decodeDmPayload encodeDmPayloadChannelKey
  rw [parseFields_body 2 (by decide)]
  generalize writeBytes 1 (some m.channelId) ++ _ = ckd at read ⊢
  change (parseFields ckd >>= fun ckd => textOr (ckd 2) >>= fun channelName =>
    Except.ok (DecodedPayload.channelKey (orEmpty (ckd 1)) channelName (orEmpty (ckd 3)))) = _
  rw [read]
  change (textOr (textEntry 2 m.channelName).2 >>= _) = _
  rw [name]
  rfl

/-- A message with the values it is built from. -/
inductive Built where
  | dmEnvelope (m : DmEnvelope)
  | channelEnvelope (m : ChannelEnvelope)
  | dmPayloadText (text : List Char)
  | dmPayloadChannelKey (m : ChannelKey)
  | dmPayloadMediaSignal (m : MediaSignal)
  | keyBundleFetch (m : KeyBundleFetch)
  | clientHello (m : ClientHello)
  | preKeyBundle (m : PreKeyBundle)

namespace Built

/-- Integers are those that a `Number` holds exactly. -/
def InRange : Built → Prop
  | dmEnvelope m => m.timestampMs < 2 ^ 53 ∧ m.aeadAlg < 2 ^ 53 ∧ m.protoVersion < 2 ^ 53
  | channelEnvelope m => m.timestampMs < 2 ^ 53 ∧ m.aeadAlg < 2 ^ 53 ∧ m.protoVersion < 2 ^ 53
  | dmPayloadText _ => True
  | dmPayloadChannelKey _ => True
  | dmPayloadMediaSignal m => m.kind < 2 ^ 53 ∧ m.epoch < 2 ^ 53
  | keyBundleFetch m => m.requestId < 2 ^ 53
  | clientHello m => m.protoVersion < 2 ^ 53
  | preKeyBundle m => m.publishedAtMs < 2 ^ 53

/-- What the matching decoder finds is what was given; a value that is absent is empty or zero. -/
def RoundTrips : Built → Prop
  | dmEnvelope m =>
    ∃ inner, decodeFrame (encodeDmEnvelope m) = .ok (some .envelope, inner) ∧
      decodeEnvelope inner =
        { envelopeId := .bytes m.envelopeId
          timestampMs := .nat m.timestampMs
          senderPubkey := .bytes m.senderPubkey
          ciphertext := .bytes m.ciphertext
          aeadAlg := .nat m.aeadAlg
          pqCt := .bytes (m.pqCt.getD [])
          userPubkey := some (.bytes m.recipientPubkey)
          channelGroupId := none } ∧
      inner.uint 7 = m.protoVersion
  | channelEnvelope m =>
    ∃ inner, decodeFrame (encodeChannelEnvelope m) = .ok (some .envelope, inner) ∧
      decodeEnvelope inner =
        { envelopeId := .bytes m.envelopeId
          timestampMs := .nat m.timestampMs
          senderPubkey := .bytes m.senderPubkey
          ciphertext := .bytes m.ciphertext
          aeadAlg := .nat m.aeadAlg
          pqCt := .bytes []
          userPubkey := none
          channelGroupId := some (.bytes m.channelGroupId) } ∧
      inner.uint 7 = m.protoVersion
  | dmPayloadText text => decodeDmPayload (encodeDmPayloadText text) = .ok (.text text)
  | dmPayloadChannelKey m =>
    decodeDmPayload (encodeDmPayloadChannelKey m) =
      .ok (.channelKey (.bytes m.channelId) m.channelName (.bytes m.distribution))
  | dmPayloadMediaSignal m =>
    decodeDmPayload (encodeDmPayloadMediaSignal m) =
      .ok (.mediaSignal (.bytes m.callId) (.nat m.kind) (.bytes m.payload) (.nat m.epoch))
  | keyBundleFetch m =>
    ∃ inner, decodeFrame (encodeKeyBundleFetch m) = .ok (some .keyFetch, inner) ∧
      inner.octets 1 = utf8 m.username ∧ inner.uint 2 = m.requestId
  | clientHello m =>
    ∃ inner, decodeFrame (encodeClientHello m) = .ok (some .hello, inner) ∧
      inner.octets 1 = m.identityPub ∧ inner.octets 2 = utf8 m.username ∧
      inner.uint 3 = m.protoVersion
  | preKeyBundle m =>
    ∃ fields, parseFields (encodePreKeyBundle m) = .ok fields ∧
      fields.octets 1 = m.identityPub ∧ fields.octets 2 = m.signedPrekey ∧
      fields.uint 6 = m.publishedAtMs ∧ fields.octets 7 = m.pqPubkey.getD [] ∧
      fields.octets 8 = m.pqPubkeySig.getD []

/-- A text that a decoder reads as such begins with a byte order mark. -/
def BeginsWithMark : Built → Prop
  | dmPayloadText text => text.head? = some byteOrderMark
  | dmPayloadChannelKey m => m.channelName.head? = some byteOrderMark
  | _ => False

end Built

/-- What is built is read back unless the text or the name in it begins with a byte order mark. -/
theorem round_trips_iff (b : Built) (range : b.InRange) : b.RoundTrips ↔ ¬b.BeginsWithMark := by
  cases b with
  | dmEnvelope m => exact iff_of_true (dmEnvelope_round_trip range.1 range.2.1) not_false
  | channelEnvelope m => exact iff_of_true (channelEnvelope_round_trip range.1 range.2.1) not_false
  | dmPayloadText text =>
    change decodeDmPayload (encodeDmPayloadText text) = _ ↔ _
    rw [decodeDmPayload_text, Except.ok.injEq, DecodedPayload.text.injEq]
    exact textDecode_eq_iff text
  | dmPayloadChannelKey m =>
    change decodeDmPayload (encodeDmPayloadChannelKey m) = _ ↔ _
    rw [decodeDmPayload_channelKey, Except.ok.injEq, DecodedPayload.channelKey.injEq]
    refine Iff.trans ?_ (textDecode_eq_iff m.channelName)
    exact ⟨fun same => same.2.1, fun name => ⟨rfl, name, rfl⟩⟩
  | dmPayloadMediaSignal m => exact iff_of_true (mediaSignal_round_trip range.1 range.2) not_false
  | keyBundleFetch m => exact iff_of_true (keyBundleFetch_round_trip m) not_false
  | clientHello m => exact iff_of_true (clientHello_round_trip m) not_false
  | preKeyBundle m => exact iff_of_true (preKeyBundle_round_trip m) not_false

theorem round_trips_iff_hello :
    (Built.clientHello ⟨[1, 2, 3], "ann".toList, 1⟩).RoundTrips ↔
      ¬(Built.clientHello ⟨[1, 2, 3], "ann".toList, 1⟩).BeginsWithMark :=
  round_trips_iff _ (by decide : 1 < 2 ^ 53)

/-- The text of one byte order mark arrives empty. -/
theorem byte_order_mark_lost : ¬∀ b : Built, b.InRange → b.RoundTrips := by
  intro always
  have round : decodeDmPayload (encodeDmPayloadText [byteOrderMark]) = .ok (.text [byteOrderMark]) :=
    always (.dmPayloadText [byteOrderMark]) trivial
  rw [decodeDmPayload_text, Except.ok.injEq, DecodedPayload.text.injEq] at round
  exact (textDecode_eq_iff [byteOrderMark]).mp round rfl

end FinBit.Web.Proto
