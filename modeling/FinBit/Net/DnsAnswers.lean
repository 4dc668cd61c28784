import FinBit.Net.DnsJsonReading

/-! # The peers of a DNS answer

What the JSON says, and for which documents the reader of the octets says the same.
-/

namespace FinBit.Net.Doh

open FinBit.Lib FinBit.P2P

/-! ### By the JSON -/

/-- The elements of the array that the top-level member `Answer` is. -/
def answerValues (doc : JsonText) : List Json :=
  match doc.value with
  | .object _ members =>
    match members.get (ascii "Answer") with
    | some (.array _ elements) => elements.values
    | _ => []
  | _ => []

/-- The data string of an object with type 16. -/
def txt (record : Members) : Option Pieces :=
  match record.get (ascii "type") with
  | some (.number n) =>
    if n.value = 16 then (record.get (ascii "data")).bind Json.pieces else none
  | _ => none

def txtStrings (doc : JsonText) : List Bytes :=
  (((answerValues doc).filterMap Json.members).filterMap txt).map fun s => stripQuotes s.decode

def peers (nodeIdFromPubkey : Bytes → NodeId) (doc : JsonText) : List PeerInfo :=
  (txtStrings doc).filterMap (parseFinbitTxt nodeIdFromPubkey)

/-! ### The first bracket -/

/-- The text from the first occurrence on. -/
def FirstAt (needle text found : Bytes) : Prop :=
  ∃ before, text = before ++ found ∧ needle <+: found ∧
    ∀ n < before.length, ¬needle <+: text.drop n

theorem findText_eq_some_iff {needle text found : Bytes} :
    findText needle text = some found ↔ FirstAt needle text found := by
  induction text with
  | nil =>
    rw [findText]
    constructor
    · intro same
      split at same
      next none =>
        cases same
        exact ⟨[], rfl, none ▸ List.nil_prefix, fun n less => absurd less (Nat.not_lt_zero n)⟩
      · cases same
    · rintro ⟨before, same, here, -⟩
      obtain ⟨-, rfl⟩ := List.append_eq_nil_iff.mp same.symm
      rw [if_pos (List.prefix_nil.mp here)]
  | cons c text ih =>
    rw [findText]
    by_cases here : needle <+: c :: text
    · rw [if_pos (List.isPrefixOf_iff_prefix.mpr here)]
      constructor
      · rintro ⟨rfl⟩
        exact ⟨[], rfl, here, fun n less => absurd less (Nat.not_lt_zero n)⟩
      · rintro ⟨before, same, -, earlier⟩
        cases before with
        | nil => rw [same, List.nil_append]
        | cons b before => exact absurd here (earlier 0 (Nat.zero_lt_succ _))
    · rw [if_neg (mt List.isPrefixOf_iff_prefix.mp here), ih]
      constructor
      · rintro ⟨before, rfl, starts, earlier⟩
        refine ⟨c :: before, rfl, starts, fun n less => ?_⟩
        cases n with
        | zero => exact here
        | succ n => exact earlier n (Nat.lt_of_succ_lt_succ less)
      · rintro ⟨before, same, starts, earlier⟩
        cases before with
        | nil => exact absurd (same ▸ starts) here
        | cons b before =>
          obtain ⟨rfl, rfl⟩ := List.cons.inj same
          exact ⟨before, rfl, starts, fun n less => earlier (n + 1) (Nat.succ_lt_succ less)⟩

/-- The text behind the first `[` from the first `"Answer"` on. -/
def FirstArray (text rest : Bytes) : Prop :=
  ∃ between, FirstAt (ascii "\"Answer\"") text (between ++ (0x5B :: rest)) ∧ 0x5B ∉ between

theorem dropWhile_eq_cons_iff {text rest : Bytes} :
    text.dropWhile (· ≠ 0x5B) = 0x5B :: rest ↔ ∃ between, text = between ++ (0x5B :: rest) ∧
      0x5B ∉ between := by
  induction text with
  | nil => simp
  | cons c text ih =>
    by_cases bracket : c = 0x5B
    · subst bracket
      rw [List.dropWhile_cons_of_neg (by simp)]
      constructor
      · rintro ⟨rfl⟩
        exact ⟨[], rfl, List.not_mem_nil⟩
      · rintro ⟨between, same, other⟩
        cases between with
        | nil => exact same
        | cons b between =>
          exact absurd ((List.cons.inj same).1 ▸ List.mem_cons_self) other
    · rw [List.dropWhile_cons_of_pos (by simpa using bracket), ih]
      constructor
      · rintro ⟨between, rfl, other⟩
        exact ⟨c :: between, rfl, by simp [other, Ne.symm bracket]⟩
      · rintro ⟨between, same, other⟩
        cases between with
        | nil => exact absurd (List.cons.inj same).1 bracket
        | cons b between =>
          exact ⟨between, (List.cons.inj same).2,
            fun member => other (List.mem_cons_of_mem _ member)⟩

theorem arrayStart_eq_some_iff {text rest : Bytes} :
    arrayStart text = some rest ↔ FirstArray text rest := by
  rw [arrayStart, Option.bind_eq_some_iff]
  constructor
  · rintro ⟨text, first, same⟩
    split at same
    · cases same
    next c left dropped =>
      cases same
      have bracket : c = 0x5B := by
        have head := List.head?_dropWhile_not (fun c : UInt8 => c ≠ 0x5B) text
        rw [dropped] at head
        simpa using head
      subst bracket
      obtain ⟨between, rfl, other⟩ := dropWhile_eq_cons_iff.mp dropped
      exact ⟨between, findText_eq_some_iff.mp first, other⟩
  · rintro ⟨between, first, other⟩
    refine ⟨_, findText_eq_some_iff.mpr first, ?_⟩
    rw [dropWhile_eq_cons_iff.mpr ⟨between, rfl, other⟩]

/-! ### What is read as JSON says -/

/-- The array that the top-level member `Answer` is, and the text behind its `[`. -/
def answer (doc : JsonText) : Option (Elements × Bytes) :=
  match doc.value with
  | .object _ members =>
    match members.find (ascii "Answer") (0x7D :: doc.after.render) with
    | some (.array lead elements, behind) =>
      some (elements, lead.render ++ (elements.render ++ (0x5D :: behind)))
    | _ => none
  | _ => none

/-- No piece stands for anything but what the reader takes it for. -/
def Simple (s : Pieces) : Prop :=
  (∀ e, Piece.escape e ∈ s → e ≠ .backspace ∧ e ≠ .formFeed) ∧ ∀ u, Piece.unit u ∉ s

/-- The members of a record that matter are written as the reader expects them. -/
structure Expected (record : Members) : Prop where
  /-- Their names have no escapes. -/
  names : ∀ name ∈ record.names,
    name.decode = ascii "type" ∨ name.decode = ascii "data" → name.render = name.decode
  /-- The digits of a type before the point tell whether it is 16. -/
  type : ∀ n, record.get (ascii "type") = some (.number n) →
    ((n.negative = false ∧ digitsValue n.whole.digits = 16) ↔ n.value = 16)
  /-- A type behind another is a number, without a sign, and fits an `int`. -/
  types : ∀ v ∈ (record.values fun name => name.decode = ascii "type").tail, ∃ n,
    v = .number n ∧ n.negative = false ∧ digitsValue n.whole.digits ≤ 2147483647
  /-- Data behind other data is a string. -/
  strings : ∀ v ∈ (record.values fun name => name.decode = ascii "data").tail, ∃ s, v = .string s
  /-- The data of a TXT record has neither `\b`, `\f` nor `\u`. -/
  data : ∀ s, txt record = some s → Simple s

structure Readable (doc : JsonText) : Prop where
  /-- The first `[` behind the first `"Answer"` is that of the array, and is there only with it. -/
  found : ∀ behind, FirstArray doc.render behind ↔ (answer doc).map Prod.snd = some behind
  /-- No element of the array is an array. -/
  flat : ∀ v ∈ answerValues doc, ∀ lead elements, v ≠ .array lead elements
  records : ∀ record ∈ (answerValues doc).filterMap Json.members, Expected record

theorem answer_values (doc : JsonText) :
    ((answer doc).map fun array => array.1.values).getD [] = answerValues doc := by
  rw [answer, answerValues]
  cases doc.value with
  | object lead members =>
    have same := members.find_fst (ascii "Answer") (0x7D :: doc.after.render)
    dsimp only
    rw [← same]
    cases members.find (ascii "Answer") (0x7D :: doc.after.render) with
    | none => rfl
    | some found =>
      obtain ⟨value, behind⟩ := found
      cases value <;> rfl
  | _ => rfl

theorem answer_behind {doc : JsonText} {elements : Elements} {behind : Bytes}
    (array : answer doc = some (elements, behind)) :
    ∃ (lead : Spaces) (rest : Bytes),
      behind = lead.render ++ (elements.render ++ (0x5D :: rest)) := by
  rw [answer] at array
  split at array
  · split at array
    next lead _ rest _ =>
      cases array
      exact ⟨lead, rest, rfl⟩
    · cases array
  · cases array

theorem readPieces_of_simple {s : Pieces} (simple : Simple s) : readPieces s = s.decode := by
  induction s with
  | nil => rfl
  | cons piece s ih =>
    obtain ⟨escapes, units⟩ := simple
    have later := ih ⟨fun e member => escapes e (List.mem_cons_of_mem _ member),
      fun u member => units u (List.mem_cons_of_mem _ member)⟩
    rw [readPieces, List.flatMap_cons, ← readPieces, later]
    cases piece with
    | plain c => rfl
    | unit u => exact absurd List.mem_cons_self (units u)
    | escape e =>
      obtain ⟨backspace, formFeed⟩ := escapes e List.mem_cons_self
      cases e with
      | backspace => exact absurd rfl backspace
      | formFeed => exact absurd rfl formFeed
      | _ => rfl

theorem length_utf8EncodeChar_le (c : Char) : (String.utf8EncodeChar c).length ≤ 4 := by
  rw [String.length_utf8EncodeChar]
  exact c.utf8Size_le_four

theorem length_readPieces_cons (piece : Piece) (s : Pieces) :
    (readPieces (piece :: s)).length = (readPiece piece).length + (readPieces s).length := by
  rw [readPieces, List.flatMap_cons, List.length_append, ← readPieces]

theorem length_readPiece_unit (u : CodeUnit) : (readPiece (.unit u)).length = 5 := by
  rw [readPiece, List.length_cons, List.length_map, u.four]

/-- The reader leaves more octets of a code unit than a character has. -/
theorem length_decode (s : Pieces) : s.decode.length ≤ (readPieces s).length ∧
    ((∃ u, Piece.unit u ∈ s) → s.decode.length < (readPieces s).length) := by
  fun_induction Pieces.decode s with
  | case1 => exact ⟨le_rfl, nofun⟩
  | case2 c rest ih =>
    obtain ⟨shorter, strictly⟩ := ih
    rw [length_readPieces_cons, List.length_append, readPiece]
    refine ⟨by omega, ?_⟩
    rintro ⟨u, member⟩
    obtain member := (List.mem_cons.mp member).resolve_left nofun
    have := strictly ⟨u, member⟩
    omega
  | case3 e rest ih =>
    obtain ⟨shorter, strictly⟩ := ih
    rw [length_readPieces_cons, List.length_cons, readPiece, List.length_singleton]
    refine ⟨by omega, ?_⟩
    rintro ⟨u, member⟩
    obtain member := (List.mem_cons.mp member).resolve_left nofun
    have := strictly ⟨u, member⟩
    omega
  | case4 u v rest pair ih =>
    have octets := length_utf8EncodeChar_le
      (Char.ofNat (0x10000 + (u.value - 0xD800) * 0x400 + (v.value - 0xDC00)))
    rw [length_readPieces_cons, length_readPieces_cons, length_readPiece_unit,
      length_readPiece_unit, List.length_append]
    have := ih.1
    exact ⟨by omega, fun _ => by omega⟩
  | case5 u v rest other ih =>
    have octets := length_utf8EncodeChar_le (Pieces.single u.value)
    rw [length_readPieces_cons, length_readPiece_unit, List.length_append]
    have := ih.1
    exact ⟨by omega, fun _ => by omega⟩
  | case6 u rest other ih =>
    have octets := length_utf8EncodeChar_le (Pieces.single u.value)
    rw [length_readPieces_cons, length_readPiece_unit, List.length_append]
    have := ih.1
    exact ⟨by omega, fun _ => by omega⟩

/-- Nothing else is read as JSON says. -/
theorem simple_of_readPieces {s : Pieces} (same : readPieces s = s.decode) : Simple s := by
  have units : ∀ u, Piece.unit u ∉ s := by
    intro u member
    have longer := (length_decode s).2 ⟨u, member⟩
    rw [same] at longer
    exact Nat.lt_irrefl _ longer
  refine ⟨?_, units⟩
  induction s with
  | nil => exact fun _ member => absurd member List.not_mem_nil
  | cons piece s ih =>
    rw [readPieces, List.flatMap_cons, ← readPieces] at same
    have others : ∀ u, Piece.unit u ∉ s := fun u member => units u (List.mem_cons_of_mem _ member)
    cases piece with
    | plain c =>
      intro e member
      exact ih (List.append_cancel_left same) others e
        ((List.mem_cons.mp member).resolve_left (by simp))
    | unit u => exact absurd List.mem_cons_self (units u)
    | escape f =>
      obtain ⟨letter, later⟩ := List.cons.inj same
      intro e member
      obtain here | member := List.mem_cons.mp member
      · cases here
        constructor
        · rintro rfl
          exact absurd letter (by decide)
        · rintro rfl
          exact absurd letter (by decide)
      · exact ih later others e member
theorem readPieces_eq_decode_iff (s : Pieces) : readPieces s = s.decode ↔ Simple s :=
  ⟨simple_of_readPieces, readPieces_of_simple⟩

/-- Where the others can be used, the last that can is the last. -/
theorem last_usable {α β : Type*} {what : α → Option β} {l : List α}
    (later : ∀ a ∈ l.tail, (what a).isSome) :
    (l.filterMap what).getLast? = l.getLast?.bind what := by
  cases l with
  | nil => rfl
  | cons a l =>
    induction l generalizing a with
    | nil => cases used : what a <;> simp [used]
    | cons b l ih =>
      obtain ⟨first, others⟩ := List.forall_mem_cons.mp later
      obtain ⟨found, used⟩ := Option.isSome_iff_exists.mp first
      rw [List.getLast?_cons_cons, ← ih b others, List.filterMap_cons, List.filterMap_cons, used]
      cases what a with
      | none => rfl
      | some other => exact List.getLast?_cons_cons

namespace Expected

variable {record : Members}

theorem values_eq (expected : Expected record) {word : Bytes} (plain : 0x5C ∉ word)
    (key : word = ascii "type" ∨ word = ascii "data") :
    (record.values fun name => name.render = word) =
      record.values fun name => name.decode = word := by
  refine record.values_congr fun name member => ?_
  refine decide_eq_decide.mpr ⟨fun here => ?_, fun here => ?_⟩
  · rw [Pieces.decode_eq_render name (here ▸ plain), here]
  · rw [expected.names name member (here ▸ key), here]

theorem readType_iff (expected : Expected record) :
    ((record.values typeKey).filterMap typeRead).getLast? = some 16 ↔
      ∃ n, record.get (ascii "type") = some (.number n) ∧ n.value = 16 := by
  have readable : ∀ v ∈ (record.values fun name => name.decode = ascii "type").tail,
      (typeRead v).isSome := by
    intro v member
    obtain ⟨n, rfl, sign, fits⟩ := expected.types v member
    rw [typeRead, if_neg (by simp [sign, fits])]
    rfl
  have same : record.values typeKey = record.values fun name => name.decode = ascii "type" :=
    expected.values_eq (by decide) (.inl rfl)
  rw [same, last_usable readable, ← Members.get]
  constructor
  · intro read
    obtain ⟨v, last, here⟩ := Option.bind_eq_some_iff.mp read
    cases v with
    | number n =>
      refine ⟨n, last, (expected.type n last).mp ?_⟩
      rw [typeRead] at here
      split at here
      · cases here
      next fits =>
        have sixteen : (digitsValue n.whole.digits : Int) = 16 := Option.some.inj here
        exact ⟨by simpa using fun sign => fits (.inl sign), by omega⟩
    | _ => cases here
  · rintro ⟨n, last, value⟩
    obtain ⟨sign, digits⟩ := (expected.type n last).mpr value
    rw [last, Option.bind_some, typeRead, digits, sign]
    rfl

/-- The reader takes the string that the JSON says. -/
theorem readRecord_eq (expected : Expected record) : readRecord record = txt record := by
  have readable : ∀ v ∈ (record.values fun name => name.decode = ascii "data").tail,
      (Json.pieces v).isSome := by
    intro v member
    obtain ⟨s, rfl⟩ := expected.strings v member
    rfl
  have same : record.values dataKey = record.values fun name => name.decode = ascii "data" :=
    expected.values_eq (by decide) (.inr rfl)
  rw [readRecord, same, last_usable readable, ← Members.get]
  by_cases sixteen : ∃ n, record.get (ascii "type") = some (.number n) ∧ n.value = 16
  · rw [if_pos (expected.readType_iff.mpr sixteen)]
    obtain ⟨n, last, value⟩ := sixteen
    rw [txt, last]
    exact (if_pos value).symm
  · rw [if_neg (mt expected.readType_iff.mp sixteen), txt]
    split
    next n last => exact (if_neg fun value => sixteen ⟨n, last, value⟩).symm
    · rfl

end Expected

theorem readValues_eq {values : List Json}
    (expected : ∀ record ∈ values.filterMap Json.members, Expected record) :
    readValues values =
      ((values.filterMap Json.members).filterMap txt).map fun s => stripQuotes s.decode := by
  have same : (values.filterMap Json.members).filterMap readRecord =
      (values.filterMap Json.members).filterMap txt :=
    List.filterMap_congr fun record member => (expected record member).readRecord_eq
  rw [readValues, same]
  refine List.map_congr_left fun s member => ?_
  obtain ⟨record, here, data⟩ := List.mem_filterMap.mp member
  rw [(readPieces_eq_decode_iff s).mpr ((expected record here).data s data)]

/-- Where the array is found and has no arrays in it, its objects are read one by one. -/
theorem extract_values {doc : JsonText}
    (found : ∀ behind, FirstArray doc.render behind ↔ (answer doc).map Prod.snd = some behind)
    (flat : ∀ v ∈ answerValues doc, ∀ lead elements, v ≠ .array lead elements) :
    extractTxtDataValues doc.render = readValues (answerValues doc) := by
  have start : arrayStart doc.render = (answer doc).map Prod.snd :=
    Option.ext fun behind => arrayStart_eq_some_iff.trans (found behind)
  rw [extractTxtDataValues, start]
  rw [← answer_values doc] at flat ⊢
  cases array : answer doc with
  | none => rfl
  | some pair =>
    obtain ⟨elements, behind⟩ := pair
    obtain ⟨lead, rest, rfl⟩ := answer_behind array
    rw [array] at flat
    calc walkArray (lead.render ++ (elements.render ++ (0x5D :: rest))) false false
        = walkArray (elements.render ++ (0x5D :: rest)) false false :=
          walkArray_loop.spaces (d := 0) le_rfl lead _
      _ = readValues elements.values := walkArray_elements elements flat rest

/-! ### An answer with one record -/

def sixteen : JsonNumber := ⟨false, .positive 0 [Fin.succ 5], [], none⟩

theorem sixteen_value : sixteen.value = 16 := by
  simp [sixteen, JsonNumber.value, Whole.digits, digitsValue]

def txtRecord (data : Pieces) : Members :=
  .cons [] (.written "type") ([], []) (.number sixteen) []
    (.cons [] (.written "data") ([], []) (.string data) [] .nil)

def answerOf (data : Pieces) : JsonText :=
  ⟨[], .object [] (.cons [] (.written "Answer") ([], [])
    (.array [] (.cons [] (.object [] (txtRecord data)) [] .nil)) [] .nil), []⟩

theorem answerValues_answerOf (data : Pieces) :
    answerValues (answerOf data) = [.object [] (txtRecord data)] := by
  rfl

theorem get_type (data : Pieces) :
    (txtRecord data).get (ascii "type") = some (.number sixteen) := by
  rfl

theorem arrayStart_answerOf (data : Pieces) :
    arrayStart (answerOf data).render = (answer (answerOf data)).map Prod.snd := by
  let record := (Json.object [] (txtRecord data)).render
  have same : (((record ++ []) ++ [0x5D] ++ []) ++ [0x7D]) ++ [] =
      (record ++ []) ++ [0x5D, 0x7D] := by
    simp only [List.append_nil, List.append_assoc, List.singleton_append]
  exact congrArg some same

theorem txt_txtRecord (data : Pieces) : txt (txtRecord data) = some data := by
  rw [txt, get_type]
  exact if_pos sixteen_value

theorem expected_txtRecord {data : Pieces} (simple : Simple data) : Expected (txtRecord data) where
  names name member _ := by
    obtain rfl | rfl : name = .written "type" ∨ name = .written "data" := by
      simpa [txtRecord, Members.names] using member
    · decide
    · decide
  type n here := by
    rw [get_type] at here
    cases here
    exact ⟨fun _ => sixteen_value, fun _ => ⟨rfl, rfl⟩⟩
  types v member := absurd member List.not_mem_nil
  strings v member := absurd member List.not_mem_nil
  data s here := by
    rw [txt_txtRecord] at here
    cases here
    exact simple

theorem found_answerOf (data : Pieces) (behind : Bytes) :
    FirstArray (answerOf data).render behind ↔
      (answer (answerOf data)).map Prod.snd = some behind := by
  rw [← arrayStart_eq_some_iff, arrayStart_answerOf]

theorem flat_answerOf (data : Pieces) :
    ∀ v ∈ answerValues (answerOf data), ∀ lead elements, v ≠ .array lead elements := by
  intro v member
  rw [answerValues_answerOf] at member
  obtain rfl := List.mem_singleton.mp member
  nofun

theorem readable_answerOf {data : Pieces} (simple : Simple data) : Readable (answerOf data) where
  found := found_answerOf data
  flat := flat_answerOf data
  records record member := by
    rw [answerValues_answerOf] at member
    obtain rfl := List.mem_singleton.mp member
    exact expected_txtRecord simple

theorem txtStrings_answerOf (data : Pieces) :
    txtStrings (answerOf data) = [stripQuotes data.decode] := by
  rw [txtStrings, answerValues_answerOf]
  change (List.filterMap txt [txtRecord data]).map _ = _
  rw [List.filterMap_cons_some (txt_txtRecord data)]
  rfl

theorem extract_answerOf (data : Pieces) :
    extractTxtDataValues (answerOf data).render = [stripQuotes (readPieces data)] := by
  rw [extract_values (found_answerOf data) (flat_answerOf data), answerValues_answerOf]
  rfl

theorem simple_written (text : String) : Simple (.written text) := by
  have plain : ∀ piece ∈ Pieces.written text, ∃ c, piece = .plain c := by
    intro piece member
    obtain ⟨c, -, here⟩ := List.mem_filterMap.mp member
    split at here
    · cases here
      exact ⟨_, rfl⟩
    · cases here
  constructor
  · intro e member
    obtain ⟨c, same⟩ := plain _ member
    cases same
  · intro u member
    obtain ⟨c, same⟩ := plain _ member
    cases same

/-! ### The peers -/

/-- Of a readable document the reader takes what the JSON says, in order. -/
theorem parseDnsJson_reads (nodeIdFromPubkey : Bytes → NodeId) {doc : JsonText}
    (readable : Readable doc) :
    parseDnsJson nodeIdFromPubkey doc.render = peers nodeIdFromPubkey doc := by
  rw [parseDnsJson, peers, extract_values readable.found readable.flat,
    readValues_eq readable.records, txtStrings]

def bootstrapTxt : Pieces :=
  .written "fb1 ed25519:0000000000000000000000000000000000000000000000000000000000000000 a"

theorem parseDnsJson_reads_bootstrapTxt :
    parseDnsJson (fun _ => NodeId.zero) (answerOf bootstrapTxt).render =
      [⟨NodeId.zero, ascii "a", List.replicate 32 0⟩] := by
  have readable : Readable (answerOf bootstrapTxt) := readable_answerOf (simple_written _)
  rw [parseDnsJson_reads _ readable, peers, txtStrings_answerOf, bootstrapTxt,
    Pieces.written_ofList]
  rfl

/-- A quote as some writers of JSON escape it. -/
def quoteUnit : Piece :=
  .unit ⟨[⟨0, false⟩, ⟨0, false⟩, ⟨2, false⟩, ⟨2, false⟩], rfl⟩

def quotedTxt : Pieces := quoteUnit :: (bootstrapTxt ++ [quoteUnit])

theorem quotedTxt_unread : ¬∀ (nodeIdFromPubkey : Bytes → NodeId) (doc : JsonText),
    parseDnsJson nodeIdFromPubkey doc.render = peers nodeIdFromPubkey doc := by
  intro reads
  have same := reads (fun _ => NodeId.zero) (answerOf quotedTxt)
  rw [parseDnsJson, extract_answerOf, peers, txtStrings_answerOf] at same
  have unread : [stripQuotes (readPieces quotedTxt)].filterMap
      (parseFinbitTxt fun _ => NodeId.zero) = [] := by
    rw [quotedTxt, bootstrapTxt, Pieces.written_ofList]
    rfl
  have said : [stripQuotes quotedTxt.decode].filterMap (parseFinbitTxt fun _ => NodeId.zero) =
      [⟨NodeId.zero, ascii "a", List.replicate 32 0⟩] := by
    rw [quotedTxt, bootstrapTxt, Pieces.written_ofList]
    rfl
  rw [unread, said] at same
  cases same

end FinBit.Net.Doh
