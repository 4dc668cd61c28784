import FinBit.Lib.Json
import FinBit.Net.DnsJson

/-! # What the reader of DNS answers makes of a document

The loops over the octets, followed along the tree of a document: through strings and values to the
bracket that closes them, over the members of a record, and over the records of an array.
-/

namespace FinBit.Net.Doh

open FinBit.Lib FinBit.P2P

/-! ### The loops -/

theorem matchingBrace_loop : ValueLoop matchingBrace 1 where
  escaped {d c rest} deep := by rw [matchingBrace, if_neg (by omega), if_pos rfl, if_pos rfl]
  backslash {d rest} deep := by
    rw [matchingBrace, if_neg (by omega), if_pos rfl, if_neg (by decide), if_pos rfl]
  inside {d c rest} deep quote backslash := by
    rw [matchingBrace, if_neg (by omega), if_pos rfl, if_neg (by decide), if_neg backslash,
      if_neg quote]
  closes {d rest} deep := by
    rw [matchingBrace, if_neg (by omega), if_pos rfl, if_neg (by decide), if_neg (by decide),
      if_pos rfl]
  inert {d c rest} deep other := by
    obtain ⟨quote, opening, closing, brace, close⟩ := other
    rw [matchingBrace, if_neg (by omega), if_neg (by decide), if_neg quote,
      if_neg (by simp [opening, brace]), if_neg (by simp [closing, close])]
  opens {d rest} deep := by
    rw [matchingBrace, if_neg (by omega), if_neg (by decide), if_pos rfl]
  up {d c rest} deep bracket := by
    rw [matchingBrace, if_neg (by omega), if_neg (by decide), if_neg (by grind),
      if_pos (by grind)]
  down {d c rest} deep bracket := by
    rw [matchingBrace, if_neg (by omega), if_neg (by decide), if_neg (by grind),
      if_neg (by grind), if_pos (by grind), Int.add_sub_cancel]

theorem walkArray_loop : ScalarLoop (fun b _ inStr esc => walkArray b inStr esc) 0 where
  escaped _ := by rw [walkArray, if_pos rfl, if_pos rfl]
  backslash _ := by rw [walkArray, if_pos rfl, if_neg (by decide), if_pos rfl]
  inside _ quote backslash := by
    rw [walkArray, if_pos rfl, if_neg (by decide), if_neg backslash, if_neg quote]
  closes _ := by
    rw [walkArray, if_pos rfl, if_neg (by decide), if_neg (by decide), if_pos rfl]
  inert _ other := by
    obtain ⟨quote, -, closing, brace, -⟩ := other
    rw [walkArray, if_neg (by decide), if_neg quote, if_neg closing, if_neg brace]
  opens _ := by rw [walkArray, if_neg (by decide), if_pos rfl]

/-- Keys matter at depth 0 only. -/
theorem scanFields_loop (out : ObjFields) (least : Int) :
    TextLoop (fun b depth inStr esc => scanFields b depth inStr esc out) least where
  escaped _ := by rw [scanFields, if_pos rfl, if_pos rfl]
  backslash _ := by rw [scanFields, if_pos rfl, if_neg (by decide), if_pos rfl]
  inside _ quote backslash := by
    rw [scanFields, if_pos rfl, if_neg (by decide), if_neg backslash, if_neg quote]
  closes _ := by
    rw [scanFields, if_pos rfl, if_neg (by decide), if_neg (by decide), if_pos rfl]
  inert _ other := by
    obtain ⟨quote, opening, closing, brace, close⟩ := other
    rw [scanFields, if_neg (by decide), if_neg quote, if_neg (by simp [opening, brace]),
      if_neg (by simp [closing, close])]

theorem scanFields_up {c : UInt8} (bracket : c = 0x5B ∨ c = 0x7B) (rest : Bytes) (depth : Int)
    (out : ObjFields) :
    scanFields (c :: rest) depth false false out = scanFields rest (depth + 1) false false out := by
  rw [scanFields, if_neg (by decide), if_neg (by grind), if_pos (by grind)]

theorem scanFields_down {c : UInt8} (bracket : c = 0x5D ∨ c = 0x7D) (rest : Bytes) (depth : Int)
    (out : ObjFields) :
    scanFields (c :: rest) (depth + 1) false false out = scanFields rest depth false false out := by
  rw [scanFields, if_neg (by decide), if_neg (by grind), if_neg (by grind), if_pos (by grind),
    Int.add_sub_cancel]

theorem scanFields_nested (out : ObjFields) :
    ValueLoop (fun b depth inStr esc => scanFields b depth inStr esc out) 1 where
  toTextLoop := scanFields_loop out 1
  opens {d rest} deep := by
    rw [scanFields, if_neg (by decide), if_pos rfl, if_neg (by omega)]
  up _ bracket := scanFields_up bracket _ _ out
  down _ bracket := scanFields_down bracket _ _ out

/-! ### Behind a key -/

theorem skipWsColon_spaces (spaces : Spaces) (rest : Bytes) :
    skipWsColon (spaces.render ++ rest) = skipWsColon rest := by
  induction spaces with
  | nil => rfl
  | cons s spaces ih =>
    refine (List.dropWhile_cons_of_pos ?_).trans ih
    cases s <;> decide

theorem skipWsColon_colon (rest : Bytes) : skipWsColon (0x3A :: rest) = skipWsColon rest :=
  List.dropWhile_cons_of_pos (by decide)

theorem skipWsColon_of_start {c : UInt8} (space : isSpace c = false) (colon : c ≠ 0x3A)
    (rest : Bytes) : skipWsColon (c :: rest) = c :: rest := by
  refine List.dropWhile_cons_of_neg ?_
  simp [space, colon]

/-- What follows the value of a member and the white space behind it. -/
def Ends (rest : Bytes) : Prop := rest = [] ∨ ∃ more, rest = 0x2C :: more

theorem Ends.skip {rest : Bytes} (ends : Ends rest) (after : Spaces) :
    skipWsColon (after.render ++ rest) = rest := by
  rw [skipWsColon_spaces]
  obtain rfl | ⟨more, rfl⟩ := ends
  · rfl
  · exact skipWsColon_of_start (by decide) (by decide) more

theorem ends_continued (members : Members) : Ends members.continued := by
  cases members with
  | nil => exact .inl rfl
  | cons => exact .inr ⟨_, rfl⟩

/-! ### Numbers -/

theorem isDigit_digitOctet (d : Fin 10) : isDigit (digitOctet d) = true := by
  revert d
  decide

theorem stoi_digits (whole : Whole) :
    stoi (whole.digits.map digitOctet) =
      if digitsValue whole.digits ≤ 2147483647 then some (digitsValue whole.digits : Int)
      else none := by
  have octet : ∀ d : Fin 10, (digitOctet d).toNat - 0x30 = d.val := by decide
  have some_digit : whole.digits.map digitOctet ≠ [] := by cases whole <;> nofun
  rw [stoi, if_neg some_digit]
  simp only [List.foldl_map, octet]
  rfl

/-- Not a digit in front. -/
def NoDigit (b : Bytes) : Prop := ∀ c ∈ b.head?, isDigit c = false

theorem Ends.noDigit {rest : Bytes} (ends : Ends rest) (after : Spaces) :
    NoDigit (after.render ++ rest) := by
  intro c head
  cases after with
  | nil =>
    obtain rfl | ⟨more, rfl⟩ := ends
    · cases head
    · cases head
      decide
  | cons s after =>
    cases head
    cases s <;> decide

theorem noDigit_tail (n : JsonNumber) {rest : Bytes} (none : NoDigit rest) :
    NoDigit (n.tail ++ rest) := by
  rw [JsonNumber.tail]
  by_cases whole : n.fraction = []
  · rw [if_pos whole, List.nil_append]
    cases n.exponent with
    | none => exact none
    | some e =>
      intro c head
      cases head
      cases e.upper <;> decide
  · rw [if_neg whole]
    intro c head
    cases head
    decide

theorem takeWhile_digits (digits : List (Fin 10)) {rest : Bytes} (none : NoDigit rest) :
    (digits.map digitOctet ++ rest).takeWhile isDigit = digits.map digitOctet ∧
      (digits.map digitOctet ++ rest).dropWhile isDigit = rest := by
  induction digits with
  | nil =>
    cases rest with
    | nil => exact ⟨rfl, rfl⟩
    | cons c rest =>
      have other : isDigit c = false := none c rfl
      exact ⟨List.takeWhile_cons_of_neg (by simp [other]),
        List.dropWhile_cons_of_neg (by simp [other])⟩
  | cons d digits ih =>
    have first := isDigit_digitOctet d
    rw [List.map_cons, List.cons_append, List.takeWhile_cons_of_pos first,
      List.dropWhile_cons_of_pos first, ih.1]
    exact ⟨rfl, ih.2⟩

/-! ### Strings -/

/-- What the reader makes of a piece: the letter of an escape that it does not know stands for
itself, and that of a code unit is one of these. -/
def readPiece : Piece → Bytes
  | .plain c => String.utf8EncodeChar c.val
  | .escape e => [unescape e.letter]
  | .unit u => 0x75 :: u.digits.map HexDigit.octet

def readPieces (s : Pieces) : Bytes := s.flatMap readPiece

theorem readString_octets {b : Bytes} (all : ∀ c ∈ b, c ≠ 0x22 ∧ c ≠ 0x5C) (rest : Bytes) :
    readString (b ++ rest) false =
      (b ++ (readString rest false).1, (readString rest false).2) := by
  induction b with
  | nil => rfl
  | cons c b ih =>
    obtain ⟨⟨quote, backslash⟩, others⟩ := List.forall_mem_cons.mp all
    rw [List.cons_append, readString, if_neg backslash, if_neg quote, ih others]
    rfl

theorem readString_escaped (c : UInt8) (rest : Bytes) :
    readString (0x5C :: c :: rest) false =
      (unescape c :: (readString rest false).1, (readString rest false).2) := by
  rw [readString, if_pos rfl, readString]

theorem readString_pieces (s : Pieces) (rest : Bytes) :
    readString (s.render ++ (0x22 :: rest)) false = (readPieces s, rest) := by
  induction s with
  | nil =>
    change readString (0x22 :: rest) false = _
    rw [readString, if_neg (by decide), if_pos rfl]
    rfl
  | cons piece s ih =>
    rw [Pieces.render, List.flatMap_cons, List.append_assoc, ← Pieces.render, readPieces,
      List.flatMap_cons, ← readPieces]
    cases piece with
    | plain c =>
      rw [Piece.render, readString_octets (fun _ => c.octet_ne), ih]
      rfl
    | escape e =>
      change readString (0x5C :: e.letter :: (Pieces.render s ++ _)) false = _
      rw [readString_escaped, ih]
      rfl
    | unit u =>
      have plain : ∀ c ∈ u.digits.map HexDigit.octet, c ≠ 0x22 ∧ c ≠ 0x5C := by
        intro c member
        obtain ⟨h, -, rfl⟩ := List.mem_map.mp member
        exact h.octet_ne
      change readString (0x5C :: 0x75 :: (u.digits.map HexDigit.octet ++ _)) false = _
      rw [readString_escaped, readString_octets plain, ih]
      rfl

/-! ### Keys -/

theorem take_quoted {word : Bytes} (plain : ∀ c ∈ word, c ≠ 0x22 ∧ c ≠ 0x5C)
    (four : word.length = 4) (s : Pieces) (rest : Bytes) :
    (0x22 :: (s.render ++ (0x22 :: rest))).take 6 = 0x22 :: (word ++ [0x22]) ↔ s.render = word := by
  constructor
  · intro same
    have inner : (s.render ++ (0x22 :: rest)).take 5 = word ++ [0x22] := (List.cons.inj same).2
    have split : s.render ++ (0x22 :: rest) =
        word ++ (0x22 :: (s.render ++ (0x22 :: rest)).drop 5) :=
      calc s.render ++ (0x22 :: rest)
          = (s.render ++ (0x22 :: rest)).take 5 ++ (s.render ++ (0x22 :: rest)).drop 5 :=
            (List.take_append_drop 5 _).symm
        _ = _ := by rw [inner, List.append_assoc, List.singleton_append]
    exact Pieces.word_of_append plain split
  · rintro rfl
    rw [List.take_succ_cons, List.take_append, four, List.take_of_length_le (by omega)]
    rfl

theorem plain_of_all {word : Bytes} (all : word.all (fun c => c ≠ 0x22 ∧ c ≠ 0x5C) = true) :
    ∀ c ∈ word, c ≠ 0x22 ∧ c ≠ 0x5C :=
  fun c member => of_decide_eq_true (List.all_eq_true.mp all c member)

theorem take_type (s : Pieces) (rest : Bytes) :
    (0x22 :: (s.render ++ (0x22 :: rest))).take 6 = ascii "\"type\"" ↔ s.render = ascii "type" :=
  have all : (ascii "type").all (fun c => c ≠ 0x22 ∧ c ≠ 0x5C) = true := by decide
  take_quoted (plain_of_all all) rfl s rest

theorem take_data (s : Pieces) (rest : Bytes) :
    (0x22 :: (s.render ++ (0x22 :: rest))).take 6 = ascii "\"data\"" ↔ s.render = ascii "data" :=
  have all : (ascii "data").all (fun c => c ≠ 0x22 ∧ c ≠ 0x5C) = true := by decide
  take_quoted (plain_of_all all) rfl s rest

theorem quoted_append (s : Pieces) (rest : Bytes) :
    quoted s ++ rest = 0x22 :: (s.render ++ (0x22 :: rest)) := by
  rw [quoted, List.cons_append, List.append_assoc, List.singleton_append]

theorem drop_quoted {s : Pieces} (four : s.render.length = 4) (rest : Bytes) :
    (s.render ++ (0x22 :: rest)).drop 5 = rest := by
  rw [List.drop_append, four, List.drop_of_length_le (by omega)]
  rfl

variable {s : Pieces} (rest : Bytes) (out : ObjFields)

theorem scanFields_type (key : s.render = ascii "type") :
    scanFields (quoted s ++ rest) 0 false false out =
      scanFields (readType rest out).2 0 false false (readType rest out).1 := by
  have four : s.render.length = 4 := congrArg List.length key
  rw [quoted_append, scanFields, if_neg (by decide), if_pos rfl, if_pos rfl,
    if_pos ((take_type s rest).mpr key), drop_quoted four]

theorem scanFields_data (key : s.render = ascii "data") :
    scanFields (quoted s ++ rest) 0 false false out =
      scanFields (readData rest out).2 0 false false (readData rest out).1 := by
  have four : s.render.length = 4 := congrArg List.length key
  have other : s.render ≠ ascii "type" := by
    rw [key]
    decide
  rw [quoted_append, scanFields, if_neg (by decide), if_pos rfl, if_pos rfl,
    if_neg (mt (take_type s rest).mp other), if_pos ((take_data s rest).mpr key), drop_quoted four]

theorem scanFields_other (type : s.render ≠ ascii "type") (data : s.render ≠ ascii "data") :
    scanFields (quoted s ++ rest) 0 false false out = scanFields rest 0 false false out := by
  rw [quoted_append, scanFields, if_neg (by decide), if_pos rfl, if_pos rfl,
    if_neg (mt (take_type s rest).mp type), if_neg (mt (take_data s rest).mp data)]
  exact (scanFields_loop out 0).pieces le_rfl s rest

/-! ### Values -/

theorem render_head (v : Json) : ∃ c b, v.render = c :: b ∧ isSpace c = false ∧ c ≠ 0x3A ∧
    (c = 0x22 → ∃ s, v = .string s) ∧
    (isDigit c = true → ∃ n, v = .number n ∧ n.negative = false) := by
  cases v with
  | literal l => cases l <;> exact ⟨_, _, rfl, by decide, by decide, nofun, nofun⟩
  | string s => exact ⟨_, _, rfl, by decide, by decide, fun _ => ⟨s, rfl⟩, nofun⟩
  | array => exact ⟨_, _, rfl, by decide, by decide, nofun, nofun⟩
  | object => exact ⟨_, _, rfl, by decide, by decide, nofun, nofun⟩
  | number n =>
    cases sign : n.negative with
    | true =>
      refine ⟨0x2D, n.whole.digits.map digitOctet ++ n.tail, ?_, by decide, by decide, nofun, nofun⟩
      rw [Json.render, JsonNumber.render, sign]
      rfl
    | false =>
      obtain ⟨d, more, digits⟩ : ∃ d more, n.whole.digits = d :: more := by
        cases n.whole <;> exact ⟨_, _, rfl⟩
      have octet : ∀ d : Fin 10,
          isSpace (digitOctet d) = false ∧ digitOctet d ≠ 0x3A ∧ digitOctet d ≠ 0x22 := by decide
      refine ⟨digitOctet d, more.map digitOctet ++ n.tail, ?_, (octet d).1, (octet d).2.1,
        fun quote => absurd quote (octet d).2.2, fun _ => ⟨n, rfl, sign⟩⟩
      rw [Json.render, JsonNumber.render, sign, digits]
      rfl

theorem skip_to_value (colon : Spaces × Spaces) (v : Json) (rest : Bytes) :
    skipWsColon (colon.1.render ++ (0x3A :: (colon.2.render ++ (v.render ++ rest)))) =
      v.render ++ rest := by
  obtain ⟨c, b, head, space, other, -⟩ := render_head v
  rw [skipWsColon_spaces, skipWsColon_colon, skipWsColon_spaces, head, List.cons_append]
  exact skipWsColon_of_start space other (b ++ rest)

/-- A string at depth 0 is taken for a key, but no colon and value follow it. -/
theorem scanFields_string (s : Pieces) (after : Spaces) {rest : Bytes} (ends : Ends rest)
    (out : ObjFields) :
    scanFields (quoted s ++ (after.render ++ rest)) 0 false false out =
      scanFields rest 0 false false out := by
  have skipped := ends.skip after
  have read : readType (after.render ++ rest) out = (out, rest) ∧
      readData (after.render ++ rest) out = (out, rest) := by
    rw [readType, readData, skipped]
    obtain rfl | ⟨more, rfl⟩ := ends
    · exact ⟨rfl, rfl⟩
    · exact ⟨rfl, rfl⟩
  by_cases type : s.render = ascii "type"
  · rw [scanFields_type _ out type, read.1]
  · by_cases data : s.render = ascii "data"
    · rw [scanFields_data _ out data, read.2]
    · rw [scanFields_other _ out type data]
      exact (scanFields_loop out 0).spaces le_rfl after rest

theorem scanFields_value (v : Json) (after : Spaces) {rest : Bytes} (ends : Ends rest)
    (out : ObjFields) :
    scanFields (v.render ++ (after.render ++ rest)) 0 false false out =
      scanFields rest 0 false false out := by
  have loop := scanFields_loop out 0
  have nested := scanFields_nested out
  have spaces := loop.spaces le_rfl after rest
  cases v with
  | literal l => exact (loop.inertOctets le_rfl l.inert _).trans spaces
  | number n => exact (loop.inertOctets le_rfl n.inert _).trans spaces
  | string s => exact scanFields_string s after ends out
  | array lead elements =>
    refine Eq.trans ?_ spaces
    rw [Json.render, List.cons_append, List.append_assoc, List.append_assoc,
      scanFields_up (.inl rfl)]
    refine (nested.spaces le_rfl lead _).trans ((nested.elements elements le_rfl _).trans ?_)
    exact scanFields_down (.inl rfl) _ 0 out
  | object lead members =>
    refine Eq.trans ?_ spaces
    rw [Json.render, List.cons_append, List.append_assoc, List.append_assoc,
      scanFields_up (.inr rfl)]
    refine (nested.spaces le_rfl lead _).trans ((nested.members members le_rfl _).trans ?_)
    exact scanFields_down (.inr rfl) _ 0 out

/-! ### Members -/

/-- The number that the reader takes for a type: the digits before the point, if no sign is in front
and they fit an `int`. -/
def typeRead : Json → Option Int
  | .number n =>
    if n.negative ∨ 2147483647 < digitsValue n.whole.digits then none
    else some (digitsValue n.whole.digits)
  | _ => none

def typeKey (name : Pieces) : Bool := name.render = ascii "type"

def dataKey (name : Pieces) : Bool := name.render = ascii "data"

/-- A member of an object, as the reader takes it. -/
def readMember (name : Pieces) (v : Json) (out : ObjFields) : ObjFields :=
  if typeKey name then { out with type := (typeRead v).getD out.type }
  else if dataKey name then
    match v.pieces with
    | some s => { out with data := stripQuotes (readPieces s), hasData := true }
    | none => out
  else out

theorem readType_value (colon : Spaces × Spaces) (v : Json) {rest : Bytes} (none : NoDigit rest)
    (out : ObjFields) :
    ∃ left, readType (colon.1.render ++ (0x3A :: (colon.2.render ++ (v.render ++ rest)))) out =
        ({ out with type := (typeRead v).getD out.type }, left) ∧
      (left = v.render ++ rest ∨ ∃ n, v = .number n ∧ left = n.tail ++ rest) := by
  rw [readType, skip_to_value]
  by_cases digits : ∃ n, v = .number n ∧ n.negative = false
  · obtain ⟨n, rfl, sign⟩ := digits
    have taken := takeWhile_digits n.whole.digits (noDigit_tail n none)
    refine ⟨n.tail ++ rest, ?_, .inr ⟨n, rfl, rfl⟩⟩
    rw [Json.render, JsonNumber.render, sign, if_neg (by decide), List.nil_append,
      List.append_assoc, taken.1, taken.2, stoi_digits, typeRead, sign]
    by_cases fits : digitsValue n.whole.digits ≤ 2147483647
    · rw [if_pos fits, if_neg (by simpa using fits)]
      rfl
    · rw [if_neg fits, if_pos (.inr (by omega))]
      rfl
  · -- no digit in front, and nothing is read
    obtain ⟨c, b, head, -, -, -, digit⟩ := render_head v
    have other : isDigit c = false := by
      cases value : isDigit c with
      | false => rfl
      | true => exact absurd (digit value) digits
    have unread : typeRead v = Option.none := by
      cases v with
      | number n =>
        refine if_pos (.inl ?_)
        cases sign : n.negative with
        | true => rfl
        | false => exact absurd ⟨n, rfl, sign⟩ digits
      | _ => rfl
    refine ⟨v.render ++ rest, ?_, .inl rfl⟩
    rw [unread, head, List.cons_append, List.takeWhile_cons_of_neg (by simp [other]),
      List.dropWhile_cons_of_neg (by simp [other])]
    rfl

theorem readData_value (colon : Spaces × Spaces) (v : Json) (rest : Bytes) (out : ObjFields) :
    readData (colon.1.render ++ (0x3A :: (colon.2.render ++ (v.render ++ rest)))) out =
      match v.pieces with
      | some s => ({ out with data := stripQuotes (readPieces s), hasData := true }, rest)
      | none => (out, v.render ++ rest) := by
  rw [readData, skip_to_value]
  by_cases string : ∃ s, v = .string s
  · obtain ⟨s, rfl⟩ := string
    rw [Json.render, quoted_append]
    simp only [if_true, readString_pieces, Json.pieces]
  · obtain ⟨c, b, head, -, -, quote, -⟩ := render_head v
    have unread : v.pieces = none := by
      cases v with
      | string s => exact absurd ⟨s, rfl⟩ string
      | _ => rfl
    rw [unread, head, List.cons_append]
    exact if_neg (mt quote string)

theorem scanFields_member (name : Pieces) (colon : Spaces × Spaces) (v : Json) (after : Spaces)
    {rest : Bytes} (ends : Ends rest) (out : ObjFields) :
    scanFields (quoted name ++ (colon.1.render ++ (0x3A :: (colon.2.render ++
        (v.render ++ (after.render ++ rest)))))) 0 false false out =
      scanFields rest 0 false false (readMember name v out) := by
  have loop := scanFields_loop
  rw [readMember]
  by_cases type : name.render = ascii "type"
  · rw [if_pos (show typeKey name = true from decide_eq_true type), scanFields_type _ out type]
    obtain ⟨left, read, here⟩ := readType_value colon v (ends.noDigit after) out
    rw [read]
    obtain rfl | ⟨n, rfl, rfl⟩ := here
    · exact scanFields_value v after ends _
    · -- the rest of the number
      exact ((loop _ 0).inertOctets le_rfl n.inert_tail _).trans
        ((loop _ 0).spaces le_rfl after rest)
  · rw [if_neg (by simpa [typeKey] using type)]
    by_cases data : name.render = ascii "data"
    · rw [if_pos (show dataKey name = true from decide_eq_true data), scanFields_data _ out data,
        readData_value]
      cases v.pieces with
      | some s => exact (loop _ 0).spaces le_rfl after rest
      | none => exact scanFields_value v after ends out
    · rw [if_neg (by simpa [dataKey] using data), scanFields_other _ out type data]
      refine ((loop out 0).spaces le_rfl colon.1 _).trans (((loop out 0).inert le_rfl ?_).trans
        (((loop out 0).spaces le_rfl colon.2 _).trans (scanFields_value v after ends out)))
      decide

/-- The members of an object, as the reader takes them. -/
def readMembers : Members → ObjFields → ObjFields
  | .nil, out => out
  | .cons _ name _ v _ rest, out => readMembers rest (readMember name v out)

theorem scanFields_continued (members : Members) (out : ObjFields) :
    scanFields members.continued 0 false false out = readMembers members out := by
  cases members with
  | nil => rw [Members.continued, scanFields, readMembers]
  | cons before name colon v after rest =>
    have loop := scanFields_loop out 0
    rw [Members.continued, readMembers, ← scanFields_continued rest]
    refine (loop.inert le_rfl ?_).trans ((loop.spaces le_rfl before _).trans
      (scanFields_member name colon v after (ends_continued rest) out))
    decide

theorem scanFields_members (members : Members) (out : ObjFields) :
    scanFields members.render 0 false false out = readMembers members out := by
  cases members with
  | nil => rw [Members.render, scanFields, readMembers]
  | cons before name colon v after rest =>
    rw [Members.render, readMembers, ← scanFields_continued rest]
    exact ((scanFields_loop out 0).spaces le_rfl before _).trans
      (scanFields_member name colon v after (ends_continued rest) out)

/-- Of several members that the reader can use, it goes by the last. -/
theorem readMembers_eq (members : Members) (out : ObjFields) :
    readMembers members out =
      ⟨(((members.values typeKey).filterMap typeRead).getLast?).getD out.type,
        ((((members.values dataKey).filterMap Json.pieces).getLast?).map
          fun s => stripQuotes (readPieces s)).getD out.data,
        (((members.values dataKey).filterMap Json.pieces).getLast?).isSome || out.hasData⟩ := by
  cases members with
  | nil => rfl
  | cons _ name _ v _ rest =>
    rw [readMembers, readMembers_eq rest, Members.values, Members.values, readMember]
    by_cases type : typeKey name = true
    · have data : dataKey name = false := by
        rw [dataKey, of_decide_eq_true type]
        decide
      rw [if_pos type, if_pos type, data, List.filterMap_cons]
      cases typeRead v with
      | none => rfl
      | some number =>
        rw [List.getLast?_cons]
        rfl
    · rw [if_neg type, if_neg type]
      by_cases data : dataKey name = true
      · rw [if_pos data, if_pos data, List.filterMap_cons]
        cases v.pieces with
        | none => rfl
        | some s =>
          rw [List.getLast?_cons]
          cases ((rest.values dataKey).filterMap Json.pieces).getLast? <;> simp
      · rw [if_neg data, if_neg data]

/-! ### Records -/

/-- To the brace that closes an object. -/
theorem matchingBrace_members (lead : Spaces) (members : Members) (rest : Bytes) :
    matchingBrace (lead.render ++ (members.render ++ (0x7D :: rest))) 1 false false =
      some rest := by
  have loop := matchingBrace_loop
  refine (loop.spaces le_rfl lead _).trans ((loop.members members le_rfl _).trans ?_)
  have closed : matchingBrace (0x7D :: rest) 1 false false = matchingBrace rest 0 false false := by
    rw [matchingBrace, if_neg (by decide), if_neg (by decide), if_neg (by decide),
      if_neg (by decide), if_pos (by decide)]
    rfl
  rw [closed]
  cases rest with
  | nil => rfl
  | cons d rest => rw [matchingBrace, if_pos le_rfl]

/-- The string that the reader takes from an object. -/
def readRecord (record : Members) : Option Pieces :=
  if ((record.values typeKey).filterMap typeRead).getLast? = some 16 then
    ((record.values dataKey).filterMap Json.pieces).getLast?
  else none

theorem txtOf_readMembers (record : Members) :
    txtOf (readMembers record .initial) =
      (readRecord record).toList.map fun s => stripQuotes (readPieces s) := by
  rw [readMembers_eq, txtOf, readRecord]
  cases ((record.values typeKey).filterMap typeRead).getLast? with
  | none => rfl
  | some type =>
    by_cases txt : type = 16
    · subst txt
      cases ((record.values dataKey).filterMap Json.pieces).getLast? <;> rfl
    · simp [txt]

theorem walkArray_object (lead : Spaces) (members : Members) (rest : Bytes) :
    walkArray ((Json.object lead members).render ++ rest) false false =
      ((readRecord members).toList.map fun s => stripQuotes (readPieces s)) ++
        walkArray rest false false := by
  have found := matchingBrace_members lead members rest
  have inner : (lead.render ++ (members.render ++ (0x7D :: rest))).take
      ((lead.render ++ (members.render ++ (0x7D :: rest))).length - rest.length - 1) =
        lead.render ++ members.render := by
    rw [← List.append_assoc]
    refine List.take_left' ?_
    simp only [List.length_append, List.length_cons]
    omega
  rw [Json.render, List.cons_append, List.append_assoc, List.append_assoc, List.singleton_append,
    walkArray, if_neg (by decide), if_neg (by decide), if_neg (by decide), if_pos rfl]
  split
  · next none =>
    rw [found] at none
    cases none
  · next after some =>
    rw [found] at some
    cases some
    rw [inner, scanObjectFields, ← txtOf_readMembers]
    congr 2
    exact ((scanFields_loop .initial 0).spaces le_rfl lead _).trans
      (scanFields_members members .initial)

/-- One element, if it is no array. -/
theorem walkArray_value (v : Json) (flat : ∀ lead elements, v ≠ .array lead elements)
    (rest : Bytes) :
    walkArray (v.render ++ rest) false false =
      ((v.members.bind readRecord).toList.map fun s => stripQuotes (readPieces s)) ++
        walkArray rest false false := by
  have loop := walkArray_loop
  cases v with
  | literal l => exact loop.inertOctets (d := 0) le_rfl l.inert rest
  | number n => exact loop.inertOctets (d := 0) le_rfl n.inert rest
  | string s => exact loop.quoted (d := 0) le_rfl s rest
  | array lead elements => exact absurd rfl (flat lead elements)
  | object lead members => exact walkArray_object lead members rest

/-- What the reader takes from the elements of an array. -/
def readValues (values : List Json) : List Bytes :=
  ((values.filterMap Json.members).filterMap readRecord).map fun s => stripQuotes (readPieces s)

theorem readValues_cons (v : Json) (values : List Json) :
    readValues (v :: values) =
      ((v.members.bind readRecord).toList.map fun s => stripQuotes (readPieces s)) ++
        readValues values := by
  rw [readValues]
  cases members : v.members with
  | none =>
    rw [List.filterMap_cons_none members]
    rfl
  | some record =>
    rw [List.filterMap_cons_some members]
    cases taken : readRecord record with
    | none =>
      rw [List.filterMap_cons_none taken, Option.bind_some, taken]
      rfl
    | some s =>
      rw [List.filterMap_cons_some taken, Option.bind_some, taken]
      rfl

theorem walkArray_continued (elements : Elements)
    (flat : ∀ v ∈ elements.values, ∀ lead inner, v ≠ .array lead inner) (behind : Bytes) :
    walkArray (elements.continued ++ (0x5D :: behind)) false false =
      readValues elements.values :=
  match elements with
  | .nil => by
    rw [Elements.continued, List.nil_append, walkArray, if_neg (by decide), if_neg (by decide),
      if_pos rfl]
    rfl
  | .cons before v after rest => by
    have loop := walkArray_loop
    obtain ⟨first, others⟩ := List.forall_mem_cons.mp flat
    rw [Elements.continued, List.cons_append, List.append_assoc, List.append_assoc,
      List.append_assoc, Elements.values, readValues_cons, ← walkArray_continued rest others behind]
    refine (loop.inert (d := 0) le_rfl (by decide)).trans
      ((loop.spaces (d := 0) le_rfl before _).trans ((walkArray_value v first _).trans ?_))
    exact congrArg _ (loop.spaces (d := 0) le_rfl after _)

theorem walkArray_elements (elements : Elements)
    (flat : ∀ v ∈ elements.values, ∀ lead inner, v ≠ .array lead inner) (behind : Bytes) :
    walkArray (elements.render ++ (0x5D :: behind)) false false =
      readValues elements.values := by
  have loop := walkArray_loop
  cases elements with
  | nil => exact walkArray_continued .nil flat behind
  | cons before v after rest =>
    obtain ⟨first, others⟩ := List.forall_mem_cons.mp flat
    rw [Elements.render, List.append_assoc, List.append_assoc, List.append_assoc, Elements.values,
      readValues_cons, ← walkArray_continued rest others behind]
    refine (loop.spaces (d := 0) le_rfl before _).trans ((walkArray_value v first _).trans ?_)
    exact congrArg _ (loop.spaces (d := 0) le_rfl after _)

end FinBit.Net.Doh
