import Mathlib.Algebra.Field.Rat
import FinBit.Lib.Utf8

/-! # JSON

A document is a tree of what is written: white space, the digits of numbers and the escapes of
strings are kept, so that every document is the text of a tree. Beside the trees stands what they
mean, and how a loop over the octets of a text fares that only looks for strings and brackets.
-/

namespace FinBit.Lib

/-! ### Tokens -/

inductive Space where
  | blank
  | tab
  | lineFeed
  | carriageReturn

def Space.octet : Space → UInt8
  | blank => 0x20
  | tab => 0x09
  | lineFeed => 0x0A
  | carriageReturn => 0x0D

/-- White space between tokens. -/
abbrev Spaces := List Space

def Spaces.render (spaces : Spaces) : Bytes := spaces.map Space.octet

/-- The digits before the point: none but the first of a single one is 0. -/
inductive Whole where
  | zero
  | positive (first : Fin 9) (more : List (Fin 10))

def Whole.digits : Whole → List (Fin 10)
  | zero => [0]
  | positive first more => first.succ :: more

structure Exponent where
  upper : Bool
  /-- The sign, if there is one. -/
  negative : Option Bool
  first : Fin 10
  more : List (Fin 10)

structure JsonNumber where
  negative : Bool
  whole : Whole
  /-- No digits stand for no fraction. -/
  fraction : List (Fin 10)
  exponent : Option Exponent

def digitOctet (d : Fin 10) : UInt8 := UInt8.ofNat (48 + d.val)

def digitsValue (digits : List (Fin 10)) : Nat := digits.foldl (fun n d => 10 * n + d.val) 0

def Exponent.render (e : Exponent) : Bytes :=
  (if e.upper then 0x45 else 0x65) ::
    ((match e.negative with
      | none => []
      | some true => [0x2D]
      | some false => [0x2B]) ++ (e.first :: e.more).map digitOctet)

def Exponent.value (e : Exponent) : Int :=
  if e.negative = some true then -digitsValue (e.first :: e.more)
  else digitsValue (e.first :: e.more)

namespace JsonNumber

/-- What comes behind the digits before the point. -/
def tail (n : JsonNumber) : Bytes :=
  (if n.fraction = [] then [] else 0x2E :: n.fraction.map digitOctet) ++
    (n.exponent.map Exponent.render).getD []

def render (n : JsonNumber) : Bytes :=
  (if n.negative then [0x2D] else []) ++ (n.whole.digits.map digitOctet ++ n.tail)

def value (n : JsonNumber) : ℚ :=
  (if n.negative then -1 else 1) * digitsValue (n.whole.digits ++ n.fraction) *
    10 ^ ((n.exponent.map Exponent.value).getD 0 - n.fraction.length)

end JsonNumber

/-- A character that may stand for itself in a string. -/
abbrev PlainChar := {c : Char // 0x20 ≤ c.val.toNat ∧ c ≠ '"' ∧ c ≠ '\\'}

inductive Escape where
  | quote
  | backslash
  | slash
  | backspace
  | formFeed
  | lineFeed
  | carriageReturn
  | tab
  deriving DecidableEq

namespace Escape

/-- The letter behind the backslash. -/
def letter : Escape → UInt8
  | quote => 0x22
  | backslash => 0x5C
  | slash => 0x2F
  | backspace => 0x62
  | formFeed => 0x66
  | lineFeed => 0x6E
  | carriageReturn => 0x72
  | tab => 0x74

def value : Escape → UInt8
  | quote => 0x22
  | backslash => 0x5C
  | slash => 0x2F
  | backspace => 0x08
  | formFeed => 0x0C
  | lineFeed => 0x0A
  | carriageReturn => 0x0D
  | tab => 0x09

end Escape

structure HexDigit where
  value : Fin 16
  upper : Bool

def HexDigit.octet (h : HexDigit) : UInt8 :=
  UInt8.ofNat (h.value.val + if h.value.val < 10 then 48 else if h.upper then 55 else 87)

/-- The digits of a `\u` escape. -/
structure CodeUnit where
  digits : List HexDigit
  four : digits.length = 4

def CodeUnit.value (u : CodeUnit) : Nat := u.digits.foldl (fun n h => 16 * n + h.value.val) 0

inductive Piece where
  | plain (c : PlainChar)
  | escape (e : Escape)
  | unit (u : CodeUnit)

def Piece.render : Piece → Bytes
  | plain c => String.utf8EncodeChar c.val
  | escape e => [0x5C, e.letter]
  | unit u => 0x5C :: 0x75 :: u.digits.map HexDigit.octet

/-- A string between its quotes. -/
abbrev Pieces := List Piece

namespace Pieces

def render (s : Pieces) : Bytes := s.flatMap Piece.render

/-- A code unit of its own; half a pair is no character. -/
def single (u : Nat) : Char := if 0xD800 ≤ u ∧ u < 0xE000 then replacement else Char.ofNat u

/-- The text that a string stands for, in UTF-8. Two code units may stand for one character. -/
def decode : Pieces → Bytes
  | [] => []
  | .plain c :: rest => String.utf8EncodeChar c.val ++ decode rest
  | .escape e :: rest => e.value :: decode rest
  | .unit u :: .unit v :: rest =>
    if (0xD800 ≤ u.value ∧ u.value < 0xDC00) ∧ 0xDC00 ≤ v.value ∧ v.value < 0xE000 then
      String.utf8EncodeChar
        (Char.ofNat (0x10000 + (u.value - 0xD800) * 0x400 + (v.value - 0xDC00))) ++ decode rest
    else String.utf8EncodeChar (single u.value) ++ decode (.unit v :: rest)
  | .unit u :: rest => String.utf8EncodeChar (single u.value) ++ decode rest

/-- The characters of a text that may stand for themselves. -/
def written (text : String) : Pieces :=
  text.toList.filterMap fun c =>
    if plain : 0x20 ≤ c.val.toNat ∧ c ≠ '"' ∧ c ≠ '\\' then some (.plain ⟨c, plain⟩) else none

theorem written_ofList (text : List Char) :
    written (String.ofList text) = text.filterMap fun c =>
      if plain : 0x20 ≤ c.val.toNat ∧ c ≠ '"' ∧ c ≠ '\\' then some (.plain ⟨c, plain⟩) else none := by
  rw [written, String.toList_ofList]

end Pieces

/-! ### Trees -/

inductive Literal where
  | null
  | true
  | false

def Literal.render : Literal → Bytes
  | null => ascii "null"
  | true => ascii "true"
  | false => ascii "false"

mutual

inductive Json where
  | literal (l : Literal)
  | number (n : JsonNumber)
  | string (s : Pieces)
  | array (lead : Spaces) (elements : Elements)
  | object (lead : Spaces) (members : Members)

inductive Elements where
  | nil
  | cons (before : Spaces) (value : Json) (after : Spaces) (rest : Elements)

inductive Members where
  | nil
  | cons (before : Spaces) (name : Pieces) (colon : Spaces × Spaces) (value : Json)
      (after : Spaces) (rest : Members)

end

def quoted (s : Pieces) : Bytes := 0x22 :: (s.render ++ [0x22])

mutual

def Json.render : Json → Bytes
  | .literal l => l.render
  | .number n => n.render
  | .string s => quoted s
  | .array lead elements => 0x5B :: (lead.render ++ (elements.render ++ [0x5D]))
  | .object lead members => 0x7B :: (lead.render ++ (members.render ++ [0x7D]))

def Elements.render : Elements → Bytes
  | .nil => []
  | .cons before value after rest =>
    before.render ++ (value.render ++ (after.render ++ rest.continued))

/-- With the comma in front, if there is anything. -/
def Elements.continued : Elements → Bytes
  | .nil => []
  | .cons before value after rest =>
    0x2C :: (before.render ++ (value.render ++ (after.render ++ rest.continued)))

def Members.render : Members → Bytes
  | .nil => []
  | .cons before name colon value after rest =>
    before.render ++ (quoted name ++ (colon.1.render ++ (0x3A :: (colon.2.render ++
      (value.render ++ (after.render ++ rest.continued))))))

def Members.continued : Members → Bytes
  | .nil => []
  | .cons before name colon value after rest =>
    0x2C :: (before.render ++ (quoted name ++ (colon.1.render ++ (0x3A :: (colon.2.render ++
      (value.render ++ (after.render ++ rest.continued)))))))

end

namespace Json

/-- The pieces of a string. -/
def pieces : Json → Option Pieces
  | string s => some s
  | _ => none

def members : Json → Option Members
  | object _ members => some members
  | _ => none

end Json

def Elements.values : Elements → List Json
  | .nil => []
  | .cons _ value _ rest => value :: rest.values

namespace Members

def names : Members → List Pieces
  | .nil => []
  | .cons _ name _ _ _ rest => name :: rest.names

/-- The values of the members that are named so. -/
def values (named : Pieces → Bool) : Members → List Json
  | .nil => []
  | .cons _ name _ value _ rest =>
    if named name then value :: rest.values named else rest.values named

/-- The value of a member; of several with the name, the last. -/
def get (name : Bytes) (members : Members) : Option Json :=
  (members.values fun key => key.decode = name).getLast?

/-- The value of a member with the text behind it; `behind` follows the members. -/
def find (name : Bytes) : Members → Bytes → Option (Json × Bytes)
  | .nil, _ => none
  | .cons _ key _ value after rest, behind =>
    (rest.find name behind).or
      (if key.decode = name then some (value, after.render ++ (rest.continued ++ behind)) else none)

theorem find_fst (name : Bytes) (members : Members) (behind : Bytes) :
    (members.find name behind).map Prod.fst = members.get name :=
  match members with
  | .nil => rfl
  | .cons _ key _ value after rest => by
    rw [get, values, find, Option.map_or, find_fst name rest behind, get]
    by_cases same : key.decode = name
    · rw [if_pos same, if_pos (decide_eq_true same), List.getLast?_cons]
      cases (rest.values _).getLast? <;> rfl
    · rw [if_neg same, if_neg (by simpa using same)]
      exact Option.or_none

theorem values_congr {p q : Pieces → Bool} (members : Members)
    (same : ∀ name ∈ members.names, p name = q name) : members.values p = members.values q :=
  match members with
  | .nil => rfl
  | .cons _ name _ value _ rest => by
    obtain ⟨first, others⟩ := List.forall_mem_cons.mp same
    rw [values, values, first, values_congr rest others]

end Members

/-- A value with the white space around it. -/
structure JsonText where
  before : Spaces
  value : Json
  after : Spaces

def JsonText.render (doc : JsonText) : Bytes :=
  doc.before.render ++ (doc.value.render ++ doc.after.render)

/-! ### Loops over the octets of a text -/

/-- An octet that means nothing outside of strings to a loop that looks for quotes and brackets. -/
def Inert (c : UInt8) : Prop := c ≠ 0x22 ∧ c ≠ 0x5B ∧ c ≠ 0x5D ∧ c ≠ 0x7B ∧ c ≠ 0x7D

instance : DecidablePred Inert := fun _ => inferInstanceAs (Decidable (_ ∧ _))

section

variable {α : Type*} (f : Bytes → Int → Bool → Bool → α) (least : Int)

/-- What a loop has left to do, by the octets left, its depth, whether it is in a string and whether
behind a backslash. From some depth on, it goes through strings and past inert octets. -/
structure TextLoop : Prop where
  escaped : ∀ {d c rest}, least ≤ d → f (c :: rest) d true true = f rest d true false
  backslash : ∀ {d rest}, least ≤ d → f (0x5C :: rest) d true false = f rest d true true
  inside : ∀ {d c rest}, least ≤ d → c ≠ 0x22 → c ≠ 0x5C →
    f (c :: rest) d true false = f rest d true false
  closes : ∀ {d rest}, least ≤ d → f (0x22 :: rest) d true false = f rest d false false
  inert : ∀ {d c rest}, least ≤ d → Inert c → f (c :: rest) d false false = f rest d false false

/-- It also enters every string. -/
structure ScalarLoop : Prop extends TextLoop f least where
  opens : ∀ {d rest}, least ≤ d → f (0x22 :: rest) d false false = f rest d true false

/-- It also counts the brackets of both kinds, up and down. -/
structure ValueLoop : Prop extends ScalarLoop f least where
  up : ∀ {d c rest}, least ≤ d → c = 0x5B ∨ c = 0x7B →
    f (c :: rest) d false false = f rest (d + 1) false false
  down : ∀ {d c rest}, least ≤ d → c = 0x5D ∨ c = 0x7D →
    f (c :: rest) (d + 1) false false = f rest d false false

end

/-! ### What is inert -/

theorem Space.inert (s : Space) : Inert s.octet := by
  cases s <;> decide

theorem Spaces.inert (spaces : Spaces) : ∀ c ∈ spaces.render, Inert c := by
  intro c member
  obtain ⟨s, -, rfl⟩ := List.mem_map.mp member
  exact s.inert

theorem inert_digitOctet (d : Fin 10) : Inert (digitOctet d) := by
  revert d
  decide

theorem inert_digits (digits : List (Fin 10)) : ∀ c ∈ digits.map digitOctet, Inert c := by
  intro c member
  obtain ⟨d, -, rfl⟩ := List.mem_map.mp member
  exact inert_digitOctet d

theorem Exponent.inert (e : Exponent) : ∀ c ∈ e.render, Inert c := by
  intro c member
  rw [render] at member
  obtain rfl | member := List.mem_cons.mp member
  · split <;> decide
  · obtain sign | digit := List.mem_append.mp member
    · split at sign
      · cases sign
      · obtain rfl := List.mem_singleton.mp sign
        decide
      · obtain rfl := List.mem_singleton.mp sign
        decide
    · exact inert_digits _ c digit

theorem JsonNumber.inert_tail (n : JsonNumber) : ∀ c ∈ n.tail, Inert c := by
  intro c member
  obtain fraction | exponent := List.mem_append.mp member
  · split at fraction
    · cases fraction
    · obtain rfl | digit := List.mem_cons.mp fraction
      · decide
      · exact inert_digits _ c digit
  · cases given : n.exponent with
    | none =>
      rw [given] at exponent
      cases exponent
    | some e =>
      rw [given] at exponent
      exact e.inert c exponent

theorem JsonNumber.inert (n : JsonNumber) : ∀ c ∈ n.render, Inert c := by
  intro c member
  obtain sign | member := List.mem_append.mp member
  · split at sign
    · obtain rfl := List.mem_singleton.mp sign
      decide
    · cases sign
  · obtain digit | behind := List.mem_append.mp member
    · exact inert_digits _ c digit
    · exact n.inert_tail c behind

theorem Literal.inert (l : Literal) : ∀ c ∈ l.render, Inert c := by
  have all : l.render.all fun c => Inert c := by
    cases l <;> decide
  exact fun c member => of_decide_eq_true (List.all_eq_true.mp all c member)

/-- An octet of a character that stands for itself neither ends a string nor escapes anything. -/
theorem PlainChar.octet_ne (c : PlainChar) {b : UInt8} (member : b ∈ String.utf8EncodeChar c.val) :
    b ≠ 0x22 ∧ b ≠ 0x5C := by
  have quote : c.val ≠ '"' := c.property.2.1
  have backslash : c.val ≠ '\\' := c.property.2.2
  by_cases small : c.val.val.toNat < 128
  · -- an octet of its own
    rw [utf8EncodeChar_ascii small, List.mem_singleton] at member
    subst member
    constructor
    · intro same
      have value := congrArg UInt8.toNat same
      rw [UInt8.toNat_ofNat', Nat.mod_eq_of_lt (by omega)] at value
      exact quote (Char.ext (UInt32.toNat_inj.mp value))
    · intro same
      have value := congrArg UInt8.toNat same
      rw [UInt8.toNat_ofNat', Nat.mod_eq_of_lt (by omega)] at value
      exact backslash (Char.ext (UInt32.toNat_inj.mp value))
  · have high := utf8EncodeChar_high (Nat.le_of_not_lt small) b member
    constructor <;>
    · rintro rfl
      exact absurd high (by decide)

theorem HexDigit.octet_ne (h : HexDigit) : h.octet ≠ 0x22 ∧ h.octet ≠ 0x5C := by
  obtain ⟨value, upper⟩ := h
  revert value upper
  decide

/-! ### Going through a text -/

namespace TextLoop

variable {α : Type*} {f : Bytes → Int → Bool → Bool → α} {least d : Int}

theorem inertOctets (loop : TextLoop f least) (deep : least ≤ d) {b : Bytes}
    (all : ∀ c ∈ b, Inert c) (rest : Bytes) :
    f (b ++ rest) d false false = f rest d false false := by
  induction b with
  | nil => rfl
  | cons c b ih =>
    obtain ⟨first, others⟩ := List.forall_mem_cons.mp all
    exact (loop.inert deep first).trans (ih others)

theorem insideOctets (loop : TextLoop f least) (deep : least ≤ d) {b : Bytes}
    (all : ∀ c ∈ b, c ≠ 0x22 ∧ c ≠ 0x5C) (rest : Bytes) :
    f (b ++ rest) d true false = f rest d true false := by
  induction b with
  | nil => rfl
  | cons c b ih =>
    obtain ⟨first, others⟩ := List.forall_mem_cons.mp all
    exact (loop.inside deep first.1 first.2).trans (ih others)

theorem spaces (loop : TextLoop f least) (deep : least ≤ d) (spaces : Spaces) (rest : Bytes) :
    f (spaces.render ++ rest) d false false = f rest d false false :=
  loop.inertOctets deep spaces.inert rest

/-- To the end of a string. -/
theorem pieces (loop : TextLoop f least) (deep : least ≤ d) (s : Pieces) (rest : Bytes) :
    f (s.render ++ (0x22 :: rest)) d true false = f rest d false false := by
  induction s with
  | nil => exact loop.closes deep
  | cons piece s ih =>
    refine Eq.trans ?_ ih
    rw [Pieces.render, List.flatMap_cons, List.append_assoc]
    cases piece with
    | plain c => exact loop.insideOctets deep (fun _ => c.octet_ne) _
    | escape e => exact (loop.backslash deep).trans (loop.escaped deep)
    | unit u =>
      refine ((loop.backslash deep).trans (loop.escaped deep)).trans
        (loop.insideOctets deep (fun c member => ?_) _)
      obtain ⟨h, -, rfl⟩ := List.mem_map.mp member
      exact h.octet_ne

end TextLoop

theorem ScalarLoop.quoted {α : Type*} {f : Bytes → Int → Bool → Bool → α} {least d : Int}
    (loop : ScalarLoop f least) (deep : least ≤ d) (s : Pieces) (rest : Bytes) :
    f (quoted s ++ rest) d false false = f rest d false false := by
  rw [FinBit.Lib.quoted, List.cons_append, List.append_assoc]
  exact (loop.opens deep).trans (loop.pieces deep s rest)

namespace ValueLoop

variable {α : Type*} {f : Bytes → Int → Bool → Bool → α} {least : Int}

mutual

/-- A value leaves the loop as it was. -/
theorem value (loop : ValueLoop f least) (v : Json) {d : Int} (deep : least ≤ d) (rest : Bytes) :
    f (v.render ++ rest) d false false = f rest d false false :=
  match v with
  | .literal l => loop.inertOctets deep l.inert rest
  | .number n => loop.inertOctets deep n.inert rest
  | .string s => loop.quoted deep s rest
  | .array lead elements => by
    have deeper : least ≤ d + 1 := by omega
    rw [Json.render, List.cons_append, List.append_assoc, List.append_assoc,
      loop.up deep (.inl rfl), loop.spaces deeper, loop.elements elements deeper]
    exact loop.down deep (.inl rfl)
  | .object lead members => by
    have deeper : least ≤ d + 1 := by omega
    rw [Json.render, List.cons_append, List.append_assoc, List.append_assoc,
      loop.up deep (.inr rfl), loop.spaces deeper, loop.members members deeper]
    exact loop.down deep (.inr rfl)

theorem elements (loop : ValueLoop f least) (es : Elements) {d : Int} (deep : least ≤ d)
    (rest : Bytes) : f (es.render ++ rest) d false false = f rest d false false :=
  match es with
  | .nil => rfl
  | .cons before v after others => by
    rw [Elements.render, List.append_assoc, List.append_assoc, List.append_assoc,
      loop.spaces deep, loop.value v deep, loop.spaces deep]
    exact loop.moreElements others deep rest

theorem moreElements (loop : ValueLoop f least) (es : Elements) {d : Int} (deep : least ≤ d)
    (rest : Bytes) : f (es.continued ++ rest) d false false = f rest d false false :=
  match es with
  | .nil => rfl
  | .cons before v after others => by
    rw [Elements.continued, List.cons_append, List.append_assoc, List.append_assoc,
      List.append_assoc, loop.inert deep (by decide), loop.spaces deep, loop.value v deep,
      loop.spaces deep]
    exact loop.moreElements others deep rest

theorem members (loop : ValueLoop f least) (ms : Members) {d : Int} (deep : least ≤ d)
    (rest : Bytes) : f (ms.render ++ rest) d false false = f rest d false false :=
  match ms with
  | .nil => rfl
  | .cons before name colon v after others => by
    rw [Members.render, List.append_assoc, List.append_assoc, List.append_assoc, List.cons_append,
      List.append_assoc, List.append_assoc, List.append_assoc, loop.spaces deep,
      loop.quoted deep, loop.spaces deep, loop.inert deep (by decide), loop.spaces deep,
      loop.value v deep, loop.spaces deep]
    exact loop.moreMembers others deep rest

theorem moreMembers (loop : ValueLoop f least) (ms : Members) {d : Int} (deep : least ≤ d)
    (rest : Bytes) : f (ms.continued ++ rest) d false false = f rest d false false :=
  match ms with
  | .nil => rfl
  | .cons before name colon v after others => by
    rw [Members.continued, List.cons_append, List.append_assoc, List.append_assoc,
      List.append_assoc, List.cons_append, List.append_assoc, List.append_assoc, List.append_assoc,
      loop.inert deep (by decide), loop.spaces deep, loop.quoted deep, loop.spaces deep,
      loop.inert deep (by decide), loop.spaces deep, loop.value v deep, loop.spaces deep]
    exact loop.moreMembers others deep rest

end

end ValueLoop

/-! ### Strings without escapes -/

theorem Pieces.decode_eq_render (s : Pieces) (plain : 0x5C ∉ s.render) : s.decode = s.render := by
  induction s with
  | nil => rfl
  | cons piece s ih =>
    rw [render, List.flatMap_cons] at plain
    have later := ih fun member => plain (List.mem_append_right _ member)
    cases piece with
    | plain c => exact congrArg (String.utf8EncodeChar c.val ++ ·) later
    | escape e => exact absurd List.mem_cons_self plain
    | unit u => exact absurd List.mem_cons_self plain

/-! ### Where a string ends -/

/-- The first quote behind octets that are neither quote nor backslash ends the string. -/
theorem Pieces.word_of_append {s : Pieces} {word rest after : Bytes}
    (plain : ∀ c ∈ word, c ≠ 0x22 ∧ c ≠ 0x5C)
    (same : s.render ++ (0x22 :: rest) = word ++ (0x22 :: after)) : s.render = word := by
  induction s generalizing word with
  | nil =>
    cases word with
    | nil => rfl
    | cons c word =>
      rw [render, List.flatMap_nil, List.nil_append, List.cons_append] at same
      exact absurd (List.cons.inj same).1.symm (plain c List.mem_cons_self).1
  | cons piece s ih =>
    rw [render, List.flatMap_cons, List.append_assoc] at same
    rw [render, List.flatMap_cons]
    -- a backslash is no octet of the word, and no quote
    have escaped : ∀ {b : Bytes}, 0x5C :: b = word ++ (0x22 :: after) → False := by
      intro b same
      cases word with
      | nil => exact absurd (List.cons.inj same).1 (by decide)
      | cons c word => exact (plain c List.mem_cons_self).2 (List.cons.inj same).1.symm
    cases piece with
    | escape e => exact (escaped same).elim
    | unit u => exact (escaped same).elim
    | plain c =>
      obtain ⟨more, rfl, here⟩ | ⟨more, octets, here⟩ := List.append_eq_append_iff.mp same
      · rw [← ih (fun b member => plain b (List.mem_append_right _ member)) here]
        rfl
      · cases more with
        | nil =>
          have none : render s = [] :=
            ih (fun _ member => absurd member List.not_mem_nil) here.symm
          rw [List.append_nil] at octets
          rw [← octets, ← render, none, List.append_nil]
        | cons b more =>
          -- the quote would be an octet of the character
          have member : b ∈ String.utf8EncodeChar c.val := by
            change b ∈ Piece.render (.plain c)
            rw [octets]
            exact List.mem_append_right _ List.mem_cons_self
          exact absurd (List.cons.inj here).1.symm (c.octet_ne member).1

end FinBit.Lib
