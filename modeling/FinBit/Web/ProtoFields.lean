import FinBit.Web.Proto

/-! # The fields of a message

What stands at the front of a buffer is a whole field, or a field that is cut off but read all the
same, or something that the reader refuses. Which of these it is decides a run of `parseFields`.
-/

namespace FinBit.Web.Proto

open FinBit.Lib

/-- A field that is all there: its tag and its number or length end, and the length is that of the
octets behind it. The wire type of a tag is what the reader takes for it. -/
inductive Field : Int → FieldValue → Bytes → Prop
  | varint {tag number : Bytes} (tagged : Terminated tag) (wire : wireType (varintValue tag) = 0)
      (ends : Terminated number) :
      Field (fieldNumber (varintValue tag)) (.bigint (varintValue number)) (tag ++ number)
  | lengthDelimited {tag length b : Bytes} (tagged : Terminated tag)
      (wire : wireType (varintValue tag) = 2) (ends : Terminated length)
      (covered : b.length = varintValue length) :
      Field (fieldNumber (varintValue tag)) (.bytes b) (tag ++ (length ++ b))

/-- A field that is not all there, of a wire type that the reader knows. -/
inductive CutOff : Bytes → Prop
  /-- The tag does not end. -/
  | tag {tag : Bytes} (some_ : tag ≠ []) (open_ : Unterminated tag)
      (wire : wireType (varintValue tag) = 0 ∨ wireType (varintValue tag) = 2) : CutOff tag
  /-- The number behind the tag is missing or does not end. -/
  | varint {tag number : Bytes} (tagged : Terminated tag) (wire : wireType (varintValue tag) = 0)
      (open_ : Unterminated number) : CutOff (tag ++ number)
  /-- The length behind the tag is missing or does not end. -/
  | length {tag length : Bytes} (tagged : Terminated tag) (wire : wireType (varintValue tag) = 2)
      (open_ : Unterminated length) : CutOff (tag ++ length)
  /-- The length goes beyond the end. -/
  | payload {tag length b : Bytes} (tagged : Terminated tag)
      (wire : wireType (varintValue tag) = 2) (ends : Terminated length)
      (short : b.length < varintValue length) : CutOff (tag ++ (length ++ b))

/-- Fields that are all there. -/
def AllFields (fields : List Bytes) : Prop := ∀ field ∈ fields, ∃ fnum value, Field fnum value field

/-! ### The front of a buffer -/

inductive Front where
  | whole (fnum : Int) (value : FieldValue) (rest : Bytes)
  | cut (fnum : Int) (value : FieldValue)
  | refused (fnum : Int) (wt : Nat)

/-- What a buffer begins with, for the reader. -/
def front (b : Bytes) : Front :=
  let tag := (frontVarint b).1
  let behind := (frontVarint b).2.getD []
  if wireType tag = 0 then
    match (frontVarint behind).2 with
    | some rest => .whole (fieldNumber tag) (.bigint (frontVarint behind).1) rest
    | none => .cut (fieldNumber tag) (.bigint (frontVarint behind).1)
  else if wireType tag = 2 then
    let n := (frontVarint behind).1
    match (frontVarint behind).2 with
    | some rest =>
      if n ≤ rest.length then .whole (fieldNumber tag) (.bytes (rest.take n)) (rest.drop n)
      else .cut (fieldNumber tag) (.bytes rest)
    | none => .cut (fieldNumber tag) (.bytes [])
  else .refused (fieldNumber tag) (wireType tag)

theorem front_field {fnum : Int} {value : FieldValue} {field : Bytes} (whole : Field fnum value field)
    (rest : Bytes) : front (field ++ rest) = .whole fnum value rest := by
  cases whole with
  | @varint tag number tagged wire ends =>
    simp only [front, List.append_assoc, frontVarint_terminated tagged, wire, ↓reduceIte,
      Option.getD_some, frontVarint_terminated ends]
  | @lengthDelimited tag length b tagged wire ends covered =>
    have enough : varintValue length ≤ (b ++ rest).length := by
      rw [List.length_append]
      omega
    simp only [front, List.append_assoc, frontVarint_terminated tagged, wire, Option.getD_some,
      frontVarint_terminated ends, if_pos enough, OfNat.ofNat_ne_zero, ↓reduceIte]
    rw [← covered, List.take_left, List.drop_left]

theorem front_cutOff {b : Bytes} (cut : CutOff b) : ∃ fnum value, front b = .cut fnum value := by
  cases cut with
  | tag _ open_ wire =>
    obtain wire | wire := wire
    · refine ⟨fieldNumber (varintValue b), .bigint 0, ?_⟩
      simp only [front, frontVarint_unterminated open_, wire, Option.getD_none, frontVarint,
        ↓reduceIte]
    · refine ⟨fieldNumber (varintValue b), .bytes [], ?_⟩
      simp only [front, frontVarint_unterminated open_, wire, Option.getD_none, frontVarint,
        OfNat.ofNat_ne_zero, ↓reduceIte]
  | @varint tag number tagged wire open_ =>
    refine ⟨fieldNumber (varintValue tag), .bigint (varintValue number), ?_⟩
    simp only [front, frontVarint_terminated tagged, wire, ↓reduceIte, Option.getD_some,
      frontVarint_unterminated open_]
  | @length tag length tagged wire open_ =>
    refine ⟨fieldNumber (varintValue tag), .bytes [], ?_⟩
    simp only [front, frontVarint_terminated tagged, wire, Option.getD_some,
      frontVarint_unterminated open_, OfNat.ofNat_ne_zero, ↓reduceIte]
  | @payload tag length b tagged wire ends short =>
    refine ⟨fieldNumber (varintValue tag), .bytes b, ?_⟩
    simp only [front, frontVarint_terminated tagged, wire, Option.getD_some,
      frontVarint_terminated ends, if_neg (Nat.not_le.mpr short), OfNat.ofNat_ne_zero, ↓reduceIte]

/-- A whole field stands in front, or one that is cut off, or what is there is refused. -/
theorem front_cases {b : Bytes} (some_ : b ≠ []) :
    (∃ fnum value field rest, Field fnum value field ∧ b = field ++ rest) ∨ CutOff b ∨
      ∃ fnum wt, front b = .refused fnum wt := by
  obtain ⟨tag, behind, rfl, tagged⟩ | open_ := terminated_or_unterminated b
  · by_cases zero : wireType (varintValue tag) = 0
    · obtain ⟨number, rest, rfl, ends⟩ | open_ := terminated_or_unterminated behind
      · exact .inl ⟨_, _, _, rest, .varint tagged zero ends, (List.append_assoc ..).symm⟩
      · exact .inr (.inl (.varint tagged zero open_))
    · by_cases two : wireType (varintValue tag) = 2
      · obtain ⟨length, rest, rfl, ends⟩ | open_ := terminated_or_unterminated behind
        · by_cases covered : varintValue length ≤ rest.length
          · have taken : (rest.take (varintValue length)).length = varintValue length := by
              rw [List.length_take]
              omega
            refine .inl ⟨_, _, _, rest.drop (varintValue length),
              .lengthDelimited tagged two ends taken, ?_⟩
            rw [List.append_assoc, List.append_assoc, List.take_append_drop]
          · exact .inr (.inl (.payload tagged two ends (Nat.not_le.mp covered)))
        · exact .inr (.inl (.length tagged two open_))
      · refine .inr (.inr ⟨fieldNumber (varintValue tag), wireType (varintValue tag), ?_⟩)
        simp only [front, frontVarint_terminated tagged, if_neg zero, if_neg two]
  · by_cases known : wireType (varintValue b) = 0 ∨ wireType (varintValue b) = 2
    · exact .inr (.inl (.tag some_ open_ known))
    · obtain ⟨zero, two⟩ := not_or.mp known
      refine .inr (.inr ⟨fieldNumber (varintValue b), wireType (varintValue b), ?_⟩)
      simp only [front, frontVarint_unterminated open_, if_neg zero, if_neg two]

/-! ### A run of the reader -/

theorem parseLoop_end {buf : Bytes} {off : Nat} (fields : Fields) (ended : buf.length ≤ off) :
    parseLoop buf fields off = .ok fields := by
  rw [parseLoop, if_neg (Nat.not_lt.mpr ended)]

/-- The number in front of the reader, and what is left behind it. -/
theorem decodeVarint_eq (buf : Bytes) (off : Nat) :
    (decodeVarint buf off).1 = (frontVarint (buf.drop off)).1 ∧
      buf.drop (decodeVarint buf off).2 = (frontVarint (buf.drop off)).2.getD [] := by
  cases ends : (frontVarint (buf.drop off)).2 with
  | some behind =>
    obtain ⟨number, -, left⟩ := decodeVarint_some ends
    exact ⟨number, left⟩
  | none =>
    obtain ⟨number, beyond⟩ := decodeVarint_none ends
    exact ⟨number, List.drop_of_length_le (Nat.le_of_lt beyond)⟩

/-- What is in front of the reader decides what it does. -/
theorem parseLoop_eq {buf : Bytes} {off : Nat} (fields : Fields) (inside : off < buf.length) :
    parseLoop buf fields off =
      match front (buf.drop off) with
      | .whole fnum value rest => parseLoop buf (fields.set fnum value) (buf.length - rest.length)
      | .cut fnum value => .ok (fields.set fnum value)
      | .refused fnum wt => .error s!"unsupported wire type {wt} for field {fnum}" := by
  obtain ⟨tag, left⟩ := decodeVarint_eq buf off
  obtain ⟨number, -⟩ := decodeVarint_eq buf (decodeVarint buf off).2
  rw [parseLoop, if_pos inside]
  dsimp only [front]
  rw [tag, ← left]
  split
  · cases ends : (frontVarint (buf.drop (decodeVarint buf off).2)).2 with
    | some rest =>
      obtain ⟨-, stop, -⟩ := decodeVarint_some ends
      rw [number, Nat.eq_sub_of_add_eq stop]
    | none =>
      obtain ⟨-, beyond⟩ := decodeVarint_none ends
      rw [number, parseLoop_end _ (Nat.le_of_lt beyond)]
  · split
    · dsimp only [parseLD, subarray]
      rw [Nat.add_sub_cancel_left, number]
      cases ends : (frontVarint (buf.drop (decodeVarint buf off).2)).2 with
      | some rest =>
        obtain ⟨-, stop, behind⟩ := decodeVarint_some ends
        rw [behind]
        dsimp only
        by_cases covered : (frontVarint (buf.drop (decodeVarint buf off).2)).1 ≤ rest.length
        · rw [if_pos covered]
          dsimp only
          rw [List.length_drop]
          congr 1
          omega
        · rw [if_neg covered, List.take_of_length_le (by omega), parseLoop_end _ (by omega)]
      | none =>
        obtain ⟨-, beyond⟩ := decodeVarint_none ends
        rw [List.drop_of_length_le (Nat.le_of_lt beyond), List.take_nil,
          parseLoop_end _ (by omega)]
    · rfl

theorem Field.ne_nil {fnum : Int} {value : FieldValue} {field : Bytes}
    (whole : Field fnum value field) : field ≠ [] := by
  cases whole with
  | varint tagged => exact List.append_ne_nil_of_left_ne_nil tagged.ne_nil _
  | lengthDelimited tagged => exact List.append_ne_nil_of_left_ne_nil tagged.ne_nil _

theorem CutOff.ne_nil {b : Bytes} (cut : CutOff b) : b ≠ [] := by
  cases cut with
  | tag some_ => exact some_
  | varint tagged => exact List.append_ne_nil_of_left_ne_nil tagged.ne_nil _
  | length tagged => exact List.append_ne_nil_of_left_ne_nil tagged.ne_nil _
  | payload tagged => exact List.append_ne_nil_of_left_ne_nil tagged.ne_nil _

/-- A reader with something in front of it is inside the buffer. -/
theorem inside_of_drop {buf next : Bytes} {off : Nat} (at_ : buf.drop off = next) (some_ : next ≠ []) :
    off < buf.length := by
  subst at_
  exact Nat.lt_of_not_le fun beyond => some_ (List.drop_of_length_le beyond)

theorem parseLoop_field {buf field rest : Bytes} {off : Nat} {fnum : Int} {value : FieldValue}
    (fields : Fields) (whole : Field fnum value field) (next : buf.drop off = field ++ rest) :
    ∃ off', buf.drop off' = rest ∧ parseLoop buf fields off =
      parseLoop buf (fields.set fnum value) off' := by
  have inside := inside_of_drop next (List.append_ne_nil_of_left_ne_nil whole.ne_nil _)
  have length := congrArg List.length next
  rw [List.length_drop, List.length_append] at length
  refine ⟨buf.length - rest.length, ?_, ?_⟩
  · have behind : buf.length - rest.length = off + field.length := by omega
    rw [behind, ← List.drop_drop, next, List.drop_left]
  · rw [parseLoop_eq fields inside, next, front_field whole]

theorem parseLoop_fields {written : List Bytes} (all : AllFields written) {buf rest : Bytes}
    {off : Nat} (fields : Fields) (next : buf.drop off = written.flatten ++ rest) :
    ∃ off' fields', buf.drop off' = rest ∧ parseLoop buf fields off = parseLoop buf fields' off' := by
  induction written generalizing off fields with
  | nil => exact ⟨off, fields, next, rfl⟩
  | cons field written ih =>
    obtain ⟨fnum, value, whole⟩ := all field List.mem_cons_self
    rw [List.flatten_cons, List.append_assoc] at next
    obtain ⟨off', behind, read⟩ := parseLoop_field fields whole next
    rw [read]
    exact ih (fun f member => all f (List.mem_cons_of_mem field member)) _ behind

/-- A run that returns has read whole fields, and perhaps one that is cut off. -/
theorem fields_of_parseLoop {buf : Bytes} {off : Nat} {fields fields' : Fields}
    (parsed : parseLoop buf fields off = .ok fields') :
    ∃ written, AllFields written ∧
      (buf.drop off = written.flatten ∨
        ∃ tail, CutOff tail ∧ buf.drop off = written.flatten ++ tail) := by
  -- by induction on what is left to read
  induction left : (buf.drop off).length using Nat.strongRecOn generalizing off fields with
  | ind n ih =>
    by_cases none : buf.drop off = []
    · exact ⟨[], List.forall_mem_nil _, .inl none⟩
    · obtain ⟨fnum, value, field, rest, whole, next⟩ | cut | ⟨fnum, wt, refused⟩ := front_cases none
      · obtain ⟨off', behind, read⟩ := parseLoop_field fields whole next
        have positive := List.length_pos_iff.mpr whole.ne_nil
        have less : (buf.drop off').length < n := by
          rw [← left, next, behind, List.length_append]
          omega
        obtain ⟨written, all, found⟩ := ih _ less (read ▸ parsed) rfl
        refine ⟨field :: written, List.forall_mem_cons.mpr ⟨⟨fnum, value, whole⟩, all⟩, ?_⟩
        rw [behind] at found
        rw [List.flatten_cons]
        obtain found | ⟨tail, cut, found⟩ := found
        · exact .inl (found ▸ next)
        · exact .inr ⟨tail, cut, by rw [next, found, List.append_assoc]⟩
      · exact ⟨[], List.forall_mem_nil _, .inr ⟨_, cut, rfl⟩⟩
      · rw [parseLoop_eq fields (inside_of_drop rfl none), refused] at parsed
        cases parsed

/-- Whole fields are read in one way only. -/
theorem not_cutOff_of_allFields {written written' : List Bytes} (all : AllFields written)
    (all' : AllFields written') {tail : Bytes} (cut : CutOff tail) :
    written.flatten ≠ written'.flatten ++ tail := by
  induction written generalizing written' with
  | nil =>
    intro same
    exact cut.ne_nil (List.append_eq_nil_iff.mp same.symm).2
  | cons field written ih =>
    intro same
    obtain ⟨fnum, value, whole⟩ := all field List.mem_cons_self
    have reading := front_field whole written.flatten
    rw [← List.flatten_cons, same] at reading
    cases written' with
    | nil =>
      obtain ⟨fnum', value', read⟩ := front_cutOff cut
      rw [List.flatten_nil, List.nil_append, read] at reading
      cases reading
    | cons field' written' =>
      obtain ⟨fnum', value', whole'⟩ := all' field' List.mem_cons_self
      rw [List.flatten_cons, List.append_assoc, front_field whole'] at reading
      injection reading with _ _ behind
      exact ih (fun f member => all f (List.mem_cons_of_mem field member))
        (fun f member => all' f (List.mem_cons_of_mem field' member)) behind.symm

/-! ### What is accepted -/

/-- A buffer is refused, or it is whole fields one after the other. -/
def OnlyComplete (buf : Bytes) : Prop :=
  (∃ message, parseFields buf = .error message) ∨ ∃ written, AllFields written ∧ buf = written.flatten

/-- The last field is cut off: its tag, its number or its length does not end, or its length goes
beyond the end. -/
def EndsCutOff (buf : Bytes) : Prop :=
  ∃ written tail, AllFields written ∧ CutOff tail ∧ buf = written.flatten ++ tail

/-- A buffer that is neither refused nor complete ends with a field that is cut off. -/
theorem only_complete_iff (buf : Bytes) : OnlyComplete buf ↔ ¬EndsCutOff buf := by
  constructor
  · rintro (⟨message, thrown⟩ | ⟨written, all, rfl⟩) ⟨written', tail, all', cut, ended⟩
    · obtain ⟨off, fields, left, run⟩ := @parseLoop_fields written' all' buf tail 0 (fun _ => none) ended
      obtain ⟨fnum, value, reading⟩ := front_cutOff cut
      have accepted := parseLoop_eq fields (inside_of_drop left cut.ne_nil)
      rw [left, reading] at accepted
      rw [parseFields, run, accepted] at thrown
      cases thrown
    · exact not_cutOff_of_allFields all all' cut ended
  · intro whole
    cases parsed : parseFields buf with
    | error message => exact .inl ⟨message, parsed⟩
    | ok fields =>
      obtain ⟨written, all, found | ⟨tail, cut, found⟩⟩ := fields_of_parseLoop parsed
      · exact .inr ⟨written, all, found⟩
      · exact absurd ⟨written, tail, all, cut, found⟩ whole

/-- A tag of field 1 and a length of five, with one octet behind it. -/
def shortPayload : Bytes := [0x0A, 0x05, 0x41]

theorem cutOff_shortPayload : CutOff shortPayload :=
  @CutOff.payload [0x0A] [0x05] [0x41] (.last (by decide)) (by decide) (.last (by decide))
    (by decide)

theorem truncated_message_accepted :
    (∃ fields, parseFields shortPayload = .ok fields ∧ fields 1 = some (.bytes [0x41])) ∧
      ¬∀ buf, OnlyComplete buf := by
  constructor
  · have run := @parseLoop_eq shortPayload 0 (fun _ => none) (by decide)
    exact ⟨_, run, rfl⟩
  · intro always
    exact (only_complete_iff shortPayload).mp (always shortPayload)
      ⟨[], shortPayload, List.forall_mem_nil _, cutOff_shortPayload, rfl⟩

end FinBit.Web.Proto
