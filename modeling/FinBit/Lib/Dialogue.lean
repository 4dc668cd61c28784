import FinBit.Lib.Bytes

/-! # One side of a dialogue

A program that speaks over a byte stream writes octets, and reads as many of them as it knows it
needs. What it reads comes in pieces that the stream decides on; a loop puts them together. What the
program comes to does not depend on the pieces, and what it has not asked for is still in the stream
when it is done.
-/

namespace FinBit.Lib

variable {α : Type}

inductive Dialogue (α : Type)
  | done (result : Except String α)
  | say (octets : Bytes) (next : Dialogue α)
  /-- The next `n` octets are read exactly. -/
  | hear (n : Nat) (next : Bytes → Dialogue α)

/-- What comes of a dialogue: what has been written, its result, and what is left of the stream. -/
structure Spoken (α : Type) where
  said : Bytes
  result : Except String α
  left : Bytes

namespace Dialogue

/-- Octets come in pieces: the `k`-th call brings at least one of those that are missing, and at
most one more than `sizes k`. Where the stream ends there is none. -/
def gather (sizes : Nat → Nat) (k missing : Nat) (got stream : Bytes) : Option (Bytes × Bytes × Nat) :=
  if missing = 0 then some (got, stream, k)
  else
    let n := min (sizes k + 1) (min missing stream.length)
    if _none : n = 0 then none
    else gather sizes (k + 1) (missing - n) (got ++ stream.take n) (stream.drop n)
termination_by missing
decreasing_by omega

/-- The dialogue over a stream that brings its octets in pieces, with the text of the error where the
stream ends too early. -/
def speak (short : String) (sizes : Nat → Nat) : Dialogue α → Nat → Bytes → Spoken α
  | done result, _, stream => ⟨[], result, stream⟩
  | say octets next, k, stream =>
    let spoken := speak short sizes next k stream
    { spoken with said := octets ++ spoken.said }
  | hear n next, k, stream =>
    match gather sizes k n [] stream with
    | none => ⟨[], .error short, []⟩
    | some (heard, stream, k) => speak short sizes (next heard) k stream

/-- The dialogue with all of the stream there. -/
def converse (short : String) : Dialogue α → Bytes → Spoken α
  | done result, stream => ⟨[], result, stream⟩
  | say octets next, stream =>
    let spoken := converse short next stream
    { spoken with said := octets ++ spoken.said }
  | hear n next, stream =>
    if n ≤ stream.length then converse short (next (stream.take n)) (stream.drop n)
    else ⟨[], .error short, []⟩

theorem gather_eq (sizes : Nat → Nat) (k missing : Nat) (got stream : Bytes) :
    (missing ≤ stream.length → ∃ k', gather sizes k missing got stream =
        some (got ++ stream.take missing, stream.drop missing, k')) ∧
      (stream.length < missing → gather sizes k missing got stream = none) := by
  induction missing using Nat.strongRecOn generalizing k got stream with
  | _ missing ih =>
    rw [gather]
    by_cases all : missing = 0
    · subst all
      exact ⟨fun _ => ⟨k, by simp⟩, fun short => absurd short (Nat.not_lt_zero _)⟩
    rw [if_neg all]
    dsimp only
    by_cases nothing : stream = []
    · subst nothing
      refine ⟨fun enough => absurd (Nat.le_zero.mp enough) all, fun _ => ?_⟩
      rw [dif_pos (by simp)]
    · have positive := List.length_pos_iff.mpr nothing
      generalize size : min (sizes k + 1) (min missing stream.length) = n
      have some_octet : n ≠ 0 := by omega
      have within : n ≤ missing ∧ n ≤ stream.length := by omega
      rw [dif_neg some_octet]
      obtain ⟨enough, short⟩ := ih (missing - n) (by omega) (k + 1) (got ++ stream.take n) (stream.drop n)
      rw [List.length_drop] at enough short
      refine ⟨fun fits => ?_, fun ends => short (by omega)⟩
      obtain ⟨k', gathered⟩ := enough (by omega)
      refine ⟨k', gathered.trans ?_⟩
      have front : stream.take n ++ (stream.drop n).take (missing - n) = stream.take missing := by
        rw [← List.take_add, Nat.add_sub_cancel' within.1]
      rw [List.append_assoc, front, List.drop_drop, Nat.add_sub_cancel' within.1]

/-- The pieces do not matter. -/
theorem speak_eq (short : String) (sizes : Nat → Nat) (d : Dialogue α) (k : Nat) (stream : Bytes) :
    speak short sizes d k stream = converse short d stream := by
  induction d generalizing k stream with
  | done result => rfl
  | say octets next ih => rw [speak, converse, ih]
  | hear n next ih =>
    obtain ⟨enough, ends⟩ := gather_eq sizes k n [] stream
    rw [speak, converse]
    by_cases fits : n ≤ stream.length
    · obtain ⟨k', gathered⟩ := enough fits
      rw [if_pos fits, gathered, List.nil_append]
      exact ih _ k' _
    · rw [if_neg fits, ends (Nat.lt_of_not_le fits)]

/-! ### What a dialogue comes to -/

section

variable {short : String} {stream : Bytes}

theorem converse_hear {n : Nat} {next : Bytes → Dialogue α} {heard : Bytes} (sized : heard.length = n)
    (rest : Bytes) : converse short (hear n next) (heard ++ rest) = converse short (next heard) rest := by
  subst sized
  rw [converse, if_pos (by simp), List.take_left, List.drop_left]

theorem converse_say_ok_iff {octets said left : Bytes} {next : Dialogue α} {a : α} :
    converse short (say octets next) stream = ⟨said, .ok a, left⟩ ↔
      ∃ later, said = octets ++ later ∧ converse short next stream = ⟨later, .ok a, left⟩ := by
  rw [converse]
  constructor
  · intro spoken
    obtain ⟨rfl, ok, rfl⟩ := Spoken.mk.inj spoken
    exact ⟨_, rfl, by rw [← ok]⟩
  · rintro ⟨later, rfl, spoken⟩
    rw [spoken]

/-- A dialogue that has come to a result has heard what it asked for. -/
theorem heard_of_ok {n : Nat} {next : Bytes → Dialogue α} {a : α}
    (ok : (converse short (hear n next) stream).result = .ok a) :
    ∃ heard rest, heard.length = n ∧ stream = heard ++ rest ∧
      converse short (hear n next) stream = converse short (next heard) rest := by
  by_cases fits : n ≤ stream.length
  · refine ⟨stream.take n, stream.drop n, List.length_take_of_le fits,
      (List.take_append_drop n stream).symm, ?_⟩
    rw [converse, if_pos fits]
  · rw [converse, if_neg fits] at ok
    cases ok

end

end Dialogue

end FinBit.Lib
