import Mathlib.Data.List.DropRight
import FinBit.Lib.Bytes
import FinBit.P2P.Kademlia

/-! # Bootstrap peers from DNS over HTTPS

A resolver answers with JSON, of which only the records of the array `Answer` matter. The reader
looks for them in the octets of the text: it searches for names in quotes, and three loops keep
track of strings, escapes and brackets.
-/

namespace FinBit.Net.Doh

open FinBit.Lib FinBit.P2P

/-! ### A TXT record -/

/-- `std::isspace`. -/
def isSpace (c : UInt8) : Bool := c = 0x20 || (0x09 ≤ c && c ≤ 0x0D)

def isDigit (c : UInt8) : Bool := 0x30 ≤ c && c ≤ 0x39

def hexNibble (c : UInt8) : Int :=
  if 0x30 ≤ c && c ≤ 0x39 then c.toNat - 0x30
  else if 0x61 ≤ c && c ≤ 0x66 then c.toNat - 0x61 + 10
  else if 0x41 ≤ c && c ≤ 0x46 then c.toNat - 0x41 + 10
  else -1

/-- The loop of `hex_decode`. -/
def hexPairs : Bytes → Option Bytes
  | hi :: lo :: rest =>
    if hexNibble hi < 0 || hexNibble lo < 0 then none
    else (hexPairs rest).map (UInt8.ofNat (hexNibble hi * 16 + hexNibble lo).toNat :: ·)
  | _ => some []

def hexDecode (s : Bytes) (expectedBytes : Nat) : Option Bytes :=
  if s.length ≠ expectedBytes * 2 then none else hexPairs s

def trim (s : Bytes) : Bytes := (s.dropWhile isSpace).rdropWhile isSpace

/-- `parse_finbit_txt`. -/
def parseFinbitTxt (nodeIdFromPubkey : Bytes → NodeId) (txtBody : Bytes) : Option PeerInfo :=
  let txt := trim txtBody
  if txt.length ≤ 4 || txt.take 4 ≠ ascii "fb1 " then none
  else
    let rest := trim (txt.drop 4)
    if 0x20 ∉ rest then none
    else
      let keyTok := rest.takeWhile (· ≠ 0x20)
      if keyTok.length ≤ 8 || keyTok.take 8 ≠ ascii "ed25519:" then none
      else
        match hexDecode (keyTok.drop 8) 32 with
        | none => none
        | some pub =>
          let afterKey := trim (rest.drop (keyTok.length + 1))
          let addr :=
            if afterKey.any fun c => c = 0x20 || c = 0x09 then
              trim (afterKey.takeWhile fun c => !(c = 0x20 || c = 0x09))
            else afterKey
          if addr = [] then none else some ⟨nodeIdFromPubkey pub, addr, pub⟩

/-! ### The fields of an object -/

structure ObjFields where
  type : Int
  data : Bytes
  hasData : Bool
  deriving DecidableEq

def ObjFields.initial : ObjFields := ⟨-1, [], false⟩

def skipWsColon (body : Bytes) : Bytes := body.dropWhile fun c => isSpace c || c = 0x3A

/-- `std::stoi` of digits; `none` where there are none or it throws. -/
def stoi (num : Bytes) : Option Int :=
  if num = [] then none
  else
    let value : Nat := num.foldl (fun n c => 10 * n + (c.toNat - 0x30)) 0
    if value ≤ 2147483647 then some value else none

/-- The character for the one behind a backslash. -/
def unescape (d : UInt8) : UInt8 :=
  if d = 0x22 then 0x22
  else if d = 0x5C then 0x5C
  else if d = 0x2F then 0x2F
  else if d = 0x6E then 0x0A
  else if d = 0x74 then 0x09
  else if d = 0x72 then 0x0D
  else d

/-- The loop that reads the value of `data`, and what is behind it; the flag is `de`. -/
def readString : Bytes → Bool → Bytes × Bytes
  | [], _ => ([], [])
  | d :: rest, true => (unescape d :: (readString rest false).1, (readString rest false).2)
  | d :: rest, false =>
    if d = 0x5C then readString rest true
    else if d = 0x22 then ([], rest)
    else (d :: (readString rest false).1, (readString rest false).2)

/-- The quotes of a character string of a TXT record. -/
def stripQuotes (s : Bytes) : Bytes :=
  if 2 ≤ s.length && s.head? = some 0x22 && s.getLast? = some 0x22 then
    (s.drop 1).take (s.length - 2)
  else s

/-- Behind the key `type`. -/
def readType (body : Bytes) (out : ObjFields) : ObjFields × Bytes :=
  let value := skipWsColon body
  (match stoi (value.takeWhile isDigit) with
    | some type => { out with type := type }
    | none => out,
   value.dropWhile isDigit)

/-- Behind the key `data`. -/
def readData (body : Bytes) (out : ObjFields) : ObjFields × Bytes :=
  match skipWsColon body with
  | [] => (out, [])
  | c :: rest =>
    if c = 0x22 then
      ({ out with data := stripQuotes (readString rest false).1, hasData := true },
        (readString rest false).2)
    else (out, c :: rest)

theorem length_skipWsColon (body : Bytes) : (skipWsColon body).length ≤ body.length :=
  (List.dropWhile_sublist _).length_le

theorem length_readString (body : Bytes) (de : Bool) :
    (readString body de).2.length ≤ body.length := by
  induction body generalizing de with
  | nil => exact Nat.le_refl _
  | cons d rest ih =>
    have later := Nat.le_succ_of_le (ih false)
    cases de with
    | true => exact later
    | false =>
      rw [readString]
      split
      · exact Nat.le_succ_of_le (ih true)
      · split
        · exact Nat.le_succ _
        · exact later

theorem length_readType (body : Bytes) (out : ObjFields) :
    (readType body out).2.length ≤ body.length :=
  ((List.dropWhile_sublist _).length_le).trans (length_skipWsColon body)

theorem length_readData (body : Bytes) (out : ObjFields) :
    (readData body out).2.length ≤ body.length := by
  have skipped := length_skipWsColon body
  rw [readData]
  split
  · exact Nat.zero_le _
  next c rest same =>
    rw [same] at skipped
    split
    · exact ((length_readString rest false).trans (Nat.le_succ _)).trans skipped
    · exact skipped

/-- The loop of `scan_object_fields`. -/
def scanFields (body : Bytes) (depth : Int) (inStr esc : Bool) (out : ObjFields) : ObjFields :=
  match body with
  | [] => out
  | c :: rest =>
    if inStr then
      if esc then scanFields rest depth true false out
      else if c = 0x5C then scanFields rest depth true true out
      else if c = 0x22 then scanFields rest depth false false out
      else scanFields rest depth true false out
    else if c = 0x22 then
      if depth = 0 then
        if (c :: rest).take 6 = ascii "\"type\"" then
          scanFields (readType (rest.drop 5) out).2 depth false esc (readType (rest.drop 5) out).1
        else if (c :: rest).take 6 = ascii "\"data\"" then
          scanFields (readData (rest.drop 5) out).2 depth false esc (readData (rest.drop 5) out).1
        else scanFields rest depth true esc out
      else scanFields rest depth true esc out
    else if c = 0x7B || c = 0x5B then scanFields rest (depth + 1) false esc out
    else if c = 0x7D || c = 0x5D then scanFields rest (depth - 1) false esc out
    else scanFields rest depth false esc out
termination_by body.length
decreasing_by
  all_goals
    have dropped : (rest.drop 5).length ≤ rest.length := (List.drop_sublist 5 rest).length_le
    have typed := length_readType (rest.drop 5) out
    have read := length_readData (rest.drop 5) out
    simp only [List.length_cons]
    omega

def scanObjectFields (body : Bytes) : ObjFields := scanFields body 0 false false .initial

/-! ### The records of the array -/

/-- The loop to the matching bracket, and what is behind it. -/
def matchingBrace : Bytes → Int → Bool → Bool → Option Bytes
  | [], d2, _, _ => if 0 < d2 then none else some []
  | d :: rest, d2, s2, e2 =>
    if d2 ≤ 0 then some (d :: rest)
    else if s2 then
      if e2 then matchingBrace rest d2 true false
      else if d = 0x5C then matchingBrace rest d2 true true
      else if d = 0x22 then matchingBrace rest d2 false false
      else matchingBrace rest d2 true false
    else if d = 0x22 then matchingBrace rest d2 true e2
    else if d = 0x7B || d = 0x5B then matchingBrace rest (d2 + 1) false e2
    else if d = 0x7D || d = 0x5D then matchingBrace rest (d2 - 1) false e2
    else matchingBrace rest d2 false e2

theorem length_matchingBrace {body after : Bytes} {d2 : Int} {s2 e2 : Bool}
    (found : matchingBrace body d2 s2 e2 = some after) : after.length ≤ body.length := by
  induction body generalizing d2 s2 e2 with
  | nil =>
    rw [matchingBrace] at found
    split at found
    · cases found
    · cases found
      exact Nat.le_refl _
  | cons d rest ih =>
    have later : ∀ {d2 s2 e2}, matchingBrace rest d2 s2 e2 = some after →
        after.length ≤ (d :: rest).length := fun found => Nat.le_succ_of_le (ih found)
    rw [matchingBrace] at found
    split at found
    · cases found
      exact Nat.le_refl _
    · repeat' split at found
      all_goals exact later found

/-- What an object of the array is read as: the data of a TXT record. -/
def txtOf (fields : ObjFields) : List Bytes :=
  if fields.type = 16 && fields.hasData then [fields.data] else []

/-- The loop over the array. Its `depth` is never changed. -/
def walkArray (body : Bytes) (inStr esc : Bool) : List Bytes :=
  match body with
  | [] => []
  | c :: rest =>
    if inStr then
      if esc then walkArray rest true false
      else if c = 0x5C then walkArray rest true true
      else if c = 0x22 then walkArray rest false false
      else walkArray rest true false
    else if c = 0x22 then walkArray rest true esc
    else if c = 0x5D then []
    else if c = 0x7B then
      match _found : matchingBrace rest 1 false false with
      | none => []
      | some after =>
        txtOf (scanObjectFields (rest.take (rest.length - after.length - 1))) ++
          walkArray after false esc
    else walkArray rest false esc
termination_by body.length
decreasing_by
  all_goals first
    | exact Nat.lt_succ_self _
    | exact Nat.lt_succ_of_le (length_matchingBrace _found)

/-- `std::string_view::find`: the text from the first occurrence on. -/
def findText (needle : Bytes) : Bytes → Option Bytes
  | [] => if needle = [] then some [] else none
  | c :: rest => if needle.isPrefixOf (c :: rest) then some (c :: rest) else findText needle rest

/-- Where the walk begins: behind the first `[` from the first `"Answer"` on. -/
def arrayStart (body : Bytes) : Option Bytes :=
  (findText (ascii "\"Answer\"") body).bind fun text =>
    match text.dropWhile (· ≠ 0x5B) with
    | [] => none
    | _ :: rest => some rest

def extractTxtDataValues (body : Bytes) : List Bytes :=
  match arrayStart body with
  | none => []
  | some rest => walkArray rest false false

/-- `parse_dns_json`. -/
def parseDnsJson (nodeIdFromPubkey : Bytes → NodeId) (body : Bytes) : List PeerInfo :=
  (extractTxtDataValues body).filterMap (parseFinbitTxt nodeIdFromPubkey)

end FinBit.Net.Doh
