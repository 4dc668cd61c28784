import FinBit.Lib.Base64
import FinBit.Net.Handshake

/-! # Encrypted Client Hello

A relay publishes a list of configurations for ECH in a DNS record, in base64 behind `ech=`. Before
the list is given to the TLS library its framing is checked: a length for the whole list, and a version
and a length for each configuration.
-/

namespace FinBit.Net.Ech

open FinBit.Lib

/-! ### Configurations -/

structure EchConfig where
  version : UInt16
  contents : Bytes
  short : contents.length < 65536

def EchConfig.encode (c : EchConfig) : Bytes :=
  be16 c.version.toNat ++ be16 c.contents.length ++ c.contents

/-- A list of one or more configurations behind its length. -/
def IsConfigList (bytes : Bytes) : Prop :=
  ∃ configs : List EchConfig, configs ≠ [] ∧ (configs.flatMap EchConfig.encode).length < 65536 ∧
    bytes = be16 (configs.flatMap EchConfig.encode).length ++ configs.flatMap EchConfig.encode

/-- `be16`, with none for a read outside. -/
def readBe16 (b : Bytes) (i : Nat) : Option Nat := do
  let high ← b[i]?
  let low ← b[i + 1]?
  return (high.toNat <<< 8 ||| low.toNat) % 2 ^ 16

/-- The loop over the configurations. -/
def walk (bytes : Bytes) (off configs : Nat) : Option Bool :=
  if off < bytes.length then
    if off + 4 > bytes.length then some false
    else
      match readBe16 bytes (off + 2) with
      | none => none
      | some clen =>
        if off + 4 + clen > bytes.length then some false
        else walk bytes (off + 4 + clen) (configs + 1)
  else some (off = bytes.length && 1 ≤ configs)
termination_by bytes.length - off

/-- `ech_config_list_looks_valid`. -/
def echConfigListLooksValid (bytes : Bytes) : Option Bool :=
  if bytes.length < 2 then some false
  else
    match readBe16 bytes 0 with
    | none => none
    | some innerLen =>
      if innerLen = 0 then some false
      else if bytes.length ≠ innerLen + 2 then some false
      else walk bytes 2 0

theorem readBe16_eq {b rest : Bytes} {i : Nat} {high low : UInt8}
    (found : b.drop i = high :: low :: rest) :
    readBe16 b i = some (256 * high.toNat + low.toNat) := by
  have first : b[i]? = some high := by
    rw [← Nat.add_zero i, ← List.getElem?_drop, found]
    rfl
  have second : b[i + 1]? = some low := by
    rw [← List.getElem?_drop, found]
    rfl
  have high_lt := high.toNat_lt
  have low_lt := low.toNat_lt
  rw [readBe16, first, second]
  refine congrArg some ?_
  rw [shiftLeft_or low_lt]
  omega

theorem length_encode (c : EchConfig) : c.encode.length = 4 + c.contents.length := by
  rw [EchConfig.encode, List.length_append, List.length_append, length_be16, length_be16]

/-- A configuration that is at an offset, by its octets. -/
theorem encode_eq {high low first second : UInt8} {contents : Bytes}
    (counted : contents.length = 256 * first.toNat + second.toNat) :
    ∃ c : EchConfig, c.contents = contents ∧
      c.encode = high :: low :: first :: second :: contents := by
  have short : contents.length < 65536 := by
    have first_lt := first.toNat_lt
    have second_lt := second.toNat_lt
    omega
  have version : (UInt16.ofNat (256 * high.toNat + low.toNat)).toNat =
      256 * high.toNat + low.toNat := by
    have high_lt := high.toNat_lt
    have low_lt := low.toNat_lt
    rw [UInt16.toNat_ofNat']
    omega
  refine ⟨⟨UInt16.ofNat (256 * high.toNat + low.toNat), contents, short⟩, rfl, ?_⟩
  rw [EchConfig.encode, be16_eq version, be16_eq counted]
  rfl

/-- What a configuration at an offset says of the octets there. -/
theorem read_encode {bytes more : Bytes} {off : Nat} {c : EchConfig}
    (found : bytes.drop off = c.encode ++ more) :
    readBe16 bytes (off + 2) = some c.contents.length ∧
      bytes.drop (off + 4 + c.contents.length) = more ∧
        off + 4 + c.contents.length ≤ bytes.length := by
  obtain ⟨high, low, version, -⟩ := be16_spells c.version.toNat_lt
  obtain ⟨first, second, length, spelled⟩ := be16_spells c.short
  have size := congrArg List.length found
  rw [List.length_drop, List.length_append, length_encode] at size
  have shape : bytes.drop off = high :: low :: first :: second :: (c.contents ++ more) := by
    rw [found, EchConfig.encode, version, length]
    rfl
  refine ⟨?_, ?_, by omega⟩
  · rw [spelled]
    have behind : bytes.drop (off + 2) = first :: second :: (c.contents ++ more) := by
      rw [← List.drop_drop, shape]
      rfl
    exact readBe16_eq behind
  · have whole : 4 + c.contents.length = c.encode.length := (length_encode c).symm
    rw [Nat.add_assoc, ← List.drop_drop, found, whole, List.drop_left]

theorem flatMap_encode_eq_nil {configs : List EchConfig} :
    configs.flatMap EchConfig.encode = [] ↔ configs = [] := by
  constructor
  · intro empty
    cases configs with
    | nil => rfl
    | cons c rest =>
      have size := congrArg List.length empty
      rw [List.flatMap_cons, List.length_append, length_encode, List.length_nil] at size
      omega
  · rintro rfl
    rfl

/-- Where there is something left, it begins with a configuration. -/
theorem exists_head {bytes : Bytes} {off : Nat} (more : off < bytes.length)
    {rest : List EchConfig} (fills : bytes.drop off = rest.flatMap EchConfig.encode) :
    ∃ c later, rest = c :: later ∧
      bytes.drop off = c.encode ++ later.flatMap EchConfig.encode := by
  cases rest with
  | nil =>
    have size := congrArg List.length fills
    rw [List.length_drop] at size
    change bytes.length - off = 0 at size
    omega
  | cons c later => exact ⟨c, later, rfl, fills⟩

/-- From every offset the walk accepts exactly the configurations that fill the rest. -/
theorem walk_spec (bytes : Bytes) (off configs : Nat) (inside : off ≤ bytes.length) :
    ∃ valid, walk bytes off configs = some valid ∧
      (valid = true ↔ ∃ rest : List EchConfig, bytes.drop off = rest.flatMap EchConfig.encode ∧
        1 ≤ configs + rest.length) := by
  induction off, configs using walk.induct bytes with
  | case1 off configs more short =>
    rw [walk, if_pos more, if_pos short]
    refine ⟨false, rfl, iff_of_false nofun ?_⟩
    rintro ⟨rest, fills, -⟩
    obtain ⟨c, later, -, found⟩ := exists_head more fills
    have fits := (read_encode found).2.2
    omega
  | case2 off configs more enough unread =>
    -- the two octets are there
    have present : off + 2 + 1 < bytes.length := by omega
    have read := readBe16_eq ((List.drop_eq_getElem_cons (Nat.lt_of_succ_lt present)).trans
      (congrArg _ (List.drop_eq_getElem_cons present)))
    rw [read] at unread
    cases unread
  | case3 off configs more enough clen read over_end =>
    rw [walk, if_pos more, if_neg enough, read]
    dsimp only
    rw [if_pos over_end]
    refine ⟨false, rfl, iff_of_false nofun ?_⟩
    rintro ⟨rest, fills, -⟩
    obtain ⟨c, later, -, found⟩ := exists_head more fills
    obtain ⟨length, -, fits⟩ := read_encode found
    rw [read] at length
    obtain rfl := Option.some.inj length
    exact absurd fits (Nat.not_le_of_lt over_end)
  | case4 off configs more enough clen read fits ih =>
    rw [walk, if_pos more, if_neg enough, read]
    dsimp only
    rw [if_neg fits]
    obtain ⟨valid, walked, accepts⟩ := ih (Nat.le_of_not_lt fits)
    refine ⟨valid, walked, accepts.trans ⟨?_, ?_⟩⟩
    · rintro ⟨rest, fills, -⟩
      have front : off + 1 < bytes.length := by omega
      have back : off + 2 + 1 < bytes.length := by omega
      have length : bytes.drop (off + 2) =
          bytes[off + 2] :: bytes[off + 2 + 1] :: bytes.drop (off + 4) :=
        (List.drop_eq_getElem_cons (Nat.lt_of_succ_lt back)).trans
          (congrArg _ (List.drop_eq_getElem_cons back))
      have shape : bytes.drop off = bytes[off] :: bytes[off + 1] :: bytes.drop (off + 2) :=
        (List.drop_eq_getElem_cons more).trans (congrArg _ (List.drop_eq_getElem_cons front))
      have spelled := Option.some.inj (read.symm.trans (readBe16_eq length))
      have counted : ((bytes.drop (off + 4)).take clen).length =
          256 * bytes[off + 2].toNat + bytes[off + 2 + 1].toNat := by
        rw [List.length_take, List.length_drop, ← spelled]
        omega
      obtain ⟨c, -, written⟩ := @encode_eq bytes[off] bytes[off + 1] _ _ _ counted
      refine ⟨c :: rest, ?_, Nat.le_add_left_of_le (Nat.succ_pos _)⟩
      have behind : (bytes.drop (off + 4)).take clen ++ bytes.drop (off + 4 + clen) =
          bytes.drop (off + 4) := by
        rw [Nat.add_assoc off 4, ← Nat.add_assoc, ← List.drop_drop (l := bytes) (j := off + 4),
          List.take_append_drop]
      rw [List.flatMap_cons, ← fills, written, shape, length]
      simp only [List.cons_append, behind]
    · rintro ⟨rest, fills, -⟩
      obtain ⟨c, later, -, found⟩ := exists_head more fills
      obtain ⟨length, behind, -⟩ := read_encode found
      rw [read] at length
      obtain rfl := Option.some.inj length
      exact ⟨later, behind, by omega⟩
  | case5 off configs done =>
    have ended : off = bytes.length := Nat.le_antisymm inside (Nat.le_of_not_lt done)
    have nothing : bytes.drop off = [] := List.drop_eq_nil_of_le ended.ge
    rw [walk, if_neg done]
    refine ⟨_, rfl, ?_⟩
    rw [Bool.and_eq_true, decide_eq_true_eq, decide_eq_true_eq, nothing]
    constructor
    · exact fun both => ⟨[], rfl, both.2⟩
    · rintro ⟨rest, fills, counted⟩
      obtain rfl := flatMap_encode_eq_nil.mp fills.symm
      exact ⟨ended, counted⟩

theorem IsConfigList.two_le_length {bytes : Bytes} (listed : IsConfigList bytes) :
    2 ≤ bytes.length := by
  obtain ⟨configs, -, -, rfl⟩ := listed
  rw [List.length_append, length_be16]
  exact Nat.le_add_right _ _

theorem isConfigList_cons_iff {high low : UInt8} {body : Bytes} :
    IsConfigList (high :: low :: body) ↔ 256 * high.toNat + low.toNat = body.length ∧
      ∃ configs : List EchConfig, configs ≠ [] ∧ body = configs.flatMap EchConfig.encode := by
  constructor
  · rintro ⟨configs, some_config, small, same⟩
    obtain ⟨high', low', written, spelled⟩ := be16_spells small
    rw [written] at same
    cases same
    exact ⟨spelled.symm, configs, some_config, rfl⟩
  · rintro ⟨spelled, configs, some_config, rfl⟩
    have high_lt := high.toNat_lt
    have low_lt := low.toNat_lt
    refine ⟨configs, some_config, by omega, ?_⟩
    rw [be16_eq spelled.symm]
    rfl

/-- The check reads nothing outside, and accepts exactly the lists of configurations. -/
theorem echConfigListLooksValid_spec (bytes : Bytes) :
    ∃ valid, echConfigListLooksValid bytes = some valid ∧ (valid = true ↔ IsConfigList bytes) := by
  have short : ∀ bytes : Bytes, bytes.length < 2 → ¬IsConfigList bytes := fun bytes few listed =>
    Nat.not_lt.mpr listed.two_le_length few
  rw [echConfigListLooksValid]
  match bytes with
  | [] => exact ⟨false, rfl, iff_of_false nofun (short _ (Nat.zero_lt_two))⟩
  | [octet] => exact ⟨false, rfl, iff_of_false nofun (short _ (Nat.one_lt_two))⟩
  | high :: low :: body =>
    have read := @readBe16_eq (high :: low :: body) body 0 high low rfl
    have enough : ¬(high :: low :: body).length < 2 := by
      rw [List.length_cons, List.length_cons]
      omega
    rw [if_neg enough, read, isConfigList_cons_iff]
    dsimp only
    split
    next zero =>
      refine ⟨false, rfl, iff_of_false nofun ?_⟩
      rintro ⟨spelled, configs, some_config, rfl⟩
      have empty := List.eq_nil_of_length_eq_zero (spelled.symm.trans zero)
      exact some_config (flatMap_encode_eq_nil.mp empty)
    next positive =>
      split
      next other =>
        refine ⟨false, rfl, iff_of_false nofun ?_⟩
        rintro ⟨spelled, -⟩
        exact other (by rw [List.length_cons, List.length_cons, spelled])
      next framed =>
        have spelled : 256 * high.toNat + low.toNat = body.length := by
          rw [List.length_cons, List.length_cons] at framed
          omega
        obtain ⟨valid, walked, accepts⟩ := walk_spec (high :: low :: body) 2 0 (Nat.le_of_not_lt enough)
        refine ⟨valid, walked, accepts.trans ⟨?_, ?_⟩⟩
        · rintro ⟨configs, fills, counted⟩
          exact ⟨spelled, configs, List.ne_nil_of_length_pos (by omega), fills⟩
        · rintro ⟨-, configs, some_config, fills⟩
          have counted := List.length_pos_iff.mpr some_config
          exact ⟨configs, fills, by omega⟩

/-! ### Records -/

/-- What is used of libsodium: `sodium_base642bin` of the standard variant, for a buffer of a size, a
text and the characters to ignore; none where it does not return 0. -/
abbrev Base642Bin := Nat → Bytes → Bytes → Option Bytes

/-- It decodes standard base64 that fits the buffer, and rejects everything else. -/
def Standard (base642bin : Base642Bin) : Prop :=
  ∀ maxLen text ignore bytes, base642bin maxLen text ignore = some bytes ↔
    bytes.length ≤ maxLen ∧ Base64.encode bytes = text.filter (· ∉ ignore)

section

variable (base642bin : Base642Bin)

/-- `decode_ech_config_list_b64`. -/
def decodeEchConfigListB64 (b64 : Bytes) : Option (Option Bytes) :=
  if b64 = [] then some none
  else
    match base642bin b64.length b64 [0x20, 0x09, 0x0D, 0x0A] with
    | none => some none
    | some out => (echConfigListLooksValid out).map fun valid => if valid then some out else none

/-- A loop that moves an index on over certain characters, with none for a read outside. -/
def skipWhile (skipped : UInt8 → Bool) (txtBody : Bytes) (i : Nat) : Option Nat :=
  if i < txtBody.length then
    match txtBody[i]? with
    | none => none
    | some c => if skipped c then skipWhile skipped txtBody (i + 1) else some i
  else some i
termination_by txtBody.length - i

theorem take_length_takeWhile (p : UInt8 → Bool) (l : Bytes) :
    l.take (l.takeWhile p).length = l.takeWhile p :=
  (congrArg (List.take _) List.takeWhile_append_dropWhile).symm.trans List.take_left

theorem drop_length_takeWhile (p : UInt8 → Bool) (l : Bytes) :
    l.drop (l.takeWhile p).length = l.dropWhile p :=
  (congrArg (List.drop _) List.takeWhile_append_dropWhile).symm.trans List.drop_left

theorem head?_dropWhile {p : UInt8 → Bool} {l : Bytes} {c : UInt8}
    (first : (l.dropWhile p).head? = some c) : p c = false := by
  have stops := List.head?_dropWhile_not p l
  rwa [first] at stops

theorem skipWhile_eq (skipped : UInt8 → Bool) (txtBody : Bytes) (i : Nat) :
    skipWhile skipped txtBody i = some (i + ((txtBody.drop i).takeWhile skipped).length) := by
  induction i using skipWhile.induct skipped txtBody with
  | case1 i more outside =>
    rw [List.getElem?_eq_getElem more] at outside
    cases outside
  | case2 i more c here skip ih =>
    have shape := List.drop_eq_getElem_cons more
    rw [(List.getElem?_eq_some_iff.mp here).2] at shape
    rw [skipWhile, if_pos more, here]
    dsimp only
    rw [if_pos skip, ih, shape, List.takeWhile_cons_of_pos skip, List.length_cons, Nat.add_assoc,
      Nat.add_comm 1]
  | case3 i more c here stop =>
    have shape := List.drop_eq_getElem_cons more
    rw [(List.getElem?_eq_some_iff.mp here).2] at shape
    rw [skipWhile, if_pos more, here]
    dsimp only
    rw [if_neg stop, shape, List.takeWhile_cons_of_neg stop]
    rfl
  | case4 i done =>
    rw [skipWhile, if_neg done, List.drop_eq_nil_of_le (Nat.le_of_not_lt done)]
    rfl

theorem lt_of_skipWhile {txtBody : Bytes} {i start stop : Nat} (more : i < txtBody.length)
    (spaces : skipWhile isSpace txtBody i = some start)
    (token : skipWhile (!isSpace ·) txtBody start = some stop) : i < stop := by
  rw [skipWhile_eq] at spaces token
  obtain rfl := Option.some.inj spaces
  obtain rfl := Option.some.inj token
  have shape := List.drop_eq_getElem_cons more
  by_cases space : isSpace txtBody[i] = true
  · rw [shape, List.takeWhile_cons_of_pos space, List.length_cons]
    omega
  · have unspaced : (!isSpace txtBody[i]) = true := by simpa using space
    rw [shape, List.takeWhile_cons_of_neg space, List.length_nil, Nat.add_zero, shape,
      List.takeWhile_cons_of_pos (p := (!isSpace ·)) unspaced, List.length_cons]
    omega

/-- What a token carries. -/
def listOfToken (tok : Bytes) : Option (Option Bytes) :=
  if tok.length > 4 ∧ tok.take 4 = ascii "ech=" then
    decodeEchConfigListB64 base642bin (tok.drop 4)
  else some none

/-- The scan from an index on. -/
def scanFrom (txtBody : Bytes) (i : Nat) : Option (Option Bytes) :=
  if _more : i < txtBody.length then
    match _spaces : skipWhile isSpace txtBody i with
    | none => none
    | some start =>
      match _token : skipWhile (!isSpace ·) txtBody start with
      | none => none
      | some stop =>
        match listOfToken base642bin ((txtBody.drop start).take (stop - start)) with
        | none => none
        | some (some bytes) => some (some bytes)
        | some none => scanFrom txtBody stop
  else some none
termination_by txtBody.length - i
decreasing_by
  have moved := lt_of_skipWhile _more _spaces _token
  omega

/-- `parse_ech_param`. -/
def parseEchParam (txtBody : Bytes) : Option (Option Bytes) := scanFrom base642bin txtBody 0

end

/-- What stands between white space. -/
def tokens (txtBody : Bytes) : List Bytes := (txtBody.splitOnP isSpace).filter (· ≠ [])

theorem tokens_cons_space {c : UInt8} (space : isSpace c = true) (l : Bytes) :
    tokens (c :: l) = tokens l := by
  rw [tokens, List.splitOnP_cons_eq_if_modifyHead, if_pos space]
  exact List.filter_cons_of_neg (by simp)

theorem tokens_dropWhile (l : Bytes) : tokens (l.dropWhile isSpace) = tokens l := by
  induction l with
  | nil => rfl
  | cons c l ih =>
    by_cases space : isSpace c = true
    · rw [List.dropWhile_cons_of_pos space, ih, tokens_cons_space space]
    · rw [List.dropWhile_cons_of_neg space]

/-- A token ends where the text does, or before white space. -/
theorem tokens_append {tok rest : Bytes} (nonempty : tok ≠ [])
    (unspaced : ∀ c ∈ tok, isSpace c = false) (ends : ∀ c ∈ rest.head?, isSpace c = true) :
    tokens (tok ++ rest) = tok :: tokens rest := by
  have kept : ∀ l : List Bytes, (tok :: l).filter (· ≠ []) = tok :: l.filter (· ≠ []) := fun l =>
    List.filter_cons_of_pos (by simpa using nonempty)
  cases rest with
  | nil =>
    rw [List.append_nil, tokens, List.splitOnP_eq_singleton unspaced, kept]
    rfl
  | cons c rest =>
    have space := ends c rfl
    rw [tokens, List.splitOnP_append_cons tok rest space, List.splitOnP_eq_singleton unspaced,
      List.singleton_append, kept, tokens_cons_space space, tokens]

/-- A token that carries a list of configurations. -/
def Carries (tok bytes : Bytes) : Prop :=
  tok = ascii "ech=" ++ Base64.encode bytes ∧ IsConfigList bytes

/-- The list of the first token that carries one. -/
def FirstOf (toks : List Bytes) : Option Bytes → Prop
  | none => ∀ tok ∈ toks, ∀ bytes, ¬Carries tok bytes
  | some bytes => ∃ before tok after, toks = before ++ tok :: after ∧
      (∀ tok ∈ before, ∀ bytes, ¬Carries tok bytes) ∧ Carries tok bytes

/-! ### The scan -/

section

variable {base642bin : Base642Bin}

theorem decodeEchConfigListB64_spec (standard : Standard base642bin) {b64 : Bytes}
    (unspaced : ∀ c ∈ b64, isSpace c = false) :
    ∃ result, decodeEchConfigListB64 base642bin b64 = some result ∧ ∀ bytes,
      result = some bytes ↔ Base64.encode bytes = b64 ∧ IsConfigList bytes := by
  -- nothing of a token is ignored
  have kept : b64.filter (· ∉ ([0x20, 0x09, 0x0D, 0x0A] : Bytes)) = b64 := by
    refine List.filter_eq_self.mpr fun c member => decide_eq_true fun ignored => ?_
    have spaces : [0x20, 0x09, 0x0D, 0x0A].all isSpace = true := by decide
    have space := List.all_eq_true.mp spaces c ignored
    rw [unspaced c member] at space
    cases space
  have decodes : ∀ bytes, base642bin b64.length b64 [0x20, 0x09, 0x0D, 0x0A] = some bytes ↔
      Base64.encode bytes = b64 := by
    intro bytes
    rw [standard, kept]
    refine and_iff_right_of_imp ?_
    rintro rfl
    exact Base64.length_le_length_encode bytes
  rw [decodeEchConfigListB64]
  split
  next empty =>
    refine ⟨none, rfl, fun bytes => iff_of_false nofun ?_⟩
    rintro ⟨encoded, listed⟩
    have few := Base64.length_le_length_encode bytes
    rw [encoded, empty] at few
    exact absurd (listed.two_le_length.trans few) (by decide)
  next =>
    cases decoded : base642bin b64.length b64 [0x20, 0x09, 0x0D, 0x0A] with
    | none =>
      refine ⟨none, rfl, fun bytes => iff_of_false nofun ?_⟩
      rintro ⟨encoded, -⟩
      rw [(decodes bytes).mpr encoded] at decoded
      cases decoded
    | some out =>
      obtain ⟨valid, checked, accepts⟩ := echConfigListLooksValid_spec out
      dsimp only
      rw [checked]
      refine ⟨if valid then some out else none, rfl, fun bytes => ?_⟩
      rw [← decodes bytes, decoded, Option.some.injEq]
      cases valid with
      | false =>
        refine iff_of_false nofun ?_
        rintro ⟨rfl, listed⟩
        cases accepts.mpr listed
      | true =>
        constructor
        · rintro ⟨rfl⟩
          exact ⟨rfl, accepts.mp rfl⟩
        · rintro ⟨rfl, -⟩
          rfl

theorem listOfToken_spec (standard : Standard base642bin) {tok : Bytes}
    (unspaced : ∀ c ∈ tok, isSpace c = false) :
    ∃ result, listOfToken base642bin tok = some result ∧
      ∀ bytes, result = some bytes ↔ Carries tok bytes := by
  have size : (ascii "ech=").length = 4 := by decide
  have carries : ∀ bytes, Carries tok bytes ↔
      tok.take 4 = ascii "ech=" ∧ Base64.encode bytes = tok.drop 4 ∧ IsConfigList bytes := by
    intro bytes
    constructor
    · rintro ⟨rfl, listed⟩
      exact ⟨List.take_left' size, (List.drop_left' size).symm, listed⟩
    · rintro ⟨front, back, listed⟩
      refine ⟨?_, listed⟩
      rw [← front, back, List.take_append_drop]
  rw [listOfToken]
  split
  next named =>
    obtain ⟨result, decoded, accepts⟩ := decodeEchConfigListB64_spec standard
      fun c member => unspaced c (List.mem_of_mem_drop member)
    refine ⟨result, decoded, fun bytes => (accepts bytes).trans ?_⟩
    rw [carries, and_iff_right named.2]
  next other =>
    refine ⟨none, rfl, fun bytes => iff_of_false nofun fun carried => ?_⟩
    obtain ⟨front, back, listed⟩ := (carries bytes).mp carried
    have some_digit := listed.two_le_length.trans (Base64.length_le_length_encode bytes)
    rw [back, List.length_drop] at some_digit
    exact other ⟨by omega, front⟩

/-- A round of the scan, with its token. -/
theorem scanFrom_eq {txtBody : Bytes} {i start stop : Nat} (more : i < txtBody.length)
    (spaces : skipWhile isSpace txtBody i = some start)
    (token : skipWhile (!isSpace ·) txtBody start = some stop) :
    scanFrom base642bin txtBody i =
      match listOfToken base642bin ((txtBody.drop start).take (stop - start)) with
      | none => none
      | some (some bytes) => some (some bytes)
      | some none => scanFrom base642bin txtBody stop := by
  rw [scanFrom, dif_pos more]
  split
  next unread =>
    rw [spaces] at unread
    cases unread
  next start' spaces' =>
    obtain rfl := Option.some.inj (spaces.symm.trans spaces')
    split
    next unread =>
      rw [token] at unread
      cases unread
    next stop' token' =>
      obtain rfl := Option.some.inj (token.symm.trans token')
      rfl

/-- Its token is the next one of the text, or it is empty and the text ends. -/
theorem tokens_drop {txtBody : Bytes} {i start stop : Nat}
    (spaces : skipWhile isSpace txtBody i = some start)
    (token : skipWhile (!isSpace ·) txtBody start = some stop) :
    (∀ c ∈ (txtBody.drop start).take (stop - start), isSpace c = false) ∧
      tokens (txtBody.drop i) =
        [(txtBody.drop start).take (stop - start)].filter (· ≠ []) ++ tokens (txtBody.drop stop) := by
  rw [skipWhile_eq] at spaces token
  have stop_eq := Option.some.inj token
  have behind : txtBody.drop start = (txtBody.drop i).dropWhile isSpace := by
    rw [← Option.some.inj spaces, ← List.drop_drop, drop_length_takeWhile]
  generalize rest : txtBody.drop start = l at *
  have length : stop - start = (l.takeWhile (!isSpace ·)).length := by omega
  have taken : l.take (stop - start) = l.takeWhile (!isSpace ·) := by
    rw [length, take_length_takeWhile]
  have left : txtBody.drop stop = l.dropWhile (!isSpace ·) := by
    rw [← stop_eq, ← List.drop_drop, rest, drop_length_takeWhile]
  have unspaced : ∀ c ∈ l.takeWhile (!isSpace ·), isSpace c = false := fun c member => by
    simpa using List.mem_takeWhile_imp member
  rw [taken, left]
  refine ⟨unspaced, ?_⟩
  rw [← tokens_dropWhile, ← behind]
  by_cases empty : l.takeWhile (!isSpace ·) = []
  · -- what comes first is not white space
    have ended : l = [] := by
      cases l with
      | nil => rfl
      | cons c l =>
        have first := head?_dropWhile (congrArg List.head? behind.symm)
        rw [List.takeWhile_cons_of_pos (by simp [first])] at empty
        cases empty
    subst ended
    rfl
  · have ends : ∀ c ∈ (l.dropWhile (!isSpace ·)).head?, isSpace c = true := fun c first => by
      simpa using head?_dropWhile first
    have split := tokens_append empty unspaced ends
    rw [List.takeWhile_append_dropWhile] at split
    rw [split, List.filter_cons_of_pos (by simpa using empty)]
    rfl

theorem FirstOf.append {front toks : List Bytes} {result : Option Bytes}
    (nothing : ∀ tok ∈ front, ∀ bytes, ¬Carries tok bytes) (first : FirstOf toks result) :
    FirstOf (front ++ toks) result := by
  cases result with
  | none =>
    intro tok member
    obtain early | late := List.mem_append.mp member
    · exact nothing tok early
    · exact first tok late
  | some bytes =>
    obtain ⟨before, tok, after, rfl, passed, carried⟩ := first
    refine ⟨front ++ before, tok, after, (List.append_assoc _ _ _).symm, ?_, carried⟩
    intro tok' member
    obtain early | late := List.mem_append.mp member
    · exact nothing tok' early
    · exact passed tok' late

theorem scanFrom_spec (standard : Standard base642bin) (txtBody : Bytes) (i : Nat) :
    ∃ result, scanFrom base642bin txtBody i = some result ∧
      FirstOf (tokens (txtBody.drop i)) result := by
  induction i using scanFrom.induct base642bin txtBody with
  | case1 i more unread =>
    rw [skipWhile_eq] at unread
    cases unread
  | case2 i more start spaces unread =>
    rw [skipWhile_eq] at unread
    cases unread
  | case3 i more start spaces stop token unread =>
    obtain ⟨result, read, -⟩ := listOfToken_spec standard (tokens_drop spaces token).1
    rw [read] at unread
    cases unread
  | case4 i more start spaces stop token bytes found =>
    obtain ⟨unspaced, split⟩ := tokens_drop spaces token
    obtain ⟨result, read, accepts⟩ := listOfToken_spec standard unspaced
    obtain rfl := Option.some.inj (read.symm.trans found)
    have carried := (accepts bytes).mp rfl
    have nonempty : (txtBody.drop start).take (stop - start) ≠ [] := by
      intro empty
      have size := congrArg List.length carried.1
      rw [empty, List.length_append] at size
      have letters : (ascii "ech=").length = 4 := by decide
      rw [letters, List.length_nil] at size
      omega
    rw [scanFrom_eq more spaces token, found, split,
      List.filter_cons_of_pos (by simpa using nonempty)]
    exact ⟨some bytes, rfl, [], _, _, rfl, nofun, carried⟩
  | case5 i more start spaces stop token nothing ih =>
    obtain ⟨unspaced, split⟩ := tokens_drop spaces token
    obtain ⟨result, read, accepts⟩ := listOfToken_spec standard unspaced
    obtain rfl := Option.some.inj (read.symm.trans nothing)
    obtain ⟨result, scanned, first⟩ := ih
    refine ⟨result, ?_, ?_⟩
    · rw [scanFrom_eq more spaces token, nothing]
      exact scanned
    · rw [split]
      refine first.append fun tok member bytes carried => ?_
      obtain rfl := List.mem_singleton.mp (List.mem_filter.mp member).1
      cases (accepts bytes).mpr carried
  | case6 i done =>
    rw [scanFrom, dif_neg done, List.drop_eq_nil_of_le (Nat.le_of_not_lt done)]
    exact ⟨none, rfl, nofun⟩

/-- The check accepts exactly its grammar, and what is taken from a record is the list of the first
token that carries one; nothing is read outside. -/
theorem ech_spec {base642bin : Base642Bin} (standard : Standard base642bin) :
    (∀ bytes, ∃ valid, echConfigListLooksValid bytes = some valid ∧
        (valid = true ↔ IsConfigList bytes)) ∧
      ∀ txtBody, ∃ result, parseEchParam base642bin txtBody = some result ∧
        FirstOf (tokens txtBody) result :=
  ⟨echConfigListLooksValid_spec, fun txtBody => scanFrom_spec standard txtBody 0⟩

/-- As strict a decoder. -/
def strictBase64 : Base642Bin := fun maxLen text ignore =>
  (Base64.decode (text.filter (· ∉ ignore))).filter (·.length ≤ maxLen)

theorem strictBase64_standard : Standard strictBase64 := by
  intro maxLen text ignore bytes
  rw [strictBase64, Option.filter_eq_some_iff, Base64.decode_eq_some_iff, decide_eq_true_eq, and_comm]

theorem ech_spec_strictBase64 :
    (∀ bytes, ∃ valid, echConfigListLooksValid bytes = some valid ∧
        (valid = true ↔ IsConfigList bytes)) ∧
      ∀ txtBody, ∃ result, parseEchParam strictBase64 txtBody = some result ∧
        FirstOf (tokens txtBody) result :=
  ech_spec strictBase64_standard

end

end FinBit.Net.Ech
