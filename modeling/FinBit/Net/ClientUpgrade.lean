import FinBit.Lib.Base64
import FinBit.Net.Handshake

/-! # The request of a client

`build_client_upgrade_request` writes the request line by line in the order of a browser. The server
looks for what it needs in the headers as one text, so what is searched for must not stand in a line
in front of the one that is meant.
-/

namespace FinBit.Net

open FinBit.Lib

def crlf : Bytes := [13, 10]

/-- Lines as they are sent, each with its end. -/
def unlines (lines : List Bytes) : Bytes :=
  lines.flatMap (· ++ crlf)

/-- `WsUpgradeOptions`. -/
structure WsUpgradeOptions where
  userAgent : Bytes
  origin : Bytes
  browserHeaders : Bool

/-- `WsUpgradeOptions{}`. -/
def WsUpgradeOptions.standard : WsUpgradeOptions := ⟨[], [], true⟩

structure ClientUpgrade where
  request : Bytes
  secKey : Bytes

/-- The host with its port, unless that is the one of `wss://`. -/
def hostHdr (hostHeader : Bytes) (port : UInt16) : Bytes :=
  if port ≠ 443 then hostHeader ++ ascii ":" ++ ascii (toString port.toNat) else hostHeader

def userAgentOf (opts : WsUpgradeOptions) : Bytes :=
  if opts.userAgent = [] then
    ascii "Mozilla/5.0 (Windows NT 10.0; Win64; x64) AppleWebKit/537.36 (KHTML, like Gecko) Chrome/131.0.0.0 Safari/537.36"
  else opts.userAgent

def originOf (host : Bytes) (opts : WsUpgradeOptions) : Bytes :=
  if opts.origin = [] then ascii "https://" ++ host else opts.origin

/-- The lines in front of the key. -/
def linesBefore (host path : Bytes) (opts : WsUpgradeOptions) : List Bytes :=
  [ascii "GET " ++ (if path = [] then ascii "/" else path) ++ ascii " HTTP/1.1",
    ascii "Host: " ++ host,
    ascii "Connection: Upgrade"] ++
  (if opts.browserHeaders then [ascii "Pragma: no-cache", ascii "Cache-Control: no-cache"] else []) ++
  [ascii "User-Agent: " ++ userAgentOf opts,
    ascii "Upgrade: websocket",
    ascii "Origin: " ++ originOf host opts,
    ascii "Sec-WebSocket-Version: 13"] ++
  (if opts.browserHeaders then
    [ascii "Accept-Encoding: gzip, deflate, br", ascii "Accept-Language: en-US,en;q=0.9"]
  else [])

def linesBehind (opts : WsUpgradeOptions) : List Bytes :=
  if opts.browserHeaders then
    [ascii "Sec-WebSocket-Extensions: permessage-deflate; client_max_window_bits"]
  else []

/-- `build_client_upgrade_request`, with the 16 octets that have been drawn for the key. -/
def buildClientUpgradeRequest (keyRaw hostHeader : Bytes) (port : UInt16) (path : Bytes)
    (opts : WsUpgradeOptions) : ClientUpgrade :=
  let secKey := Base64.encode keyRaw
  let host := hostHdr hostHeader port
  ⟨unlines (linesBefore host path opts ++ (ascii "Sec-WebSocket-Key: " ++ secKey) :: linesBehind opts) ++
    crlf, secKey⟩

/-! ### Searching line by line -/

theorem search_start {needle hay : Bytes} (here : needle <+: hay) : search needle hay = some 0 := by
  cases hay with
  | nil => exact if_pos (List.prefix_nil.mp here)
  | cons octet octets => exact if_pos (List.isPrefixOf_iff_prefix.mpr here)

/-- An octet that the needle does not have parts what is searched. -/
theorem prefix_of_parted {needle rest : Bytes} {c : UInt8} (line : Bytes) (parts : c ∉ needle)
    (here : needle <+: line ++ c :: rest) : needle <+: line := by
  obtain inside | ⟨more, rfl⟩ := List.prefix_or_prefix_of_prefix here (List.prefix_append line _)
  · exact inside
  · rw [List.prefix_append_right_inj] at here
    cases more with
    | nil => exact ⟨[], by simp⟩
    | cons octet octets =>
      obtain rfl : octet = c := (List.cons_prefix_cons.mp here).1
      exact absurd (by simp) parts

theorem search_parted {needle : Bytes} {c : UInt8} (parts : c ∉ needle) (some_octet : needle ≠ [])
    (line rest : Bytes) :
    search needle (line ++ c :: rest) =
      (search needle line).or ((search needle rest).map (· + (line.length + 1))) := by
  induction line with
  | nil =>
    have elsewhere : ¬needle.isPrefixOf (c :: rest) = true := by
      rw [List.isPrefixOf_iff_prefix]
      intro here
      exact some_octet (List.prefix_nil.mp (prefix_of_parted [] parts here))
    have nowhere : search needle [] = none := if_neg some_octet
    rw [List.nil_append, nowhere, search, if_neg elsewhere]
    rfl
  | cons octet line ih =>
    by_cases here : needle <+: octet :: line
    · rw [search_start here, search_start (here.trans (List.prefix_append _ _))]
      rfl
    · have elsewhere : ¬needle.isPrefixOf (octet :: (line ++ c :: rest)) = true := by
        rw [List.isPrefixOf_iff_prefix]
        exact fun there => here (prefix_of_parted (octet :: line) parts there)
      have elsewhere' : ¬needle.isPrefixOf (octet :: line) = true := by
        rwa [List.isPrefixOf_iff_prefix]
      rw [List.cons_append, search, if_neg elsewhere, search, if_neg elsewhere', ih]
      cases search needle line <;> cases search needle rest <;> simp [Nat.add_assoc]

/-- Behind a line the search goes on with the next one. -/
theorem search_line {needle : Bytes} (no_cr : 13 ∉ needle) (no_lf : 10 ∉ needle)
    (some_octet : needle ≠ []) (line rest : Bytes) :
    search needle (line ++ crlf ++ rest) =
      (search needle line).or ((search needle rest).map (· + (line.length + 2))) := by
  have ended : line ++ crlf ++ rest = line ++ 13 :: ([] ++ 10 :: rest) := by simp [crlf]
  have nowhere : search needle [] = none := if_neg some_octet
  rw [ended, search_parted no_cr some_octet, search_parted no_lf some_octet, nowhere, Option.none_or,
    Option.map_map]
  congr 2
  funext place
  simp only [Function.comp_apply, List.length_nil]
  omega

theorem search_isSome {needle hay : Bytes} (inside : needle <:+: hay) :
    (search needle hay).isSome = true := by
  induction hay with
  | nil => rw [List.infix_nil.mp inside, search_empty]; rfl
  | cons octet octets ih =>
    obtain here | later := List.infix_cons_iff.mp inside
    · rw [search_start here]
      rfl
    · rw [search]
      split
      · rfl
      · rw [Option.isSome_map]
        exact ih later

/-- An octet that the needle does not begin with is passed over. -/
theorem search_skip {needle line : Bytes} (rest : Bytes) (others : ∀ octet ∈ line, needle.head? ≠ some octet)
    (some_octet : needle ≠ []) :
    search needle (line ++ rest) = (search needle rest).map (· + line.length) := by
  induction line with
  | nil => simp
  | cons octet line ih =>
    obtain ⟨first, later⟩ := List.forall_mem_cons.mp others
    have elsewhere : ¬needle.isPrefixOf (octet :: (line ++ rest)) = true := by
      cases needle with
      | nil => exact absurd rfl some_octet
      | cons head tail =>
        rw [List.isPrefixOf_iff_prefix, List.cons_prefix_cons]
        rintro ⟨rfl, -⟩
        exact first rfl
    rw [List.cons_append, search, if_neg elsewhere, ih later, Option.map_map]
    rfl

/-- Text in which no line ends. -/
def OneLine (text : Bytes) : Prop := 13 ∉ text

theorem OneLine.append {text text' : Bytes} {c : UInt8} (one : OneLine text) (one' : OneLine text')
    (ends : 13 ≠ c) : OneLine (text ++ c :: text') := by
  intro member
  obtain here | there := List.mem_append.mp member
  · exact one here
  · obtain same | there := List.mem_cons.mp there
    · exact ends same
    · exact one' there

theorem OneLine.search_crlf {line : Bytes} (one : OneLine line) (rest : Bytes) :
    search crlf (line ++ crlf ++ rest) = some line.length := by
  have others : ∀ octet ∈ line, crlf.head? ≠ some octet := by
    rintro octet member same
    obtain rfl : 13 = octet := Option.some.inj same
    exact one member
  rw [List.append_assoc, search_skip _ others (by decide),
    search_start (List.prefix_append crlf rest)]
  simp

/-- The headers end behind the empty line and not before. -/
theorem search_terminator {lines : List Bytes} (nonempty : lines ≠ [])
    (whole : ∀ line ∈ lines, line ≠ [] ∧ OneLine line) (rest : Bytes) :
    ∃ place, search terminator (unlines lines ++ crlf ++ rest) = some place ∧
      place + 4 = (unlines lines ++ crlf).length := by
  induction lines with
  | nil => exact absurd rfl nonempty
  | cons line lines ih =>
    obtain ⟨⟨-, one⟩, others⟩ := List.forall_mem_cons.mp whole
    have passed : ∀ octet ∈ line, terminator.head? ≠ some octet := by
      rintro octet member same
      obtain rfl : 13 = octet := Option.some.inj same
      exact one member
    have first : unlines (line :: lines) ++ crlf ++ rest =
        line ++ (crlf ++ (unlines lines ++ crlf ++ rest)) := by
      simp [unlines]
    rw [first, search_skip _ passed (by decide)]
    cases lines with
    | nil =>
      have here : terminator <+: crlf ++ (unlines [] ++ crlf ++ rest) := ⟨rest, rfl⟩
      rw [search_start here]
      exact ⟨_, rfl, by simp [unlines, crlf]⟩
    | cons next lines =>
      obtain ⟨place, found, length⟩ := ih (List.cons_ne_nil _ _) others
      obtain ⟨⟨filled, one'⟩, -⟩ := List.forall_mem_cons.mp others
      -- the next line does not begin with the end of one
      have goes_on : search terminator (crlf ++ (unlines (next :: lines) ++ crlf ++ rest)) =
          some (place + 2) := by
        cases next with
        | nil => exact absurd rfl filled
        | cons octet octets =>
          have other : ¬(13 : UInt8) = octet := fun same => one' (same ▸ List.mem_cons_self)
          have text : unlines ((octet :: octets) :: lines) ++ crlf ++ rest =
              octet :: (octets ++ crlf ++ unlines lines ++ crlf ++ rest) := by
            simp [unlines]
          rw [text] at found ⊢
          simp only [crlf, List.cons_append, List.nil_append] at found ⊢
          rw [search, if_neg (by simp [terminator, other]), search, if_neg (by simp [terminator]), found]
          rfl
      rw [goes_on]
      refine ⟨_, rfl, ?_⟩
      simp only [unlines, List.flatMap_cons, List.length_append] at length ⊢
      simp only [crlf, List.length_cons, List.length_nil] at length ⊢
      omega

/-! ### One header -/

/-- The lines before the first one that begins with the name of a header. -/
structure Names (needle name : Bytes) (before : List Bytes) : Prop where
  name_eq : lower name = needle
  no_cr : 13 ∉ needle
  no_lf : 10 ∉ needle
  nonempty : needle ≠ []
  elsewhere : ∀ line ∈ before, search needle (lower line) = none

variable {needle name text : Bytes} {before : List Bytes}

theorem lower_append (s t : Bytes) : lower (s ++ t) = lower s ++ lower t :=
  List.map_append

theorem Names.search (names : Names needle name before) (rest : Bytes) :
    search needle (lower (unlines before ++ (name ++ rest))) = some (unlines before).length := by
  obtain ⟨name_eq, no_cr, no_lf, nonempty, elsewhere⟩ := names
  induction before with
  | nil =>
    have here : needle <+: lower (name ++ rest) := by
      rw [lower_append, name_eq]
      exact List.prefix_append _ _
    exact search_start here
  | cons line before ih =>
    obtain ⟨first, others⟩ := List.forall_mem_cons.mp elsewhere
    have cut : lower (unlines (line :: before) ++ (name ++ rest)) =
        lower line ++ crlf ++ lower (unlines before ++ (name ++ rest)) := by
      simp only [unlines, List.flatMap_cons, lower_append, List.append_assoc]
      rfl
    rw [cut, search_line no_cr no_lf nonempty, first, Option.none_or, ih others]
    simp [unlines, crlf, lower]
    omega

theorem Names.headerText (names : Names needle name before) (one : OneLine (name ++ text))
    (front rest : Bytes) :
    headerText (front ++ (name ++ text ++ crlf ++ rest)) needle front.length = trimWs text := by
  have same : needle.length = name.length := by
    rw [← names.name_eq, lower, List.length_map]
  have eol : find (front ++ (name ++ text ++ crlf ++ rest)) [13, 10] front.length =
      some ((name ++ text).length + front.length) := by
    rw [find, List.drop_left]
    exact congrArg (Option.map (· + front.length)) (one.search_crlf rest)
  have behind : (front ++ (name ++ text ++ crlf ++ rest)).drop (front.length + name.length) =
      text ++ (crlf ++ rest) := by
    rw [← List.drop_drop, List.drop_left, List.append_assoc, List.append_assoc, List.drop_left]
  have size : (name ++ text).length + front.length - front.length - name.length = text.length := by
    rw [List.length_append]
    omega
  rw [Net.headerText, same, eol, behind]
  dsimp only [Option.getD_some]
  rw [size, List.take_left]

theorem trimWs_eq {key : Bytes} (solid : ∀ c ∈ key, isSpace c = false) :
    trimWs (32 :: key) = key := by
  have front : (32 :: key).dropWhile isSpace = key := by
    rw [List.dropWhile_cons_of_pos rfl]
    cases key with
    | nil => rfl
    | cons c key => rw [List.dropWhile_cons_of_neg (by simp [solid c List.mem_cons_self])]
  have back : key.reverse.dropWhile isSpace = key.reverse := by
    cases turned : key.reverse with
    | nil => rfl
    | cons c rest =>
      have member : c ∈ key := List.mem_reverse.mp (turned ▸ List.mem_cons_self)
      rw [List.dropWhile_cons_of_neg (by simp [solid c member])]
  rw [trimWs, front, back, List.reverse_reverse]

/-! ### The request is accepted -/

/-- A text that can stand in the lines before the key: it has no end of a line, and no name of the
header that is searched for. -/
structure Harmless (needle text : Bytes) : Prop where
  one_line : OneLine text
  absent : search needle (lower text) = none

/-- The name of the key header, as it is searched for. -/
def keyNeedle : Bytes := ascii "sec-websocket-key:"

/-- The octets of this name. -/
def keyOctets : Bytes :=
  [115, 101, 99, 45, 119, 101, 98, 115, 111, 99, 107, 101, 116, 45, 107, 101, 121, 58]

theorem keyNeedle_eq : keyNeedle = keyOctets :=
  ascii_ofList _

theorem Harmless.append {needle text text' : Bytes} (harmless : Harmless needle text)
    (harmless' : Harmless needle text') {c : UInt8} (parts : c ∉ needle) (lower_c : toLower c = c)
    (ends : 13 ≠ c) (nonempty : needle ≠ []) : Harmless needle (text ++ c :: text') := by
  constructor
  · exact harmless.one_line.append harmless'.one_line ends
  · have spread : lower (text ++ c :: text') = lower text ++ c :: lower text' := by
      rw [lower_append]
      exact congrArg (fun d => lower text ++ d :: lower text') lower_c
    rw [spread, search_parted parts nonempty, harmless.absent, harmless'.absent]
    rfl

/-- Behind a blank. -/
theorem Harmless.spaced {text text' : Bytes} (harmless : Harmless keyNeedle text)
    (harmless' : Harmless keyNeedle text') : Harmless keyNeedle (text ++ 32 :: text') :=
  harmless.append harmless' (by rw [keyNeedle_eq]; decide) rfl (by decide) (ascii_ne_nil _ _)

/-- The name of a header ends in a blank. -/
theorem Harmless.header {name bare text : Bytes} (split : name = bare ++ [32])
    (harmless : Harmless keyNeedle bare) (harmless' : Harmless keyNeedle text) :
    Harmless keyNeedle (name ++ text) := by
  rw [split, List.append_assoc, List.singleton_append]
  exact harmless.spaced harmless'

instance (needle text : Bytes) : Decidable (Harmless needle text) :=
  decidable_of_iff (13 ∉ text ∧ search needle (lower text) = none)
    ⟨fun both => ⟨both.1, both.2⟩, fun harmless => ⟨harmless.one_line, harmless.absent⟩⟩

/-- A text that is written out is checked octet by octet. -/
theorem harmless_ofList {text : List Char}
    (check : Harmless keyOctets (text.map fun c => UInt8.ofNat c.toNat)) :
    Harmless keyNeedle (ascii (String.ofList text)) := by
  rwa [keyNeedle_eq, ascii_ofList]

theorem harmless_line {c : Char} {text : List Char}
    (check : Harmless keyOctets ((c :: text).map fun c => UInt8.ofNat c.toNat)) :
    ascii (String.ofList (c :: text)) ≠ [] ∧ Harmless keyNeedle (ascii (String.ofList (c :: text))) :=
  ⟨ascii_ne_nil c text, harmless_ofList check⟩

/-- What a caller puts into the request. -/
structure Sendable (host path : Bytes) (opts : WsUpgradeOptions) : Prop where
  host : Harmless keyNeedle host
  path : Harmless keyNeedle path
  userAgent : Harmless keyNeedle opts.userAgent
  origin : Harmless keyNeedle opts.origin

variable {host path : Bytes} {opts : WsUpgradeOptions}

set_option maxRecDepth 1000 in
theorem Sendable.linesBefore (sendable : Sendable host path opts) :
    ∀ line ∈ linesBefore host path opts, line ≠ [] ∧ Harmless keyNeedle line := by
  have path' : Harmless keyNeedle (if path = [] then ascii "/" else path) := by
    split
    · exact harmless_ofList (by decide)
    · exact sendable.path
  have agent : Harmless keyNeedle (userAgentOf opts) := by
    unfold userAgentOf
    split
    · exact harmless_ofList (by decide)
    · exact sendable.userAgent
  have origin : Harmless keyNeedle (originOf host opts) := by
    unfold originOf
    split
    · -- behind the second slash
      have scheme : Harmless keyNeedle (ascii "https:/") := harmless_ofList (by decide)
      have split : ascii "https://" = ascii "https:/" ++ [47] := ascii_append "https:/" "/"
      rw [split, List.append_assoc, List.singleton_append]
      exact scheme.append sendable.host (by rw [keyNeedle_eq]; decide) rfl (by decide)
        (ascii_ne_nil _ _)
    · exact sendable.origin
  have get : Harmless keyNeedle
      (ascii "GET " ++ (if path = [] then ascii "/" else path) ++ ascii " HTTP/1.1") := by
    have version : ascii " HTTP/1.1" = 32 :: ascii "HTTP/1.1" := ascii_append " " "HTTP/1.1"
    have first := Harmless.header (ascii_append "GET" " " : ascii "GET " = ascii "GET" ++ [32])
      (harmless_ofList (by decide)) path'
    rw [version]
    exact first.spaced (harmless_ofList (by decide))
  have to_host := Harmless.header (ascii_append "Host:" " " : ascii "Host: " = ascii "Host:" ++ [32])
    (harmless_ofList (by decide)) sendable.host
  have by_agent := Harmless.header
    (ascii_append "User-Agent:" " " : ascii "User-Agent: " = ascii "User-Agent:" ++ [32])
    (harmless_ofList (by decide)) agent
  have from_origin := Harmless.header
    (ascii_append "Origin:" " " : ascii "Origin: " = ascii "Origin:" ++ [32])
    (harmless_ofList (by decide)) origin
  have filled (name rest : Bytes) (some_octet : name ≠ []) : name ++ rest ≠ [] :=
    fun empty => some_octet (List.append_eq_nil_iff.mp empty).1
  have optional {lines : List Bytes} (every : ∀ line ∈ lines, line ≠ [] ∧ Harmless keyNeedle line) :
      ∀ line ∈ (if opts.browserHeaders then lines else []), line ≠ [] ∧ Harmless keyNeedle line := by
    split
    · exact every
    · exact List.forall_mem_nil _
  rw [Net.linesBefore]
  simp only [List.forall_mem_append, List.forall_mem_cons]
  refine ⟨⟨⟨⟨⟨filled _ _ (filled _ _ (ascii_ne_nil _ _)), get⟩,
    ⟨filled _ _ (ascii_ne_nil _ _), to_host⟩, harmless_line (by decide), List.forall_mem_nil _⟩,
    optional ?_⟩, ⟨filled _ _ (ascii_ne_nil _ _), by_agent⟩, harmless_line (by decide),
    ⟨filled _ _ (ascii_ne_nil _ _), from_origin⟩, harmless_line (by decide), List.forall_mem_nil _⟩,
    optional ?_⟩
  · simp only [List.forall_mem_cons]
    exact ⟨harmless_line (by decide), harmless_line (by decide), List.forall_mem_nil _⟩
  · simp only [List.forall_mem_cons]
    exact ⟨harmless_line (by decide), harmless_line (by decide), List.forall_mem_nil _⟩

theorem Sendable.linesBehind (opts : WsUpgradeOptions) :
    ∀ line ∈ linesBehind opts, line ≠ [] ∧ OneLine line := by
  unfold Net.linesBehind OneLine
  split
  · rw [ascii_ofList]
    decide
  · exact List.forall_mem_nil _

theorem solid_encode (keyRaw : Bytes) : ∀ c ∈ Base64.encode keyRaw, isSpace c = false := by
  have digits : ∀ v < 64, isSpace (Base64.digit v) = false := by decide
  intro c member
  obtain rfl | ⟨v, small, rfl⟩ := Base64.mem_encode member
  · rfl
  · exact digits v small

theorem OneLine.of_solid {text : Bytes} (solid : ∀ c ∈ text, isSpace c = false) : OneLine text :=
  fun member => Bool.noConfusion (solid 13 member)

theorem infix_unlines {line : Bytes} {lines : List Bytes} (member : line ∈ lines) :
    line <:+: unlines lines := by
  obtain ⟨front, back, rfl⟩ := List.append_of_mem member
  exact ⟨unlines front, crlf ++ unlines back, by simp [unlines]⟩

theorem checkRequest_found {headers key : Bytes} {pos : Nat}
    (upgrades : icontains headers (ascii "Upgrade: websocket") = true)
    (place : search keyNeedle (lower headers) = some pos)
    (text : headerText headers keyNeedle pos = key) (filled : key ≠ []) :
    checkRequest headers = ⟨some key, none⟩ := by
  rw [checkRequest, upgrades, if_neg (by simp)]
  dsimp only
  rw [← keyNeedle, place]
  dsimp only
  rw [text, if_neg filled]

/-- The checks of headers where the first line with the name of the key is the one that holds it. -/
theorem checkRequest_unlines {secKey : Bytes} {before behind : List Bytes}
    (solid : ∀ c ∈ secKey, isSpace c = false) (filled : secKey ≠ [])
    (one : OneLine (ascii "Sec-WebSocket-Key:" ++ 32 :: secKey))
    (upgrade : ascii "Upgrade: websocket" ∈ before)
    (absent : ∀ line ∈ before, search keyNeedle (lower line) = none) :
    checkRequest (unlines (before ++ (ascii "Sec-WebSocket-Key:" ++ 32 :: secKey) :: behind) ++ crlf) =
      ⟨some secKey, none⟩ := by
  have names : Names keyNeedle (ascii "Sec-WebSocket-Key:") before :=
    ⟨by rw [keyNeedle_eq, ascii_ofList]; decide, by rw [keyNeedle_eq]; decide,
      by rw [keyNeedle_eq]; decide, ascii_ne_nil _ _, absent⟩
  have cut : unlines (before ++ (ascii "Sec-WebSocket-Key:" ++ 32 :: secKey) :: behind) ++ crlf =
      unlines before ++ (ascii "Sec-WebSocket-Key:" ++ 32 :: secKey ++ crlf ++
        (unlines behind ++ crlf)) := by
    simp [unlines]
  have place := names.search (32 :: secKey ++ crlf ++ (unlines behind ++ crlf))
  have key := names.headerText one (unlines before) (unlines behind ++ crlf)
  rw [trimWs_eq solid] at key
  have upgrades : icontains (unlines before ++ (ascii "Sec-WebSocket-Key:" ++ 32 :: secKey ++ crlf ++
      (unlines behind ++ crlf))) (ascii "Upgrade: websocket") = true :=
    search_isSome (((infix_unlines upgrade).trans (List.infix_append' [] _ _)).map toLower)
  rw [cut]
  refine checkRequest_found upgrades ?_ key filled
  rw [← place, List.append_assoc, List.append_assoc, List.append_assoc]

/-- What the server makes of the request, whatever comes behind it: it accepts it and finds the key. -/
theorem settled_request {keyRaw hostHeader : Bytes} {port : UInt16} (drawn : keyRaw ≠ [])
    (sendable : Sendable (hostHdr hostHeader port) path opts) (rest : Bytes) :
    settled checkRequest ((buildClientUpgradeRequest keyRaw hostHeader port path opts).request ++ rest) =
      ⟨.accepted, Base64.encode keyRaw, rest⟩ := by
  have solid := solid_encode keyRaw
  generalize keyed : Base64.encode keyRaw = secKey at solid
  have filled : secKey ≠ [] := by
    have longer := Base64.length_le_length_encode keyRaw
    rintro rfl
    rw [keyed] at longer
    exact drawn (List.eq_nil_of_length_eq_zero (Nat.le_zero.mp longer))
  have before := sendable.linesBefore
  have name_one : OneLine (ascii "Sec-WebSocket-Key:" ++ 32 :: secKey) := by
    have name : OneLine (ascii "Sec-WebSocket-Key:") := by
      rw [OneLine, ascii_ofList]
      decide
    exact name.append (.of_solid solid) (by decide)
  have lines : ∀ line ∈ linesBefore (hostHdr hostHeader port) path opts ++
      (ascii "Sec-WebSocket-Key:" ++ 32 :: secKey) :: linesBehind opts, line ≠ [] ∧ OneLine line :=
    List.forall_mem_append.mpr ⟨fun line member => ⟨(before line member).1, (before line member).2.one_line⟩,
      List.forall_mem_cons.mpr ⟨⟨by simp, name_one⟩, Sendable.linesBehind opts⟩⟩
  have request : (buildClientUpgradeRequest keyRaw hostHeader port path opts).request =
      unlines (linesBefore (hostHdr hostHeader port) path opts ++
        (ascii "Sec-WebSocket-Key:" ++ 32 :: secKey) :: linesBehind opts) ++ crlf := by
    have named : ascii "Sec-WebSocket-Key: " = ascii "Sec-WebSocket-Key:" ++ [32] :=
      ascii_append "Sec-WebSocket-Key:" " "
    rw [buildClientUpgradeRequest]
    dsimp only
    rw [keyed, named, List.append_assoc, List.singleton_append]
  obtain ⟨place, found, size⟩ := search_terminator (by simp) lines rest
  rw [← request] at found size
  rw [settled, found]
  dsimp only
  rw [size, List.take_left, List.drop_left]
  rw [request, checkRequest_unlines solid filled name_one (by simp [linesBefore])
    fun line member => (before line member).2.absent]
  rfl

end FinBit.Net
