import Mathlib.Data.List.GetD
import FinBit.Lib.Dialogue

/-! # Tunnels through a SOCKS5 proxy

`socks5_connect` greets the proxy, goes through the sub-negotiation of a password if the proxy wants
one, and asks for the target by its name. It reads no octet more than the answers have, since what is
behind them comes from the target already.
-/

namespace FinBit.Net.Socks5

open FinBit.Lib

/-! ### The wire format -/

/-- `rep_to_string`, of any octet. -/
def repToString (r : UInt8) : String :=
  match r.toNat with
  | 0 => "succeeded"
  | 1 => "general SOCKS failure"
  | 2 => "connection not allowed by ruleset"
  | 3 => "network unreachable"
  | 4 => "host unreachable"
  | 5 => "connection refused"
  | 6 => "TTL expired"
  | 7 => "command not supported"
  | 8 => "address type not supported"
  | _ => "unknown SOCKS reply"

/-- `Rep::kSucceeded`. -/
def kSucceeded : UInt8 := 0x00

def encodeGreeting : Bytes := [0x05, 0x01, 0x00]

def encodeGreetingWithUserpass : Bytes := [0x05, 0x02, 0x00, 0x02]

/-- A text behind its length, cut off at 255 octets. -/
def shortText (s : Bytes) : Bytes :=
  UInt8.ofNat (min s.length 255) :: s.take 255

def encodeUserpassAuth (username password : Bytes) : Bytes :=
  0x01 :: (shortText username ++ shortText password)

/-- Two octets, of which the first is a version. -/
def parseVersioned (version : UInt8) : Bytes → Option UInt8
  | [v, answer] => if v = version then some answer else none
  | _ => none

def parseGreetingResponse : Bytes → Option UInt8 := parseVersioned 0x05

def parseUserpassResponse : Bytes → Option UInt8 := parseVersioned 0x01

def encodeConnectRequest (host : Bytes) (port : UInt16) : Bytes :=
  [0x05, 0x01, 0x00, 0x03] ++ shortText host ++ be16 port.toNat

/-- What follows the four octets of the header. -/
def connectResponseTailLen (atyp firstAddrByte : UInt8) : Option Nat :=
  match atyp.toNat with
  | 0x01 => some (4 + 2)
  | 0x03 => some (firstAddrByte.toNat + 1 + 2)
  | 0x04 => some (16 + 2)
  | _ => none

def parseConnectResponse (r : Bytes) : Option UInt8 :=
  if r.length < 5 then none
  else if r.getD 0 0 ≠ 0x05 then none
  else if r.getD 2 0 ≠ 0x00 then none
  else
    match connectResponseTailLen (r.getD 3 0) (r.getD 4 0) with
    | none => none
    | some tail => if r.length < 4 + tail then none else some (r.getD 1 0)

/-! ### The dialogue -/

def shortRecv : String :=
  "SOCKS5: short recv during handshake (proxy unreachable or closed)"

/-- The request for the target, and what is read of the answer. -/
def requestTarget (host : Bytes) (port : UInt16) : Dialogue Unit :=
  .say (encodeConnectRequest host port) <| .hear 5 fun hdr =>
    if hdr.getD 0 0 ≠ 0x05 ∨ hdr.getD 2 0 ≠ 0x00 then
      .done (.error "SOCKS5: malformed CONNECT response header")
    else if hdr.getD 1 0 ≠ 0x00 then
      .done (.error ("SOCKS5 CONNECT refused: " ++ repToString (hdr.getD 1 0)))
    else
      match connectResponseTailLen (hdr.getD 3 0) (hdr.getD 4 0) with
      | none => .done (.error "SOCKS5: unknown ATYP in CONNECT response")
      | some tail =>
        -- the first octet of the address has been read
        if tail > 1 then .hear (tail - 1) fun _ => .done (.ok ()) else .done (.ok ())

/-- Two octets are read and parsed. -/
def hearVersioned (parse : Bytes → Option UInt8) (malformed : String) (next : UInt8 → Dialogue Unit) :
    Dialogue Unit :=
  .hear 2 fun resp =>
    match parse resp with
    | none => .done (.error malformed)
    | some answer => next answer

/-- The method that the proxy has chosen. -/
def followMethod (host : Bytes) (port : UInt16) (username password : Bytes) (method : UInt8) :
    Dialogue Unit :=
  if method = 0xFF then .done (.error "SOCKS5: proxy rejected all offered auth methods")
  else if method = 0x02 then
    .say (encodeUserpassAuth username password) <|
      hearVersioned parseUserpassResponse "SOCKS5: malformed userpass sub-negotiation response"
        fun status =>
          if status ≠ 0x00 then .done (.error "SOCKS5: userpass auth rejected by proxy")
          else requestTarget host port
  else if method ≠ 0x00 then .done (.error "SOCKS5: proxy chose an unsupported auth method")
  else requestTarget host port

/-- What is said first. -/
def greetingOf (username password : Bytes) : Bytes :=
  let offerUserpass := username ≠ [] ∨ password ≠ []
  if offerUserpass then encodeGreetingWithUserpass else encodeGreeting

/-- `socks5_connect` on a connection to the proxy. -/
def socks5Connect (targetHost : Bytes) (targetPort : UInt16) (username password : Bytes) :
    Dialogue Unit :=
  if targetHost = [] ∨ targetHost.length > 255 then
    .done (.error "SOCKS5: target host must be 1..255 bytes")
  else
    .say (greetingOf username password) <|
      hearVersioned parseGreetingResponse "SOCKS5: malformed greeting response"
        (followMethod targetHost targetPort username password)

/-! ### The answer to the request -/

/-- A whole answer that grants the request: nothing shorter is one. -/
structure Grants (reply : Bytes) : Prop where
  succeeded : parseConnectResponse reply = some kSucceeded
  shortest : ∀ front, front <+: reply → front ≠ reply → parseConnectResponse front = none

theorem tailLen_gt {atyp first : UInt8} {tail : Nat}
    (sized : connectResponseTailLen atyp first = some tail) : 1 < tail := by
  unfold connectResponseTailLen at sized
  split at sized <;> cases sized <;> omega

/-- What is accepted, by its header and its length. -/
theorem parseConnectResponse_eq_some_iff {r : Bytes} {rep : UInt8} :
    parseConnectResponse r = some rep ↔
      5 ≤ r.length ∧ r.getD 0 0 = 0x05 ∧ r.getD 2 0 = 0x00 ∧ r.getD 1 0 = rep ∧
        ∃ tail, connectResponseTailLen (r.getD 3 0) (r.getD 4 0) = some tail ∧ 4 + tail ≤ r.length := by
  unfold parseConnectResponse
  by_cases short : r.length < 5
  · rw [if_pos short]
    exact iff_of_false (by simp) fun both => absurd both.1 (by omega)
  by_cases version : r.getD 0 0 ≠ 0x05
  · rw [if_neg short, if_pos version]
    exact iff_of_false (by simp) fun both => version both.2.1
  by_cases reserved : r.getD 2 0 ≠ 0x00
  · rw [if_neg short, if_neg version, if_pos reserved]
    exact iff_of_false (by simp) fun both => reserved both.2.2.1
  rw [if_neg short, if_neg version, if_neg reserved]
  cases sized : connectResponseTailLen (r.getD 3 0) (r.getD 4 0) with
  | none => exact iff_of_false (by simp) fun both => by simp at both
  | some tail =>
    dsimp only
    by_cases missing : r.length < 4 + tail
    · rw [if_pos missing]
      refine iff_of_false (by simp) fun both => ?_
      obtain ⟨tail', same, enough⟩ := both.2.2.2.2
      cases same
      omega
    · rw [if_neg missing]
      constructor
      · intro same
        exact ⟨by omega, not_not.mp version, not_not.mp reserved, Option.some.inj same, tail, rfl, by omega⟩
      · rintro ⟨-, -, -, rfl, -⟩
        rfl

theorem getD_prefix {front r : Bytes} (inside : front <+: r) {i : Nat} (here : i < front.length) :
    r.getD i 0 = front.getD i 0 := by
  obtain ⟨more, rfl⟩ := inside
  exact List.getD_append _ _ _ _ here

/-- The header of an answer that grants the request, and how long the answer is. -/
structure Granted (hdr : Bytes) (size : Nat) : Prop where
  version : hdr.getD 0 0 = 0x05
  reserved : hdr.getD 2 0 = 0x00
  succeeded : hdr.getD 1 0 = kSucceeded
  sized : ∃ tail, connectResponseTailLen (hdr.getD 3 0) (hdr.getD 4 0) = some tail ∧ size = 4 + tail

theorem Granted.of_prefix {front r : Bytes} {size : Nat} (inside : front <+: r)
    (five : 5 ≤ front.length) : Granted front size ↔ Granted r size := by
  have same {i : Nat} (place : i < 5) := getD_prefix inside (lt_of_lt_of_le place five)
  have zero := same (i := 0) (by omega)
  have one := same (i := 1) (by omega)
  have two := same (i := 2) (by omega)
  have three := same (i := 3) (by omega)
  have four := same (i := 4) (by omega)
  constructor
  · rintro ⟨version, reserved, succeeded, sized⟩
    exact ⟨zero.trans version, two.trans reserved, one.trans succeeded, by rwa [three, four]⟩
  · rintro ⟨version, reserved, succeeded, sized⟩
    exact ⟨zero.symm.trans version, two.symm.trans reserved, one.symm.trans succeeded,
      by rwa [three, four] at sized⟩

theorem grants_iff {reply : Bytes} : Grants reply ↔ 5 ≤ reply.length ∧ Granted reply reply.length := by
  constructor
  · rintro ⟨succeeded, shortest⟩
    obtain ⟨five, version, reserved, rep, tail, sized, enough⟩ :=
      parseConnectResponse_eq_some_iff.mp succeeded
    refine ⟨five, version, reserved, rep, tail, sized, ?_⟩
    -- otherwise the answer without its last octets would be one
    by_contra longer
    have more := tailLen_gt sized
    have cut : (reply.take (4 + tail)).length = 4 + tail := List.length_take_of_le enough
    have inside : reply.take (4 + tail) <+: reply := List.take_prefix _ _
    have granted : Granted (reply.take (4 + tail)) (4 + tail) :=
      (Granted.of_prefix inside (by omega)).mpr ⟨version, reserved, rep, tail, sized, rfl⟩
    have none := shortest _ inside fun same => longer (by rw [same] at cut; exact cut)
    obtain ⟨version', reserved', rep', tail', sized', size⟩ := granted
    have parsed : parseConnectResponse (reply.take (4 + tail)) = some kSucceeded :=
      parseConnectResponse_eq_some_iff.mpr
        ⟨by omega, version', reserved', rep', tail', sized', by omega⟩
    rw [none] at parsed
    cases parsed
  · rintro ⟨five, granted⟩
    obtain ⟨version, reserved, succeeded, tail, sized, size⟩ := granted
    refine ⟨parseConnectResponse_eq_some_iff.mpr
      ⟨five, version, reserved, succeeded, tail, sized, by omega⟩, fun front inside proper => ?_⟩
    cases parsed : parseConnectResponse front with
    | none => rfl
    | some rep =>
      obtain ⟨five', version', reserved', rep', tail', sized', enough⟩ :=
        parseConnectResponse_eq_some_iff.mp parsed
      rw [← getD_prefix inside (by omega), ← getD_prefix inside (by omega), sized] at sized'
      cases sized'
      exact absurd (inside.eq_of_length (le_antisymm inside.length_le (by omega))) proper

/-- What is read of the answer is the answer and no more. -/
theorem requestTarget_ok_iff {host stream said left : Bytes} {port : UInt16} :
    (requestTarget host port).converse shortRecv stream = ⟨said, .ok (), left⟩ ↔
      said = encodeConnectRequest host port ∧ ∃ reply, Grants reply ∧ stream = reply ++ left := by
  constructor
  · intro spoken
    rw [requestTarget, Dialogue.converse] at spoken
    obtain ⟨said_eq, ok, left_eq⟩ := Spoken.mk.inj spoken
    obtain ⟨hdr, rest, five, rfl, heard⟩ := Dialogue.heard_of_ok ok
    rw [heard] at said_eq ok left_eq
    by_cases malformed : hdr.getD 0 0 ≠ 0x05 ∨ hdr.getD 2 0 ≠ 0x00
    · rw [if_pos malformed] at ok
      cases ok
    obtain ⟨version, reserved⟩ := not_or.mp malformed
    by_cases refused : hdr.getD 1 0 ≠ 0x00
    · rw [if_neg malformed, if_pos refused] at ok
      cases ok
    rw [if_neg malformed, if_neg refused] at said_eq ok left_eq
    cases sized : connectResponseTailLen (hdr.getD 3 0) (hdr.getD 4 0) with
    | none =>
      rw [sized] at ok
      cases ok
    | some tail =>
      rw [sized] at said_eq ok left_eq
      dsimp only at said_eq ok left_eq
      have more := tailLen_gt sized
      rw [if_pos more] at said_eq ok left_eq
      obtain ⟨address, rest', length, rfl, heard'⟩ := Dialogue.heard_of_ok ok
      rw [heard'] at said_eq left_eq
      have whole : (hdr ++ address).length = 4 + tail := by
        rw [List.length_append, five, length]
        omega
      have granted : Granted hdr (4 + tail) :=
        ⟨not_not.mp version, not_not.mp reserved, not_not.mp refused, tail, sized, rfl⟩
      refine ⟨by rw [← said_eq]; exact List.append_nil _, hdr ++ address, ?_, ?_⟩
      · rw [grants_iff, whole]
        exact ⟨by omega, (Granted.of_prefix (List.prefix_append _ _) (le_of_eq five.symm)).mp granted⟩
      · rw [List.append_assoc, ← left_eq]
        rfl
  · rintro ⟨rfl, reply, grants, rfl⟩
    obtain ⟨five, granted⟩ := grants_iff.mp grants
    have head : (reply.take 5).length = 5 := List.length_take_of_le five
    obtain ⟨version, reserved, succeeded, tail, sized, size⟩ :=
      (Granted.of_prefix (List.take_prefix 5 reply) (le_of_eq head.symm)).mpr granted
    have more := tailLen_gt sized
    have address : (reply.drop 5).length = tail - 1 := by
      rw [List.length_drop]
      omega
    have cut : reply ++ left = reply.take 5 ++ (reply.drop 5 ++ left) := by
      rw [← List.append_assoc, List.take_append_drop]
    rw [requestTarget, Dialogue.converse, cut, Dialogue.converse_hear head]
    rw [if_neg (by rw [version, reserved]; decide), if_neg (by rw [succeeded]; decide), sized]
    dsimp only
    rw [if_pos more, Dialogue.converse_hear address]
    simp [Dialogue.converse]

/-! ### The whole dialogue -/

/-- What the proxy answers until it is asked for the target, and what is said to that. -/
inductive Admits (username password : Bytes) : Bytes → Bytes → Prop
  | noAuth : Admits username password [0x05, 0x00] []
  | userpass : Admits username password [0x05, 0x02, 0x01, 0x00] (encodeUserpassAuth username password)

theorem parseVersioned_eq_some_iff {version answer : UInt8} {r : Bytes} :
    parseVersioned version r = some answer ↔ r = [version, answer] := by
  unfold parseVersioned
  split
  next v a =>
    by_cases same : v = version
    · rw [if_pos same, same]
      simp
    · rw [if_neg same]
      simp [same]
  next other => exact iff_of_false (by simp) fun same => other _ _ same

section

variable {stream said left : Bytes}

theorem hearVersioned_ok_iff {version : UInt8} {malformed : String} {next : UInt8 → Dialogue Unit} :
    (hearVersioned (parseVersioned version) malformed next).converse shortRecv stream =
        ⟨said, .ok (), left⟩ ↔
      ∃ answer rest, stream = [version, answer] ++ rest ∧
        (next answer).converse shortRecv rest = ⟨said, .ok (), left⟩ := by
  constructor
  · intro spoken
    rw [hearVersioned] at spoken
    obtain ⟨resp, rest, -, rfl, heard⟩ := Dialogue.heard_of_ok (congrArg Spoken.result spoken)
    rw [heard] at spoken
    cases parsed : parseVersioned version resp with
    | none =>
      rw [parsed] at spoken
      cases (Spoken.mk.inj spoken).2.1
    | some answer =>
      rw [parsed] at spoken
      exact ⟨answer, rest, by rw [parseVersioned_eq_some_iff.mp parsed], spoken⟩
  · rintro ⟨answer, rest, rfl, spoken⟩
    have two : [version, answer].length = 2 := rfl
    rw [hearVersioned, Dialogue.converse_hear two, parseVersioned_eq_some_iff.mpr rfl]
    exact spoken

theorem refused {e : String} {P : Prop} :
    (Dialogue.done (.error e) : Dialogue Unit).converse shortRecv stream = ⟨said, .ok (), left⟩ → P := by
  intro spoken
  cases (Spoken.mk.inj spoken).2.1

variable {targetHost username password : Bytes} {targetPort : UInt16}

theorem followMethod_ok_iff {method : UInt8} :
    (followMethod targetHost targetPort username password method).converse shortRecv stream =
        ⟨said, .ok (), left⟩ ↔
      ∃ admits auth reply, Admits username password (0x05 :: method :: admits) auth ∧ Grants reply ∧
        stream = admits ++ reply ++ left ∧ said = auth ++ encodeConnectRequest targetHost targetPort := by
  rw [followMethod]
  split
  next rejected =>
    refine ⟨refused, ?_⟩
    rintro ⟨admits, auth, reply, admitted, -⟩
    rw [rejected] at admitted
    cases admitted
  split
  next userpass =>
    rw [Dialogue.converse_say_ok_iff]
    constructor
    · rintro ⟨later, rfl, spoken⟩
      obtain ⟨status, rest, rfl, behind⟩ := hearVersioned_ok_iff.mp spoken
      split at behind
      · exact refused behind
      next accepted =>
        obtain ⟨rfl, reply, grants, rfl⟩ := requestTarget_ok_iff.mp behind
        refine ⟨[0x01, 0x00], _, reply, by rw [userpass]; exact .userpass, grants, ?_, rfl⟩
        rw [not_not.mp accepted, List.append_assoc]
    · rintro ⟨admits, auth, reply, admitted, grants, rfl, rfl⟩
      rw [userpass] at admitted
      cases admitted
      refine ⟨_, rfl, hearVersioned_ok_iff.mpr ⟨0x00, reply ++ left, List.append_assoc _ _ _, ?_⟩⟩
      rw [if_neg (by decide)]
      exact requestTarget_ok_iff.mpr ⟨rfl, reply, grants, rfl⟩
  next other =>
  split
  next unsupported =>
    refine ⟨refused, ?_⟩
    rintro ⟨admits, auth, reply, admitted, -⟩
    cases admitted with
    | noAuth => exact absurd rfl unsupported
    | userpass => exact absurd rfl other
  next none =>
    rw [not_not.mp none, requestTarget_ok_iff]
    constructor
    · rintro ⟨rfl, reply, grants, rfl⟩
      exact ⟨[], [], reply, .noAuth, grants, rfl, rfl⟩
    · rintro ⟨admits, auth, reply, admitted, grants, rfl, rfl⟩
      cases admitted
      exact ⟨rfl, reply, grants, rfl⟩

/-- However the octets of the proxy come in pieces, the tunnel is there exactly when they begin with
the answers of a proxy that admits the client, by one of the two methods and whether or not it was
offered, and with the shortest answer that grants the request; what is left for the caller is
everything behind that answer. -/
theorem connects_iff (sizes : Nat → Nat) (targetHost username password stream said left : Bytes)
    (targetPort : UInt16) :
    (socks5Connect targetHost targetPort username password).speak shortRecv sizes 0 stream =
        ⟨said, .ok (), left⟩ ↔
      (targetHost ≠ [] ∧ targetHost.length ≤ 255) ∧
        ∃ admits auth reply, Admits username password admits auth ∧ Grants reply ∧
          stream = admits ++ reply ++ left ∧
          said = greetingOf username password ++ auth ++ encodeConnectRequest targetHost targetPort := by
  rw [Dialogue.speak_eq, socks5Connect]
  by_cases bad : targetHost = [] ∨ targetHost.length > 255
  · rw [if_pos bad]
    refine ⟨refused, fun both => ?_⟩
    obtain none | long := bad
    · exact absurd none both.1.1
    · exact absurd both.1.2 (Nat.not_le.mpr long)
  have fit : targetHost ≠ [] ∧ targetHost.length ≤ 255 := by
    obtain ⟨filled, short⟩ := not_or.mp bad
    exact ⟨filled, Nat.le_of_not_lt short⟩
  rw [if_neg bad, and_iff_right fit, Dialogue.converse_say_ok_iff]
  constructor
  · rintro ⟨later, rfl, spoken⟩
    obtain ⟨method, rest, rfl, behind⟩ := hearVersioned_ok_iff.mp spoken
    obtain ⟨admits, auth, reply, admitted, grants, rfl, rfl⟩ := followMethod_ok_iff.mp behind
    exact ⟨_, auth, reply, admitted, grants, by simp, by simp⟩
  · rintro ⟨admits, auth, reply, admitted, grants, rfl, rfl⟩
    obtain ⟨method, admits, rfl⟩ : ∃ method rest, admits = 0x05 :: method :: rest := by
      cases admitted <;> exact ⟨_, _, rfl⟩
    refine ⟨_, List.append_assoc _ _ _, hearVersioned_ok_iff.mpr
      ⟨method, admits ++ reply ++ left, by simp, ?_⟩⟩
    exact followMethod_ok_iff.mpr ⟨admits, auth, reply, admitted, grants, rfl, rfl⟩

end

end FinBit.Net.Socks5
