import FinBit.Lib.Runs
import FinBit.Identity.UsernameConvergence

/-! # Rounds of username gossip

Once in a while the client asks a peer for the claims with a time stamp after its
watermark for that peer, and moves the watermark to the present. The peer answers with
one page of its log. What it has learned since the last round is in the page if its time
stamps lie behind the watermark and the page has room; a claim that reaches the peer
late, with a time stamp before the watermark, is never asked for.
-/

namespace FinBit.Identity

open FinBit.Lib

/-- A client and one peer. At most one message is on its way. -/
structure GossipPair where
  client : UsernameGossip
  /-- The client's `gossip_watermark` for the peer. -/
  watermark : Option UInt64
  peer : UsernameGossip
  request : Option IdentityGossipMessage
  response : Option IdentityGossipMessage
  /-- The log of the peer when it last answered. -/
  held : UsernameLog
  clock : UInt64
  peerClock : UInt64

inductive GossipEvent where
  /-- `gossip_pull_round` calls `sync_with`, which draws a request id. -/
  | pull (now : UInt64) (requestId : Bytes)
  | answer (now : UInt64)
  | receive (now : UInt64)
  /-- A claim that is new to one of the logs reaches it in another way. -/
  | peerLearns (claim : UserClaim) (now : UInt64)
  | clientLearns (claim : UserClaim) (now : UInt64)

namespace GossipPair

def new : GossipPair where
  client := ⟨[], 0⟩
  watermark := none
  peer := ⟨[], 0⟩
  request := none
  response := none
  held := []
  clock := 0
  peerClock := 0

variable (P : GossipCrypto) (s : GossipPair)

/-- The time stamp that the client asks from. -/
def since : UInt64 := s.watermark.getD 0

/-- One step. Messages arrive in the form in which they were sent, and before the next
round. -/
inductive Step : GossipPair → GossipEvent → GossipPair → Prop
  | pull {s : GossipPair} {now : UInt64} {requestId : Bytes} (forward : s.clock ≤ now)
      (delivered : s.request = none ∧ s.response = none) :
      Step s (.pull now requestId) { s with
        request := some (.request s.since (UInt32.ofNat kClaimsPageMax) requestId)
        watermark := some now
        clock := now }
  | answer {s : GossipPair} {now : UInt64} {request reply : IdentityGossipMessage}
      {peer : UsernameGossip} (forward : s.peerClock ≤ now) (sent : s.request = some request)
      (answered : s.peer.onMessage P (P.message.encode request) now = .ok (peer, some reply)) :
      Step s (.answer now) { s with
        peer, request := none, response := some reply, held := s.peer.log, peerClock := now }
  | receive {s : GossipPair} {now : UInt64} {reply : IdentityGossipMessage}
      {client : UsernameGossip} {back : Option IdentityGossipMessage} (forward : s.clock ≤ now)
      (sent : s.response = some reply)
      (received : s.client.onMessage P (P.message.encode reply) now = .ok (client, back)) :
      Step s (.receive now) { s with client, response := none, clock := now }
  | peerLearns {s : GossipPair} {now : UInt64} {claim : UserClaim} {log : UsernameLog}
      (forward : s.peerClock ≤ now)
      (appended : s.peer.log.appendClaim P.verify claim now = .ok (log, .accepted)) :
      Step s (.peerLearns claim now) { s with peer.log := log, peerClock := now }
  | clientLearns {s : GossipPair} {now : UInt64} {claim : UserClaim} {log : UsernameLog}
      (forward : s.clock ≤ now)
      (appended : s.client.log.appendClaim P.verify claim now = .ok (log, .accepted)) :
      Step s (.clientLearns claim now) { s with client.log := log, clock := now }

/-- The time stamp from which the next answer is made. -/
def nextSince : UInt64 :=
  match s.request with
  | some (.request since _ _) => since
  | _ => s.since

def responseClaims : List UserClaim :=
  match s.response with
  | some (.response claims _ _ _) => claims
  | _ => []

/-- What the peer learns between two answers and the client does not know is newer than
what the next answer is made from, and an answer fits one page. Of a claim in an answer
that the client does not know, it has no other one by this key, and the claim is not too
new for it. -/
def Allowed : GossipEvent → Prop
  | .peerLearns claim _ =>
    claim ∈ s.client.log ∨ s.nextSince.toInt64 < claim.timestampMs.toInt64
  | .answer _ =>
    (s.peer.log.filter fun c => s.nextSince.toInt64 < c.timestampMs.toInt64).length ≤ kClaimsPageMax
  | .receive now => ∀ c ∈ s.responseClaims, c ∈ s.client.log ∨
      c.timestampMs ≤ now + kAcceptedClockSkewMs ∧
        s.client.log.hasRow c.username c.pubkey = false
  | _ => True

end GossipPair

/-! ### Claims that were accepted -/

/-- What `append_claim` checks, apart from the clock. -/
structure Genuine (verify : SignVerify) (c : UserClaim) : Prop where
  username : isValidUsername c.username = true
  pubkey : c.pubkey.length = 32
  nonce : c.nonce.length = 16
  signature : c.signature.length = 64
  signed : ∃ m, verifyClaimMessage c = some m ∧ verify c.pubkey m c.signature = true

section Append

variable {verify : SignVerify} {c : UserClaim} {now : UInt64} {log log' : UsernameLog}

theorem Genuine.acceptable (genuine : Genuine verify c)
    (clock : c.timestampMs ≤ now + kAcceptedClockSkewMs) : Acceptable verify c now :=
  ⟨genuine.username, genuine.pubkey, genuine.nonce, genuine.signature, clock, genuine.signed⟩

theorem Acceptable.genuine (acceptable : Acceptable verify c now) : Genuine verify c :=
  ⟨acceptable.username, acceptable.pubkey, acceptable.nonce, acceptable.signature,
    acceptable.signed⟩

/-- Everything that `append_claim` can do. -/
theorem appendClaim_cases {result : AppendResult}
    (appended : log.appendClaim verify c now = .ok (log', result)) :
    log' = log ∧ result ≠ .accepted ∨
      Acceptable verify c now ∧ log.hasRow c.username c.pubkey = false ∧ log' = log ++ [c] := by
  unfold UsernameLog.appendClaim at appended
  -- each check has a result of its own
  split at appended
  · cases appended
    exact .inl ⟨rfl, by decide⟩
  next username =>
  split at appended
  · cases appended
    exact .inl ⟨rfl, by decide⟩
  next pubkey =>
  split at appended
  · cases appended
    exact .inl ⟨rfl, by decide⟩
  next nonce =>
  split at appended
  · cases appended
    exact .inl ⟨rfl, by decide⟩
  next signature =>
  split at appended
  · cases appended
    exact .inl ⟨rfl, by decide⟩
  next clock =>
  rw [Bool.not_eq_false] at username
  rw [UsernameLog.verifyClaimSignature_eq] at appended
  cases verified : (verifyClaimMessage c).any fun m => verify c.pubkey m c.signature with
  | false =>
    rw [verified] at appended
    cases appended
    exact .inl ⟨rfl, by decide⟩
  | true =>
    rw [verified] at appended
    cases taken : log.hasRow c.username c.pubkey with
    | true =>
      simp only [taken, if_true] at appended
      cases appended
      exact .inl ⟨rfl, by decide⟩
    | false =>
      simp only [taken, UsernameLog.insertClaim, isValidUsername_cstr username] at appended
      cases appended
      obtain ⟨m, message, signed⟩ := (Option.any_eq_true _ _).mp verified
      exact .inr ⟨⟨username, not_ne_iff.mp pubkey, not_ne_iff.mp nonce, not_ne_iff.mp signature,
        UInt64.not_lt.mp clock, m, message, signed⟩, rfl, rfl⟩

open scoped Classical in
theorem log_appendClaim {result : AppendResult}
    (appended : log.appendClaim verify c now = .ok (log', result)) :
    log' = if Acceptable verify c now then log.keep c else log := by
  split
  next acceptable =>
    have offered := acceptable.offer log
    rw [UsernameLog.offer, appended] at offered
    exact Except.ok.inj offered
  next rejected =>
    rcases appendClaim_cases appended with ⟨same, -⟩ | ⟨acceptable, -, -⟩
    · exact same
    · exact absurd acceptable rejected

open scoped Classical in
/-- The loop over a response keeps what passes. -/
theorem log_appendAll {P : GossipCrypto} {claims : List UserClaim} {g g' : UsernameGossip}
    (appended : UsernameGossip.appendAll P now claims g = .ok g') :
    g'.log = g.log.keepAll (claims.filter fun c => Acceptable P.verify c now) := by
  induction claims generalizing g with
  | nil =>
    cases appended
    rfl
  | cons c rest ih =>
    unfold UsernameGossip.appendAll at appended
    cases first : g.log.appendClaim P.verify c now with
    | error e =>
      rw [first] at appended
      cases appended
    | ok outcome =>
      obtain ⟨log, result⟩ := outcome
      rw [first] at appended
      -- whether the claim counts as accepted does not matter to the log
      have later : g'.log = log.keepAll (rest.filter fun c => Acceptable P.verify c now) := by
        cases result <;> exact ih appended
      rw [later, log_appendClaim first, List.filter_cons]
      by_cases acceptable : Acceptable P.verify c now
      · rw [if_pos acceptable, if_pos (decide_eq_true acceptable)]
        rfl
      · rw [if_neg acceptable, if_neg (by simpa using acceptable)]

end Append

/-! ### What an answer holds -/

section Answer

variable (log : UsernameLog) (sinceMs : UInt64) (requestId : Bytes)

/-- All claims after the time stamp, if they fit one page. -/
theorem answer_eq
    (fits : (log.filter fun c => sinceMs.toInt64 < c.timestampMs.toInt64).length ≤ kClaimsPageMax) :
    ∃ claims seen, UsernameGossip.answer log sinceMs (UInt32.ofNat kClaimsPageMax) requestId =
        .response claims false seen requestId ∧
      ∀ c, c ∈ claims ↔ c ∈ log ∧ sinceMs.toInt64 < c.timestampMs.toInt64 := by
  have want : (if UInt32.ofNat kClaimsPageMax > 0 then
      min (UInt32.ofNat kClaimsPageMax).toNat kClaimsPageMax else kClaimsPageMax) = 256 := by decide
  -- one claim more than a page is read, and there is none
  have size : (log.claimsSince sinceMs 257).length ≤ 256 := by
    refine Nat.le_trans (List.length_take_le' _ _) ?_
    rw [List.length_mergeSort]
    exact fits
  have untruncated : ¬(log.claimsSince sinceMs 257).length > 256 := Nat.not_lt.mpr size
  refine ⟨log.claimsSince sinceMs 257,
    (log.claimsSince sinceMs 257).foldl (fun seen c => max seen c.timestampMs) sinceMs, ?_, ?_⟩
  · simp only [UsernameGossip.answer, want, untruncated, if_false, decide_false]
  · intro c
    rw [UsernameLog.claimsSince, List.take_of_length_le, List.mem_mergeSort, List.mem_filter,
      decide_eq_true_eq]
    rw [List.length_mergeSort]
    exact Nat.le_succ_of_le fits

end Answer

/-! ### The invariant of the rounds -/

namespace GossipPair

/-- The rows of the peer were accepted, and there is one for each name and key. -/
structure PeerLog (verify : SignVerify) (log : UsernameLog) : Prop where
  keyed : log.Keyed
  genuine : ∀ c ∈ log, Genuine verify c

/-- What an answer on its way still brings to the client. -/
structure Brings (s : GossipPair) (claims : List UserClaim) : Prop where
  all : ∀ c ∈ s.held, c ∈ s.client.log ∨ c ∈ claims
  fromPeer : ∀ c ∈ claims, c ∈ s.peer.log

structure Inv (P : GossipCrypto) (s : GossipPair) : Prop where
  rows : PeerLog P.verify s.peer.log
  /-- The next answer covers what the client has not been sent. -/
  covered : ∀ c ∈ s.peer.log, c ∈ s.held ∨ c ∈ s.client.log ∨
    s.nextSince.toInt64 < c.timestampMs.toInt64
  asked : ∀ m, s.request = some m → s.response = none ∧
    ∃ sinceMs requestId, m = .request sinceMs (UInt32.ofNat kClaimsPageMax) requestId
  delivered : s.response = none → ∀ c ∈ s.held, c ∈ s.client.log
  onItsWay : ∀ m, s.response = some m →
    ∃ claims seen requestId, m = .response claims false seen requestId ∧ s.Brings claims

section Steps

variable {P : GossipCrypto} {s t : GossipPair}

theorem inv_new (P : GossipCrypto) : Inv P new where
  rows := ⟨⟨by simp [new], by simp [new]⟩, by simp [new]⟩
  covered := by simp [new]
  asked := by simp [new]
  delivered := by simp [new]
  onItsWay := by simp [new]

theorem PeerLog.append {verify : SignVerify} {log : UsernameLog} {c : UserClaim} {now : UInt64}
    (rows : PeerLog verify log) (acceptable : Acceptable verify c now)
    (free : log.hasRow c.username c.pubkey = false) : PeerLog verify (log ++ [c]) := by
  have kept : log.keep c = log ++ [c] := by rw [UsernameLog.keep, free]; rfl
  refine ⟨?_, ?_⟩
  · rw [← kept]
    exact rows.keyed.keep (isValidUsername_cstr acceptable.username)
  · intro r member
    rcases List.mem_append.mp member with before | last
    · exact rows.genuine r before
    · rw [List.mem_singleton.mp last]
      exact acceptable.genuine

theorem Inv.pull {now : UInt64} {requestId : Bytes} (inv : Inv P s)
    (idle : s.request = none ∧ s.response = none) :
    Inv P { s with
      request := some (.request s.since (UInt32.ofNat kClaimsPageMax) requestId)
      watermark := some now
      clock := now } where
  rows := inv.rows
  covered := by
    -- the request carries the watermark from which an answer would have been made anyway
    have same : s.nextSince = s.since := by rw [nextSince, idle.1]
    intro c member
    have covered := inv.covered c member
    rw [same] at covered
    exact covered
  asked := by
    intro m sent
    cases sent
    exact ⟨idle.2, s.since, requestId, rfl⟩
  delivered := inv.delivered
  onItsWay := by
    intro m sent
    have none : s.response = some m := sent
    rw [idle.2] at none
    cases none

theorem Inv.answer {now : UInt64} {request reply : IdentityGossipMessage} {peer : UsernameGossip}
    (inv : Inv P s) (allowed : s.Allowed (.answer now)) (sent : s.request = some request)
    (answered : s.peer.onMessage P (P.message.encode request) now = .ok (peer, some reply)) :
    Inv P { s with
      peer, request := none, response := some reply, held := s.peer.log, peerClock := now } := by
  obtain ⟨idle, sinceMs, requestId, rfl⟩ := inv.asked request sent
  have next : s.nextSince = sinceMs := by rw [nextSince, sent]
  have fits : (s.peer.log.filter fun c => s.nextSince.toInt64 < c.timestampMs.toInt64).length ≤
    kClaimsPageMax := allowed
  rw [next] at fits
  obtain ⟨claims, seen, page, members⟩ := answer_eq _ _ requestId fits
  simp only [UsernameGossip.onMessage, Codec.decode_encode, page, Except.ok.injEq,
    Prod.mk.injEq, Option.some.injEq] at answered
  obtain ⟨rfl, rfl⟩ := answered
  refine ⟨inv.rows, fun c member => .inl member, by simp, by simp, ?_⟩
  intro m same
  cases same
  refine ⟨claims, seen, requestId, rfl, ?_, fun c member => ((members c).mp member).1⟩
  -- what the page leaves out has reached the client before
  intro c member
  rcases inv.covered c member with held | known | later
  · exact .inl (inv.delivered idle c held)
  · exact .inl known
  · exact .inr ((members c).mpr ⟨member, next ▸ later⟩)

/-- What covers the claims of the peer stays so while the client learns more. -/
theorem Inv.covered_of_grown (inv : Inv P s) {log : UsernameLog}
    (grown : ∀ c ∈ s.client.log, c ∈ log) :
    ∀ c ∈ s.peer.log, c ∈ s.held ∨ c ∈ log ∨ s.nextSince.toInt64 < c.timestampMs.toInt64 := by
  intro c member
  rcases inv.covered c member with held | known | later
  · exact .inl held
  · exact .inr (.inl (grown c known))
  · exact .inr (.inr later)

open scoped Classical in
/-- A claim of an answer, known or timely and free, is in the client's log afterwards. -/
theorem Brings.arrived {claims : List UserClaim} (brings : s.Brings claims)
    (rows : PeerLog P.verify s.peer.log) {now : UInt64} {c : UserClaim} (member : c ∈ claims)
    (timely : c ∈ s.client.log ∨ c.timestampMs ≤ now + kAcceptedClockSkewMs ∧
      s.client.log.hasRow c.username c.pubkey = false) :
    c ∈ s.client.log.keepAll (claims.filter fun c => Acceptable P.verify c now) := by
  rcases timely with known | ⟨clock, free⟩
  · exact (UsernameLog.prefix_keepAll _ _).subset known
  · have genuine := rows.genuine c (brings.fromPeer c member)
    have passes : c ∈ claims.filter fun c => Acceptable P.verify c now :=
      List.mem_filter.mpr ⟨member, decide_eq_true (genuine.acceptable clock)⟩
    have clean : ∀ d ∈ claims.filter fun c => Acceptable P.verify c now,
        (cstr d.username).val = d.username := fun d kept =>
      rows.keyed.names d (brings.fromPeer d (List.mem_filter.mp kept).1)
    obtain ⟨r, kept, name, key⟩ := UsernameLog.exists_kept s.client.log clean passes
    -- the row of its kind is not an old one of the client, so it is one of the peer
    rcases UsernameLog.mem_keepAll kept with old | new
    · have taken := (UsernameLog.hasRow_iff (clean c passes)).mpr ⟨r, old, name, key⟩
      rw [free] at taken
      cases taken
    · have peers := brings.fromPeer r (List.mem_filter.mp new).1
      rw [← rows.keyed.unique peers (brings.fromPeer c member) name key]
      exact kept

theorem Inv.receive {now : UInt64} {reply : IdentityGossipMessage} {client : UsernameGossip}
    {back : Option IdentityGossipMessage} (inv : Inv P s) (allowed : s.Allowed (.receive now))
    (sent : s.response = some reply)
    (received : s.client.onMessage P (P.message.encode reply) now = .ok (client, back)) :
    Inv P { s with client, response := none, clock := now } := by
  classical
  obtain ⟨claims, seen, requestId, rfl, brings⟩ := inv.onItsWay reply sent
  -- at most one message is on its way
  have idle : s.request = none := by
    cases asked : s.request with
    | none => rfl
    | some m =>
      have none := (inv.asked m asked).1
      rw [sent] at none
      cases none
  have timely : ∀ c ∈ claims, c ∈ s.client.log ∨ c.timestampMs ≤ now + kAcceptedClockSkewMs ∧
      s.client.log.hasRow c.username c.pubkey = false := by
    have allowed := allowed
    simp only [Allowed, responseClaims, sent] at allowed
    exact allowed
  simp only [UsernameGossip.onMessage, Codec.decode_encode] at received
  obtain ⟨g, appended, same⟩ := map_eq_ok.mp received
  cases same
  have log := log_appendAll appended
  have grown : ∀ c ∈ s.client.log, c ∈ client.log := by
    rw [log]
    exact fun c member => (UsernameLog.prefix_keepAll _ _).subset member
  have delivered : ∀ c ∈ s.held, c ∈ client.log := by
    intro c held
    rcases brings.all c held with known | member
    · exact grown c known
    · rw [log]
      exact brings.arrived inv.rows member (timely c member)
  refine ⟨inv.rows, inv.covered_of_grown grown, ?_, fun _ => delivered, by simp⟩
  intro m asked
  have none : s.request = some m := asked
  rw [idle] at none
  cases none

theorem Inv.peerLearns {now : UInt64} {claim : UserClaim} {log : UsernameLog} (inv : Inv P s)
    (allowed : s.Allowed (.peerLearns claim now))
    (appended : s.peer.log.appendClaim P.verify claim now = .ok (log, .accepted)) :
    Inv P { s with peer.log := log, peerClock := now } := by
  rcases appendClaim_cases appended with ⟨-, rejected⟩ | ⟨acceptable, free, rfl⟩
  · exact absurd rfl rejected
  · refine ⟨inv.rows.append acceptable free, ?_, inv.asked, inv.delivered, ?_⟩
    · intro c member
      rcases List.mem_append.mp member with before | last
      · exact inv.covered c before
      · -- the new claim is behind the time stamp of the next answer, or known
        rw [List.mem_singleton.mp last]
        exact .inr allowed
    · intro m sent
      obtain ⟨claims, seen, requestId, shape, brings⟩ := inv.onItsWay m sent
      exact ⟨claims, seen, requestId, shape, brings.all, fun c member =>
        List.mem_append_left _ (brings.fromPeer c member)⟩

theorem Inv.clientLearns {now : UInt64} {claim : UserClaim} {log : UsernameLog} (inv : Inv P s)
    (appended : s.client.log.appendClaim P.verify claim now = .ok (log, .accepted)) :
    Inv P { s with client.log := log, clock := now } := by
  have grown : ∀ c ∈ s.client.log, c ∈ log := by
    rcases appendClaim_cases appended with ⟨rfl, -⟩ | ⟨-, -, rfl⟩
    · exact fun c member => member
    · exact fun c member => List.mem_append_left _ member
  refine ⟨inv.rows, inv.covered_of_grown grown, inv.asked,
    fun idle c held => grown c (inv.delivered idle c held), ?_⟩
  intro m sent
  obtain ⟨claims, seen, requestId, shape, brings⟩ := inv.onItsWay m sent
  refine ⟨claims, seen, requestId, shape, ?_, brings.fromPeer⟩
  intro c held
  rcases brings.all c held with known | member
  · exact .inl (grown c known)
  · exact .inr member

theorem Inv.step {e : GossipEvent} (inv : Inv P s) (taken : Guarded (Step P) Allowed s e t) :
    Inv P t := by
  obtain ⟨allowed, taken⟩ := taken
  cases taken with
  | pull _ idle => exact inv.pull idle
  | answer _ sent answered => exact inv.answer allowed sent answered
  | receive _ sent received => exact inv.receive allowed sent received
  | peerLearns _ appended => exact inv.peerLearns allowed appended
  | clientLearns _ appended => exact inv.clientLearns appended

end Steps

/-- After every round the client has what the peer had when it answered. -/
theorem rounds_lose_nothing (P : GossipCrypto) (events : List GossipEvent) (s : GossipPair)
    (run : Run (Guarded (Step P) Allowed) new events s) (idle : s.response = none) :
    ∀ c ∈ s.held, c ∈ s.client.log := by
  have inv : Inv P s := run.invariant (Inv P) (fun _ _ _ inv taken => inv.step taken) (inv_new P)
  exact inv.delivered idle

/-! ### A claim that reaches the peer late -/

private noncomputable def anySignature : GossipCrypto := ⟨fun _ _ _ => true, .ofCountable _⟩

/-- A claim with a small time stamp. -/
private def late (stamp : UInt8) : UserClaim :=
  ⟨ascii "bob", List.replicate 32 1, stamp.toUInt64, List.replicate 16 0, List.replicate 64 0⟩

private theorem late_acceptable (stamp : UInt8) (now : UInt64) (soon : now ≤ 1000) :
    Acceptable anySignature.verify (late stamp) now := by
  have name : isValidUsername (ascii "bob") = true := by decide
  refine ⟨name, by simp [late], by simp [late], by simp [late], ?_, ⟨_, rfl, rfl⟩⟩
  have small := stamp.toNat_lt
  have limit := UInt64.le_iff_toNat_le.mp soon
  have skew : kAcceptedClockSkewMs.toNat = 300000 := by decide
  rw [UInt64.le_iff_toNat_le, UInt64.toNat_add, skew]
  simp only [late, UInt8.toNat_toUInt64]
  simp at limit
  omega

/-- A round in which the peer has nothing after the watermark. -/
private theorem quiet_round {P : GossipCrypto} {s : GossipPair} (now : UInt64)
    (idle : s.request = none ∧ s.response = none) (forward : s.clock ≤ now ∧ s.peerClock ≤ now)
    (nothing : ∀ c ∈ s.peer.log, ¬s.since.toInt64 < c.timestampMs.toInt64) :
    Run (Step P) s [.pull now [], .answer now, .receive now]
      { s with
        watermark := some now, request := none, response := none, held := s.peer.log
        clock := now, peerClock := now } := by
  have empty : s.peer.log.filter (fun c => s.since.toInt64 < c.timestampMs.toInt64) = [] := by
    simpa using nothing
  obtain ⟨claims, seen, page, members⟩ := answer_eq s.peer.log s.since []
    (by rw [empty]; simp)
  obtain rfl : claims = [] := by
    apply List.eq_nil_iff_forall_not_mem.mpr
    intro c member
    exact nothing c ((members c).mp member).1 ((members c).mp member).2
  have answered : s.peer.onMessage P
      (P.message.encode (.request s.since (UInt32.ofNat kClaimsPageMax) [])) now =
      .ok (s.peer, some (.response [] false seen [])) := by
    simp only [UsernameGossip.onMessage, Codec.decode_encode, page]
  have received : s.client.onMessage P (P.message.encode (.response [] false seen [])) now =
      .ok (s.client, none) := by
    simp only [UsernameGossip.onMessage, Codec.decode_encode]
    rfl
  exact .cons (.pull forward.1 idle) (.cons (.answer forward.2 rfl answered)
    (.cons (.receive (UInt64.le_refl _) rfl received) (.nil _)))

/-- The client pulls at 100 and at 200; at 150 the peer learns a claim made at 50. After the
second round the client does not have it. -/
theorem late_claim_lost :
    ∃ events s, Run (Step anySignature) new events s ∧ s.response = none ∧
      ∃ c ∈ s.held, c ∉ s.client.log := by
  have first : Run (Step anySignature) new _ _ :=
    quiet_round 100 ⟨rfl, rfl⟩ (by decide) (by simp [new])
  have learned := (late_acceptable 50 150 (by decide)).appendClaim []
  have second := quiet_round (P := anySignature)
    (s := ⟨⟨[], 0⟩, some 100, ⟨[late 50], 0⟩, none, none, [], 100, 150⟩) 200 ⟨rfl, rfl⟩ (by decide)
    (by simp only [List.forall_mem_singleton]; decide)
  refine ⟨_, _, first.append (.cons (.peerLearns (by decide) learned) second), rfl, late 50, ?_, ?_⟩
  · simp
  · simp

/-- The peer learns a claim made at 50 before the first round. -/
theorem rounds_lose_nothing_early :
    ∃ events s, Run (Guarded (Step anySignature) Allowed) new events s ∧ s.response = none ∧
      late 50 ∈ s.held ∧ ∀ c ∈ s.held, c ∈ s.client.log := by
  have learned := (late_acceptable 50 60 (by decide)).appendClaim []
  obtain ⟨claims, seen, page, members⟩ :=
    answer_eq [late 50] 0 [] (Nat.le_trans (List.length_filter_le _ _) (by decide))
  have answered : UsernameGossip.onMessage anySignature ⟨[late 50], 0⟩
      (anySignature.message.encode (.request 0 (UInt32.ofNat kClaimsPageMax) [])) 100 =
      .ok (⟨[late 50], 0⟩, some (.response claims false seen [])) := by
    simp only [UsernameGossip.onMessage, Codec.decode_encode, page]
  obtain ⟨⟨client, back⟩, received⟩ := not_fails_iff.mp (UsernameGossip.not_fails_onMessage
    anySignature ⟨[], 0⟩ (anySignature.message.encode (.response claims false seen [])) 100)
  have run : Run (Guarded (Step anySignature) Allowed) new
      [.peerLearns (late 50) 60, .pull 100 [], .answer 100, .receive 100]
      ⟨client, some 100, ⟨[late 50], 0⟩, none, none, [late 50], 100, 100⟩ := by
    refine .cons ⟨.inr (by decide), .peerLearns (by decide) learned⟩
      (.cons ⟨trivial, .pull (by decide) ⟨rfl, rfl⟩⟩
        (.cons ⟨?_, .answer (by decide) rfl answered⟩
          (.cons ⟨?_, .receive (UInt64.le_refl _) rfl received⟩ (.nil _))))
    · exact Nat.le_trans (List.length_filter_le _ _) (by decide)
    · intro c member
      obtain ⟨inside, -⟩ := (members c).mp member
      rw [List.mem_singleton.mp inside]
      exact .inr ⟨by decide, rfl⟩
  exact ⟨_, _, run, rfl, by simp, rounds_lose_nothing _ _ _ run rfl⟩

end GossipPair

end FinBit.Identity
