import Mathlib.Tactic.DeriveCountable
import FinBit.Lib.Ideal
import FinBit.Identity.UsernameLog

/-! # Username gossip

The log of username claims as a table, and the anti-entropy protocol that fills it: a
peer asks for the claims after a time stamp, and whatever comes back is appended if it
passes every check of `append_claim`.

A row that violates the primary key makes `append_claim` throw. It looks for the row
before it inserts one, so that does not happen.
-/

namespace FinBit.Identity

open FinBit.Lib

/-- `crypto_sign_verify_detached` on public key, message and signature. -/
abbrev SignVerify := Bytes → Bytes → Bytes → Bool

/-- `username_claims`, in the order of insertion. A time stamp is kept as a signed
number, and reads back as it was. -/
abbrev UsernameLog := List UserClaim

inductive AppendResult where
  | accepted
  | alreadyKnown
  | rejectedFormat
  | rejectedClock
  | rejectedSig
  deriving DecidableEq

namespace UsernameLog

/-- The row with a username and a key; both names are bound as C strings. -/
def hasRow (log : UsernameLog) (username pubkey : Bytes) : Bool :=
  log.any fun row => row.username = (cstr username).val && row.pubkey = pubkey

/-- The `INSERT`, under the primary key of the table. -/
def insertClaim (log : UsernameLog) (claim : UserClaim) : Except String UsernameLog :=
  if log.hasRow claim.username claim.pubkey then .error "UsernameLog: insert: UNIQUE constraint failed"
  else .ok (log ++ [{ claim with username := (cstr claim.username).val }])

def verifyClaimSignature (verify : SignVerify) (c : UserClaim) : Except String Bool :=
  if c.pubkey.length ≠ 32 then .ok false
  else if c.signature.length ≠ 64 then .ok false
  else if c.nonce.length ≠ 16 then .ok false
  else
    match canonicalSigningBytes c.username c.pubkey c.timestampMs c.nonce with
    | .error e => .error e
    | .ok signingBytes => .ok (verify c.pubkey signingBytes c.signature)

def appendClaim (verify : SignVerify) (log : UsernameLog) (claim : UserClaim) (now : UInt64) :
    Except String (UsernameLog × AppendResult) :=
  if isValidUsername claim.username = false then .ok (log, .rejectedFormat)
  else if claim.pubkey.length ≠ 32 then .ok (log, .rejectedFormat)
  else if claim.nonce.length ≠ 16 then .ok (log, .rejectedFormat)
  else if claim.signature.length ≠ 64 then .ok (log, .rejectedFormat)
  else if claim.timestampMs > now + kAcceptedClockSkewMs then .ok (log, .rejectedClock)
  else
    match verifyClaimSignature verify claim with
    | .error e => .error e
    | .ok false => .ok (log, .rejectedSig)
    | .ok true =>
      if log.hasRow claim.username claim.pubkey then .ok (log, .alreadyKnown)
      else (log.insertClaim claim).map fun log => (log, .accepted)

/-- The owner of a name: of its claims the oldest, and of those the one with the least
signature. -/
def resolve (log : UsernameLog) (username : Bytes) : Option Bytes :=
  let claims := log.filter fun row => row.username = (cstr username).val
  let ordered := claims.mergeSort fun a b =>
    a.timestampMs.toInt64 < b.timestampMs.toInt64 ||
      (a.timestampMs = b.timestampMs && a.signature ≤ b.signature)
  (ordered.head?.map UserClaim.pubkey).filter (·.length = 32)

/-- At most `max` claims with a later time stamp, the oldest first. -/
def claimsSince (log : UsernameLog) (sinceMs : UInt64) (max : Nat) : List UserClaim :=
  ((log.filter fun c => sinceMs.toInt64 < c.timestampMs.toInt64).mergeSort fun a b =>
    a.timestampMs.toInt64 ≤ b.timestampMs.toInt64).take max

theorem verifyClaimSignature_eq (verify : SignVerify) (c : UserClaim) :
    verifyClaimSignature verify c =
      .ok ((verifyClaimMessage c).any fun m => verify c.pubkey m c.signature) := by
  unfold verifyClaimSignature verifyClaimMessage
  apply ite_ok_false_eq
  intro keyed
  apply ite_ok_false_eq
  intro signed
  apply ite_ok_false_eq
  intro nonced
  simp only [canonicalSigningBytes, keyed, nonced, if_false]
  rfl

theorem not_fails_appendClaim (verify : SignVerify) (log : UsernameLog) (claim : UserClaim)
    (now : UInt64) : ¬Fails (log.appendClaim verify claim now) := by
  unfold appendClaim
  simp only [fails_ite_ok, not_and]
  intro _ _ _ _ _
  rw [verifyClaimSignature_eq]
  cases (verifyClaimMessage claim).any fun m => verify claim.pubkey m claim.signature with
  | false => exact not_fails_ok _
  | true =>
    simp only [fails_ite_ok, not_and]
    intro absent
    simp only [insertClaim, absent]
    exact not_fails_ok _

end UsernameLog

/-! ### The protocol -/

abbrev kClaimsPageMax : Nat := 256

inductive IdentityGossipMessage where
  | request (sinceTimestampMs : UInt64) (maxRecords : UInt32) (requestId : Bytes)
  | response (claims : List UserClaim) (truncated : Bool) (maxSeenMs : UInt64) (requestId : Bytes)
  | notSet

deriving instance Countable for UserClaim, IdentityGossipMessage

structure GossipCrypto where
  verify : SignVerify
  message : Codec IdentityGossipMessage

structure UsernameGossip where
  log : UsernameLog
  acceptedCount : Nat

namespace UsernameGossip

/-- The answer to a request. One claim more than wanted is read to see whether there
are more. -/
def answer (log : UsernameLog) (sinceMs : UInt64) (maxRecords : UInt32) (requestId : Bytes) :
    IdentityGossipMessage :=
  let wantMax := if maxRecords > 0 then min maxRecords.toNat kClaimsPageMax else kClaimsPageMax
  let claims := log.claimsSince sinceMs (wantMax + 1)
  let truncated := claims.length > wantMax
  let claims := if truncated then claims.dropLast else claims
  .response claims truncated (claims.foldl (fun seen c => max seen c.timestampMs) sinceMs) requestId

section

variable (P : GossipCrypto)

/-- The loop over the claims of a response. -/
def appendAll (now : UInt64) : List UserClaim → UsernameGossip → Except String UsernameGossip
  | [], g => .ok g
  | claim :: rest, g =>
    match g.log.appendClaim P.verify claim now with
    | .error e => .error e
    | .ok (log, .accepted) => appendAll now rest ⟨log, g.acceptedCount + 1⟩
    | .ok (log, _) => appendAll now rest { g with log := log }

/-- `on_message`, with the answer that goes back to the sender. -/
def onMessage (g : UsernameGossip) (wireBytes : Bytes) (now : UInt64) :
    Except String (UsernameGossip × Option IdentityGossipMessage) :=
  match P.message.decode wireBytes with
  | none => .ok (g, none)
  | some (.request sinceMs maxRecords requestId) =>
    .ok (g, some (answer g.log sinceMs maxRecords requestId))
  | some (.response claims _ _ _) => (appendAll P now claims g).map fun g => (g, none)
  | some .notSet => .ok (g, none)

theorem not_fails_appendAll (now : UInt64) (claims : List UserClaim) (g : UsernameGossip) :
    ¬Fails (appendAll P now claims g) := by
  induction claims generalizing g with
  | nil => exact not_fails_ok _
  | cons claim rest ih =>
    obtain ⟨⟨log, result⟩, appended⟩ :=
      not_fails_iff.mp (UsernameLog.not_fails_appendClaim P.verify g.log claim now)
    unfold appendAll
    rw [appended]
    cases result <;> exact ih _

/-- No message makes the protocol throw. -/
theorem not_fails_onMessage (g : UsernameGossip) (wireBytes : Bytes) (now : UInt64) :
    ¬Fails (g.onMessage P wireBytes now) := by
  unfold onMessage
  split
  · exact not_fails_ok _
  · exact not_fails_ok _
  · rw [fails_map]
    exact not_fails_appendAll P now _ g
  · exact not_fails_ok _

end

end UsernameGossip

end FinBit.Identity
