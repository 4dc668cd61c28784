import FinBit.Desktop.DirectMessages
import FinBit.P2P.ProviderRecords

/-! # First contact

How the desktop client comes to send a direct message: the handler of
`kKeyFetchResp`, which creates the initiator's session from a fetched bundle, its
sibling over a prekey record of the DHT, and the envelope that a session sends.
-/

namespace FinBit.Desktop

open FinBit.Lib FinBit.Crypto FinBit.Handshake Std

variable {K : Type}

structure KeyFetchResp where
  found : Bool
  bundle : PreKeyBundle

inductive FetchOutcome where
  | ignored
  | notFound
  | refused
  | reused
  | created
  | threw (what : String)

section

variable (P : DmCrypto K)

/-- Whether some session has a ratchet for the peer. -/
def hasRatchetFor (sessions : Sessions K) (peer : Bytes) : Bool :=
  sessions.keys.any fun name => (sessions.ratchetAt name).any fun entry => entry.1 = peer

/-- The handler of `kKeyFetchResp` on the sessions. `fetchedFor` is the front of
`pending_fetch_targets`, empty when there is none; `admitted` is what `pq_tofu_admit`
says; `drawn` and `draw` are the randomness of `init_alice` and of the encapsulation. -/
def keyFetchResp (client : DmClient K) (fetchedFor : Bytes) (r : KeyFetchResp) (admitted : Bool)
    (drawn : KeyPair K) (draw : Nat) : Sessions K × FetchOutcome :=
  if fetchedFor = [] then (client.sessions, .ignored)
  else if r.found = false ∨ r.bundle.identityPubkey.length ≠ 32 ∨
      r.bundle.signedPrekey.length ≠ 32 then (client.sessions, .notFound)
  else if admitted = false then (client.sessions, .refused)
  else if hasRatchetFor client.sessions r.bundle.identityPubkey then (client.sessions, .reused)
  else
    -- the session is bound before anything that may throw
    let sess := { client.sessions[fetchedFor]?.getD .blank with
      peerPub := r.bundle.identityPubkey
      peerX := r.bundle.signedPrekey }
    match deriveHybridSendFromBundle P.toHybridCrypto client.x25519 r.bundle.signedPrekey r.bundle
        draw with
    | .error e => (client.sessions.insert fetchedFor sess, .threw e)
    | .ok (shared, pqCt) =>
      let sess := { sess with pqCt := pqCt }
      match Ratchet.initAlice P.toRatchetCrypto drawn shared r.bundle.signedPrekey with
      | .error e => (client.sessions.insert fetchedFor sess, .threw e)
      | .ok rat =>
        (client.sessions.insert fetchedFor
          { sess with rat := some rat, pqAcked := false, sealOutbound := false }, .created)

/-- The first contact of a parked send, over the prekey record that the DHT has for the
peer. The outer signature of the record has been verified when it was stored. Unlike the
answer to a fetch, an exception is caught here, and nothing is bound before the handshake. -/
def firstContactDirect (client : DmClient K) (name peerPub : Bytes) (record : P2P.PrekeyRecord)
    (admitted : Bool) (drawn : KeyPair K) (draw : Nat) : Sessions K × FetchOutcome :=
  if admitted = false then (client.sessions, .refused)
  else if hasRatchetFor client.sessions peerPub then (client.sessions, .reused)
  else
    match deriveHybridSend P.toHybridCrypto client.x25519 record.signedPrekey record.pqPubkey
        draw with
    | .error e => (client.sessions, .threw e)
    | .ok (shared, pqCt) =>
      let sess := { client.sessions[name]?.getD .blank with
        peerPub := peerPub
        peerX := record.signedPrekey
        pqCt := pqCt }
      match Ratchet.initAlice P.toRatchetCrypto drawn shared record.signedPrekey with
      | .error e => (client.sessions.insert name sess, .threw e)
      | .ok rat =>
        (client.sessions.insert name
          { sess with rat := some rat, pqAcked := false, sealOutbound := false }, .created)

/-! ### Sending -/

/-- `pack_text_payload`. -/
def packTextPayload (text : Bytes) : Bytes := P.payload.encode ⟨.text text, [], [], 0⟩

/-- `seal_dm_payload`, with the identity's public key and its signing function. -/
def sealDmPayload (publicKey : Bytes) (sign : Bytes → Bytes) (dmBytes envelopeId : Bytes)
    (timestampMs : UInt64) (recipientPubkey : Bytes) : Bytes :=
  match P.payload.decode dmBytes with
  | none => dmBytes
  | some dmp =>
    P.payload.encode { dmp with
      sealedSenderPubkey := publicKey
      sealedSenderSig := sign (sealedSenderSigInput envelopeId timestampMs recipientPubkey) }

/-- The envelope for a payload on a session with a ratchet, and the session after it. -/
def sendDm (publicKey : Bytes) (sign : Bytes → Bytes) (s : Session K) (rat : Ratchet K)
    (envelopeId : Bytes) (timestampMs : UInt64) (pt : Bytes) :
    Except String (Session K × Envelope) :=
  let aad := envelopeAadBytes envelopeId timestampMs
  let pt :=
    if s.sealOutbound then sealDmPayload P publicKey sign pt envelopeId timestampMs s.peerPub
    else pt
  match rat.encrypt P.toRatchetCrypto pt aad with
  | .error e => .error e
  | .ok (rat, inner) =>
    .ok ({ s with rat := some rat },
      { envelopeId := envelopeId
        timestampMs := timestampMs
        aad := aad
        recipient := .userPubkey s.peerPub
        senderPubkey := if s.sealOutbound then [] else publicKey
        ciphertext := inner
        pqCt := s.pqCt })

end

end FinBit.Desktop
