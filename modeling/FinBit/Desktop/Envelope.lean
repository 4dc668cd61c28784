import FinBit.Lib.Bytes

/-! # Envelopes

The envelope that every transport of the desktop client carries: the relay,
direct peer connections and gossip all hand it to the same dispatcher.
-/

namespace FinBit.Desktop

open FinBit.Lib

inductive Recipient where
  | userPubkey (key : Bytes)
  | channelGroupId (id : Bytes)
  | notSet
  deriving DecidableEq

/-- The fields of `Envelope` that the dispatcher reads. -/
structure Envelope where
  envelopeId : Bytes
  timestampMs : UInt64
  aad : Bytes
  recipient : Recipient
  senderPubkey : Bytes
  ciphertext : Bytes
  pqCt : Bytes

/-- `envelope_aad_bytes`: what a sender binds as outer associated data. -/
def envelopeAadBytes (envelopeId : Bytes) (timestampMs : UInt64) : Bytes :=
  envelopeId ++ be64 timestampMs

/-- A non-empty `aad` must be the one computed from the other two fields; an
empty one is honoured for old senders. -/
def Envelope.aadConsistent (env : Envelope) : Bool :=
  env.aad = [] || env.aad = envelopeAadBytes env.envelopeId env.timestampMs

end FinBit.Desktop
