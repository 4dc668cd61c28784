import FinBit.Crypto.SenderKeysWindow
import FinBit.Lib.Reader

/-! # The saved form of a group session

`serialize_state` writes a session in a binary format of its own and `deserialize_state`
reads it back. The peers are in a `std::map` here, which is written in the order of its
keys; `Impl.session` forgets the order. The cache of skipped keys is not written, so a
restored chain starts with an empty one.
-/

namespace FinBit.Crypto

open FinBit.Lib Std

variable {K : Type}

/-- The 32 octets of a key. -/
structure KeyForm (K : Type) where
  bytes : K → Bytes
  ofBytes : Bytes → K
  length_bytes : ∀ k, (bytes k).length = 32
  ofBytes_bytes : ∀ k, ofBytes (bytes k) = k

/-- `GroupSession::Impl`. -/
structure GroupSession.Impl (K : Type) where
  own : Option (OwnChain K)
  peers : ExtTreeMap Bytes (PerPeerChain K)

/-- The peer that a call names. -/
def SessionCall.peer : SessionCall K → Option Bytes
  | .createOwnSendChain .. | .encrypt .. => none
  | .installPeerDistribution peerId _ | .decrypt peerId .. | .removePeer peerId => some peerId

namespace GroupSession.Impl

def session (s : Impl K) : GroupSession K := ⟨s.own, fun peerId => s.peers[peerId]?⟩

/-- The entry of a peer in the map follows the session. -/
def setPeer (peers : ExtTreeMap Bytes (PerPeerChain K)) (peerId : Bytes) :
    Option (PerPeerChain K) → ExtTreeMap Bytes (PerPeerChain K)
  | some chain => peers.insert peerId chain
  | none => peers.erase peerId

/-- A call changes the own chain or the entry of the peer it names. -/
def perform (P : SenderKeys K) (s : Impl K) (call : SessionCall K) : Impl K :=
  let after := s.session.perform P call
  match call with
  | .createOwnSendChain .. | .encrypt .. => { s with own := after.own }
  | .installPeerDistribution peerId _ | .decrypt peerId .. | .removePeer peerId =>
    { s with peers := setPeer s.peers peerId (after.peers peerId) }

abbrev kStateMagic : UInt32 := 0x46425347
abbrev kStateVersion : UInt32 := 1

variable (F : KeyForm K)

/-- The 52 octets of a chain. -/
def chainBytes (chainId : Bytes) (chainKey : K) (nextIndex : UInt32) : Bytes :=
  chainId ++ (F.bytes chainKey ++ be32 nextIndex)

def ownBytes : Option (OwnChain K) → Bytes
  | none => [0]
  | some own => 1 :: chainBytes F own.chainId own.chainKey own.nextIndex

/-- `put_bytes`. -/
def putBytes (b : Bytes) : Bytes := be32 (UInt32.ofNat b.length) ++ b

def peerBytes (entry : Bytes × PerPeerChain K) : Bytes :=
  putBytes entry.1 ++ chainBytes F entry.2.chainId entry.2.chainKey entry.2.nextIndex

def serializeState (s : Impl K) : Bytes :=
  be32 kStateMagic ++ (be32 kStateVersion ++ (ownBytes F s.own ++
    (be32 (UInt32.ofNat s.peers.size) ++ s.peers.toList.flatMap (peerBytes F))))

/-! ### Reading -/

/-- `read_u32_be`. -/
def readU32Be : Reader UInt32 := do
  return UInt32.ofNat (← Reader.beUint "read_u32_be underflow" 4)

/-- `read_bytes`. -/
def readBytes : Reader Bytes := do
  let n ← readU32Be
  Reader.take "read_bytes underflow" n.toNat

/-- A chain of 16, 32 and 4 octets; the caller returns null where they are not there. -/
def readChain : Reader (OwnChain K) := do
  let chainId ← Reader.take "nullptr" 16
  let chainKey ← Reader.take "nullptr" 32
  let nextIndex ← readU32Be
  return ⟨chainId, F.ofBytes chainKey, nextIndex⟩

def readOwn : Reader (Option (OwnChain K)) := do
  let haveOwn ← Reader.take "nullptr" 1
  if haveOwn ≠ [0] then return some (← readChain F) else return none

/-- The loop over the peers; `emplace` keeps the first entry of a key. -/
def readPeers : Nat → ExtTreeMap Bytes (PerPeerChain K) →
    Reader (ExtTreeMap Bytes (PerPeerChain K))
  | 0, peers => return peers
  | n + 1, peers => do
    let peerId ← readBytes
    let c ← readChain F
    readPeers n (peers.insertIfNew peerId ⟨c.chainId, c.chainKey, c.nextIndex, ∅⟩)

/-- A constant that has to stand there. -/
def expect (constant : UInt32) : Reader Unit := do
  if (← readU32Be) ≠ constant then throw "nullptr"

def readState : Reader (Impl K) := do
  expect kStateMagic
  expect kStateVersion
  let own ← readOwn F
  let n ← readU32Be
  return ⟨own, ← readPeers F n.toNat ∅⟩

/-- `deserialize_state`: whatever goes wrong, the result is a null pointer. -/
def deserializeState (blob : Bytes) : Option (Impl K) :=
  match (readState F).run blob with
  | .ok (s, _) => some s
  | .error _ => none

/-! ### The session of a map -/

variable {P : SenderKeys K} {F}

/-- What `serialize_state` has room for: the number of peers and the length of each name are
written with 32 bits. -/
structure Fits (s : Impl K) : Prop where
  count : s.peers.size < 2 ^ 32
  names : ∀ peerId ∈ s.peers, peerId.length < 2 ^ 32

end GroupSession.Impl

end FinBit.Crypto
