import FinBit.Lib.Ideal
import FinBit.Lib.Reader

/-! # MLS groups

`MlsGroup` wraps a state of the MLS library. The library cannot write its state to
disk, so the wrapper keeps what is needed to build it again: a seed, with the keys and
the random inputs of the first epoch, and a log with one record for each effect it has
had on the state, random inputs included. A restart decodes the seed and runs the
records again.

The library is a parameter. What it does in place it does before it throws, so each
effect returns the state it leaves behind together with its outcome.
-/

namespace FinBit.Crypto

open FinBit.Lib

/-! ### The library -/

structure CommitOpts (Proposal : Type) where
  extraProposals : List Proposal
  inlineTree : Bool

/-- The part of mlspp that the wrapper calls: its types, their wire format, and the
functions of `State`, each a function of what is passed to it. Messages are sent
unencrypted, with the same options everywhere. -/
structure Mlspp where
  State : Type
  KeyPackage : Type
  Welcome : Type
  MLSMessage : Type
  LeafNode : Type
  Proposal : Type
  SignaturePrivateKey : Type
  HPKEPrivateKey : Type
  keyPackage : Codec KeyPackage
  welcome : Codec Welcome
  mlsMessage : Codec MLSMessage
  leafNode : Codec LeafNode
  /-- The `data` of a key, and `parse`. -/
  sigData : SignaturePrivateKey → Bytes
  parseSig : Bytes → Except String SignaturePrivateKey
  hpkeData : HPKEPrivateKey → Bytes
  parseHpke : Bytes → Except String HPKEPrivateKey
  /-- The constructor of an empty group that takes the init secret. -/
  newGroup : Bytes → HPKEPrivateKey → SignaturePrivateKey → LeafNode → Bytes → Except String State
  /-- The constructor from a Welcome: init, leaf and signature key, key package. -/
  joinGroup : HPKEPrivateKey → HPKEPrivateKey → SignaturePrivateKey → KeyPackage → Welcome →
    Except String State
  groupId : State → Bytes
  addProposal : State → KeyPackage → Except String Proposal
  removeProposal : State → UInt32 → Except String Proposal
  commit : State → Bytes → CommitOpts Proposal → Except String (MLSMessage × Welcome × State)
  add : State → KeyPackage → Except String MLSMessage
  /-- The state after what is done in place, and the new state of a commit. -/
  handle : State → MLSMessage → State × Except String (Option State)
  protect : State → Bytes → Except String (State × MLSMessage)

variable (P : Mlspp)

/-- `tls::get`. -/
def tlsGet {α : Type} (codec : Codec α) (b : Bytes) : Except String α :=
  match codec.decode b with
  | none => .error "tls: ReadError"
  | some a => .ok a

/-! ### Effects on the state -/

structure AddResult where
  welcome : Bytes
  commit : Bytes

section Effects

variable {P}

def doAddMember (s : P.State) (kpBytes leafSecret : Bytes) : P.State × Except String AddResult :=
  match tlsGet P.keyPackage kpBytes with
  | .error e => (s, .error e)
  | .ok kp =>
    match P.addProposal s kp with
    | .error e => (s, .error e)
    | .ok proposal =>
      match P.commit s leafSecret ⟨[proposal], true⟩ with
      | .error e => (s, .error e)
      | .ok (commitMsg, welcomeMsg, newState) =>
        (newState, .ok ⟨P.welcome.encode welcomeMsg, P.mlsMessage.encode commitMsg⟩)

def doRemoveMember (s : P.State) (leafIndex : UInt32) (leafSecret : Bytes) :
    P.State × Except String Bytes :=
  match P.removeProposal s leafIndex with
  | .error e => (s, .error e)
  | .ok proposal =>
    match P.commit s leafSecret ⟨[proposal], false⟩ with
    | .error e => (s, .error e)
    | .ok (commitMsg, _, newState) => (newState, .ok (P.mlsMessage.encode commitMsg))

/-- The proposal is also handled by its author, so that the commit has it. -/
def doProposeAddMember (s : P.State) (kpBytes : Bytes) : P.State × Except String Bytes :=
  match tlsGet P.keyPackage kpBytes with
  | .error e => (s, .error e)
  | .ok kp =>
    match P.add s kp with
    | .error e => (s, .error e)
    | .ok msg =>
      match P.handle s msg with
      | (s, .error e) => (s, .error e)
      | (s, .ok _) => (s, .ok (P.mlsMessage.encode msg))

/-- A new state that `handle` returns is dropped. -/
def doHandleProposal (s : P.State) (wire : Bytes) : P.State × Except String Unit :=
  match tlsGet P.mlsMessage wire with
  | .error e => (s, .error e)
  | .ok msg =>
    match P.handle s msg with
    | (s, .error e) => (s, .error e)
    | (s, .ok _) => (s, .ok ())

def doCommitPending (s : P.State) (leafSecret : Bytes) : P.State × Except String AddResult :=
  match P.commit s leafSecret ⟨[], true⟩ with
  | .error e => (s, .error e)
  | .ok (commitMsg, welcomeMsg, newState) =>
    (newState, .ok ⟨P.welcome.encode welcomeMsg, P.mlsMessage.encode commitMsg⟩)

def doApplyCommit (s : P.State) (wire : Bytes) : P.State × Except String Unit :=
  match tlsGet P.mlsMessage wire with
  | .error e => (s, .error e)
  | .ok msg =>
    match P.handle s msg with
    | (s, .error e) => (s, .error e)
    | (s, .ok none) => (s, .error ("MlsGroup::apply_commit: commit produced no new state " ++
        "(wrong epoch or unaddressed?)"))
    | (_, .ok (some next)) => (next, .ok ())

end Effects

/-! ### Records of the log -/

/-- The calls that are logged, with the leaf secret that the call has drawn. -/
inductive MlsOp where
  | addMember (keyPackage leafSecret : Bytes)
  | removeMember (leafIndex : UInt32) (leafSecret : Bytes)
  | proposeAdd (keyPackage : Bytes)
  | handleProposal (wire : Bytes)
  | commitPending (leafSecret : Bytes)
  | applyCommit (wire : Bytes)

/-- A record: its kind and its payload behind a 32-bit length. -/
def encodeOp (kind : UInt8) (payload : Bytes) : Bytes := kind :: framed 4 payload

def encodeOpAddmember (kp leafSecret : Bytes) : Bytes :=
  encodeOp 1 (framed 4 kp ++ framed 4 leafSecret)

def encodeOpRemovemember (leafIdx : UInt32) (leafSecret : Bytes) : Bytes :=
  encodeOp 2 (leBytes 4 leafIdx.toNat ++ framed 4 leafSecret)

def encodeOpProposeadd (kp : Bytes) : Bytes := encodeOp 3 (framed 4 kp)

def encodeOpWire (kind : UInt8) (wire : Bytes) : Bytes := encodeOp kind (framed 4 wire)

def encodeOpCommitpending (leafSecret : Bytes) : Bytes := encodeOp 5 (framed 4 leafSecret)

/-- The record that a call appends. -/
def MlsOp.encode : MlsOp → Bytes
  | .addMember kp leafSecret => encodeOpAddmember kp leafSecret
  | .removeMember leafIdx leafSecret => encodeOpRemovemember leafIdx leafSecret
  | .proposeAdd kp => encodeOpProposeadd kp
  | .handleProposal wire => encodeOpWire 4 wire
  | .commitPending leafSecret => encodeOpCommitpending leafSecret
  | .applyCommit wire => encodeOpWire 6 wire

/-- The text with which `Reader` throws. -/
def truncatedBlob : String := "MlsGroup: truncated seed/log blob during decode"

/-- The payload of a record, by its kind. -/
def decodePayload : Nat → Reader MlsOp
  | 1 => do
    let kp ← Reader.field truncatedBlob 4
    let ls ← Reader.field truncatedBlob 4
    return .addMember kp ls
  | 2 => do
    let idx ← Reader.uint truncatedBlob 4
    let ls ← Reader.field truncatedBlob 4
    return .removeMember (UInt32.ofNat idx) ls
  | 3 => do
    let kp ← Reader.field truncatedBlob 4
    return .proposeAdd kp
  | 4 => do
    let wire ← Reader.field truncatedBlob 4
    return .handleProposal wire
  | 5 => do
    let ls ← Reader.field truncatedBlob 4
    return .commitPending ls
  | 6 => do
    let wire ← Reader.field truncatedBlob 4
    return .applyCommit wire
  | kind => throw ("MlsGroup: replay_op unknown kind " ++ toString kind)

/-- Kind and payload of a record. -/
def readRecord : Reader (Nat × Bytes) := do
  let kind ← Reader.uint truncatedBlob 1
  let payload ← Reader.field truncatedBlob 4
  return (kind, payload)

/-- The front of `replay_op`, which reads a record; what follows the fields is ignored. -/
def decodeOp (opBytes : Bytes) : Except String MlsOp := do
  let ((kind, payload), _) ← readRecord.run opBytes
  let (op, _) ← (decodePayload kind).run payload
  return op

/-- What a call returns to its caller. -/
inductive MlsReply where
  | added (result : AddResult)
  | message (wire : Bytes)
  | unit

/-- The effect of a call on the state. -/
def MlsOp.effect {P : Mlspp} (s : P.State) : MlsOp → P.State × Except String MlsReply
  | .addMember kp leafSecret => (doAddMember s kp leafSecret).map id (·.map .added)
  | .removeMember leafIdx leafSecret => (doRemoveMember s leafIdx leafSecret).map id (·.map .message)
  | .proposeAdd kp => (doProposeAddMember s kp).map id (·.map .message)
  | .handleProposal wire => (doHandleProposal s wire).map id (·.map fun _ => .unit)
  | .commitPending leafSecret => (doCommitPending s leafSecret).map id (·.map .added)
  | .applyCommit wire => (doApplyCommit s wire).map id (·.map fun _ => .unit)

/-! ### The group -/

@[ext] structure MlsGroup where
  state : P.State
  sigPriv : P.SignaturePrivateKey
  leafPriv : P.HPKEPrivateKey
  seedBlob : Bytes
  opLog : List Bytes

namespace MlsGroup

variable {P}

/-- A mutator: an effect that has returned is logged. -/
def mutate (g : MlsGroup P) (op : MlsOp) : MlsGroup P × Except String MlsReply :=
  match op.effect g.state with
  | (s, .error e) => ({ g with state := s }, .error e)
  | (s, .ok r) => ({ g with state := s, opLog := g.opLog ++ [op.encode] }, .ok r)

def addMember (g : MlsGroup P) (keyPackage leafSecret : Bytes) :
    MlsGroup P × Except String MlsReply :=
  g.mutate (.addMember keyPackage leafSecret)

def removeMember (g : MlsGroup P) (leafIndex : UInt32) (leafSecret : Bytes) :
    MlsGroup P × Except String MlsReply :=
  g.mutate (.removeMember leafIndex leafSecret)

def proposeAddMember (g : MlsGroup P) (keyPackage : Bytes) : MlsGroup P × Except String MlsReply :=
  g.mutate (.proposeAdd keyPackage)

def handleProposal (g : MlsGroup P) (proposal : Bytes) : MlsGroup P × Except String MlsReply :=
  g.mutate (.handleProposal proposal)

def commitPending (g : MlsGroup P) (leafSecret : Bytes) : MlsGroup P × Except String MlsReply :=
  g.mutate (.commitPending leafSecret)

def applyCommit (g : MlsGroup P) (commit : Bytes) : MlsGroup P × Except String MlsReply :=
  g.mutate (.applyCommit commit)

def applicationEncrypt (g : MlsGroup P) (plaintext : Bytes) :
    MlsGroup P × Except String Bytes :=
  match P.protect g.state plaintext with
  | .error e => (g, .error e)
  | .ok (s, msg) => ({ g with state := s }, .ok (P.mlsMessage.encode msg))

def serializeSeed (g : MlsGroup P) : Bytes := g.seedBlob

def operationLog (g : MlsGroup P) : List Bytes := g.opLog

/-- The magic `MGB1`, the seed, and the records behind their count. -/
def serialize (g : MlsGroup P) : Bytes :=
  ascii "MGB1" ++ (framed 4 g.seedBlob ++
    (leBytes 4 g.opLog.length ++ g.opLog.flatMap (framed 4)))

def replayOp (g : MlsGroup P) (opBytes : Bytes) : MlsGroup P × Except String Unit :=
  match decodeOp opBytes with
  | .error e => (g, .error e)
  | .ok op =>
    match op.effect g.state with
    | (s, .error e) => ({ g with state := s }, .error e)
    | (s, .ok _) => ({ g with state := s, opLog := g.opLog ++ [opBytes] }, .ok ())

end MlsGroup

/-! ### Seeds -/

abbrev kSeedVersion : Nat := 1
abbrev kRoleCreator : Nat := 0
abbrev kRoleJoiner : Nat := 1

/-- `X25519_AES128GCM_SHA256_Ed25519`. -/
abbrev kSuiteId : Nat := 1

/-- Version, role, suite and a reserved octet. -/
def seedHeader (role : Nat) : Bytes :=
  [UInt8.ofNat kSeedVersion, UInt8.ofNat role, UInt8.ofNat kSuiteId, 0]

/-- The lengths of group id and identity are cast to 16 bits, the others to 32. -/
def encodeSeed (role : Nat) (groupId identity sigPriv leafPriv initPriv keyPackage welcome initSecret
    leafNode : Bytes) : Bytes :=
  seedHeader role ++ (framed 2 groupId ++ (framed 2 identity ++ (framed 4 sigPriv ++
    (framed 4 leafPriv ++ (framed 4 initPriv ++ (framed 4 keyPackage ++ (framed 4 welcome ++
      (framed 4 initSecret ++ framed 4 leafNode))))))))

def encodeCreatorSeed (groupId identity sigPrivData leafPrivData initSecret leafNodeMarshaled : Bytes) :
    Bytes :=
  encodeSeed kRoleCreator groupId identity sigPrivData leafPrivData [] [] [] initSecret
    leafNodeMarshaled

def encodeJoinerSeed (groupId identity sigPrivData leafPrivData initPrivData keyPackageMarshaled
    welcomeMarshaled : Bytes) : Bytes :=
  encodeSeed kRoleJoiner groupId identity sigPrivData leafPrivData initPrivData keyPackageMarshaled
    welcomeMarshaled [] []

structure DecodedSeed where
  role : Nat
  groupId : Bytes
  identity : Bytes
  sigPriv : P.SignaturePrivateKey
  leafPriv : P.HPKEPrivateKey
  initPriv : Option P.HPKEPrivateKey
  keyPackage : Option P.KeyPackage
  welcome : Option P.Welcome
  creatorInitSecret : Bytes
  creatorLeafNode : Option P.LeafNode

/-- A field that is absent when it is empty. -/
def optionalField {α : Type} (parse : Bytes → Except String α) : Reader (Option α) := do
  let b ← Reader.field truncatedBlob 4
  if b = [] then return none
  else return some (← parse b)

/-- The front of `decode_seed`, up to the role. -/
def decodeSeedHeader : Reader Nat := do
  let version ← Reader.uint truncatedBlob 1
  if version ≠ kSeedVersion then
    throw ("MlsGroup: seed blob version " ++ toString version ++ " — only v1 is supported")
  else
    let roleRaw ← Reader.uint truncatedBlob 1
    if roleRaw ≠ kRoleCreator ∧ roleRaw ≠ kRoleJoiner then
      throw ("MlsGroup: seed blob carries unknown role " ++ toString roleRaw)
    else
      let suiteRaw ← Reader.uint truncatedBlob 1
      if suiteRaw ≠ kSuiteId then
        throw ("MlsGroup: seed blob cipher suite mismatch (expected " ++
          "X25519_AES128GCM_SHA256_Ed25519)")
      else
        let _reserved ← Reader.uint truncatedBlob 1
        return roleRaw

/-- The fields of `decode_seed`, for either role. -/
def decodeSeedFields (role : Nat) : Reader (DecodedSeed P) := do
  let groupId ← Reader.field truncatedBlob 2
  let identity ← Reader.field truncatedBlob 2
  let sigVec ← Reader.field truncatedBlob 4
  let sigPriv ← P.parseSig sigVec
  let leafVec ← Reader.field truncatedBlob 4
  let leafPriv ← P.parseHpke leafVec
  let initPriv ← optionalField P.parseHpke
  let keyPackage ← optionalField (tlsGet P.keyPackage)
  let welcome ← optionalField (tlsGet P.welcome)
  let creatorInitSecret ← Reader.field truncatedBlob 4
  let creatorLeafNode ← optionalField (tlsGet P.leafNode)
  return ⟨role, groupId, identity, sigPriv, leafPriv, initPriv, keyPackage, welcome,
    creatorInitSecret, creatorLeafNode⟩

def decodeSeed (blob : Bytes) : Except String (DecodedSeed P) := do
  let (decoded, _) ← (decodeSeedHeader >>= decodeSeedFields P).run blob
  return decoded

/-- The state that `from_seed_and_log` starts from. -/
def DecodedSeed.initial {P : Mlspp} (decoded : DecodedSeed P) : Except String P.State :=
  if decoded.role = kRoleCreator then
    match decoded.creatorInitSecret, decoded.creatorLeafNode with
    | initSecret@(_ :: _), some leafNode =>
      P.newGroup decoded.groupId decoded.leafPriv decoded.sigPriv leafNode initSecret
    | _, _ => .error ("MlsGroup: creator seed missing init_secret or " ++
        "leaf_node — was it produced by a pre-persistence-patch build?")
  else
    match decoded.initPriv, decoded.keyPackage, decoded.welcome with
    | some initPriv, some keyPackage, some welcome =>
      P.joinGroup initPriv decoded.leafPriv decoded.sigPriv keyPackage welcome
    | _, _, _ => .error "MlsGroup: joiner seed missing init_priv / key_package / welcome"

/-! ### Creating, joining, restoring -/

/-- A `std::span` of 32 octets. -/
abbrev Bytes32 := { b : Bytes // b.length = 32 }

def Bytes32.filled (b : UInt8) : Bytes32 := ⟨List.replicate 32 b, List.length_replicate⟩

@[simp] theorem Bytes32.val_filled (b : UInt8) : (filled b).val = List.replicate 32 b := rfl

/-- What `create` draws. The leaf node holds the time at which it was made. -/
structure CreateDraws where
  sigPriv : P.SignaturePrivateKey
  leafPriv : P.HPKEPrivateKey
  leafNode : P.LeafNode
  initSecret : Bytes32

structure JoinerKeys where
  initPriv : P.HPKEPrivateKey
  leafPriv : P.HPKEPrivateKey
  sigPriv : P.SignaturePrivateKey
  keyPackage : P.KeyPackage

structure PendingMlsJoin where
  keys : JoinerKeys P
  identity : Bytes32

namespace MlsGroup

variable {P}

def create (creatorIdentity groupId : Bytes32) (draws : CreateDraws P) :
    Except String (MlsGroup P) := do
  let state ← P.newGroup groupId.1 draws.leafPriv draws.sigPriv draws.leafNode draws.initSecret.1
  let seed := encodeCreatorSeed groupId.1 creatorIdentity.1 (P.sigData draws.sigPriv)
    (P.hpkeData draws.leafPriv) draws.initSecret.1 (P.leafNode.encode draws.leafNode)
  return ⟨state, draws.sigPriv, draws.leafPriv, seed, []⟩

/-- `PendingMlsJoin::complete`. The group id is that of the Welcome. -/
def complete (pending : PendingMlsJoin P) (welcomeBytes : Bytes) : Except String (MlsGroup P) := do
  let keys := pending.keys
  let welcome ← tlsGet P.welcome welcomeBytes
  let state ← P.joinGroup keys.initPriv keys.leafPriv keys.sigPriv keys.keyPackage welcome
  let seed := encodeJoinerSeed (P.groupId state) pending.identity.1 (P.sigData keys.sigPriv)
    (P.hpkeData keys.leafPriv) (P.hpkeData keys.initPriv) (P.keyPackage.encode keys.keyPackage)
    welcomeBytes
  return ⟨state, keys.sigPriv, keys.leafPriv, seed, []⟩

/-- The loop of `from_seed_and_log`, from the record with index `i` on. -/
def replayFrom (g : MlsGroup P) (i : Nat) : List Bytes → Except String (MlsGroup P)
  | [] => .ok g
  | op :: ops =>
    match g.replayOp op with
    | (_, .error e) => .error ("MlsGroup::from_seed_and_log: replay of op " ++ toString i ++
        " failed: " ++ e)
    | (g, .ok ()) => replayFrom g (i + 1) ops

variable (P) in
def fromSeedAndLog (seed : Bytes) (ops : List Bytes) : Except String (MlsGroup P) := do
  let decoded ← decodeSeed P seed
  let state ← decoded.initial
  replayFrom ⟨state, decoded.sigPriv, decoded.leafPriv, seed, []⟩ 0 ops

/-- The seed and the records of a bundle. -/
def readBundle : Reader (Bytes × List Bytes) := do
  let seed ← Reader.field truncatedBlob 4
  let opCount ← Reader.uint truncatedBlob 4
  let ops ← Reader.fields truncatedBlob 4 opCount
  return (seed, ops)

variable (P) in
def fromBlob (blob : Bytes) : Except String (MlsGroup P) :=
  if blob.length < 8 ∨ blob.take 4 ≠ ascii "MGB1" then
    .error ("MlsGroup::from_blob: missing 'MGB1' magic — pass either a " ++
      "bundled blob from serialize() or use from_seed_and_log for the split form")
  else do
    let ((seed, ops), _) ← readBundle.run (blob.drop 4)
    fromSeedAndLog P seed ops

end MlsGroup

end FinBit.Crypto
