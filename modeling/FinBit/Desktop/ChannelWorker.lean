import FinBit.Crypto.MlsFacade
import FinBit.Desktop.Channels
import FinBit.Store.SqliteStore

/-! # The channel table of the worker

Everything that touches `channels`, `chan_id_to_name` and what is persisted of them: the
operations of the user, the payloads that come in by direct message, the envelopes of
channels, and the restore loop. Channels are kept by a local name and addressed by an id.
Most of the ways to make or join one write both maps by hand, under a name that the sender
of an invitation has chosen.
-/

namespace FinBit.Desktop

open FinBit.Lib FinBit.Crypto Std Store.SqliteStore

variable {K : Type} {M : Crypto.Mlspp}

/-! ### State -/

/-- `ChannelState` with what belongs to MLS. -/
structure Channel (K : Type) (M : Crypto.Mlspp) where
  id : Bytes32
  ownDist : Bytes
  session : GroupSession K
  subscribed : Bool
  crypto : ChannelCrypto
  mls : Option (MlsGroup M)
  mlsNextSeq : Nat
  pendingJoin : Option (PendingMlsJoin M)

def zeroId : Bytes32 := .filled 0

/-- A default-constructed `ChannelState`. -/
def Channel.new : Channel K M := ⟨zeroId, [], .new, false, .kSenderKeys, none, 0, none⟩

/-- A row of `chan_state` apart from its name. -/
structure StoredChannel where
  channelId : Bytes
  ownDist : Bytes
  crypto : ChannelCrypto

/-- The tables of the store that the restore loop reads. -/
structure ChannelTables (K : Type) where
  chanState : ExtTreeMap Bytes StoredChannel
  sessions : Bytes → Option (SavedState K)
  chanPeers : Bytes → List (Bytes × Bytes)
  mlsGroupState : Bytes → Option Bytes
  /-- Numbered records of a channel. -/
  mlsGroupLog : Bytes → List (Nat × Bytes)

structure ChannelWorker (K : Type) (M : Crypto.Mlspp) where
  channels : Bytes → Option (Channel K M)
  chanIdToName : Bytes32 → Option Bytes
  store : ChannelTables K

/-- What the worker takes from outside: its identity, the hash that makes an id of a name,
and how mlspp opens a message. -/
structure ChannelSetup (K : Type) (M : Crypto.Mlspp) where
  senderKeys : SenderKeys K
  me : Bytes32
  channelIdFromName : Bytes → Bytes32
  unprotect : M.State → M.MLSMessage → M.State × Except String Bytes

/-- The first octets of an id are taken as a sign that it was never set. -/
def unset (octets : Nat) (id : Bytes32) : Bool := id.1.take octets = List.replicate octets 0

namespace ChannelWorker

variable (c : ChannelWorker K M)

def new : ChannelWorker K M :=
  ⟨fun _ => none, fun _ => none, ⟨∅, fun _ => none, fun _ => [], fun _ => none, fun _ => []⟩⟩

/-- `channels[name]`. -/
def entry (name : Bytes) : Channel K M := (c.channels name).getD .new

def setChannel (name : Bytes) (cs : Channel K M) : ChannelWorker K M :=
  { c with channels := Function.update c.channels name (some cs) }

def setIndex (id : Bytes32) (name : Bytes) : ChannelWorker K M :=
  { c with chanIdToName := Function.update c.chanIdToName id (some name) }

/-! ### Persistence -/

/-- `persist_chan_meta`; the name is bound as a C string. -/
def persistChanMeta (name : Bytes) (cs : Channel K M) : ChannelWorker K M :=
  { c with store := { c.store with
      chanState := c.store.chanState.insert (cstr name).val ⟨cs.id.1, cs.ownDist, cs.crypto⟩ } }

def persistChanSession (name : Bytes) (cs : Channel K M) : ChannelWorker K M :=
  { c with store := { c.store with
      sessions := Function.update c.store.sessions (ChannelClient.chanStateKey name)
        (some cs.session.serializeState) } }

def persistChanPeerDist (cs : Channel K M) (peerPub peerDist : Bytes) : ChannelWorker K M :=
  let rows := c.store.chanPeers cs.id.1
  let rows' :=
    if rows.any (·.1 = peerPub) then
      rows.map fun row => if row.1 = peerPub then (peerPub, peerDist) else row
    else rows ++ [(peerPub, peerDist)]
  { c with store := { c.store with chanPeers := Function.update c.store.chanPeers cs.id.1 rows' } }

/-- `persist_mls_seed`, with the group that the channel has now. -/
def persistMlsSeed (name : Bytes) (cs : Channel K M) : ChannelWorker K M :=
  match cs.mls with
  | none => c
  | some g =>
    { c.setChannel name { cs with mlsNextSeq := 0 } with store := { c.store with
        mlsGroupState := Function.update c.store.mlsGroupState cs.id.1 (some g.serializeSeed) } }

/-- `persist_mls_last_op`, and whether it returns: it throws where the number is taken. -/
def persistMlsLastOp (name : Bytes) (cs : Channel K M) : ChannelWorker K M × Bool :=
  match cs.mls.bind fun g => g.operationLog.getLast? with
  | none => (c, true)
  | some last =>
    let rows := c.store.mlsGroupLog cs.id.1
    if rows.any (·.1 = cs.mlsNextSeq) then (c, false)
    else
      ({ c.setChannel name { cs with mlsNextSeq := cs.mlsNextSeq + 1 } with store := { c.store with
          mlsGroupLog := Function.update c.store.mlsGroupLog cs.id.1
            (rows ++ [(cs.mlsNextSeq, last)]) } }, true)

/-- `chan_delete`. -/
def chanDelete (name : Bytes) (id : Bytes32) : ChannelWorker K M :=
  { c with store :=
    { chanState := c.store.chanState.erase (cstr name).val
      sessions := Function.update c.store.sessions (ChannelClient.chanStateKey name) none
      chanPeers := Function.update c.store.chanPeers id.1 []
      mlsGroupState := Function.update c.store.mlsGroupState id.1 none
      mlsGroupLog := Function.update c.store.mlsGroupLog id.1 [] } }

end ChannelWorker

/-! ### Operations of the user -/

/-- What an operation draws: the id and the seed of a sending chain. -/
structure ChainDraws (K : Type) where
  chainId : Bytes
  seed : K

inductive ChannelOp (K : Type) (M : Crypto.Mlspp) where
  /-- `written` is whether the distribution file could be written. -/
  | create (draws : ChainDraws K) (written : Bool)
  | createLocal (useMls : Bool) (draws : ChainDraws K) (group : CreateDraws M)
  /-- The content of the distribution file, if it could be read. -/
  | join (file : Option Bytes)
  | send (out : ChannelClient.Outgoing)
  | leave
  | roomJoin
  | roomLeave
  /-- `hasSession` is whether there is a ratchet with the peer. -/
  | invite (draws : ChainDraws K) (hasSession : Bool)

namespace ChannelWorker

variable (S : ChannelSetup K M) (c : ChannelWorker K M) (name : Bytes)

/-- The head of the loop over the operations. -/
def ensureId : ChannelWorker K M :=
  let cs := c.entry name
  if unset 3 cs.id then
    (c.setChannel name { cs with id := S.channelIdFromName name }).setIndex
      (S.channelIdFromName name) name
  else c

/-- What some operations do again, without the index. -/
def deriveId (cs : Channel K M) : Channel K M :=
  if unset 2 cs.id then { cs with id := S.channelIdFromName name } else cs

/-- `create_own_send_chain`. -/
def createOwnSendChain (cs : Channel K M) (draws : ChainDraws K) : Channel K M :=
  let (session, dist) := cs.session.createOwnSendChain S.senderKeys draws.chainId draws.seed
  { cs with session := session, ownDist := dist }

def persistChannel (cs : Channel K M) : ChannelWorker K M :=
  ((c.setChannel name cs).persistChanMeta name cs).persistChanSession name cs

/-- `kCreateLocal` from the choice of the cipher on. -/
def createLocal (cs : Channel K M) (useMls : Bool) (group : CreateDraws M) : ChannelWorker K M :=
  if useMls = false then
    c.persistChannel name { cs with crypto := .kSenderKeys, subscribed := true }
  else
    let cs := deriveId S name { cs with crypto := .kMls }
    match MlsGroup.create S.me cs.id group with
    | .error _ => c.persistChannel name { cs with crypto := .kSenderKeys, subscribed := true }
    | .ok g =>
      let cs := { cs with mls := some g }
      (c.persistMlsSeed name cs).persistChannel name { cs with mlsNextSeq := 0, subscribed := true }

/-- `kSend` on a channel that has a distribution. -/
def send (cs : Channel K M) (out : ChannelClient.Outgoing) : ChannelWorker K M :=
  match cs.crypto, cs.mls with
  | .kMls, some g =>
    match g.applicationEncrypt out.text with
    | (g, .error _) => c.setChannel name { cs with mls := some g }
    | (g, .ok _) =>
      let cs := { cs with mls := some g }
      (c.setChannel name cs).persistChanSession name cs
  | _, _ =>
    let aad := envelopeAadBytes out.envelopeId out.timestampMs
    match cs.session.encrypt S.senderKeys out.text aad with
    | .error _ => c
    | .ok (session, _) =>
      let cs := { cs with session := session }
      (c.setChannel name cs).persistChanSession name cs

def invite (cs : Channel K M) (draws : ChainDraws K) (hasSession : Bool) : ChannelWorker K M :=
  match cs.crypto with
  | .kMls => c.setChannel name (deriveId S name cs)
  | .kSenderKeys =>
    let cs := if cs.ownDist = [] then createOwnSendChain S cs draws else cs
    let cs := { cs with subscribed := true }
    if hasSession then c.persistChannel name cs
    -- the invite waits for the key of the peer, and nothing is written until then
    else c.setChannel name cs

/-- One pass of the loop over the operations. -/
def perform (op : ChannelOp K M) : ChannelWorker K M :=
  let c := c.ensureId S name
  let cs := c.entry name
  match op with
  | .create draws written =>
    let cs := createOwnSendChain S cs draws
    if written then c.persistChannel name { cs with subscribed := true } else c.setChannel name cs
  | .createLocal useMls draws group =>
    let cs := if cs.ownDist = [] then createOwnSendChain S cs draws else cs
    c.createLocal S name cs useMls group
  | .join file =>
    match file with
    | none => c
    | some dist => c.persistChannel name { cs with ownDist := dist, subscribed := true }
  | .send out => if cs.ownDist = [] then c else c.send S name cs out
  | .leave =>
    { c.chanDelete name cs.id with
      channels := Function.update c.channels name none
      chanIdToName := Function.update c.chanIdToName cs.id none }
  | .roomJoin => c.setChannel name (deriveId S name cs)
  | .roomLeave => c.setChannel name (deriveId S name cs)
  | .invite draws hasSession => c.invite S name cs draws hasSession

end ChannelWorker

/-! ### Payloads of direct messages -/

inductive ChannelPayload where
  | channelKey (channelId channelName distribution : Bytes)
  | mlsInviteRequest (channelId channelName : Bytes)
  | mlsKeyPackage (channelId keyPackage : Bytes)
  | mlsWelcome (channelId channelName welcome : Bytes)
  | mlsCommit (channelId commit : Bytes)
  | mlsProposal (channelId proposal : Bytes)
  /-- A payload that does not look at channels. -/
  | other

/-- What a handler draws: the keys of a join, if `start_join` returns, and a leaf secret. -/
structure PayloadDraws (M : Crypto.Mlspp) where
  join : Option (JoinerKeys M)
  leafSecret : Bytes

namespace ChannelWorker

variable (S : ChannelSetup K M) (c : ChannelWorker K M)

/-- The branch of `kChannelKey`. -/
def onChannelKey (senderPub : Bytes) (id : Bytes32) (name dist : Bytes) : ChannelWorker K M :=
  let cs := { c.entry name with id := id, ownDist := dist }
  let cs := { cs with session := ChannelClient.tryInstall S.senderKeys cs.session senderPub dist }
  let cs := { cs with subscribed := true }
  let c := ((c.setIndex id name).setChannel name cs).persistChanMeta name cs
  (c.persistChanPeerDist cs senderPub dist).persistChanSession name cs

/-- The branch of `kMlsInviteRequest`. -/
def onMlsInviteRequest (id : Bytes32) (name : Bytes) (join : Option (JoinerKeys M)) :
    ChannelWorker K M :=
  let cs := c.entry name
  let (c, cs) :=
    if unset 2 cs.id then (c.setIndex id name, { cs with id := id }) else (c, cs)
  let cs := { cs with crypto := .kMls }
  match cs.pendingJoin, join with
  | none, some keys => c.setChannel name { cs with pendingJoin := some ⟨keys, S.me⟩ }
  | _, _ => c.setChannel name cs

/-- The branch of `kMlsWelcome`. -/
def onMlsWelcome (id : Bytes32) (name welcome : Bytes) : ChannelWorker K M :=
  let cs := c.entry name
  match cs.pendingJoin with
  -- `operator[]` has made an entry, if there was none
  | none => c.setChannel name cs
  | some join =>
    match MlsGroup.complete join welcome with
    | .error _ => c.setChannel name cs
    | .ok g =>
      let cs := { cs with mls := some g, pendingJoin := none, crypto := .kMls }
      let c := c.persistMlsSeed name cs
      (c.setChannel name { cs with mlsNextSeq := 0, subscribed := true }).setIndex id name

/-- A call of the group of a channel and its record, and whether the handler goes on: what a call
has left when it throws is kept. -/
def mutateMls (name : Bytes) (op : MlsOp) : ChannelWorker K M × Bool :=
  let cs := c.entry name
  match cs.mls with
  | none => (c, false)
  | some g =>
    match g.mutate op with
    | (g, .error _) => (c.setChannel name { cs with mls := some g }, false)
    | (g, .ok _) =>
      let cs := { cs with mls := some g }
      (c.setChannel name cs).persistMlsLastOp name cs

/-- The front of the three branches below: the channel is looked up by its id. -/
def withGroup (id : Bytes32) (handle : Bytes → ChannelWorker K M) : ChannelWorker K M :=
  match c.chanIdToName id with
  | none => c
  | some name =>
    if name = [] then c
    else
      match (c.entry name).mls with
      | none => c.setChannel name (c.entry name)
      | some _ => handle name

/-- The branch of `kMlsKeyPackage`: a proposal, and the commit that it is for. -/
def onMlsKeyPackage (id : Bytes32) (keyPackage leafSecret : Bytes) : ChannelWorker K M :=
  c.withGroup id fun name =>
    let (c, proposed) := c.mutateMls name (.proposeAdd keyPackage)
    if proposed then (c.mutateMls name (.commitPending leafSecret)).1 else c

/-- The branches of `kMlsCommit` and `kMlsProposal`, by the call that they make. -/
def onGroupMessage (id : Bytes32) (op : MlsOp) : ChannelWorker K M :=
  c.withGroup id fun name => (c.mutateMls name op).1

/-- The branches of `dispatch_envelope` for a payload. An id that is not 32 octets long ends each
of them. -/
def receive (senderPub : Bytes) (draws : PayloadDraws M) : ChannelPayload → ChannelWorker K M
  | .channelKey id name dist =>
    if sized : id.length = 32 then c.onChannelKey S senderPub ⟨id, sized⟩ name dist else c
  | .mlsInviteRequest id name =>
    if sized : id.length = 32 then c.onMlsInviteRequest S ⟨id, sized⟩ name draws.join else c
  | .mlsKeyPackage id keyPackage =>
    if sized : id.length = 32 then c.onMlsKeyPackage ⟨id, sized⟩ keyPackage draws.leafSecret else c
  | .mlsWelcome id name welcome =>
    if sized : id.length = 32 then c.onMlsWelcome ⟨id, sized⟩ name welcome else c
  | .mlsCommit id commit =>
    if sized : id.length = 32 then c.onGroupMessage ⟨id, sized⟩ (.applyCommit commit) else c
  | .mlsProposal id proposal =>
    if sized : id.length = 32 then c.onGroupMessage ⟨id, sized⟩ (.handleProposal proposal) else c
  | .other => c

/-! ### Envelopes of channels -/

/-- `application_decrypt`, which swallows what is thrown. -/
def applicationDecrypt (g : MlsGroup M) (message : Bytes) : MlsGroup M × Option Bytes :=
  match tlsGet M.mlsMessage message with
  | .error _ => (g, none)
  | .ok msg =>
    match S.unprotect g.state msg with
    | (s, .ok pt) => ({ g with state := s }, some pt)
    | (s, .error _) => ({ g with state := s }, none)

/-- The attempt to decrypt, by the cipher of the channel. -/
def openEnvelope (cs : Channel K M) (env : Envelope) : Channel K M × Option Bytes :=
  match cs.crypto, cs.mls with
  | .kMls, some g =>
    let (g, pt) := applicationDecrypt S g env.ciphertext
    ({ cs with mls := some g }, pt)
  | _, _ =>
    let (session, pt) := cs.session.decrypt S.senderKeys env.senderPubkey env.ciphertext env.aad
    ({ cs with session := session }, pt)

/-- The channel branch of `dispatch_envelope`. -/
def dispatchChannel (env : Envelope) : ChannelWorker K M :=
  match env.recipient with
  | .channelGroupId gid =>
    if env.senderPubkey.length ≠ 32 then c
    else if sized : gid.length = 32 then
      match c.chanIdToName ⟨gid, sized⟩ with
      | none => c
      | some name =>
        let cs := c.entry name
        let cs := { cs with session :=
          ChannelClient.tryInstall S.senderKeys cs.session env.senderPubkey cs.ownDist }
        if env.aadConsistent = false then c.setChannel name cs
        else
          let (cs, pt) := openEnvelope S cs env
          match pt with
          | none => c.setChannel name cs
          | some _ => (c.setChannel name cs).persistChanSession name cs
    else c
  | _ => c

/-! ### Restart -/

/-- `mls_group_load`: the seed, the records by their number, and the next number. -/
def mlsGroupLoad (store : ChannelTables K) (id : Bytes) : Option (Bytes × List Bytes × Nat) :=
  match store.mlsGroupState id with
  | none => none
  | some seed =>
    let rows := (store.mlsGroupLog id).mergeSort fun a b => a.1 ≤ b.1
    some (seed, rows.map (·.2), (rows.map (·.1 + 1)).foldl max 0)

/-- One pass of the restore loop. -/
def restoreChannel (store : ChannelTables K) (name : Bytes) (row : StoredChannel) (id : Bytes32) :
    Channel K M :=
  let (mls, nextSeq) :=
    match row.crypto with
    | .kSenderKeys => (none, 0)
    | .kMls =>
      match mlsGroupLoad store row.channelId with
      | none => (none, 0)
      | some (seed, ops, nextSeq) =>
        match MlsGroup.fromSeedAndLog M seed ops with
        | .error _ => (none, 0)
        | .ok g => (some g, nextSeq)
  let session := match store.sessions (ChannelClient.chanStateKey name) with
    | some saved => GroupSession.deserializeState saved
    | none => .new
  let session := (store.chanPeers row.channelId).foldl
    (fun s peerRow => ChannelClient.tryInstall S.senderKeys s peerRow.1 peerRow.2) session
  ⟨id, row.ownDist, session, true, row.crypto, mls, nextSeq, none⟩

/-- The client after a restart. Rows are visited in name order, so a later row wins the index entry
of its id. -/
def restart : ChannelWorker K M where
  channels name :=
    match c.store.chanState[name]? with
    | some row =>
      if sized : row.channelId.length = 32 then
        some (restoreChannel S c.store name row ⟨row.channelId, sized⟩)
      else none
    | none => none
  chanIdToName id :=
    (c.store.chanState.toList.reverse.find? fun entry => entry.2.channelId = id.1).map (·.1)
  store := c.store



end ChannelWorker

inductive ChannelEvent (K : Type) (M : Crypto.Mlspp) where
  | op (name : Bytes) (op : ChannelOp K M)
  | payload (senderPub : Bytes) (payload : ChannelPayload) (draws : PayloadDraws M)
  | envelope (env : Envelope)
  | restart

/-- What comes in from others. -/
def ChannelEvent.Inbound : ChannelEvent K M → Prop
  | .payload .. => True
  | .envelope _ => True
  | _ => False

namespace ChannelWorker

variable (S : ChannelSetup K M)

def handle (c : ChannelWorker K M) : ChannelEvent K M → ChannelWorker K M
  | .op name op => c.perform S name op
  | .payload senderPub payload draws => c.receive S senderPub draws payload
  | .envelope env => c.dispatchChannel S env
  | .restart => c.restart S

def Step (c : ChannelWorker K M) (event : ChannelEvent K M) (c' : ChannelWorker K M) : Prop :=
  c' = c.handle S event

end ChannelWorker

end FinBit.Desktop
