import FinBit.Crypto.SenderKeys
import FinBit.Desktop.Envelope
import FinBit.Lib.Runs

/-! # Channels of the desktop client

The part of the desktop client that keeps SenderKeys channels: the in-memory
channel states with their index by channel id, the tables they are persisted in,
the channel branch of `dispatch_envelope`, the in-band invite and the loop that
restores channels after a restart.

The receiving chain of a sender is written in four places: by the invite, by
every envelope that arrives (`lazyInstall`), from the saved session, and by the
persisted distributions that are installed on top of it.
-/

namespace FinBit.Desktop

open FinBit.Lib FinBit.Crypto Std

variable {K : Type}

/-! ### State -/

structure ChannelState (K : Type) where
  id : Bytes
  ownDist : Bytes
  session : GroupSession K

/-- A default-constructed `ChannelState`. -/
def ChannelState.new : ChannelState K := ⟨List.replicate 32 0, [], .new⟩

/-- A row of `chan_state` apart from its name. -/
structure ChannelRow where
  channelId : Bytes
  ownDist : Bytes

/-- A row of `chan_inbox`. -/
structure InboxRow where
  channelId : Bytes
  peerPub : Bytes
  body : Bytes
  timestampMs : UInt64

/-- The tables of the store that hold channels. `chanState` is read in name
order, `chanPeers` by channel id; `sessions` is keyed by the whole key string. -/
structure ChannelStore (K : Type) where
  chanState : ExtTreeMap Bytes ChannelRow
  sessions : Bytes → Option (SavedState K)
  chanPeers : Bytes → List (Bytes × Bytes)
  chanInbox : List InboxRow

structure ChannelClient (K : Type) where
  channels : Bytes → ChannelState K
  chanIdToName : Bytes → Option Bytes
  store : ChannelStore K

namespace ChannelClient

/-- A client that has no channel yet. -/
def new : ChannelClient K where
  channels _ := .new
  chanIdToName _ := none
  store := ⟨∅, fun _ => none, fun _ => [], []⟩

def setChannel (c : ChannelClient K) (name : Bytes) (cs : ChannelState K) : ChannelClient K :=
  { c with channels := Function.update c.channels name cs }

/-! ### Persistence -/

def chanStateKey (name : Bytes) : Bytes := ascii "__chanstate__:" ++ name

/-- `persist_chan_meta`; the name is bound as a C string. -/
def persistChanMeta (c : ChannelClient K) (name : Bytes) (cs : ChannelState K) :
    ChannelClient K :=
  { c with store := { c.store with
      chanState := c.store.chanState.insert (cstr name).val ⟨cs.id, cs.ownDist⟩ } }

/-- `persist_chan_session`. -/
def persistChanSession (c : ChannelClient K) (name : Bytes) (cs : ChannelState K) :
    ChannelClient K :=
  { c with store := { c.store with
      sessions := Function.update c.store.sessions (chanStateKey name)
        (some cs.session.serializeState) } }

/-- `persist_chan_peer_dist`: an upsert on (channel id, peer). -/
def persistChanPeerDist (c : ChannelClient K) (cs : ChannelState K) (peerPub peerDist : Bytes) :
    ChannelClient K :=
  let rows := c.store.chanPeers cs.id
  let rows' :=
    if rows.any (·.1 = peerPub) then
      rows.map fun row => if row.1 = peerPub then (peerPub, peerDist) else row
    else rows ++ [(peerPub, peerDist)]
  { c with store := { c.store with chanPeers := Function.update c.store.chanPeers cs.id rows' } }

def chanAppendInbox (c : ChannelClient K) (row : InboxRow) : ChannelClient K :=
  { c with store := { c.store with chanInbox := c.store.chanInbox ++ [row] } }

/-! ### Receiving -/

section

variable (P : SenderKeys K)

/-- `install_peer_distribution` with its throw swallowed. -/
def tryInstall (session : GroupSession K) (peer dist : Bytes) : GroupSession K :=
  match session.installPeerDistribution P peer dist with
  | .ok installed => installed
  | .error _ => session

/-- The installation that stands before every channel decrypt: the channel's
`own_dist` is installed for whoever sent the envelope. -/
def lazyInstall (cs : ChannelState K) (senderPub : Bytes) : GroupSession K :=
  tryInstall P cs.session senderPub cs.ownDist

/-- What follows a decrypt attempt that left the channel in state `cs`: a
plaintext is persisted with the advanced chain, appended to the inbox and
signalled. The second component is what is surfaced. -/
def surface (c : ChannelClient K) (name : Bytes) (cs : ChannelState K) (senderPub : Bytes)
    (rxMs : UInt64) : Option Bytes → ChannelClient K × Option Bytes
  | none => (c.setChannel name cs, none)
  | some pt =>
    (((c.setChannel name cs).persistChanSession name cs).chanAppendInbox
      ⟨cs.id, senderPub, pt, rxMs⟩, some pt)

/-- The channel branch of `dispatch_envelope` on a SenderKeys channel. -/
def dispatchChannel (c : ChannelClient K) (env : Envelope) (rxMs : UInt64) :
    ChannelClient K × Option Bytes :=
  match env.recipient with
  | .channelGroupId gid =>
    -- Without a sender only a user envelope is looked at any further.
    if env.senderPubkey.length ≠ 32 then (c, none)
    else if gid.length ≠ 32 then (c, none)
    else
      match c.chanIdToName gid with
      | none => (c, none)
      | some name =>
        let cs := c.channels name
        let installed := { cs with session := lazyInstall P cs env.senderPubkey }
        if ¬ env.aadConsistent then (c.setChannel name installed, none)
        else
          let (session, pt) := installed.session.decrypt P env.senderPubkey env.ciphertext env.aad
          c.surface name { cs with session } env.senderPubkey rxMs pt
  | _ => (c, none)

/-- The `kChannelKey` payload of a DM from `senderPub`: an in-band invite. -/
def acceptChannelKey (c : ChannelClient K) (senderPub channelId channelName dist : Bytes) :
    ChannelClient K :=
  if channelId.length ≠ 32 then c
  else
    let cs := { c.channels channelName with id := channelId, ownDist := dist }
    let cs := { cs with session := lazyInstall P cs senderPub }
    let c := { c.setChannel channelName cs with
      chanIdToName := Function.update c.chanIdToName channelId (some channelName) }
    ((c.persistChanMeta channelName cs).persistChanPeerDist cs senderPub dist).persistChanSession
      channelName cs

/-! ### Sending -/

/-- What the `kSend` operation draws or reads for one message. -/
structure Outgoing where
  envelopeId : Bytes
  timestampMs : UInt64
  text : Bytes

/-- The envelope that `kSend` builds on a SenderKeys channel, with the session
advanced by its encryption. -/
def channelEnvelope (session : GroupSession K) (senderPub channelId : Bytes) (out : Outgoing) :
    Except String (GroupSession K × Envelope) :=
  let aad := envelopeAadBytes out.envelopeId out.timestampMs
  (session.encrypt P out.text aad).map fun (session', inner) =>
    (session', {
      envelopeId := out.envelopeId
      timestampMs := out.timestampMs
      aad
      recipient := .channelGroupId channelId
      senderPubkey := senderPub
      ciphertext := inner
      pqCt := [] })

/-! ### Restart -/

/-- One pass of the restore loop: the saved session, then every persisted
distribution on top of it. -/
def restoreChannel (store : ChannelStore K) (name : Bytes) (row : ChannelRow) :
    ChannelState K :=
  let session := match store.sessions (chanStateKey name) with
    | some saved => GroupSession.deserializeState saved
    | none => .new
  ⟨row.channelId, row.ownDist, (store.chanPeers row.channelId).foldl
    (fun s peerRow => tryInstall P s peerRow.1 peerRow.2) session⟩

/-- The client after a restart: what the restore loop builds from the store. Rows
are visited in name order, so a later row wins the index entry of its id. -/
def restart (c : ChannelClient K) : ChannelClient K where
  channels name :=
    match c.store.chanState[name]? with
    | some row =>
      if row.channelId.length = 32 then restoreChannel P c.store name row else .new
    | none => .new
  chanIdToName id :=
    ((c.store.chanState.toList.filter (·.2.channelId.length = 32)).reverse.find?
      (·.2.channelId = id)).map (·.1)
  store := c.store

end

/-! ### What an envelope can do -/

section

variable {P : SenderKeys K}

/-- A session that differs from another one at most in the chain of one peer. -/
def SameBut (peer : Bytes) (s s' : GroupSession K) : Prop :=
  s'.own = s.own ∧ ∀ q, q ≠ peer → s'.peers q = s.peers q

theorem lazyInstall_sameBut (cs : ChannelState K) (sender : Bytes) :
    SameBut sender cs.session (lazyInstall P cs sender) := by
  simp only [lazyInstall, tryInstall, GroupSession.installPeerDistribution]
  cases PerPeerChain.ofDistribution P cs.ownDist with
  | error => exact ⟨rfl, fun _ _ => rfl⟩
  | ok chain => exact ⟨rfl, fun q ne => Function.update_of_ne ne _ _⟩

theorem decrypt_sameBut (s : GroupSession K) (peer msg aad : Bytes) :
    SameBut peer s (s.decrypt P peer msg aad).1 := by
  unfold GroupSession.decrypt
  split
  · exact ⟨rfl, fun _ _ => rfl⟩
  · split
    · exact ⟨rfl, fun _ _ => rfl⟩
    · split
      · exact ⟨rfl, fun _ _ => rfl⟩
      · split
        · exact ⟨rfl, fun _ _ => rfl⟩
        · exact ⟨rfl, fun q ne => Function.update_of_ne ne _ _⟩

/-- The name of the channel that an envelope is addressed to. -/
def target (c : ChannelClient K) (env : Envelope) : Option Bytes :=
  match env.recipient with
  | .channelGroupId gid => c.chanIdToName gid
  | _ => none

/-- An envelope is ignored, or it changes the sender's chain of one channel and
goes on to `surface`. -/
theorem dispatch_cases (c : ChannelClient K) (env : Envelope) (rxMs : UInt64) :
    c.dispatchChannel P env rxMs = (c, none) ∨
    ∃ name session pt, c.target env = some name ∧
      SameBut env.senderPubkey (c.channels name).session session ∧
      c.dispatchChannel P env rxMs =
        c.surface name { c.channels name with session } env.senderPubkey rxMs pt := by
  unfold dispatchChannel
  split
  next gid addressed =>
    split
    · exact .inl rfl
    · split
      · exact .inl rfl
      · split
        · exact .inl rfl
        next name found =>
          have named : c.target env = some name := by simp [target, addressed, found]
          have installed := lazyInstall_sameBut (P := P) (c.channels name) env.senderPubkey
          split
          · exact .inr ⟨name, _, none, named, installed, rfl⟩
          · have opened := decrypt_sameBut (P := P)
              (lazyInstall P (c.channels name) env.senderPubkey) env.senderPubkey
              env.ciphertext env.aad
            refine .inr ⟨name, _, _, named, ⟨opened.1.trans installed.1, fun q ne => ?_⟩, rfl⟩
            rw [opened.2 q ne, installed.2 q ne]
  · exact .inl rfl

/-- A stored channel comes back from its row. -/
theorem restart_channel {c : ChannelClient K} {name : Bytes} {row : ChannelRow}
    (stored : c.store.chanState[name]? = some row) (size : row.channelId.length = 32) :
    (c.restart P).channels name = restoreChannel P c.store name row := by
  simp only [restart, stored, size, if_true]

theorem foldl_tryInstall_own (rows : List (Bytes × Bytes)) (session : GroupSession K) :
    (rows.foldl (fun s row => tryInstall P s row.1 row.2) session).own = session.own := by
  induction rows generalizing session with
  | nil => rfl
  | cons row rest ih =>
    rw [List.foldl_cons, ih]
    simp only [tryInstall, GroupSession.installPeerDistribution]
    cases PerPeerChain.ofDistribution P row.2 <;> rfl

theorem surface_frame (c : ChannelClient K) (name : Bytes) (cs : ChannelState K)
    (sender : Bytes) (rxMs : UInt64) (pt : Option Bytes) :
    (c.surface name cs sender rxMs pt).1.channels = Function.update c.channels name cs ∧
    (c.surface name cs sender rxMs pt).1.chanIdToName = c.chanIdToName ∧
    (c.surface name cs sender rxMs pt).1.store.chanState = c.store.chanState ∧
    (c.surface name cs sender rxMs pt).1.store.chanPeers = c.store.chanPeers ∧
    ((c.surface name cs sender rxMs pt).1.store.sessions = c.store.sessions ∨
      (c.surface name cs sender rxMs pt).1.store.sessions = Function.update c.store.sessions
        (chanStateKey name) (some cs.session.serializeState)) := by
  cases pt with
  | none => exact ⟨rfl, rfl, rfl, rfl, .inl rfl⟩
  | some pt => exact ⟨rfl, rfl, rfl, rfl, .inr rfl⟩

end

end ChannelClient

end FinBit.Desktop
