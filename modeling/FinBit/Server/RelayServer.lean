import Mathlib.Tactic.DeriveCountable
import FinBit.Lib.Ideal
import FinBit.Identity.UsernameLog
import FinBit.Server.Directory
import FinBit.Server.Relay

/-! # The relay's event loop

The relay is one thread: it accepts connections, handles the frames that arrive on
them one by one, and closes them. A connection is trusted only after it has returned a
signature over a challenge of this server; until then two kinds of frames are looked at
and all others are dropped.

What a handler writes to connections is returned beside the new state, each frame with
the reason why it is written. The reasons are not part of the program; they say which
of the code's calls of `enqueue_write` a frame came from.
-/

namespace FinBit.Server

open FinBit.Lib FinBit.Identity

/-! ### Frames -/

inductive Recipient where
  | userPubkey (key : Bytes)
  | channelGroupId (id : Bytes)
  | broadcastTopic (topic : Bytes)
  | notSet
  deriving DecidableEq, Countable

structure Envelope where
  envelopeId : Bytes
  timestampMs : UInt64
  senderPubkey : Bytes
  ciphertext : Bytes
  aad : Bytes
  aeadAlg : UInt32
  protocolVersion : UInt32
  signature : Bytes
  pqCt : Bytes
  recipient : Recipient
  deriving DecidableEq, Countable

structure PeerEnvelope where
  kind : Nat
  recipientPubkey : Bytes
  payload : Bytes
  senderPubkey : Bytes
  deriving DecidableEq, Countable

structure RoomMember where
  identityPubkey : Bytes
  hasAudio : Bool
  hasVideo : Bool
  uplinkClass : UInt32
  deriving DecidableEq, Countable

/-- The codes of a `ControlMessage` that the relay sends. -/
inductive ControlCode where
  | rateExceeded
  | usernameTaken
  deriving DecidableEq, Countable

/-- The bodies of a `Frame` that the relay reads or writes. A prekey bundle is of an
arbitrary type `B`: the relay keeps it and hands it out. -/
inductive Frame (B : Type) where
  | hello (identityPubkey username : Bytes)
  | helloAck (signature : Bytes)
  | keyUpload (bundle : B)
  | keyFetch (username : Bytes) (requestId : UInt64)
  | chanSubscribe (channelGroupId : Bytes)
  | chanUnsubscribe (channelGroupId : Bytes)
  | roomJoin (roomId : Bytes) (uplinkClass : UInt32)
  | roomLeave (roomId : Bytes)
  | envelope (env : Envelope)
  | peer (pe : PeerEnvelope)
  | usernameLookup (pubkey : Bytes)
  | registerReq (claimPubkey claimUsername : Bytes)
  | serverHello (accepted : Bool) (detail serverRandom : Bytes)
  | control (code : ControlCode) (detail inReplyToEnvelopeId : Bytes) (retryAfterMs : UInt64)
  | keyFetchResp (requestId : UInt64) (found : Bool) (bundle : Option B)
  | roomRoster (roomId : Bytes) (sframeEpoch : UInt32) (participants : List RoomMember)
  | usernameResp (pubkey username : Bytes) (found : Bool)
  | registerResp (accepted : Bool) (detail : Bytes)
  | other
  deriving Countable

/-- The two kinds of frames that are looked at before a connection is trusted. -/
def Frame.beforeAuth {B : Type} : Frame B → Bool
  | .hello _ _ => true
  | .helloAck _ => true
  | _ => false

/-- Why a frame is written. -/
inductive Cause where
  | reply
  | roster
  | channel
  | peer
  /-- A direct envelope for a user who is here. -/
  | direct (recipient : Bytes)
  /-- An envelope that has waited for a user. -/
  | drained (recipient : Bytes)
  deriving DecidableEq

structure Write (B : Type) where
  fd : Fd
  cause : Cause
  frame : Frame B

/-! ### State -/

inductive Transport where
  | tcp
  | ws
  deriving DecidableEq

/-- `Conn`, without the parsers that cut the stream into frames and without its write
buffer, which the server keeps beside it. -/
structure Conn where
  transport : Transport
  /-- From the last ClientHello, not yet trusted. -/
  claimedUserPub : Bytes
  /-- Filled only after the signature of a HelloAck has verified. -/
  boundUserPub : Bytes
  challenge : Bytes
  challengeIssued : Bool
  authenticated : Bool
  claimedUsername : Bytes
  roomUplinkClass : UInt32
  wantsClose : Bool

/-- A connection as it is accepted. -/
def Conn.accepted (transport : Transport) : Conn :=
  ⟨transport, [], [], List.replicate 32 0, false, false, [], 0, false⟩

/-- The prekey bundles of `Directory`, in memory and in `srv_prekey_bundles`. -/
structure Bundles where
  nameToBundle : Map Bytes Bytes
  store : Option (Map Bytes Bytes)

namespace Bundles

def putBundle (b : Bundles) (key blob : Bytes) : Bundles where
  nameToBundle := b.nameToBundle.insert key blob
  store := b.store.map (·.insert key blob)

def getBundle (b : Bundles) (key : Bytes) : Bundles × Option Bytes :=
  match b.nameToBundle.lookup key with
  | some blob => (b, some blob)
  | none =>
    match b.store.bind (·.lookup key) with
    | some loaded => ({ b with nameToBundle := b.nameToBundle.insert key loaded }, some loaded)
    | none => (b, none)

end Bundles

structure RelayServer (L : Type) where
  conns : Map Fd Conn
  writeBufs : Map Fd Bytes
  /-- The descriptors that the event loop watches. -/
  registered : List Fd
  relay : Relay
  dir : Directory
  bundles : Bundles
  limiter : L

/-- What the relay takes from outside. The rate limiter counts in floating point and
reads a clock; it enters as any function of its state. -/
structure RelayOutside (B L : Type) where
  frame : Codec (Frame B)
  envelope : Codec Envelope
  bundle : Codec B
  /-- `Identity::verify` of a public key, a message and a signature. -/
  verify : Bytes → Bytes → Bytes → Bool
  tryConsume : L → UInt64 → Bytes → Nat → L × Bool
  /-- The orders in which two hash maps are walked through. -/
  names : IterationOrder
  walk : Map Fd Conn → List (Sigma fun _ : Fd => Conn)
  walk_perm : ∀ m, (walk m).Perm m.entries

/-- Clocks and randomness of one step. -/
structure RelayDraws where
  challenge : Bytes
  nowMs : UInt64
  clock : UInt64

/-- A server as `run_relay` starts it, on the tables of its database if it has one. -/
def RelayServer.boot {L : Type} (db : Option (SrvOffline × SrvDirectory × Map Bytes Bytes))
    (limiter : L) : RelayServer L where
  conns := ∅
  writeBufs := ∅
  registered := []
  relay := Relay.fresh (db.map (·.1))
  dir := ⟨∅, db.map (·.2.1)⟩
  bundles := ⟨∅, db.map (·.2.2)⟩
  limiter := limiter

/-! ### Framing -/

/-- `encode_frame`; the length is cast to 32 bits. -/
def encodeFrame (payload : Bytes) : Bytes := beBytes 4 payload.length ++ payload

/-- `ws::build_server_binary_frame`. -/
def buildServerBinaryFrame (payload : Bytes) : Bytes :=
  if payload.length < 126 then [0x82, UInt8.ofNat payload.length] ++ payload
  else if payload.length ≤ 0xFFFF then [0x82, 126] ++ beBytes 2 payload.length ++ payload
  else [0x82, 127] ++ beBytes 8 payload.length ++ payload

/-! ### Handlers -/

def kIdentitySigBytes : Nat := 64

namespace RelayServer

section

variable {B L : Type} (O : RelayOutside B L)

def setConn (s : RelayServer L) (fd : Fd) (c : Conn) : RelayServer L :=
  { s with conns := s.conns.insert fd c }

/-- The roster of a room, for each of its members that is connected. -/
def broadcastRoomRoster (s : RelayServer L) (roomId : Bytes) : List (Write B) :=
  let fds := s.relay.roomMemberFds roomId
  let participants := (fds.filterMap s.conns.lookup).map fun c =>
    (⟨c.boundUserPub, true, false, c.roomUplinkClass⟩ : RoomMember)
  (fds.filter fun fd => (s.conns.lookup fd).isSome).map fun fd =>
    ⟨fd, .roster, .roomRoster roomId 1 participants⟩

/-- `case kHello`. -/
def onHello (s : RelayServer L) (fd : Fd) (c : Conn) (challenge identityPubkey username : Bytes) :
    RelayServer L × List (Write B) :=
  if c.authenticated || c.boundUserPub ≠ [] then (s.setConn fd { c with wantsClose := true }, [])
  else if identityPubkey.length ≠ 32 then
    (s.setConn fd { c with wantsClose := true },
      [⟨fd, .reply, .serverHello false (ascii "bad pubkey size") []⟩])
  else
    let c := { c with claimedUserPub := identityPubkey }
    if username ≠ [] && !isValidUsername username then
      (s.setConn fd { c with wantsClose := true },
        [⟨fd, .reply, .serverHello false (ascii ("username does not match the v0 grammar " ++
          "([a-z0-9._-], 3..32 bytes, no edge dots/dashes)")) []⟩])
    else
      (s.setConn fd { c with
          claimedUsername := username
          challenge := challenge
          challengeIssued := true
          authenticated := false },
        [⟨fd, .reply, .serverHello true (ascii "challenge") challenge⟩])

/-- The end of `case kHelloAck`, for a signature that has verified. -/
def signIn (s : RelayServer L) (fd : Fd) (c : Conn) : RelayServer L × List (Write B) :=
  let c := { c with boundUserPub := c.claimedUserPub, authenticated := true }
  let (relay, pending) := (s.relay.bind fd c.boundUserPub).drainOffline c.boundUserPub
  ({ s.setConn fd c with relay := relay },
    (pending.filterMap O.envelope.decode).map fun env =>
      ⟨fd, .drained c.boundUserPub, .envelope env⟩)

/-- `case kHelloAck`. -/
def onHelloAck (s : RelayServer L) (fd : Fd) (c : Conn) (signature : Bytes) :
    RelayServer L × List (Write B) :=
  if c.challengeIssued = false || c.claimedUserPub.length ≠ 32 then
    (s.setConn fd { c with wantsClose := true }, [])
  else if signature.length ≠ kIdentitySigBytes then
    (s.setConn fd { c with wantsClose := true }, [])
  else if O.verify c.claimedUserPub c.challenge signature = false then
    (s.setConn fd { c with wantsClose := true }, [])
  else if c.claimedUsername ≠ [] then
    let (dir, ok) := s.dir.registerUser c.claimedUsername (Span.ofVector c.claimedUserPub)
    let s := { s with dir := dir }
    if ok then s.signIn O fd c
    else
      (s.setConn fd { c with wantsClose := true },
        [⟨fd, .reply, .control .usernameTaken (ascii "username '" ++ c.claimedUsername ++
          ascii "' is registered to a different identity") [] 0⟩])
  else s.signIn O fd c

/-- `case kKeyFetch`. -/
def onKeyFetch (s : RelayServer L) (fd : Fd) (username : Bytes) (requestId : UInt64) :
    RelayServer L × List (Write B) :=
  let (dir, pub) := s.dir.resolve username
  let s := { s with dir := dir }
  match pub with
  | none => (s, [⟨fd, .reply, .keyFetchResp requestId false none⟩])
  | some pub =>
    let (bundles, blob) := s.bundles.getBundle pub
    let bundle := blob.bind O.bundle.decode
    ({ s with bundles := bundles },
      [⟨fd, .reply, .keyFetchResp requestId bundle.isSome bundle⟩])

/-- A sender that is claimed is replaced by the authenticated one; an empty one stays. -/
def stamped (c : Conn) (env : Envelope) : Envelope :=
  if c.boundUserPub ≠ [] ∧ env.senderPubkey ≠ [] then { env with senderPubkey := c.boundUserPub }
  else env

/-- The rate limit of a sender that is bound. -/
def consume (s : RelayServer L) (c : Conn) (clock : UInt64) (env : Envelope) :
    RelayServer L × Bool :=
  if c.boundUserPub ≠ [] then
    let (limiter, ok) := O.tryConsume s.limiter clock c.boundUserPub env.ciphertext.length
    ({ s with limiter := limiter }, ok)
  else (s, true)

/-- `case kEnvelope` with a channel as its recipient. -/
def onChannelEnvelope (s : RelayServer L) (fd : Fd) (c : Conn) (clock : UInt64) (env : Envelope)
    (groupId : Bytes) : RelayServer L × List (Write B) :=
  let (s, ok) := s.consume O c clock env
  if ok = false then (s, [])
  else if groupId.length ≠ 32 then (s, [])
  else
    let others := (s.relay.channelSubscribers groupId).filter fun sfd =>
      sfd ≠ fd ∧ (s.conns.lookup sfd).isSome
    (s, others.map fun sfd => ⟨sfd, .channel, .envelope (stamped c env)⟩)

/-- `case kEnvelope` with a user as its recipient. -/
def onDirectEnvelope (s : RelayServer L) (fd : Fd) (c : Conn) (draws : RelayDraws)
    (env : Envelope) (recipient : Bytes) : Except String (RelayServer L × List (Write B)) :=
  let (s, ok) := s.consume O c draws.clock env
  if ok = false then
    .ok (s, [⟨fd, .reply, .control .rateExceeded [] env.envelopeId 1000⟩])
  else
    match s.relay.lookup recipient with
    | some dst =>
      match s.conns.lookup dst with
      | some _ => .ok (s, [⟨dst, .direct recipient, .envelope (stamped c env)⟩])
      | none => .ok (s, [])
    | none =>
      match s.relay.enqueueOffline (Span.ofVector recipient) (O.envelope.encode (stamped c env))
          draws.nowMs with
      | .error e => .error e
      | .ok relay => .ok ({ s with relay := relay }, [])

/-- `case kPeer`. -/
def onPeer (s : RelayServer L) (fd : Fd) (c : Conn) (pe : PeerEnvelope) : List (Write B) :=
  let pe := { pe with senderPubkey := c.boundUserPub }
  let others := (O.walk s.conns).filter fun entry => entry.1 ≠ fd && entry.2.authenticated
  if pe.recipientPubkey = [] then
    others.map fun entry => ⟨entry.1, .peer, .peer pe⟩
  else if pe.recipientPubkey.length = 32 then
    match others.find? fun entry => entry.2.boundUserPub = pe.recipientPubkey with
    | some entry => [⟨entry.1, .peer, .peer pe⟩]
    | none => []
  else []

/-- `case kUsernameLookup`. -/
def onUsernameLookup (s : RelayServer L) (fd : Fd) (pubkey : Bytes) :
    RelayServer L × List (Write B) :=
  if pubkey.length = 32 then
    let (dir, name) := s.dir.reverseResolve O.names (Span.of pubkey)
    ({ s with dir := dir },
      [⟨fd, .reply, .usernameResp pubkey (name.getD []) name.isSome⟩])
  else (s, [⟨fd, .reply, .usernameResp pubkey [] false⟩])

/-- `case kRegisterReq`. -/
def onRegisterReq (s : RelayServer L) (fd : Fd) (c : Conn) (claimPubkey claimUsername : Bytes) :
    RelayServer L × List (Write B) :=
  if claimPubkey ≠ c.boundUserPub then
    (s, [⟨fd, .reply, .registerResp false (ascii "claim pubkey must equal authenticated pubkey")⟩])
  else
    let (dir, ok) := s.dir.registerUser claimUsername (Span.ofVector c.boundUserPub)
    ({ s with dir := dir },
      [⟨fd, .reply, .registerResp ok (ascii (if ok then "ok" else "username taken"))⟩])

/-- The `switch` of `handle_frame`. -/
def dispatch (s : RelayServer L) (fd : Fd) (c : Conn) (draws : RelayDraws) :
    Frame B → Except String (RelayServer L × List (Write B))
  | .hello identityPubkey username =>
    .ok (s.onHello fd c draws.challenge identityPubkey username)
  | .helloAck signature => .ok (s.onHelloAck O fd c signature)
  | .keyUpload bundle =>
    .ok ({ s with bundles := s.bundles.putBundle c.boundUserPub (O.bundle.encode bundle) }, [])
  | .keyFetch username requestId => .ok (s.onKeyFetch O fd username requestId)
  | .chanSubscribe groupId =>
    if groupId.length = 32 then .ok ({ s with relay := s.relay.channelSubscribe fd groupId }, [])
    else .ok (s, [])
  | .chanUnsubscribe groupId =>
    if groupId.length = 32 then .ok ({ s with relay := s.relay.channelUnsubscribe fd groupId }, [])
    else .ok (s, [])
  | .roomJoin roomId uplinkClass =>
    if roomId.length ≠ 32 then .ok (s, [])
    else
      let s := s.setConn fd { c with roomUplinkClass := uplinkClass }
      let s := { s with relay := s.relay.roomJoin fd roomId }
      .ok (s, s.broadcastRoomRoster roomId)
  | .roomLeave roomId =>
    if roomId.length ≠ 32 then .ok (s, [])
    else
      let s := { s with relay := s.relay.roomLeave fd roomId }
      .ok (s, s.broadcastRoomRoster roomId)
  | .envelope env =>
    match env.recipient with
    | .channelGroupId groupId => .ok (s.onChannelEnvelope O fd c draws.clock env groupId)
    | .userPubkey recipient => s.onDirectEnvelope O fd c draws env recipient
    | _ => .ok (s, [])
  | .peer pe => .ok (s, s.onPeer O fd c pe)
  | .usernameLookup pubkey => .ok (s.onUsernameLookup O fd pubkey)
  | .registerReq claimPubkey claimUsername =>
    .ok (s.onRegisterReq fd c claimPubkey claimUsername)
  | _ => .ok (s, [])

/-- `enqueue_write`. `mod_fd` throws for a descriptor that the loop does not watch. -/
def enqueueWrite (s : RelayServer L) (w : Write B) : Except String (RelayServer L) :=
  match s.conns.lookup w.fd with
  | none => .ok s
  | some c =>
    let payload := O.frame.encode w.frame
    let framed := match c.transport with
      | .tcp => encodeFrame payload
      | .ws => buildServerBinaryFrame payload
    if w.fd ∈ s.registered then
      .ok { s with
        writeBufs := s.writeBufs.insert w.fd ((s.writeBufs.lookup w.fd).getD [] ++ framed) }
    else .error "epoll_ctl(mod): No such file or directory"

def handleFrame (s : RelayServer L) (fd : Fd) (c : Conn) (draws : RelayDraws) (bytes : Bytes) :
    Except String (RelayServer L × List (Write B)) :=
  match O.frame.decode bytes with
  | none => .ok (s.setConn fd { c with wantsClose := true }, [])
  | some f =>
    if c.authenticated = false ∧ f.beforeAuth = false then .ok (s, [])
    else
      match s.dispatch O fd c draws f with
      | .error e => .error e
      | .ok (s, writes) =>
        match writes.foldlM (enqueueWrite O) s with
        | .error e => .error e
        | .ok s => .ok (s, writes)

/-- `close_conn`. What is left in the write buffer is offered to the socket once; the
rooms that the connection was in get a new roster. -/
def closeConn (s : RelayServer L) (fd : Fd) : Except String (RelayServer L × List (Write B)) :=
  let roomsLeft := s.relay.roomMemberRooms fd
  let s := { s with
    relay := ((s.relay.unbind fd).unbindAllChannels fd).unbindAllRooms fd
    registered := s.registered.filter (· ≠ fd)
    conns := s.conns.erase fd
    writeBufs := s.writeBufs.erase fd }
  let writes := roomsLeft.flatMap s.broadcastRoomRoster
  match writes.foldlM (enqueueWrite O) s with
  | .error e => .error e
  | .ok s => .ok (s, writes)

end

end RelayServer

/-! ### Events -/

/-- What the event loop reacts to. -/
inductive RelayEvent where
  | accept (fd : Fd) (transport : Transport)
  | frame (fd : Fd) (bytes : Bytes) (draws : RelayDraws)
  | closed (fd : Fd)
  /-- The socket has taken some bytes of the write buffer. -/
  | flushed (fd : Fd) (count : Nat)

namespace RelayServer

variable {B L : Type} (O : RelayOutside B L)

def step (s : RelayServer L) : RelayEvent → Except String (RelayServer L × List (Write B))
  | .accept fd transport =>
    -- `emplace` keeps what is there
    let conns := if (s.conns.lookup fd).isSome then s.conns
      else s.conns.insert fd (Conn.accepted transport)
    .ok ({ s with conns := conns, registered := Membership.note fd s.registered }, [])
  | .frame fd bytes draws =>
    match s.conns.lookup fd with
    | none => .ok (s, [])
    | some c =>
      match s.handleFrame O fd c draws bytes with
      | .error e => .error e
      | .ok (s, writes) =>
        if ((s.conns.lookup fd).map (·.wantsClose)).getD false then
          match s.closeConn O fd with
          | .error e => .error e
          | .ok (s, goodbyes) => .ok (s, writes ++ goodbyes)
        else .ok (s, writes)
  | .closed fd =>
    match s.conns.lookup fd with
    | none => .ok (s, [])
    | some _ => s.closeConn O fd
  | .flushed fd count =>
    match s.conns.lookup fd with
    | none => .ok (s, [])
    | some _ =>
      .ok ({ s with
        writeBufs := s.writeBufs.insert fd (((s.writeBufs.lookup fd).getD []).drop count) }, [])

end RelayServer

end FinBit.Server
