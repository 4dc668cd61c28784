import FinBit.Desktop.SendQueue
import FinBit.P2P.PeerNet
import FinBit.Server.Routing
import FinBit.Store.Rekey

/-! # Sent messages

What the loop over the queued sends does with a message once there is a session for it. Three ways
are tried: a direct connection to the recipient, a deposit with one of its friend relays, and the
relay server. The first one falls back to a peer envelope over the relay server, which keeps
nothing for a recipient who is away. Only the last one writes to the outbox.

`SendQueue.sendOne` takes from outside whether a message goes past the server. Here that is computed.
-/

namespace FinBit.Desktop

open FinBit.Lib FinBit.Crypto FinBit.P2P FinBit.Store Std

variable {K B L : Type}

/-! ### Envelopes on the wire -/

abbrev kAes256Gcm : UInt32 := 1
abbrev kProtocolVersion : UInt32 := 1

def Recipient.wire : Recipient → Server.Recipient
  | .userPubkey key => .userPubkey key
  | .channelGroupId id => .channelGroupId id
  | .notSet => .notSet

/-- The envelope with the fields that are the same in all that the client sends. -/
def Envelope.wire (env : Envelope) : Server.Envelope where
  envelopeId := env.envelopeId
  timestampMs := env.timestampMs
  senderPubkey := env.senderPubkey
  ciphertext := env.ciphertext
  aad := env.aad
  aeadAlg := kAes256Gcm
  protocolVersion := kProtocolVersion
  signature := []
  pqCt := env.pqCt
  recipient := env.recipient.wire

/-- An id as `randombytes_buf` fills it. -/
def EnvelopeId := { b : Bytes // b.length = 16 }

/-! ### State -/

/-- The DHT and PeerNet, where both are there. -/
structure Overlay (B : Type) where
  peerNet : PeerNet (Server.Frame B)
  /-- What the DHT has of a publisher. -/
  records : Bytes → List ProviderRecord

structure DmSender (K B : Type) where
  sessions : Sessions K
  overlay : Option (Overlay B)
  store : Option SqliteStore

/-- What one send meets outside the program. -/
structure SendLuck where
  /-- `blocking_send` goes through. -/
  socket : Bool
  /-- The ids and times of the envelopes that are built for the overlay. -/
  built : Nat → EnvelopeId × UInt64
  /-- Those of the one for the relay server. -/
  own : EnvelopeId × UInt64
  outboxDraws : Store.Draws
  nameDraws : Store.Draws
  learnedMs : Int64

/-- A message that is logged as sent. -/
structure SentDm where
  envelope : Envelope
  text : Bytes

/-- What becomes of one send, and what is written to the relay server. -/
structure SendReport (B : Type) where
  sent : Option SentDm
  toServer : List (Server.Frame B)

section

variable (P : DmCrypto K) (O : Server.RelayOutside B L) (C : StoreCrypto)
  (publicKey : Bytes) (sign : Bytes → Bytes)

/-! ### Past the relay server -/

/-- `build_envelope_bytes`, before the bytes are made: what is thrown gives nothing. -/
def buildEnvelope (s : Session K) (draw : EnvelopeId × UInt64) (pt : Bytes) :
    Option (Session K × Envelope) :=
  s.rat.bind fun rat => (sendDm P publicKey sign s rat draw.1.val draw.2 pt).toOption

def payloadOf (env : Envelope) : Bytes := O.envelope.encode env.wire

/-- `wrap_peer_send` on a client with PeerNet. What `blocking_send` throws is caught. -/
def wrapPeerSend (socket : Bool) (net : PeerNet (Server.Frame B)) (kind : Nat) (peer : PeerInfo)
    (payload : Bytes) : PeerNet (Server.Frame B) × List (Server.Frame B) :=
  let recipient := if peer.pubkey.length = 32 then peer.pubkey else []
  let wire := .peer ⟨kind, recipient, payload, publicKey⟩
  let (net, sentDirect) := if isWss peer.addr then net.send peer wire else (net, false)
  (net, if sentDirect = false ∧ socket = true then [wire] else [])

/-- The first address that PeerNet may dial. -/
def firstWss (records : List ProviderRecord) : Option Bytes :=
  (records.flatMap (·.addresses)).find? isWss

/-- The friend relays of the first record that names some. -/
def relayPubs (records : List ProviderRecord) : List Bytes :=
  ((records.map fun r => r.offlineRelays.filter (·.length = 32)).find? (· ≠ [])).getD []

/-- The loop over the friend relays. Every relay with an address gets an envelope of its own. -/
def depositAt (luck : SendLuck) (records : Bytes → List ProviderRecord) (pt : Bytes) :
    List Bytes → Nat → Session K → PeerNet (Server.Frame B) →
      Session K × PeerNet (Server.Frame B) × Option Envelope
  | [], _, s, net => (s, net, none)
  | relay :: rest, n, s, net =>
    match firstWss (records relay) with
    | none => depositAt luck records pt rest n s net
    | some addr =>
      match buildEnvelope P publicKey sign s (luck.built n) pt with
      | none => depositAt luck records pt rest (n + 1) s net
      | some (s, env) =>
        match net.send ⟨.zero, addr, relay⟩ (.peer ⟨4, s.peerPub, payloadOf O env, publicKey⟩) with
        | (net, true) => (s, net, some env)
        | (net, false) => depositAt luck records pt rest (n + 1) s net

/-- The direct path and the deposit. A message counts as sent once `wrap_peer_send` has returned. -/
def sendServerless (luck : SendLuck) (o : Overlay B) (s : Session K) (pt : Bytes) :
    Session K × Overlay B × SendReport B × Option Envelope :=
  let records := o.records s.peerPub
  let direct := (firstWss records).bind fun addr =>
    (buildEnvelope P publicKey sign s (luck.built 0) pt).map (addr, ·)
  match direct with
  | some (addr, s, env) =>
    let (net, toServer) :=
      wrapPeerSend publicKey luck.socket o.peerNet 3 ⟨.zero, addr, s.peerPub⟩ (payloadOf O env)
    (s, { o with peerNet := net }, ⟨none, toServer⟩, some env)
  | none =>
    let (s, net, env) := depositAt P O publicKey sign luck o.records pt (relayPubs records) 1 s o.peerNet
    (s, { o with peerNet := net }, ⟨none, []⟩, env)

/-! ### Over the relay server -/

/-- The entry of the outbox, and the name for the list of conversations. What is protocol and not
chat has neither. The pin of the key in between is left to `detect_pubkey_change`. -/
def recordSent (luck : SendLuck) (store : SqliteStore) (s : PendingSend) (peerPub : Bytes)
    (env : Envelope) : SqliteStore :=
  if s.text = [] ∧ s.persistBlob = [] then store
  else
    let body := if s.persistBlob = [] then s.text else s.persistBlob
    let store := store.appendOutbox C luck.outboxDraws (.of env.envelopeId) (.of peerPub)
      (.ofVector body) env.timestampMs
    store.cachePeerName C luck.nameDraws luck.learnedMs (.of peerPub) s.peer

namespace DmSender

/-- The end of a pass, on a session with a ratchet. What throws ends the loop. -/
def sendOverServer (q : DmSender K B) (luck : SendLuck) (s : PendingSend) (sess : Session K)
    (pt : Bytes) : DmSender K B × SendReport B :=
  match buildEnvelope P publicKey sign sess luck.own pt with
  | none => (q, ⟨none, []⟩)
  | some (sess, env) =>
    let q := { q with sessions := q.sessions.insert s.peer sess }
    if luck.socket = false then (q, ⟨none, []⟩)
    else
      ({ q with store := q.store.map fun store => recordSent C luck store s sess.peerPub env },
        ⟨some ⟨env, s.text⟩, [.envelope env.wire]⟩)

/-- One pass of the loop over `to_send`. A send without a ratchet is not sent in it, and left to
`SendQueue.sendOne`; so are the look-ups in the DHT for later sends. -/
def sendPending (fingerprint : Bytes → Bytes) (q : DmSender K B) (luck : SendLuck)
    (s : PendingSend) : DmSender K B × SendReport B :=
  let s := rebindFingerprint fingerprint q.sessions s
  match q.sessions[s.peer]?.filter (·.rat.isSome) with
  | none => (q, ⟨none, []⟩)
  | some sess =>
    let pt := if s.prePackedPayload = [] then packTextPayload P s.text else s.prePackedPayload
    match q.overlay with
    | none => q.sendOverServer P C publicKey sign luck s sess pt
    | some o =>
      let (sess, o, report, sent) := sendServerless P O publicKey sign luck o sess pt
      let q := { q with sessions := q.sessions.insert s.peer sess, overlay := some o }
      match sent with
      | some env => (q, { report with sent := some ⟨env, s.text⟩ })
      | none => q.sendOverServer P C publicKey sign luck s sess pt

end DmSender

end

/-! ### What a sent message should be -/

section

variable (O : Server.RelayOutside B L) (C : StoreCrypto)

/-- The relay server, if it handles the frame, keeps the envelope for a recipient who is away and
whose sender has not sent too much. -/
def KeptForAbsent (frame : Server.Frame B) (recipient : Bytes) (env : Envelope) : Prop :=
  ∀ (s s' : Server.RelayServer L) (fd : Server.Fd) (c : Server.Conn) (draws : Server.RelayDraws)
    (writes : List (Server.Write B)), s.relay.lookup recipient = none →
    (s.consume O c draws.clock env.wire).2 = true → s.dispatch O fd c draws frame = .ok (s', writes) →
    O.envelope.encode (Server.RelayServer.stamped c env.wire) ∈ (s'.relay.drainOffline recipient).2

/-- The envelope is on a connection of the recipient or of one of its friend relays, or in a frame
that the relay server keeps. -/
def OnItsWay (overlay : Option (Overlay B)) (toServer : List (Server.Frame B)) (env : Envelope) :
    Prop :=
  ∃ recipient, env.recipient = .userPubkey recipient ∧
    ((∃ o pe holder, overlay = some o ∧ pe.payload = payloadOf O env ∧
        o.peerNet.Carries holder (.peer pe) ∧
        (holder = recipient ∨ holder ∈ relayPubs (o.records recipient))) ∨
      ∃ frame ∈ toServer, KeptForAbsent O frame recipient env)

/-- A row of the outbox that is about this message. -/
structure SentDm.RowOf (d : SentDm) (key : Option Key) (row : Sql.Row (Option Bytes) MessageInfo Bytes) :
    Prop where
  id : row.key = some d.envelope.envelopeId
  peer : d.envelope.recipient = .userPubkey row.info.peerPub
  time : row.info.tsMs = d.envelope.timestampMs.toInt64
  stays : row.info.expiresAtMs = 0
  text : openValue C key row.value d.envelope.envelopeId = some d.text

/-- The outbox has exactly one row for the message. -/
def SentDm.ListedOnce (d : SentDm) (store : SqliteStore) : Prop :=
  ∃ row, store.db.outbox.rows.filter (fun r => r.key = some d.envelope.envelopeId) = [row] ∧
    d.RowOf C (store.key (·.outbox)) row

/-- The send has added one row to the outbox, that of the message. -/
def SentDm.Added (d : SentDm) (before after : Option SqliteStore) : Prop :=
  ∃ store store' row, before = some store ∧ after = some store' ∧
    store'.db.outbox.rows = store.db.outbox.rows ++ [row] ∧ d.RowOf C (store'.key (·.outbox)) row

/-- No address at which PeerNet could reach the peer, and none for one of its friend relays. -/
def Overlay.NoRoute (o : Overlay B) (peerPub : Bytes) : Prop :=
  firstWss (o.records peerPub) = none ∧
    ∀ relay ∈ relayPubs (o.records peerPub), ∀ addr, firstWss (o.records relay) = some addr →
      parseWssAddr addr = none

end

namespace DmSender

/-- The text is there, the store is open and the id not in its outbox, and the message cannot go
past the relay server. -/
def Recorded (fingerprint : Bytes → Bytes) (q : DmSender K B) (luck : SendLuck) (s : PendingSend) :
    Prop :=
  s.text ≠ [] ∧
    (∃ store, q.store = some store ∧ store.db.outbox.has (some luck.own.1.val) = false) ∧
    ∀ o sess, q.overlay = some o →
      q.sessions[(rebindFingerprint fingerprint q.sessions s).peer]? = some sess → o.NoRoute sess.peerPub

end DmSender

/-! ### Building an envelope -/

/-- The ratchet has a sending chain. -/
def Session.Ready (s : Session K) : Prop := ∃ rat, s.rat = some rat ∧ rat.haveCks = true

section

variable {P : DmCrypto K} {publicKey : Bytes} {sign : Bytes → Bytes}

theorem buildEnvelope_some {s s' : Session K} {draw : EnvelopeId × UInt64} {pt : Bytes}
    {env : Envelope} (built : buildEnvelope P publicKey sign s draw pt = some (s', env)) :
    s.Ready ∧ s'.Ready ∧ s'.peerPub = s.peerPub ∧ env.envelopeId = draw.1.val ∧
      env.timestampMs = draw.2 ∧ env.recipient = .userPubkey s.peerPub := by
  obtain ⟨rat, has, built⟩ := Option.bind_eq_some_iff.mp built
  rw [toOption_eq_some] at built
  simp only [sendDm] at built
  split at built
  · cases built
  next rat' inner encrypted =>
    obtain ⟨rfl, rfl⟩ := Prod.mk.inj (Except.ok.inj built)
    rw [Ratchet.encrypt, ite_error_eq_ok, Bool.not_eq_false] at encrypted
    obtain ⟨ready, moved⟩ := encrypted
    obtain ⟨rfl, -⟩ := Prod.mk.inj (Except.ok.inj moved)
    exact ⟨⟨rat, has, ready⟩, ⟨_, rfl, ready⟩, rfl, rfl, rfl, rfl⟩

variable (P publicKey sign)

theorem buildEnvelope_ready {s : Session K} (ready : s.Ready) (draw : EnvelopeId × UInt64)
    (pt : Bytes) : ∃ s' env, buildEnvelope P publicKey sign s draw pt = some (s', env) := by
  obtain ⟨rat, has, can⟩ := ready
  simp only [buildEnvelope, has, Option.bind_some, sendDm, Ratchet.encrypt, can, Bool.true_eq_false,
    if_false]
  exact ⟨_, _, rfl⟩

theorem buildEnvelope_blocked {s : Session K} (blocked : ¬s.Ready) (draw : EnvelopeId × UInt64)
    (pt : Bytes) : buildEnvelope P publicKey sign s draw pt = none := by
  rw [Option.eq_none_iff_forall_ne_some]
  rintro ⟨s', env⟩ built
  exact blocked (buildEnvelope_some built).1

/-! ### Whether there is a way past the server -/

variable (O : Server.RelayOutside B L)

/-- With a sending chain a deposit fails only for want of an address. -/
theorem depositAt_ready (luck : SendLuck) (records : Bytes → List ProviderRecord) (pt : Bytes)
    (relays : List Bytes) (n : Nat) {s : Session K} (ready : s.Ready) (net : PeerNet (Server.Frame B)) :
    (depositAt P O publicKey sign luck records pt relays n s net).1.Ready ∧
    (depositAt P O publicKey sign luck records pt relays n s net).1.peerPub = s.peerPub ∧
    ((depositAt P O publicKey sign luck records pt relays n s net).2.2 = none ↔
      ∀ relay ∈ relays, ∀ addr, firstWss (records relay) = some addr → parseWssAddr addr = none) := by
  induction relays generalizing n s net with
  | nil => exact ⟨ready, rfl, by simp [depositAt]⟩
  | cons relay rest ih =>
    cases known : firstWss (records relay) with
    | none =>
      simp only [depositAt, known, List.forall_mem_cons]
      simpa using ih n ready net
    | some addr =>
      obtain ⟨s', env, built⟩ := buildEnvelope_ready P publicKey sign ready (luck.built n) pt
      obtain ⟨-, ready', same, -⟩ := buildEnvelope_some built
      simp only [depositAt, known, built, List.forall_mem_cons]
      cases parsed : parseWssAddr addr with
      | none =>
        rw [PeerNet.send_of_none ⟨.zero, addr, relay⟩ parsed]
        obtain ⟨later, owner, left⟩ := ih (n + 1) ready' net
        exact ⟨later, owner.trans same, by simpa [parsed] using left⟩
      | some target =>
        obtain ⟨net', sent⟩ := PeerNet.send_of_some ⟨.zero, addr, relay⟩ parsed net
          (.peer ⟨4, s'.peerPub, payloadOf O env, publicKey⟩)
        rw [sent]
        exact ⟨ready', same, by simp [parsed]⟩

/-- Without a sending chain nothing is built. -/
theorem depositAt_not_ready (luck : SendLuck) (records : Bytes → List ProviderRecord) (pt : Bytes)
    (relays : List Bytes) (n : Nat) {s : Session K} (blocked : ¬s.Ready)
    (net : PeerNet (Server.Frame B)) :
    depositAt P O publicKey sign luck records pt relays n s net = (s, net, none) := by
  induction relays generalizing n with
  | nil => rfl
  | cons relay rest ih =>
    have nothing := buildEnvelope_blocked P publicKey sign blocked (luck.built n) pt
    cases known : firstWss (records relay) with
    | none => simp only [depositAt, known, ih]
    | some addr => simp only [depositAt, known, nothing, ih]

/-- A message goes past the server exactly if there is a route. -/
theorem sendServerless_ready (luck : SendLuck) (o : Overlay B) {s : Session K} (ready : s.Ready)
    (pt : Bytes) :
    (sendServerless P O publicKey sign luck o s pt).1.Ready ∧
    (sendServerless P O publicKey sign luck o s pt).1.peerPub = s.peerPub ∧
    ((sendServerless P O publicKey sign luck o s pt).2.2.2 = none ↔ o.NoRoute s.peerPub) := by
  cases known : firstWss (o.records s.peerPub) with
  | none =>
    obtain ⟨later, owner, left⟩ := depositAt_ready P publicKey sign O luck o.records pt
      (relayPubs (o.records s.peerPub)) 1 ready o.peerNet
    simp only [sendServerless, known, Option.bind_none, Overlay.NoRoute, true_and]
    exact ⟨later, owner, left⟩
  | some addr =>
    obtain ⟨s', env, built⟩ := buildEnvelope_ready P publicKey sign ready (luck.built 0) pt
    obtain ⟨-, ready', same, -⟩ := buildEnvelope_some built
    simp only [sendServerless, known, Option.bind_some, built, Option.map_some, Overlay.NoRoute]
    exact ⟨ready', same, by simp⟩

theorem sendServerless_not_ready (luck : SendLuck) (o : Overlay B) {s : Session K}
    (blocked : ¬s.Ready) (pt : Bytes) :
    (sendServerless P O publicKey sign luck o s pt).1 = s ∧
      (sendServerless P O publicKey sign luck o s pt).2.2.2 = none := by
  have nothing := buildEnvelope_blocked P publicKey sign blocked (luck.built 0) pt
  have direct : ((firstWss (o.records s.peerPub)).bind fun addr =>
      (buildEnvelope P publicKey sign s (luck.built 0) pt).map (addr, ·)) = none := by
    simp [nothing]
  simp only [sendServerless, direct, depositAt_not_ready P publicKey sign O luck o.records pt _ 1 blocked, and_self]


end

/-! ### What one send does -/

section

variable {P : DmCrypto K} {O : Server.RelayOutside B L} {publicKey : Bytes} {sign : Bytes → Bytes}

namespace DmSender

variable {C : StoreCrypto} {fingerprint : Bytes → Bytes} {q : DmSender K B} {luck : SendLuck}
  {s : PendingSend}

theorem sendOverServer_sent {q' : DmSender K B} {report : SendReport B} {sess : Session K}
    {pt : Bytes} {d : SentDm}
    (done : q.sendOverServer P C publicKey sign luck s sess pt = (q', report))
    (sent : report.sent = some d) :
    sess.Ready ∧ d.envelope.envelopeId = luck.own.1.val ∧ d.envelope.timestampMs = luck.own.2 ∧
      d.envelope.recipient = .userPubkey sess.peerPub ∧ d.text = s.text ∧
      report.toServer = [.envelope d.envelope.wire] ∧
      q'.store = q.store.map fun store => recordSent C luck store s sess.peerPub d.envelope := by
  unfold sendOverServer at done
  cases built : buildEnvelope P publicKey sign sess luck.own pt with
  | none =>
    rw [built] at done
    cases done
    cases sent
  | some result =>
    obtain ⟨sess', env⟩ := result
    obtain ⟨ready, -, same, id, time, recipient⟩ := buildEnvelope_some built
    rw [built] at done
    dsimp only at done
    split at done
    · cases done
      cases sent
    · cases done
      obtain rfl := Option.some.inj sent
      refine ⟨ready, id, time, recipient, rfl, rfl, ?_⟩
      rw [← same]

/-- How a message has been sent: past the server, where the store is left alone, or over it. -/
inductive Sent (C : StoreCrypto) (fingerprint : Bytes → Bytes) (q : DmSender K B) (luck : SendLuck)
    (s : PendingSend) (q' : DmSender K B) (report : SendReport B) (d : SentDm) : Prop
  | past {o : Overlay B} {sess : Session K} (overlay : q.overlay = some o)
      (session : q.sessions[(rebindFingerprint fingerprint q.sessions s).peer]? = some sess)
      (ready : sess.Ready) (route : ¬o.NoRoute sess.peerPub) (store : q'.store = q.store)
  | served {sess : Session K}
      (session : q.sessions[(rebindFingerprint fingerprint q.sessions s).peer]? = some sess)
      (ready : sess.Ready) (routes : ∀ o, q.overlay = some o → o.NoRoute sess.peerPub)
      (id : d.envelope.envelopeId = luck.own.1.val) (time : d.envelope.timestampMs = luck.own.2)
      (recipient : d.envelope.recipient = .userPubkey sess.peerPub)
      (text : d.text = (rebindFingerprint fingerprint q.sessions s).text)
      (written : report.toServer = [.envelope d.envelope.wire])
      (store : q'.store = q.store.map fun store => recordSent C luck store
        (rebindFingerprint fingerprint q.sessions s) sess.peerPub d.envelope)

theorem sendPending_sent {q' : DmSender K B} {report : SendReport B} {d : SentDm}
    (done : q.sendPending P O C publicKey sign fingerprint luck s = (q', report))
    (sent : report.sent = some d) : Sent C fingerprint q luck s q' report d := by
  unfold sendPending at done
  dsimp only at done
  generalize same : rebindFingerprint fingerprint q.sessions s = s₁ at done
  cases found : (q.sessions[s₁.peer]?).filter (·.rat.isSome) with
  | none =>
    rw [found] at done
    cases done
    cases sent
  | some sess =>
    have session : q.sessions[(rebindFingerprint fingerprint q.sessions s).peer]? = some sess := by
      rw [same]
      exact (Option.filter_eq_some_iff.mp found).1
    rw [found] at done
    dsimp only at done
    generalize (if s₁.prePackedPayload = [] then packTextPayload P s₁.text
      else s₁.prePackedPayload) = pt at done
    cases overlay : q.overlay with
    | none =>
      rw [overlay] at done
      obtain ⟨ready, id, time, recipient, text, written, store⟩ := sendOverServer_sent done sent
      exact .served session ready (by simp [overlay]) id time recipient (same ▸ text) written (same ▸ store)
    | some o =>
      rw [overlay] at done
      dsimp only at done
      by_cases ready : sess.Ready
      · obtain ⟨-, owner, left⟩ := sendServerless_ready P publicKey sign O luck o ready pt
        generalize sendServerless P O publicKey sign luck o sess pt = result at done owner left
        obtain ⟨sess', o', report', sent'⟩ := result
        cases sent' with
        | some env =>
          cases done
          refine .past overlay session ready ?_ rfl
          rw [← left]
          simp
        | none =>
          obtain ⟨-, id, time, recipient, text, written, store⟩ := sendOverServer_sent done sent
          dsimp only at owner left
          rw [owner] at recipient store
          refine .served session ready ?_ id time recipient (same ▸ text) written (same ▸ store)
          intro o₁ there
          obtain rfl := Option.some.inj (overlay.symm.trans there)
          exact left.mp rfl
      · -- nothing is built, over the server either
        obtain ⟨same', nothing⟩ := sendServerless_not_ready P publicKey sign O luck o ready
          pt
        generalize sendServerless P O publicKey sign luck o sess pt = result at done same' nothing
        obtain ⟨sess', o', report', sent'⟩ := result
        dsimp only at same' nothing
        subst same' nothing
        exact absurd (sendOverServer_sent done sent).1 ready

end DmSender

/-! ### What the relay server keeps -/

/-- What is queued for a user is drained for that user. -/
theorem drained_of_enqueued {r r' : Server.Relay} {user bytes : Bytes} {nowMs : UInt64}
    (enqueued : r.enqueueOffline (.ofVector user) bytes nowMs = .ok r') :
    bytes ∈ (r'.drainOffline user).2 := by
  unfold Server.Relay.enqueueOffline at enqueued
  cases table : r.persistent with
  | some db =>
    simp only [table, Server.srvOfflineEnqueue] at enqueued
    split at enqueued
    · cases enqueued
    next db' inserted =>
      cases enqueued
      simp only [ite_error_eq_ok, Bool.not_eq_true] at inserted
      obtain ⟨named, -, inserted⟩ := inserted
      obtain rfl := Except.ok.inj inserted
      have present : user ≠ [] := by
        rintro rfl
        cases named
      simp [Server.Relay.drainOffline, Server.srvOfflineDrain, present, Span.ofVector]
  | none =>
    simp only [table] at enqueued
    cases enqueued
    simp [Server.Relay.drainOffline, Span.ofVector]

theorem keptForAbsent_envelope {env : Envelope} {recipient : Bytes}
    (addressed : env.recipient = .userPubkey recipient) :
    KeptForAbsent O (.envelope env.wire) recipient env := by
  intro s s' fd c draws writes away allowed handled
  have wired : env.wire.recipient = .userPubkey recipient := by simp [Envelope.wire, addressed, Recipient.wire]
  simp only [Server.RelayServer.dispatch, wired, Server.RelayServer.onDirectEnvelope] at handled
  have book : (s.consume O c draws.clock env.wire).1.relay = s.relay := by
    unfold Server.RelayServer.consume
    split <;> rfl
  generalize s.consume O c draws.clock env.wire = charged at handled allowed book
  obtain ⟨t, ok⟩ := charged
  dsimp only at handled allowed book
  rw [if_neg (by simp [allowed]), book, away] at handled
  dsimp only at handled
  cases queued : s.relay.enqueueOffline (.ofVector recipient)
      (O.envelope.encode (Server.RelayServer.stamped c env.wire)) draws.nowMs with
  | error e =>
    rw [queued] at handled
    cases handled
  | ok relay =>
    rw [queued] at handled
    cases handled
    exact drained_of_enqueued queued

/-- A peer envelope is passed on or dropped, and never kept. -/
theorem not_keptForAbsent_peer (limiter : L) (pe : Server.PeerEnvelope) (recipient : Bytes)
    (env : Envelope) (unlimited : ∀ (draws : Server.RelayDraws),
      ((Server.RelayServer.boot none limiter).consume O (.accepted .tcp) draws.clock env.wire).2 = true) :
    ¬KeptForAbsent O (.peer pe) recipient env := by
  intro kept
  have queued := kept (.boot none limiter) _ 0 (.accepted .tcp) ⟨[], 0, 0⟩ _ rfl (unlimited _) rfl
  cases queued

/-! ### What the outbox lists -/

section Outbox

variable {C : StoreCrypto} {luck : SendLuck} {s : PendingSend} {d : SentDm}

/-- A text is entered as a row of its own, unless its id is taken. -/
theorem recordSent_text (C : StoreCrypto) (luck : SendLuck) (store : SqliteStore) (peerPub : Bytes)
    (env : Envelope) (text : s.text ≠ [])
    (plain : s.persistBlob = []) :
    ∃ value, openValue C (store.key (·.outbox)) value env.envelopeId = some s.text ∧
      (recordSent C luck store s peerPub env).key (·.outbox) = store.key (·.outbox) ∧
      (recordSent C luck store s peerPub env).db.outbox = store.db.outbox.insertOrIgnore
        ⟨some env.envelopeId, ⟨peerPub, env.timestampMs.toInt64, 0⟩, value⟩ := by
  have body : (if s.persistBlob = [] then s.text else s.persistBlob) = s.text := if_pos plain
  simp only [recordSent, if_neg fun none : s.text = [] ∧ s.persistBlob = [] => text none.1, body,
    SqliteStore.cachePeerName, SqliteStore.appendOutbox, SqliteStore.appendOutboxWithExpiry]
  cases key : store.key (·.outbox) with
  | none =>
    refine ⟨s.text, rfl, key, ?_⟩
    simp only [SqliteStore.insertMessage, storedValue, Sql.column_of, Sql.column_ofVector, if_neg text]
    rfl
  | some k =>
    refine ⟨aeadWrap C k (luck.outboxDraws.nonce 0 0) s.text env.envelopeId, ?_, key, rfl⟩
    exact aeadUnwrap_aeadWrap C k _ _ _

/-- What the send adds is one row, exactly if the id is free. -/
theorem added_iff {store : SqliteStore} {peerPub : Bytes} {before after : Option SqliteStore}
    (text : s.text ≠ []) (plain : s.persistBlob = []) (same : d.text = s.text)
    (recipient : d.envelope.recipient = .userPubkey peerPub) (is_open : before = some store)
    (recorded : after = some (recordSent C luck store s peerPub d.envelope)) :
    d.Added C before after ↔ store.db.outbox.has (some d.envelope.envelopeId) = false := by
  obtain ⟨value, opens, key, rows⟩ := recordSent_text C luck store peerPub d.envelope text plain
  constructor
  · rintro ⟨_, _, row, there, there', added, -⟩
    obtain rfl := Option.some.inj (is_open.symm.trans there)
    obtain rfl := Option.some.inj (recorded.symm.trans there')
    by_contra taken
    rw [rows, Sql.Table.insertOrIgnore, Sql.Table.insert, dif_neg taken] at added
    simp at added
  · intro free
    refine ⟨store, _, ⟨some d.envelope.envelopeId, ⟨peerPub, d.envelope.timestampMs.toInt64, 0⟩,
      value⟩, is_open, recorded, ?_, rfl, recipient, rfl, rfl, ?_⟩
    · rw [rows, Sql.Table.insertOrIgnore, Sql.Table.insert, dif_pos free]
      rfl
    · rw [key, same]
      exact opens

/-- No other row has the key of the new one. -/
theorem SentDm.Added.listedOnce {before after : Option SqliteStore} {store' : SqliteStore}
    (added : d.Added C before after) (is_open : after = some store') : d.ListedOnce C store' := by
  obtain ⟨store, store', row, -, there, rows, row_of⟩ := added
  obtain rfl := Option.some.inj (is_open.symm.trans there)
  have distinct := store'.db.outbox.primaryKey
  rw [rows] at distinct
  have others : store.db.outbox.rows.filter (fun r => r.key = some d.envelope.envelopeId) = [] := by
    rw [List.filter_eq_nil_iff]
    intro r member same
    have apart := (List.pairwise_append.mp distinct).2.2 r member row (List.mem_singleton_self row)
    rw [of_decide_eq_true same, row_of.id] at apart
    simp [Sql.clash, Sql.columns, Sql.matchAll, Sql.Value.equals] at apart
  refine ⟨row, ?_, row_of⟩
  rw [rows, List.filter_append, others, List.nil_append, List.filter_singleton, row_of.id]
  simp

/-- A row with another id does not matter. -/
theorem SentDm.ListedOnce.appended {store store' : SqliteStore} (listed : d.ListedOnce C store)
    {row : Sql.Row (Option Bytes) MessageInfo Bytes}
    (rows : store'.db.outbox = store.db.outbox.insertOrIgnore row)
    (key : store'.key (·.outbox) = store.key (·.outbox)) : d.ListedOnce C store' := by
  obtain ⟨old, only, old_of⟩ := listed
  rw [SentDm.ListedOnce, key, rows]
  refine ⟨old, ?_, old_of⟩
  unfold Sql.Table.insertOrIgnore Sql.Table.insert
  split
  next free =>
    have other : row.key ≠ some d.envelope.envelopeId := by
      intro same
      have member : old ∈ store.db.outbox.rows := by
        have here : old ∈ [old] := List.mem_singleton_self old
        rw [← only] at here
        exact (List.mem_filter.mp here).1
      have apart := List.any_eq_false.mp free old member
      simp [old_of.id, same, Sql.clash, Sql.columns, Sql.matchAll] at apart
    simp only [Option.getD_some, List.filter_append, only, List.filter_singleton, other]
    simp
  · exact only

theorem SentDm.ListedOnce.pruned {store : SqliteStore} (listed : d.ListedOnce C store)
    (now : UInt64) : d.ListedOnce C (store.pruneExpired now) := by
  obtain ⟨row, only, row_of⟩ := listed
  refine ⟨row, ?_, row_of⟩
  have stays : SqliteStore.expired now row.info = false := by simp [SqliteStore.expired, row_of.stays]
  simp only [SqliteStore.pruneExpired, Sql.Table.delete, List.filter_filter]
  calc store.db.outbox.rows.filter (fun r =>
        decide (r.key = some d.envelope.envelopeId) && !SqliteStore.expired now r.info)
      = (store.db.outbox.rows.filter fun r => decide (r.key = some d.envelope.envelopeId)).filter
          fun r => !SqliteStore.expired now r.info := by
        rw [List.filter_filter]
        simp only [Bool.and_comm]
    _ = [row] := by
        rw [only, List.filter_singleton, stays]
        rfl

/-- Wrapping the rows again, under another key, leaves what they say. -/
theorem filter_rewrap {oldK : Key} (newK : Key) (nonce : Nat → Nonce) {t : MessageTable} {id text : Bytes}
    {row : Sql.Row (Option Bytes) MessageInfo Bytes}
    (only : t.rows.filter (fun r => r.key = some id) = [row])
    (opens : aeadUnwrap C oldK row.value id = some text) :
    ∃ row', (rewrap C oldK newK nonce (fun k _ => keyAad k) t).1.rows.filter
        (fun r => r.key = some id) = [row'] ∧ row'.key = row.key ∧ row'.info = row.info ∧
      aeadUnwrap C newK row'.value id = some text := by
  rw [← List.zipIdx_map_fst 0 t.rows, List.filter_map] at only
  obtain ⟨⟨r, i⟩, found, same⟩ := List.map_eq_singleton_iff.mp only
  dsimp only at same
  subst same
  have keyed : r.key = some id := by
    have here : (r, i) ∈ [(r, i)] := List.mem_singleton_self _
    rw [← found] at here
    simpa using (List.mem_filter.mp here).2
  have filled : r.value ≠ [] := by
    intro nothing
    have size := length_of_aeadUnwrap C opens
    rw [nothing, List.length_nil] at size
    omega
  refine ⟨{ r with value := aeadWrap C newK (nonce i) text id }, ?_, rfl, rfl,
    aeadUnwrap_aeadWrap C newK (nonce i) text id⟩
  simp only [rewrap, rewrapRows, Sql.Table.mapValuesIdx, List.filter_map, Function.comp_def] at found ⊢
  rw [found, List.map_singleton]
  simp [rewrapped, filled, keyed, opens]
  rfl

theorem SentDm.ListedOnce.ratcheted {store : SqliteStore} (listed : d.ListedOnce C store)
    (draws : Store.Draws) : d.ListedOnce C (store.ratchetStorageMaster C draws).1 := by
  obtain ⟨row, only, row_of⟩ := listed
  cases rest : store.atRest with
  | none =>
    simp only [SqliteStore.ratchetStorageMaster, rest]
    exact ⟨row, only, row_of⟩
  | some a =>
    have opens : aeadUnwrap C a.keys.outbox row.value d.envelope.envelopeId = some d.text := by
      have text := row_of.text
      simpa only [SqliteStore.key, rest, Option.map_some, openValue] using text
    obtain ⟨row', only', key, info, opens'⟩ := filter_rewrap
      (deriveTableKeys C (draws.key 0)).outbox (draws.nonce 1) only opens
    refine ⟨row', ?_, key.trans row_of.id, info ▸ row_of.peer, info ▸ row_of.time,
      info ▸ row_of.stays, ?_⟩
    · simpa only [SqliteStore.ratchetStorageMaster, rest] using only'
    · simpa only [SqliteStore.ratchetStorageMaster, rest, SqliteStore.key, Option.map_some,
        openValue] using opens'

/-- The other writers do not enter anything into the outbox. -/
theorem SentDm.ListedOnce.written {store : SqliteStore} (listed : d.ListedOnce C store)
    (draws : Store.Draws) {call : SqliteStore.Write}
    (other : ∀ id peer ct ts exp, call ≠ .appendOutbox id peer ct ts exp) :
    d.ListedOnce C (store.write C draws call) := by
  have kept {store' : SqliteStore} (outbox : store'.db.outbox = store.db.outbox)
      (key : store'.key (·.outbox) = store.key (·.outbox)) : d.ListedOnce C store' := by
    rw [SentDm.ListedOnce, outbox, key]
    exact listed
  cases call with
  | appendOutbox id peer ct ts exp => exact absurd rfl (other id peer ct ts exp)
  | pruneExpired now => exact listed.pruned now
  | saveSession peer blob =>
    simp only [SqliteStore.write, SqliteStore.saveSession]
    split <;> exact kept rfl rfl
  | chanSave name id dist crypto =>
    simp only [SqliteStore.write, SqliteStore.chanSave]
    split <;> exact kept rfl rfl
  | chanSavePeer id peer dist =>
    simp only [SqliteStore.write, SqliteStore.chanSavePeer]
    split <;> exact kept rfl rfl
  | chanAppendInbox id sender pt ts =>
    simp only [SqliteStore.write, SqliteStore.chanAppendInbox]
    split <;> exact kept rfl rfl
  | mlsGroupSave id seed =>
    simp only [SqliteStore.write, SqliteStore.mlsGroupSave]
    split <;> exact kept rfl rfl
  | mlsGroupOpAppend id seq op =>
    simp only [SqliteStore.write, SqliteStore.mlsGroupOpAppend]
    split
    · exact kept rfl rfl
    · exact kept rfl rfl
    · split <;> exact kept rfl rfl
  | appendInbox id peer pt ts exp => exact kept rfl rfl
  | cachePeerName now peer name => exact kept rfl rfl

/-- A send enters at most one row. -/
theorem recordSent_outbox (C : StoreCrypto) (luck : SendLuck) (s : PendingSend) (store : SqliteStore) (peerPub : Bytes) (env : Envelope) :
    (recordSent C luck store s peerPub env).key (·.outbox) = store.key (·.outbox) ∧
    ((recordSent C luck store s peerPub env).db.outbox = store.db.outbox ∨
      ∃ row, (recordSent C luck store s peerPub env).db.outbox = store.db.outbox.insertOrIgnore row) := by
  unfold recordSent
  split
  · exact ⟨rfl, .inl rfl⟩
  · refine ⟨rfl, ?_⟩
    simp only [SqliteStore.cachePeerName, SqliteStore.appendOutbox,
      SqliteStore.appendOutboxWithExpiry, SqliteStore.insertMessage]
    split
    · exact .inr ⟨_, rfl⟩
    · exact .inl rfl

end Outbox

end

/-! ### Runs -/

namespace DmSender

inductive Event (B : Type) where
  | sending (luck : SendLuck) (s : PendingSend) (report : SendReport B)
  | elsewhere

/-- What the rest of the client does to the store. Nothing else writes to the outbox. -/
inductive Upkeep (C : StoreCrypto) : Option SqliteStore → Option SqliteStore → Prop
  | idle (store : Option SqliteStore) : Upkeep C store store
  | written {store : SqliteStore} {call : SqliteStore.Write} (draws : Store.Draws)
      (other : ∀ id peer ct ts exp, call ≠ .appendOutbox id peer ct ts exp) :
      Upkeep C (some store) (some (store.write C draws call))
  | ratcheted (store : SqliteStore) (draws : Store.Draws) :
      Upkeep C (some store) (some (store.ratchetStorageMaster C draws).1)

inductive Step (P : DmCrypto K) (O : Server.RelayOutside B L) (C : StoreCrypto) (publicKey : Bytes)
    (sign fingerprint : Bytes → Bytes) : DmSender K B → Event B → DmSender K B → Prop
  | sending {q q' : DmSender K B} {luck : SendLuck} {s : PendingSend} {report : SendReport B}
      (done : q.sendPending P O C publicKey sign fingerprint luck s = (q', report)) :
      Step P O C publicKey sign fingerprint q (.sending luck s report) q'
  /-- Sessions, addresses and connections change as they like. -/
  | elsewhere {q q' : DmSender K B} (store : Upkeep C q.store q'.store) :
      Step P O C publicKey sign fingerprint q .elsewhere q'

section

variable {P : DmCrypto K} {O : Server.RelayOutside B L} {C : StoreCrypto} {publicKey : Bytes}
  {sign fingerprint : Bytes → Bytes} {q q' : DmSender K B} {luck : SendLuck} {s : PendingSend}
  {report : SendReport B} {d : SentDm}

theorem rebindFingerprint_same (fingerprint : Bytes → Bytes) (s : PendingSend) (sessions : Sessions K) :
    (rebindFingerprint fingerprint sessions s).text = s.text ∧
      (rebindFingerprint fingerprint sessions s).persistBlob = s.persistBlob := by
  unfold rebindFingerprint rebind
  split
  · split <;> exact ⟨rfl, rfl⟩
  · exact ⟨rfl, rfl⟩

theorem sendOverServer_store {sess : Session K} {pt : Bytes}
    (done : q.sendOverServer P C publicKey sign luck s sess pt = (q', report)) :
    q'.store = q.store ∨ ∃ peerPub env, q'.store = q.store.map fun store =>
      recordSent C luck store s peerPub env := by
  unfold sendOverServer at done
  split at done
  · cases done
    exact .inl rfl
  · dsimp only at done
    split at done
    · cases done
      exact .inl rfl
    · cases done
      exact .inr ⟨_, _, rfl⟩

/-- Whatever becomes of a send, it enters at most one row. -/
theorem sendPending_store
    (done : q.sendPending P O C publicKey sign fingerprint luck s = (q', report)) :
    q'.store = q.store ∨ ∃ peerPub env, q'.store = q.store.map fun store =>
      recordSent C luck store (rebindFingerprint fingerprint q.sessions s) peerPub env := by
  unfold sendPending at done
  dsimp only at done
  split at done
  · cases done
    exact .inl rfl
  · split at done
    · exact sendOverServer_store done
    · split at done
      · cases done
        exact .inl rfl
      · have stored := sendOverServer_store done
        exact stored

/-- What is listed once stays so. -/
theorem Step.listed {e : Event B} (step : Step P O C publicKey sign fingerprint q e q')
    (listed : ∃ store, q.store = some store ∧ d.ListedOnce C store) :
    ∃ store, q'.store = some store ∧ d.ListedOnce C store := by
  obtain ⟨store, is_open, once⟩ := listed
  cases step with
  | @sending _ luck s report done =>
    rcases sendPending_store done with same | ⟨peerPub, env, recorded⟩
    · exact ⟨store, same.trans is_open, once⟩
    · rw [is_open] at recorded
      refine ⟨_, recorded, ?_⟩
      obtain ⟨key, same | ⟨row, rows⟩⟩ := recordSent_outbox C luck
        (rebindFingerprint fingerprint q.sessions s) store peerPub env
      · rw [SentDm.ListedOnce, same, key]
        exact once
      · exact once.appended rows key
  | elsewhere upkeep =>
    rw [is_open] at upkeep
    generalize q'.store = after at upkeep ⊢
    cases upkeep with
    | idle => exact ⟨store, rfl, once⟩
    | written draws other => exact ⟨_, rfl, once.written draws other⟩
    | ratcheted _ draws => exact ⟨_, rfl, once.ratcheted draws⟩

/-- What is logged as sent here is what `sendOne` may send. -/
theorem Sent.sendOne (sent : Sent C fingerprint q luck s q' report d) {around : Surroundings K}
    (same : around.sessions = q.sessions) : ∃ luck, (sendOne fingerprint around luck s).2 = .sent := by
  obtain ⟨sess, rat, session, has, can⟩ : ∃ sess rat,
      q.sessions[(rebindFingerprint fingerprint q.sessions s).peer]? = some sess ∧
      sess.rat = some rat ∧ rat.haveCks = true := by
    cases sent with
    | past overlay session ready route store => exact ⟨_, _, session, ready.choose_spec⟩
    | served session ready routes id time recipient text written recorded =>
      exact ⟨_, _, session, ready.choose_spec⟩
  refine ⟨⟨true, false, false⟩, ?_⟩
  have found : around.sessions.ratchetAt (rebindFingerprint fingerprint around.sessions s).peer =
      some (sess.peerPub, rat) := by
    rw [same, Sessions.ratchetAt, session, Option.bind_some, has]
    rfl
  simp [Desktop.sendOne, found, can]

/-- A text that is sent over the server is in a frame that the server keeps. -/
theorem Sent.kept {sess : Session K} (recipient : d.envelope.recipient = .userPubkey sess.peerPub)
    (written : report.toServer = [.envelope d.envelope.wire]) :
    ∃ recipient, d.envelope.recipient = .userPubkey recipient ∧
      ∃ frame ∈ report.toServer, KeptForAbsent O frame recipient d.envelope := by
  refine ⟨sess.peerPub, recipient, .envelope d.envelope.wire, ?_, keptForAbsent_envelope recipient⟩
  rw [written]
  exact List.mem_singleton_self _

/-- A text that is logged as sent has left, and is in the outbox, exactly under the condition. -/
theorem Sent.kept_iff (sent : Sent C fingerprint q luck s q' report d) (plain : s.persistBlob = []) :
    OnItsWay O q'.overlay report.toServer d.envelope ∧ d.Added C q.store q'.store ↔
      q.Recorded fingerprint luck s := by
  obtain ⟨same_text, same_blob⟩ := rebindFingerprint_same fingerprint s q.sessions
  constructor
  · rintro ⟨-, added⟩
    obtain ⟨store, store', row, is_open, is_open', rows, -⟩ := id added
    cases sent with
    | past overlay session ready route store =>
      -- the store is as it was
      obtain rfl := Option.some.inj (is_open.symm.trans (store.symm.trans is_open'))
      simp at rows
    | served session ready routes id time recipient text written recorded =>
      rw [is_open, Option.map_some] at recorded
      have filled : s.text ≠ [] := by
        intro nothing
        obtain rfl := Option.some.inj (is_open'.symm.trans recorded)
        simp [recordSent, same_text, same_blob, nothing, plain] at rows
      refine ⟨filled, ⟨store, is_open, ?_⟩, ?_⟩
      · rw [← id]
        exact (added_iff (same_text.symm ▸ filled) (same_blob.trans plain) text recipient is_open
          recorded).mp added
      · intro o sess' there found
        obtain rfl := Option.some.inj (session.symm.trans found)
        exact routes o there
  · rintro ⟨filled, ⟨store, is_open, free⟩, unreachable⟩
    cases sent with
    | past overlay session ready route store => exact absurd (unreachable _ _ overlay session) route
    | served session ready routes id time recipient text written recorded =>
      obtain ⟨recipient', addressed, kept⟩ := Sent.kept (O := O) recipient written
      rw [is_open, Option.map_some] at recorded
      refine ⟨⟨recipient', addressed, .inr kept⟩, ?_⟩
      exact (added_iff (same_text.symm ▸ filled) (same_blob.trans plain) text recipient is_open
        recorded).mpr (id ▸ free)

end

/-- The texts of a run are sent under the condition. -/
def Records (fingerprint : Bytes → Bytes) (q : DmSender K B) : Event B → Prop
  | .sending luck s _ =>
    s.prePackedPayload = [] → s.persistBlob = [] → q.Recorded fingerprint luck s
  | .elsewhere => True

/-- A text message that is logged as sent is on its way and has got its row in the outbox, exactly
if it had to go over the relay server, the store was open and the text was not empty. In a run in
which all do, the outbox lists each of them once, ever after. -/
theorem sent_is_kept_iff (P : DmCrypto K) (O : Server.RelayOutside B L) (C : StoreCrypto)
    (publicKey : Bytes) (sign fingerprint : Bytes → Bytes) :
    (∀ (q q' : DmSender K B) (luck : SendLuck) (s : PendingSend) (report : SendReport B) (d : SentDm),
      s.prePackedPayload = [] → s.persistBlob = [] →
      q.sendPending P O C publicKey sign fingerprint luck s = (q', report) → report.sent = some d →
      (OnItsWay O q'.overlay report.toServer d.envelope ∧ d.Added C q.store q'.store ↔
        q.Recorded fingerprint luck s)) ∧
    ∀ (q q' : DmSender K B) (events : List (Event B)),
      Run (Guarded (Step P O C publicKey sign fingerprint) (Records fingerprint)) q events q' →
      ∀ luck s report d, s.prePackedPayload = [] → s.persistBlob = [] →
        .sending luck s report ∈ events → report.sent = some d →
        (∃ recipient, d.envelope.recipient = .userPubkey recipient ∧
          ∃ frame ∈ report.toServer, KeptForAbsent O frame recipient d.envelope) ∧
        ∃ store, q'.store = some store ∧ d.ListedOnce C store := by
  refine ⟨fun q q' luck s report d _ plain done sent => (sendPending_sent done sent).kept_iff plain, ?_⟩
  intro q q' events run luck s report d packed plain member sent
  obtain ⟨before, after, rfl⟩ := List.append_of_mem member
  obtain ⟨r, r', -, ⟨recorded, taken⟩, later⟩ := run.split
  have keeps := recorded packed plain
  obtain ⟨done⟩ := taken
  have how := sendPending_sent done sent
  obtain ⟨-, added⟩ := (how.kept_iff (O := O) plain).mpr keeps
  constructor
  · cases how with
    | past overlay session ready route store => exact absurd (keeps.2.2 _ _ overlay session) route
    | served session ready routes id time recipient text written recorded => exact Sent.kept recipient written
  · refine later.invariant (fun r => ∃ store, r.store = some store ∧ d.ListedOnce C store)
      (fun _ _ _ listed step => step.2.listed listed) ?_
    obtain ⟨-, store', -, -, is_open, -⟩ := id added
    exact ⟨store', is_open, added.listedOnce is_open⟩

/-! ### A friend whose address does not parse -/

/-- An address that PeerNet cannot dial sends the message over the relay server in a peer envelope,
and that is taken for a delivery. -/
theorem sendPending_wrapped (P : DmCrypto K) (O : Server.RelayOutside B L) (C : StoreCrypto)
    (publicKey : Bytes) (sign : Bytes → Bytes) {fingerprint : Bytes → Bytes} {q : DmSender K B}
    {luck : SendLuck} {s : PendingSend} {o : Overlay B} {sess : Session K} {addr : Bytes}
    (session : q.sessions[(rebindFingerprint fingerprint q.sessions s).peer]? = some sess)
    (ready : sess.Ready) (overlay : q.overlay = some o)
    (known : firstWss (o.records sess.peerPub) = some addr) (malformed : parseWssAddr addr = none)
    (connected : luck.socket = true) :
    ∃ q' d pe, q.sendPending P O C publicKey sign fingerprint luck s =
        (q', ⟨some d, [.peer pe]⟩) ∧
      d.text = (rebindFingerprint fingerprint q.sessions s).text ∧ q'.overlay = some o ∧
      q'.store = q.store := by
  have found : (q.sessions[(rebindFingerprint fingerprint q.sessions s).peer]?).filter
      (·.rat.isSome) = some sess := by
    obtain ⟨rat, has, -⟩ := ready
    rw [session, Option.filter_some, has]
    rfl
  obtain ⟨sess', env, built⟩ := buildEnvelope_ready P publicKey sign ready (luck.built 0) (if (rebindFingerprint fingerprint q.sessions s).prePackedPayload = [] then
      packTextPayload P (rebindFingerprint fingerprint q.sessions s).text
    else (rebindFingerprint fingerprint q.sessions s).prePackedPayload)
  have listed : isWss addr = true := by
    have wss := List.find?_some known
    exact wss
  simp only [sendPending, found, overlay, sendServerless, known, Option.bind_some, built,
    Option.map_some, wrapPeerSend, listed, if_true, PeerNet.send_of_none ⟨.zero, addr, sess'.peerPub⟩ malformed, connected,
    and_self]
  exact ⟨_, _, _, rfl, rfl, rfl, rfl⟩

private def friend : Session Nat where
  peerPub := natPoint 2
  peerX := natPoint 2
  rat := some {
    dhsPub := natPoint 3
    dhsPriv := 3
    dhrPub := natPoint 2
    haveDhr := true
    rk := 0
    cks := 0
    ckr := 0
    haveCks := true
    haveCkr := false
    ns := 0
    nr := 0
    pn := 0
    skipped := ∅ }
  pqCt := []
  pqAcked := false
  sealOutbound := false

/-- A conversation with a friend, and what the DHT has of everybody. -/
private def chatting (records : Bytes → List ProviderRecord) : DmSender Nat Unit where
  sessions := (∅ : Sessions Nat).insert (ascii "bob") friend
  overlay := some ⟨fun _ => none, records⟩
  store := some ⟨.empty, none⟩

private def portless : ProviderRecord where
  publisherPubkey := natPoint 2
  addresses := [ascii "wss://bob.example"]
  publishedAtMs := 0
  ttlMs := 1000
  nonce := []
  signature := []
  offlineRelays := []

private def firstDraw : EnvelopeId × UInt64 := (⟨List.replicate 16 1, by simp⟩, 7)

private def steadyLuck : SendLuck where
  socket := true
  built _ := firstDraw
  own := firstDraw
  outboxDraws := .filled 0
  nameDraws := .filled 0
  learnedMs := 7

private def hi : PendingSend := ⟨ascii "bob", ascii "hi", [], []⟩

private theorem chatting_session (records : Bytes → List ProviderRecord) :
    (chatting records).sessions[(rebindFingerprint id (chatting records).sessions hi).peer]? =
      some friend := by
  have plain : rebindFingerprint id (chatting records).sessions hi = hi :=
    if_neg fun looks => absurd looks.1 (by decide)
  rw [plain]
  simp [chatting, hi]

/-- The friend is away: the message is logged as sent, is on no connection, in nothing that the
relay server keeps, and not in the outbox. -/
theorem sent_message_lost :
    ∃ (q q' : DmSender Nat Unit) (luck : SendLuck) (s : PendingSend) (report : SendReport Unit)
      (d : SentDm), s.prePackedPayload = [] ∧ s.persistBlob = [] ∧ s.text ≠ [] ∧
      q.store.isSome = true ∧
      q.sendPending DmCrypto.nat Server.plainRelay .unchecked (natPoint 1) (natSign (natPoint 1)) id
        luck s = (q', report) ∧ report.sent = some d ∧
      ¬OnItsWay Server.plainRelay q'.overlay report.toServer d.envelope ∧
      ∀ store, q'.store = some store → ¬d.ListedOnce .unchecked store := by
  have known : firstWss [portless] = some (ascii "wss://bob.example") := by decide
  have connected : steadyLuck.socket = true := rfl
  obtain ⟨q', d, pe, sent, -, overlay, store⟩ := sendPending_wrapped DmCrypto.nat Server.plainRelay
    .unchecked (natPoint 1) (natSign (natPoint 1)) (chatting_session fun _ => [portless])
    ⟨_, rfl, rfl⟩ rfl known (by decide) connected
  refine ⟨_, q', steadyLuck, hi, _, d, rfl, rfl, by decide, rfl, sent, rfl, ?_, ?_⟩
  · rintro ⟨recipient, -, ⟨o, pe', holder, there, -, ⟨addr, w, held, -⟩, -⟩ | ⟨frame, member, kept⟩⟩
    · obtain rfl := Option.some.inj (overlay.symm.trans there)
      cases held
    · obtain rfl := List.mem_singleton.mp member
      exact not_keptForAbsent_peer () pe recipient d.envelope (fun _ => rfl) kept
  · rintro store' is_open ⟨row, only, -⟩
    obtain rfl := Option.some.inj (store.symm.trans is_open)
    cases only

/-- Without the overlay the message goes over the relay server, and is in the outbox. -/
theorem sent_is_kept_plain :
    ∃ (q q' : DmSender Nat Unit) (luck : SendLuck) (s : PendingSend) (report : SendReport Unit)
      (d : SentDm),
      q.sendPending DmCrypto.nat Server.plainRelay .unchecked (natPoint 1) (natSign (natPoint 1)) id
        luck s = (q', report) ∧ report.sent = some d ∧
      OnItsWay Server.plainRelay q'.overlay report.toServer d.envelope ∧
      ∃ store, q'.store = some store ∧ d.ListedOnce .unchecked store := by
  obtain ⟨kept, listed⟩ := sent_is_kept_iff (K := Nat) DmCrypto.nat Server.plainRelay .unchecked
    (natPoint 1) (natSign (natPoint 1)) id
  let q : DmSender Nat Unit := { chatting (fun _ => []) with overlay := none }
  have session : q.sessions[(rebindFingerprint id q.sessions hi).peer]? = some friend :=
    chatting_session fun _ => []
  have ready : friend.Ready := ⟨_, rfl, rfl⟩
  obtain ⟨sess', env, built⟩ := buildEnvelope_ready DmCrypto.nat (natPoint 1) (natSign (natPoint 1))
    ready firstDraw (packTextPayload DmCrypto.nat hi.text)
  obtain ⟨q', d, frames, done⟩ : ∃ q' d frames, q.sendPending DmCrypto.nat Server.plainRelay
      .unchecked (natPoint 1) (natSign (natPoint 1)) id steadyLuck hi = (q', ⟨some d, frames⟩) := by
    have plain : rebindFingerprint id q.sessions hi = hi :=
      if_neg fun looks => absurd looks.1 (by decide)
    rw [plain] at session
    have packed : hi.prePackedPayload = [] := rfl
    have own : steadyLuck.own = firstDraw := rfl
    have connected : steadyLuck.socket = true := rfl
    have alone : q.overlay = none := rfl
    have found : (q.sessions[hi.peer]?).filter (·.rat.isSome) = some friend := by
      rw [session]
      rfl
    simp only [sendPending, plain, found, packed, if_true, alone, sendOverServer, own, built,
      connected, Bool.true_eq_false, if_false]
    exact ⟨_, _, _, rfl⟩
  have recorded : q.Recorded id steadyLuck hi :=
    ⟨by decide, ⟨_, rfl, rfl⟩, fun o sess there _ => by cases there⟩
  have run : Run (Guarded (Step DmCrypto.nat Server.plainRelay .unchecked (natPoint 1)
      (natSign (natPoint 1)) id) (Records id)) q [.sending steadyLuck hi ⟨some d, frames⟩] q' :=
    .cons ⟨fun _ _ => recorded, .sending done⟩ (.nil q')
  obtain ⟨onItsWay, -⟩ := (kept q q' steadyLuck hi _ d rfl rfl done rfl).mpr recorded
  exact ⟨q, q', steadyLuck, hi, _, d, done, rfl, onItsWay,
    (listed q q' _ run steadyLuck hi _ d rfl rfl (List.mem_singleton_self _) rfl).2⟩

end DmSender

end FinBit.Desktop
