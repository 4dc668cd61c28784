import FinBit.Desktop.Channels

/-! # Delivery of channel messages

A sender's envelopes reach a client in sending order, each one or more times,
with restarts in between. Whether each of them is surfaced exactly once depends
on what `lazyInstall` does to the receiving chain. If the channel's `own_dist`
is the sender's distribution, every envelope rewinds the chain to its start:
the first thousand messages open, each as often as it arrives. If `own_dist` is
some other distribution, nothing from the sender opens. Only if it is no
distribution at all does the chain advance the way sender keys are meant to,
until a restart installs the persisted distribution over it.
-/

namespace FinBit.Desktop

open FinBit.Lib FinBit.Crypto ChannelClient

variable {K : Type} {P : SenderKeys K}

/-! ### The sender -/

/-- A member that created a sending chain and sends messages on one channel. -/
structure ChannelSender (P : SenderKeys K) where
  pub : Bytes
  channelId : Bytes
  chainId : Bytes
  seed : K
  messages : Nat → Outgoing
  sessions : Nat → GroupSession K
  envelope : Nat → Envelope
  pub_length : pub.length = 32
  channelId_length : channelId.length = 32
  chainId_length : chainId.length = 16
  created : ∃ prior : GroupSession K, sessions 0 = (prior.createOwnSendChain P chainId seed).1
  sends : ∀ n, channelEnvelope P (sessions n) pub channelId (messages n) =
    .ok (sessions (n + 1), envelope n)

namespace ChannelSender

variable (S : ChannelSender P)

/-- The chain that the sender's distribution installs. -/
def freshChain : PerPeerChain K := ⟨S.chainId, S.seed, 0, ∅⟩

/-- The receiving chain behind the first `n` messages. -/
def chainAfter (n : Nat) : PerPeerChain K :=
  ⟨S.chainId, P.kdf.nextKey^[n] S.seed, UInt32.ofNat n, ∅⟩

/-- The same position of the chain without a cache: the sender's own state, and
the saved form of `chainAfter`. -/
def ownAfter (n : Nat) : OwnChain K :=
  ⟨S.chainId, P.kdf.nextKey^[n] S.seed, UInt32.ofNat n⟩

theorem ownAfter_succ (n : Nat) : S.ownAfter (n + 1) = { S.ownAfter n with
    chainKey := P.kdf.nextKey (S.ownAfter n).chainKey
    nextIndex := (S.ownAfter n).nextIndex + 1 } := by
  simp only [ownAfter, Function.iterate_succ_apply', UInt32.ofNat_add]
  rfl

theorem own_after (n : Nat) : (S.sessions n).own = some (S.ownAfter n) := by
  induction n with
  | zero =>
    obtain ⟨prior, created⟩ := S.created
    rw [created]
    rfl
  | succ n ih =>
    have sent := S.sends n
    simp only [channelEnvelope, GroupSession.encrypt, ih, Except.map, Except.ok.injEq,
      Prod.mk.injEq] at sent
    rw [← sent.1, ownAfter_succ]

/-- The message inside the sender's `n`-th envelope. -/
def message (n : Nat) : SenderKeysMessage where
  chainId := S.chainId
  index := UInt32.ofNat n
  ciphertext := P.aead.encrypt (P.kdf.messageKey (P.kdf.nextKey^[n] S.seed))
    (composeAad S.chainId (UInt32.ofNat n) (envelopeAadBytes (S.messages n).envelopeId
      (S.messages n).timestampMs)) (S.messages n).text

theorem envelope_eq (n : Nat) : S.envelope n = {
    envelopeId := (S.messages n).envelopeId
    timestampMs := (S.messages n).timestampMs
    aad := envelopeAadBytes (S.messages n).envelopeId (S.messages n).timestampMs
    recipient := .channelGroupId S.channelId
    senderPubkey := S.pub
    ciphertext := P.message.encode (S.message n)
    pqCt := [] } := by
  have sent := S.sends n
  simp only [channelEnvelope, GroupSession.encrypt, S.own_after n, Except.map, Except.ok.injEq,
    Prod.mk.injEq] at sent
  exact sent.2.symm

/-- The sender that draws `chainId` and `seed` and then sends `messages`. -/
def create (P : SenderKeys K) (pub channelId chainId : Bytes) (seed : K)
    (messages : Nat → Outgoing) (pub_length : pub.length = 32)
    (channelId_length : channelId.length = 32) (chainId_length : chainId.length = 16) :
    ChannelSender P where
  pub := pub
  channelId := channelId
  chainId := chainId
  seed := seed
  messages := messages
  sessions n := ⟨some ⟨chainId, P.kdf.nextKey^[n] seed, UInt32.ofNat n⟩, fun _ => none⟩
  envelope n := {
    envelopeId := (messages n).envelopeId
    timestampMs := (messages n).timestampMs
    aad := envelopeAadBytes (messages n).envelopeId (messages n).timestampMs
    recipient := .channelGroupId channelId
    senderPubkey := pub
    ciphertext := P.message.encode ⟨chainId, UInt32.ofNat n, P.aead.encrypt
      (P.kdf.messageKey (P.kdf.nextKey^[n] seed)) (composeAad chainId (UInt32.ofNat n)
        (envelopeAadBytes (messages n).envelopeId (messages n).timestampMs)) (messages n).text⟩
    pqCt := [] }
  pub_length := pub_length
  channelId_length := channelId_length
  chainId_length := chainId_length
  created := ⟨.new, rfl⟩
  sends n := by
    simp only [channelEnvelope, GroupSession.encrypt, Except.map, Function.iterate_succ_apply',
      UInt32.ofNat_add]
    rfl

end ChannelSender

/-! ### One delivery -/

/-- The session after a decrypt attempt on the chain that `lazyInstall` left. -/
def openedSession (S : ChannelSender P) (cs : ChannelState K) (chain : PerPeerChain K) :
    GroupSession K :=
  { lazyInstall P cs S.pub with
    peers := Function.update (lazyInstall P cs S.pub).peers S.pub (some chain) }

/-- Delivering a sender's envelope is decrypting its message on the chain that
`lazyInstall` leaves in place. -/
theorem dispatch_envelope_eq (S : ChannelSender P) {c : ChannelClient K} {name : Bytes}
    (indexed : c.chanIdToName S.channelId = some name) {chain : PerPeerChain K}
    (chained : (lazyInstall P (c.channels name) S.pub).peers S.pub = some chain)
    (ids : chain.chainId = S.chainId) (n : Nat) (rxMs : UInt64) :
    let opened := chain.decrypt P (S.message n) (S.envelope n).aad
    c.dispatchChannel P (S.envelope n) rxMs =
      c.surface name { c.channels name with session := openedSession S (c.channels name) opened.1 }
        S.pub rxMs opened.2 := by
  intro opened
  have decrypted : (lazyInstall P (c.channels name) S.pub).decrypt P S.pub
      (P.message.encode (S.message n)) (S.envelope n).aad =
      (openedSession S (c.channels name) opened.1, opened.2) := by
    simp only [GroupSession.decrypt, Codec.decode_encode, ChannelSender.message, S.chainId_length,
      chained, ids, ne_eq, not_true, if_false]
    rfl
  have consistent : (S.envelope n).aadConsistent = true := by
    simp [Envelope.aadConsistent, S.envelope_eq n]
  rw [S.envelope_eq n] at decrypted consistent ⊢
  simp only [dispatchChannel, S.pub_length, S.channelId_length, indexed, consistent, decrypted,
    ne_eq, not_true, if_false]

/-- A byte string that `install_peer_distribution` refuses. -/
def NotDistribution (P : SenderKeys K) (dist : Bytes) : Prop :=
  ∀ chain, PerPeerChain.ofDistribution P dist ≠ .ok chain

theorem lazyInstall_of_ok {cs : ChannelState K} {chain : PerPeerChain K}
    (valid : PerPeerChain.ofDistribution P cs.ownDist = .ok chain) (sender : Bytes) :
    lazyInstall P cs sender =
      { cs.session with peers := Function.update cs.session.peers sender (some chain) } := by
  simp [lazyInstall, tryInstall, GroupSession.installPeerDistribution, valid, Except.map]

theorem lazyInstall_of_not {cs : ChannelState K} (invalid : NotDistribution P cs.ownDist)
    (sender : Bytes) : lazyInstall P cs sender = cs.session := by
  simp only [lazyInstall, tryInstall, GroupSession.installPeerDistribution]
  cases parsed : PerPeerChain.ofDistribution P cs.ownDist with
  | error => rfl
  | ok chain => exact absurd parsed (invalid chain)

/-- Under the sender's own distribution the chain is rewound first, so message
`n` opens whenever it is at most `kMaxSkip` from the start. -/
theorem dispatch_rewound (S : ChannelSender P) {c : ChannelClient K} {name : Bytes}
    (indexed : c.chanIdToName S.channelId = some name)
    (own : PerPeerChain.ofDistribution P (c.channels name).ownDist = .ok S.freshChain)
    {n : Nat} (near : n ≤ kMaxSkip) (rxMs : UInt64) :
    (c.dispatchChannel P (S.envelope n) rxMs).2 = some (S.messages n).text := by
  have bound : n ≤ 1000 := near
  have small : (UInt32.ofNat n).toNat = n := UInt32.toNat_ofNat_of_lt (by
    rw [UInt32.size]
    omega)
  have chained : (lazyInstall P (c.channels name) S.pub).peers S.pub = some S.freshChain := by
    rw [lazyInstall_of_ok own]
    simp
  obtain ⟨chain', opened, -⟩ := S.freshChain.decrypt_genuine (P := P) (S.message n)
    (S.envelope n).aad (S.messages n).text n near
    (by simp [ChannelSender.freshChain, ChannelSender.message, small])
    (by simp [ChannelSender.freshChain])
    (by simp [ChannelSender.message, ChannelSender.freshChain, S.envelope_eq n])
  rw [dispatch_envelope_eq S indexed chained rfl n rxMs]
  simp [opened, surface]

/-- With no distribution to install, the next message opens and the chain moves
on by one. -/
theorem dispatch_next (S : ChannelSender P) {c : ChannelClient K} {name : Bytes}
    (indexed : c.chanIdToName S.channelId = some name)
    (invalid : NotDistribution P (c.channels name).ownDist) {n : Nat}
    (chained : (c.channels name).session.peers S.pub = some (S.chainAfter n)) (rxMs : UInt64) :
    c.dispatchChannel P (S.envelope n) rxMs =
      c.surface name { c.channels name with
          session := openedSession S (c.channels name) (S.chainAfter (n + 1)) }
        S.pub rxMs (some (S.messages n).text) := by
  rw [← lazyInstall_of_not invalid S.pub] at chained
  obtain ⟨chain', opened, ids, keys, index, skipped⟩ := (S.chainAfter n).decrypt_genuine (P := P)
    (S.message n) (S.envelope n).aad (S.messages n).text 0 (Nat.zero_le _) rfl
    (by simp [ChannelSender.chainAfter])
    (by simp [ChannelSender.message, ChannelSender.chainAfter, S.envelope_eq n])
  have after : chain' = S.chainAfter (n + 1) := by
    obtain ⟨chainId, chainKey, nextIndex, cache⟩ := chain'
    simp only at ids keys index skipped
    subst ids keys index
    simp only [skipped trivial, ChannelSender.chainAfter, ChannelSender.message,
      Function.iterate_succ_apply', UInt32.ofNat_add, Function.iterate_zero, id_eq]
    rfl
  rw [dispatch_envelope_eq S indexed chained rfl n rxMs, opened, after]

/-- A second copy of the message the chain has just passed is dropped. At the
wrap of the 32-bit index it is not behind the chain but far ahead of it. -/
theorem dispatch_again (S : ChannelSender P) {c : ChannelClient K} {name : Bytes}
    (indexed : c.chanIdToName S.channelId = some name)
    (invalid : NotDistribution P (c.channels name).ownDist) {n : Nat}
    (chained : (c.channels name).session.peers S.pub = some (S.chainAfter (n + 1)))
    (rxMs : UInt64) :
    c.dispatchChannel P (S.envelope n) rxMs =
      c.surface name { c.channels name with
          session := openedSession S (c.channels name) (S.chainAfter (n + 1)) }
        S.pub rxMs none := by
  have outside : (S.message n).index < (S.chainAfter (n + 1)).nextIndex ∨
      kMaxSkip < ((S.message n).index - (S.chainAfter (n + 1)).nextIndex).toNat := by
    simp only [ChannelSender.message, ChannelSender.chainAfter, UInt32.ofNat_add]
    generalize UInt32.ofNat n = i
    by_cases last : i.toNat + 1 = 2 ^ 32
    · right
      have : i = 4294967295 := UInt32.toNat_inj.mp (by simp; omega)
      subst this
      decide
    · left
      have bound := i.toNat_lt
      rw [UInt32.lt_iff_toNat_lt, UInt32.toNat_add]
      simp
      omega
  rw [← lazyInstall_of_not invalid S.pub] at chained
  rw [dispatch_envelope_eq S indexed chained rfl n rxMs,
    PerPeerChain.decrypt_outside (by simp [ChannelSender.chainAfter]) outside]

/-! ### Runs -/

/-- The client together with the number of distinct envelopes of the sender that
were handed to it. -/
structure Delivery (K : Type) where
  client : ChannelClient K
  count : Nat

/-- `deliver n surfaced`: the sender's `n`-th envelope was handed in at time
`rxMs`, with what was surfaced; `other`: an envelope of somebody else. -/
inductive DeliveryEvent where
  | deliver (n : Nat) (rxMs : UInt64) (surfaced : Option Bytes)
  | other (env : Envelope) (rxMs : UInt64)
  | restart

/-- Envelopes come in sending order: the next one, or the last one again. -/
def DeliveryStep (S : ChannelSender P) (s : Delivery K) : DeliveryEvent → Delivery K → Prop
  | .deliver n rxMs surfaced, t => (n = s.count ∨ n + 1 = s.count) ∧
      s.client.dispatchChannel P (S.envelope n) rxMs = (t.client, surfaced) ∧
      t.count = max s.count (n + 1)
  | .other env rxMs, t => env.senderPubkey ≠ S.pub ∧
      (s.client.dispatchChannel P env rxMs).1 = t.client ∧ t.count = s.count
  | .restart, t => t.client = s.client.restart P ∧ t.count = s.count

/-- The envelope was appended to the inbox and signalled. -/
def DeliveryEvent.surfaces (n : Nat) : DeliveryEvent → Bool
  | .deliver m _ surfaced => m = n && surfaced.isSome
  | _ => false

/-- Every envelope that was handed in has been surfaced exactly once. -/
def SurfacedOnce (events : List DeliveryEvent) : Prop :=
  ∀ n rxMs surfaced, .deliver n rxMs surfaced ∈ events →
    events.countP (DeliveryEvent.surfaces n) = 1

/-- When a step does what delivery promises. An `own_dist` that is a distribution
must be the sender's, and then only a first copy of one of the first messages is
safe; one that is none leaves the chain alone, but a restart would still install
a distribution persisted for the sender. -/
def Deliverable (S : ChannelSender P) (name : Bytes) (s : Delivery K) : DeliveryEvent → Prop
  | .deliver n _ _ =>
    match PerPeerChain.ofDistribution P (s.client.channels name).ownDist with
    | .ok chain => chain = S.freshChain ∧ n = s.count ∧ n ≤ kMaxSkip
    | .error _ => True
  | .other _ _ => True
  | .restart =>
    match PerPeerChain.ofDistribution P (s.client.channels name).ownDist with
    | .ok _ => True
    | .error _ => ∀ row ∈ s.client.store.chanPeers S.channelId, row.1 = S.pub →
        NotDistribution P row.2

/-- The channel `name` as the client holds and stores it: it alone is stored
under the sender's channel id, and unless its `own_dist` is installed anyway, the
sender's chain stands behind `count` messages in memory and on disk. -/
structure Following (S : ChannelSender P) (name : Bytes) (s : Delivery K) : Prop where
  indexed : s.client.chanIdToName S.channelId = some name
  row : s.client.store.chanState[name]? =
    some ⟨S.channelId, (s.client.channels name).ownDist⟩
  alone : ∀ other otherRow, s.client.store.chanState[other]? = some otherRow →
    otherRow.channelId = S.channelId → other = name
  chained : NotDistribution P (s.client.channels name).ownDist →
    (s.client.channels name).session.peers S.pub = some (S.chainAfter s.count) ∧
    ∃ saved, s.client.store.sessions (chanStateKey name) = some saved ∧
      saved.peers S.pub = some (S.ownAfter s.count)

theorem surface_ownDist (c : ChannelClient K) (name other : Bytes) (session : GroupSession K)
    (sender : Bytes) (rxMs : UInt64) (pt : Option Bytes) :
    ((c.surface other { c.channels other with session } sender rxMs pt).1.channels name).ownDist =
      (c.channels name).ownDist := by
  rw [(surface_frame c other _ sender rxMs pt).1]
  by_cases same : name = other
  · subst same
    simp
  · simp [same]

/-- After `surface` only the state of the sender's chain is in question. -/
theorem following_surface {S : ChannelSender P} {name : Bytes} {s : Delivery K}
    (following : Following S name s) {other : Bytes} {session : GroupSession K} {sender : Bytes}
    {rxMs : UInt64} {pt : Option Bytes} {t : Delivery K}
    (reached : t.client =
      (s.client.surface other { s.client.channels other with session } sender rxMs pt).1)
    (chained : NotDistribution P (s.client.channels name).ownDist →
      (t.client.channels name).session.peers S.pub = some (S.chainAfter t.count) ∧
      ∃ saved, t.client.store.sessions (chanStateKey name) = some saved ∧
        saved.peers S.pub = some (S.ownAfter t.count)) : Following S name t := by
  obtain ⟨-, index, rows, -, -⟩ := surface_frame s.client other
    { s.client.channels other with session } sender rxMs pt
  have ownDist := surface_ownDist s.client name other session sender rxMs pt
  rw [← reached] at index rows ownDist
  refine ⟨?_, ?_, ?_, ?_⟩
  · rw [index, following.indexed]
  · rw [rows, ownDist, following.row]
  · rw [rows]
    exact following.alone
  · rw [ownDist]
    exact chained

theorem serialize_chainAfter {S : ChannelSender P} {session : GroupSession K} {n : Nat}
    (chained : session.peers S.pub = some (S.chainAfter n)) :
    session.serializeState.peers S.pub = some (S.ownAfter n) := by
  simp [GroupSession.serializeState, chained, ChannelSender.chainAfter, ChannelSender.ownAfter]

theorem chanStateKey_injective : Function.Injective chanStateKey := by
  intro a b same
  exact List.append_cancel_left same

theorem following_other {S : ChannelSender P} {name : Bytes} {s t : Delivery K}
    (following : Following S name s) {env : Envelope} {rxMs : UInt64}
    (foreign : env.senderPubkey ≠ S.pub)
    (reached : (s.client.dispatchChannel P env rxMs).1 = t.client) (count : t.count = s.count) :
    Following S name t := by
  rcases dispatch_cases (P := P) s.client env rxMs with
    ignored | ⟨other, session, pt, -, kept, eq⟩
  · have same : t = s := by
      cases t
      cases s
      simp_all
    exact same ▸ following
  · rw [eq] at reached
    refine following_surface following reached.symm fun invalid => ?_
    obtain ⟨memory, saved, disk, savedChain⟩ := following.chained invalid
    obtain ⟨channels, -, -, -, sessions⟩ := surface_frame s.client other
      { s.client.channels other with session } env.senderPubkey rxMs pt
    rw [reached] at channels sessions
    rw [count]
    by_cases same : name = other
    · subst same
      have chain : session.peers S.pub = some (S.chainAfter s.count) := by
        rw [kept.2 S.pub (Ne.symm foreign), memory]
      refine ⟨by rw [channels, Function.update_self]; exact chain, ?_⟩
      rcases sessions with same | written
      · exact ⟨saved, by rw [same, disk], savedChain⟩
      · exact ⟨_, by rw [written, Function.update_self], serialize_chainAfter chain⟩
    · refine ⟨by rw [channels, Function.update_of_ne same]; exact memory, saved, ?_, savedChain⟩
      rcases sessions with unchanged | written
      · rw [unchanged, disk]
      · rw [written, Function.update_of_ne (fun h => same (chanStateKey_injective h)), disk]

/-- What a permitted delivery surfaces: a first copy its text, a second nothing. -/
theorem following_deliver {S : ChannelSender P} {name : Bytes} {s t : Delivery K}
    (following : Following S name s) {n : Nat} {rxMs : UInt64} {surfaced : Option Bytes}
    (allowed : Deliverable S name s (.deliver n rxMs surfaced))
    (taken : DeliveryStep S s (.deliver n rxMs surfaced) t) :
    Following S name t ∧
    ((n = s.count ∧ t.count = s.count + 1 ∧ surfaced = some (S.messages n).text) ∨
      (n + 1 = s.count ∧ t.count = s.count ∧ surfaced = none)) := by
  obtain ⟨order, dispatched, count⟩ := taken
  simp only [Deliverable] at allowed
  split at allowed
  next chain valid =>
    obtain ⟨rfl, rfl, near⟩ := allowed
    have opened := dispatch_rewound S following.indexed valid near rxMs
    rw [dispatched] at opened
    refine ⟨?_, .inl ⟨rfl, by omega, opened⟩⟩
    rcases dispatch_cases (P := P) s.client (S.envelope s.count) rxMs with
      ignored | ⟨other, session, pt, -, -, shape⟩
    · rw [dispatched] at ignored
      rw [(Prod.mk.inj ignored).2] at opened
      contradiction
    · rw [dispatched] at shape
      exact following_surface following (congrArg Prod.fst shape) fun invalid =>
        absurd valid (invalid _)
  next failure refused =>
    have invalid : NotDistribution P (s.client.channels name).ownDist := by
      intro chain parsed
      rw [refused] at parsed
      contradiction
    obtain ⟨memory, saved, disk, savedChain⟩ := following.chained invalid
    rcases order with rfl | again
    · have shape := dispatch_next S following.indexed invalid memory rxMs
      rw [dispatched] at shape
      have reached : t.client = _ := congrArg Prod.fst shape
      have raised : t.count = s.count + 1 := by omega
      refine ⟨?_, .inl ⟨rfl, raised, congrArg Prod.snd shape⟩⟩
      refine following_surface following reached fun _ => ?_
      rw [reached, raised]
      have chain : (openedSession S (s.client.channels name) (S.chainAfter (s.count + 1))).peers
          S.pub = some (S.chainAfter (s.count + 1)) := by simp [openedSession]
      refine ⟨?_, _, Function.update_self _ _ _, serialize_chainAfter chain⟩
      simpa [surface, persistChanSession, chanAppendInbox, setChannel] using chain
    · have shape := dispatch_again S following.indexed invalid (n := n) (again ▸ memory) rxMs
      rw [dispatched] at shape
      have reached : t.client = _ := congrArg Prod.fst shape
      have same : t.count = s.count := by omega
      refine ⟨?_, .inr ⟨again, same, congrArg Prod.snd shape⟩⟩
      refine following_surface following reached fun _ => ?_
      rw [reached, same]
      refine ⟨?_, saved, disk, savedChain⟩
      simp [surface, setChannel, openedSession, again]

/-! ### Restarts -/

/-- Installing persisted distributions keeps the chain of a peer for whom none
of them is one. -/
theorem foldl_install_peers (rows : List (Bytes × Bytes)) (session : GroupSession K)
    {peer : Bytes} (refused : ∀ row ∈ rows, row.1 = peer → NotDistribution P row.2) :
    (rows.foldl (fun s peerRow => tryInstall P s peerRow.1 peerRow.2) session).peers peer =
      session.peers peer := by
  induction rows generalizing session with
  | nil => rfl
  | cons row rest ih =>
    rw [List.foldl_cons, ih _ fun r member => refused r (List.mem_cons_of_mem _ member)]
    simp only [tryInstall, GroupSession.installPeerDistribution]
    cases parsed : PerPeerChain.ofDistribution P row.2 with
    | error => rfl
    | ok chain =>
      have ne : peer ≠ row.1 := by
        rintro rfl
        exact refused row List.mem_cons_self rfl chain parsed
      simp [Except.map, ne]

/-- The restored index leads back to the only channel stored under the id. -/
theorem restart_indexed {S : ChannelSender P} {name : Bytes} {s : Delivery K}
    (following : Following S name s) :
    (s.client.restart P).chanIdToName S.channelId = some name := by
  have member : (name, (⟨S.channelId, (s.client.channels name).ownDist⟩ : ChannelRow)) ∈
      (s.client.store.chanState.toList.filter (·.2.channelId.length = 32)).reverse := by
    simp only [List.mem_reverse, List.mem_filter, decide_eq_true_eq, S.channelId_length, and_true,
      Std.ExtTreeMap.mem_toList_iff_getElem?_eq_some]
    exact following.row
  have found := List.find?_isSome.mpr
    (⟨_, member, by simp⟩ : ∃ x ∈ _, decide (x.2.channelId = S.channelId) = true)
  obtain ⟨first, first_eq⟩ := Option.isSome_iff_exists.mp found
  have named : first.1 = name := by
    have inside := List.mem_of_find?_eq_some first_eq
    simp only [List.mem_reverse, List.mem_filter] at inside
    exact following.alone first.1 first.2
      (Std.ExtTreeMap.mem_toList_iff_getElem?_eq_some.mp inside.1)
      (by simpa using List.find?_some first_eq)
  simp only [restart, first_eq, Option.map_some, named]

theorem following_restart {S : ChannelSender P} {name : Bytes} {s t : Delivery K}
    (following : Following S name s) (allowed : Deliverable S name s .restart)
    (taken : DeliveryStep S s .restart t) : Following S name t := by
  obtain ⟨reached, count⟩ := taken
  have restored : (s.client.restart P).channels name = restoreChannel P s.client.store name
      ⟨S.channelId, (s.client.channels name).ownDist⟩ :=
    restart_channel following.row S.channelId_length
  have ownDist : ((s.client.restart P).channels name).ownDist =
      (s.client.channels name).ownDist := by rw [restored]; rfl
  refine ⟨?_, ?_, ?_, ?_⟩
  · rw [reached, restart_indexed following]
  · rw [reached, ownDist]
    exact following.row
  · rw [reached]
    exact following.alone
  · rw [reached, ownDist, count]
    intro invalid
    obtain ⟨memory, saved, disk, savedChain⟩ := following.chained invalid
    refine ⟨?_, saved, disk, savedChain⟩
    have refused : ∀ row ∈ s.client.store.chanPeers S.channelId, row.1 = S.pub →
        NotDistribution P row.2 := by
      simp only [Deliverable] at allowed
      split at allowed
      next chain valid => exact absurd valid (invalid chain)
      next => exact allowed
    rw [restored]
    simp only [restoreChannel, foldl_install_peers _ _ refused, disk, GroupSession.deserializeState,
      savedChain, Option.map_some]
    rfl

/-! ### Whole runs -/

theorem following_step {S : ChannelSender P} {name : Bytes} {s t : Delivery K} {e : DeliveryEvent}
    (following : Following S name s)
    (taken : Guarded (DeliveryStep S) (Deliverable S name) s e t) : Following S name t := by
  obtain ⟨allowed, taken⟩ := taken
  cases e with
  | deliver n rxMs surfaced => exact (following_deliver following allowed taken).1
  | other env rxMs => exact following_other following taken.1 taken.2.1 taken.2.2
  | restart => exact following_restart following allowed taken

/-- A permitted step surfaces the next message and nothing else, or nothing. -/
theorem following_progress {S : ChannelSender P} {name : Bytes} {s t : Delivery K}
    {e : DeliveryEvent} (following : Following S name s)
    (taken : Guarded (DeliveryStep S) (Deliverable S name) s e t) :
    (t.count = s.count ∧ ∀ n, e.surfaces n = false) ∨
    (t.count = s.count + 1 ∧ ∀ n, e.surfaces n = decide (n = s.count)) := by
  obtain ⟨allowed, taken⟩ := taken
  cases e with
  | deliver m rxMs surfaced =>
    rcases (following_deliver following allowed taken).2 with
      ⟨rfl, raised, rfl⟩ | ⟨again, same, rfl⟩
    · right
      refine ⟨raised, fun n => ?_⟩
      simp [DeliveryEvent.surfaces, eq_comm]
    · left
      exact ⟨same, fun n => by simp [DeliveryEvent.surfaces]⟩
  | other env rxMs => exact .inl ⟨taken.2.2, fun _ => rfl⟩
  | restart => exact .inl ⟨taken.2, fun _ => rfl⟩

/-- Channel messages are surfaced exactly once in every run whose steps are all
deliverable, from any state in which the client follows the sender. -/
theorem channel_messages_surfaced_once (S : ChannelSender P) (name : Bytes) (c : ChannelClient K)
    (start : Following S name ⟨c, 0⟩) {events : List DeliveryEvent} {s : Delivery K}
    (run : Run (Guarded (DeliveryStep S) (Deliverable S name)) ⟨c, 0⟩ events s) :
    SurfacedOnce events := by
  intro n rxMs surfaced member
  have once := run.fires_once (Following S name) Delivery.count DeliveryEvent.surfaces
    (fun _ _ _ => following_step) (fun _ _ _ => following_progress) start
  have below := run.mentions_below (Following S name) Delivery.count
    (fun n e => ∃ rxMs surfaced, e = .deliver n rxMs surfaced)
    (fun _ _ _ => following_step) (fun s e t following taken => by
      refine ⟨?_, ?_⟩
      · rcases following_progress following taken with ⟨same, -⟩ | ⟨raised, -⟩ <;> omega
      · rintro m ⟨rxMs, surfaced, rfl⟩
        have count := taken.2.2.2
        omega) start
  rw [once.2 n, if_pos ⟨Nat.zero_le _, below.2 _ member n ⟨rxMs, surfaced, rfl⟩⟩]

/-- The in-band invite of a sender leaves the client following it, as long as no
other channel is stored under the same id. -/
theorem acceptChannelKey_following (S : ChannelSender P) (c : ChannelClient K) (name : CString)
    {dist : Bytes} (own : PerPeerChain.ofDistribution P dist = .ok S.freshChain)
    (alone : ∀ other row, c.store.chanState[other]? = some row →
      row.channelId = S.channelId → other = name.val) :
    Following S name.val ⟨c.acceptChannelKey P S.pub S.channelId name.val dist, 0⟩ := by
  have ownDist : ((c.acceptChannelKey P S.pub S.channelId name.val dist).channels name.val).ownDist
      = dist := by
    simp [acceptChannelKey, S.channelId_length, persistChanSession, persistChanPeerDist,
      persistChanMeta, setChannel]
  refine ⟨?_, ?_, ?_, ?_⟩
  · simp [acceptChannelKey, S.channelId_length, persistChanSession, persistChanPeerDist,
      persistChanMeta]
  · rw [ownDist]
    simp [acceptChannelKey, S.channelId_length, persistChanSession, persistChanPeerDist,
      persistChanMeta]
  · intro other row stored same
    by_contra ne
    have kept : c.store.chanState[other]? = some row := by
      simpa [acceptChannelKey, S.channelId_length, persistChanSession, persistChanPeerDist,
        persistChanMeta, setChannel, Std.ExtTreeMap.getElem?_insert, Ne.symm ne] using stored
    exact ne (alone other row kept same)
  · rw [ownDist]
    exact fun invalid => absurd own (invalid _)

/-- Alice sends "hi" over and over. -/
private noncomputable def alice : ChannelSender SenderKeys.nat :=
  .create .nat (List.replicate 32 1) (List.replicate 32 2) (List.replicate 16 3) 5
    (fun _ => ⟨List.replicate 16 4, 7, ascii "hi"⟩) rfl rfl rfl

private noncomputable def aliceDist : Bytes :=
  SenderKeys.nat.distribution.encode ⟨alice.chainId, some alice.seed, 0⟩

private theorem aliceDist_valid :
    PerPeerChain.ofDistribution SenderKeys.nat aliceDist = .ok alice.freshChain := by
  simp only [PerPeerChain.ofDistribution, aliceDist, Codec.decode_encode]
  rfl

/-- Bob has accepted Alice's invite to the channel `room`. -/
private noncomputable def bobClient : ChannelClient Nat :=
  ChannelClient.new.acceptChannelKey .nat alice.pub alice.channelId (cstr (ascii "room")).val
    aliceDist

/-- Bob's client while he is in Alice's channel. -/
private structure WithAlice (s : Delivery Nat) : Prop where
  indexed : s.client.chanIdToName alice.channelId = some (ascii "room")
  ownDist : (s.client.channels (ascii "room")).ownDist = aliceDist

private theorem bob_following : Following alice (ascii "room") ⟨bobClient, 0⟩ :=
  acceptChannelKey_following alice .new (cstr (ascii "room")) aliceDist_valid
    (by simp [ChannelClient.new])

private theorem bob_withAlice : WithAlice ⟨bobClient, 0⟩ :=
  ⟨bob_following.indexed, by
    simp [bobClient, acceptChannelKey, alice.channelId_length, persistChanSession,
      persistChanPeerDist, persistChanMeta, setChannel, show (cstr (ascii "room")).val =
        ascii "room" by decide]⟩

/-- Every one of Alice's first messages surfaces, as often as it comes. -/
private theorem withAlice_deliver {s : Delivery Nat} (bob : WithAlice s) {n : Nat}
    (order : n = s.count ∨ n + 1 = s.count) (near : n ≤ kMaxSkip) :
    ∃ t, DeliveryStep alice s (.deliver n 0 (some (ascii "hi"))) t ∧ WithAlice t ∧
      t.count = max s.count (n + 1) := by
  have opened := dispatch_rewound alice bob.indexed (by rw [bob.ownDist]; exact aliceDist_valid)
    near 0
  refine ⟨⟨(s.client.dispatchChannel SenderKeys.nat (alice.envelope n) 0).1, max s.count (n + 1)⟩,
    ⟨order, Prod.ext rfl opened, rfl⟩, ?_, rfl⟩
  rcases dispatch_cases (P := SenderKeys.nat) s.client (alice.envelope n) 0 with
    ignored | ⟨other, session, pt, -, -, shape⟩
  · rw [ignored] at opened
    contradiction
  · refine ⟨?_, ?_⟩
    · rw [shape, (surface_frame s.client other _ _ 0 pt).2.1, bob.indexed]
    · rw [shape, surface_ownDist, bob.ownDist]

private theorem withAlice_deliverable {s : Delivery Nat} (bob : WithAlice s) {n : Nat}
    (first : n = s.count) (near : n ≤ kMaxSkip) (surfaced : Option Bytes) :
    Deliverable alice (ascii "room") s (.deliver n 0 surfaced) := by
  simp only [Deliverable, bob.ownDist, aliceDist_valid]
  exact ⟨trivial, first, near⟩

theorem alice_surfaced_once_across_restart :
    SurfacedOnce [.deliver 0 0 (some (ascii "hi")), .restart, .deliver 1 0 (some (ascii "hi"))] := by
  obtain ⟨s₁, step₁, bob₁, count₁⟩ := withAlice_deliver bob_withAlice (.inl rfl) (Nat.zero_le _)
  have follow₁ := following_step bob_following
    ⟨withAlice_deliverable bob_withAlice rfl (Nat.zero_le _) _, step₁⟩
  let s₂ : Delivery Nat := ⟨s₁.client.restart SenderKeys.nat, s₁.count⟩
  have restartable : Deliverable alice (ascii "room") s₁ .restart := by
    simp only [Deliverable, bob₁.ownDist, aliceDist_valid]
  have step₂ : DeliveryStep alice s₁ .restart s₂ := ⟨rfl, rfl⟩
  have follow₂ : Following alice (ascii "room") s₂ :=
    following_step follow₁ ⟨restartable, step₂⟩
  have bob₂ : WithAlice s₂ := by
    refine ⟨follow₂.indexed, ?_⟩
    have row := follow₁.row
    rw [bob₁.ownDist] at row
    have row' := follow₂.row
    rw [show s₂.client.store = s₁.client.store from rfl, row] at row'
    simpa using row'.symm
  have second : 1 = s₂.count := count₁.symm
  obtain ⟨s₃, step₃, -, -⟩ := withAlice_deliver bob₂ (.inl second) (by decide)
  exact channel_messages_surfaced_once alice (ascii "room") bobClient bob_following
    (.cons ⟨withAlice_deliverable bob_withAlice rfl (Nat.zero_le _) _, step₁⟩
      (.cons ⟨restartable, step₂⟩
        (.cons ⟨withAlice_deliverable bob₂ second (by decide) _, step₃⟩ (.nil _))))

/-- The same envelope through the relay and through gossip shows up twice. -/
theorem duplicate_surfaced_twice :
    ¬ ∀ (K : Type) (P : SenderKeys K) (S : ChannelSender P) (name : Bytes) (c : ChannelClient K)
      (events : List DeliveryEvent) (s : Delivery K), Following S name ⟨c, 0⟩ →
      Run (DeliveryStep S) ⟨c, 0⟩ events s → SurfacedOnce events := by
  intro claimed
  obtain ⟨s₁, step₁, bob₁, count₁⟩ := withAlice_deliver bob_withAlice (.inl rfl) (Nat.zero_le _)
  obtain ⟨s₂, step₂, -, -⟩ := withAlice_deliver bob₁ (n := 0) (.inr count₁.symm) (Nat.zero_le _)
  have once := claimed Nat .nat alice (ascii "room") bobClient _ s₂ bob_following
    (.cons step₁ (.cons step₂ (.nil _))) 0 0 (some (ascii "hi")) List.mem_cons_self
  simp [DeliveryEvent.surfaces] at once

end FinBit.Desktop
