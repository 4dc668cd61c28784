import FinBit.Desktop.Channels
import FinBit.Lib.SavedChain

/-! # Sending to a channel

One `kSend` operation encrypts, writes the envelope to the relay socket,
publishes it through gossip and only then saves the session. The steps are kept
apart here, because the process may die between any two of them and come back
with the session that was last saved.

A message key is used twice when the saved sending chain is behind a ciphertext
that has left the machine. `unsaved` records exactly that: an envelope was
written since the session was last saved.
-/

namespace FinBit.Desktop

open FinBit.Lib FinBit.Crypto ChannelClient

variable {K : Type} {P : SenderKeys K}

/-! ### The worker while it sends -/

/-- Where the worker stands inside a `kSend`, with the derived message key and
the envelope it holds. -/
inductive SendProgress (K : Type) where
  | idle
  | encrypted (key : K) (env : Envelope)
  | written (key : K) (env : Envelope)
  | published (key : K) (env : Envelope)

/-- The envelope in the worker's hands. -/
def SendProgress.held : SendProgress K → Option (K × Envelope)
  | .idle => none
  | .encrypted key env => some (key, env)
  | .written key env => some (key, env)
  | .published key env => some (key, env)

/-- `seeds` lists the chain seeds drawn so far. -/
structure SendState (K : Type) where
  client : ChannelClient K
  progress : SendProgress K
  unsaved : Bool
  seeds : List K

/-- What the network sees of a step. -/
inductive SendEvent (K : Type) where
  | internal
  | wrote (key : K) (env : Envelope)
  | restart

/-- The steps of a client with identity `pub` on the channel `name`. -/
inductive SendStep (P : SenderKeys K) (name pub : Bytes) :
    SendState K → SendEvent K → SendState K → Prop where
  /-- `create_own_send_chain`, by a create or invite operation. -/
  | create {s : SendState K} {chainId : Bytes} {seed : K} (idle : s.progress = .idle)
      (drawn : P.kdf.IsSeed seed) (fresh : seed ∉ s.seeds) :
      SendStep P name pub s .internal { s with
        client := s.client.setChannel name { s.client.channels name with
          session := ((s.client.channels name).session.createOwnSendChain P chainId seed).1
          ownDist := ((s.client.channels name).session.createOwnSendChain P chainId seed).2 }
        seeds := seed :: s.seeds }
  /-- The other operations that persist the channel. -/
  | persist {s : SendState K} (idle : s.progress = .idle) :
      SendStep P name pub s .internal { s with
        client := (s.client.persistChanMeta name (s.client.channels name)).persistChanSession name
          (s.client.channels name)
        unsaved := false }
  /-- An inbound envelope; if it is surfaced on this channel, the session is saved. -/
  | receive {s : SendState K} (env : Envelope) (rxMs : UInt64) (idle : s.progress = .idle) :
      SendStep P name pub s .internal { s with
        client := (s.client.dispatchChannel P env rxMs).1
        unsaved := s.unsaved && !(decide (s.client.target env = some name) &&
          (s.client.dispatchChannel P env rxMs).2.isSome) }
  | encrypt {s : SendState K} {out : Outgoing} {own : OwnChain K} {session : GroupSession K}
      {env : Envelope} (idle : s.progress = .idle)
      (joined : (s.client.channels name).ownDist ≠ [])
      (chain : (s.client.channels name).session.own = some own)
      (built : channelEnvelope P (s.client.channels name).session pub
        (s.client.channels name).id out = .ok (session, env)) :
      SendStep P name pub s .internal { s with
        client := s.client.setChannel name { s.client.channels name with session }
        progress := .encrypted (P.kdf.messageKey own.chainKey) env }
  | write {s : SendState K} {key : K} {env : Envelope} (held : s.progress = .encrypted key env) :
      SendStep P name pub s (.wrote key env)
        { s with progress := .written key env, unsaved := true }
  | publish {s : SendState K} {key : K} {env : Envelope} (held : s.progress = .written key env) :
      SendStep P name pub s (.wrote key env)
        { s with progress := .published key env, unsaved := true }
  /-- `persist_chan_session` at the end; gossip may not be wired. -/
  | save {s : SendState K} {key : K} {env : Envelope}
      (held : s.progress = .written key env ∨ s.progress = .published key env) :
      SendStep P name pub s .internal { s with
        client := s.client.persistChanSession name (s.client.channels name)
        progress := .idle
        unsaved := false }
  /-- An exception ends the operation; a write that throws may have been seen. -/
  | fail {s : SendState K} : SendStep P name pub s .internal { s with progress := .idle }
  /-- The process dies and the restore loop runs. -/
  | restart {s : SendState K} :
      SendStep P name pub s .restart { s with
        client := s.client.restart P, progress := .idle }

/-- Two writes under one message key are writes of one ciphertext. -/
def KeyUsedOnce (earlier later : SendEvent K) : Prop :=
  ∀ key env env', earlier = .wrote key env → later = .wrote key env' →
    env.ciphertext = env'.ciphertext

/-- The process does not die while a written envelope is unsaved. -/
def SavedBeforeRestart (s : SendState K) : SendEvent K → Prop
  | .restart => s.unsaved = false
  | _ => True

/-! ### The sending chain on its own -/

/-- The sending chain of `name` in memory. -/
def sendingKey (c : ChannelClient K) (name : Bytes) : Option K :=
  (c.channels name).session.own.map OwnChain.chainKey

/-- The sending chain of `name` in the saved session. -/
def savedKey (c : ChannelClient K) (name : Bytes) : Option K :=
  (c.store.sessions (chanStateKey name)).bind fun saved => saved.own.map OwnChain.chainKey

/-- All that matters of a state for the use of message keys. -/
def SendState.chain (name : Bytes) (s : SendState K) : SavedChain K Bytes where
  current := sendingKey s.client name
  saved := savedKey s.client name
  held := s.progress.held.map fun (key, env) => (key, env.ciphertext)
  unsaved := s.unsaved
  seeds := s.seeds

def SendEvent.label : SendEvent K → SavedChain.Label K Bytes
  | .internal => .silent
  | .wrote key env => .used key env.ciphertext
  | .restart => .crash

theorem savedKey_persist (c : ChannelClient K) (name : Bytes) (cs : ChannelState K) :
    savedKey (c.persistChanSession name cs) name = cs.session.own.map OwnChain.chainKey := by
  simp [savedKey, persistChanSession, GroupSession.serializeState]

/-- An envelope leaves the sending chain alone; the saved one stays too, or, if
the envelope is surfaced on the channel, becomes the one in memory. -/
theorem dispatch_keys (c : ChannelClient K) (name : Bytes) (env : Envelope) (rxMs : UInt64) :
    sendingKey (c.dispatchChannel P env rxMs).1 name = sendingKey c name ∧
    if c.target env = some name ∧ (c.dispatchChannel P env rxMs).2.isSome then
      savedKey (c.dispatchChannel P env rxMs).1 name = sendingKey c name
    else savedKey (c.dispatchChannel P env rxMs).1 name = savedKey c name := by
  rcases dispatch_cases (P := P) c env rxMs with ignored | ⟨other, session, pt, named, kept, shape⟩
  · simp [ignored]
  · have memory : sendingKey (c.dispatchChannel P env rxMs).1 name = sendingKey c name := by
      rw [shape, sendingKey, sendingKey, (surface_frame c other _ _ rxMs pt).1]
      by_cases same : name = other
      · subst same
        simp [kept.1]
      · simp [same]
    refine ⟨memory, ?_⟩
    by_cases same : name = other
    · subst same
      cases pt with
      | none => simp [shape, surface, savedKey, setChannel]
      | some pt =>
        rw [if_pos ⟨named, by simp [shape, surface]⟩, shape]
        simp [surface, savedKey, sendingKey, persistChanSession, chanAppendInbox,
          GroupSession.serializeState, kept.1]
    · rw [if_neg (by simp [named, Ne.symm same]), shape]
      rcases (surface_frame c other { c.channels other with session } env.senderPubkey rxMs
        pt).2.2.2.2 with unchanged | written
      · rw [savedKey, unchanged]
        rfl
      · have ne : chanStateKey name ≠ chanStateKey other :=
          fun h => same (List.append_cancel_left h)
        rw [savedKey, written, Function.update_of_ne ne]
        rfl

/-- The restore loop brings the saved chain back, or none. -/
theorem restart_sendingKey (c : ChannelClient K) (name : Bytes) :
    sendingKey (c.restart P) name = savedKey c name ∨ sendingKey (c.restart P) name = none := by
  simp only [sendingKey, restart]
  split
  · split
    · simp only [restoreChannel, foldl_tryInstall_own, savedKey]
      split
      next saved stored =>
        left
        simp [stored, GroupSession.deserializeState]
      · right
        rfl
    · right
      rfl
  · right
    rfl

/-- Seen from the sending chain, the client is a chain that is saved and
restored. -/
theorem send_simulates {name pub : Bytes} {s t : SendState K} {e : SendEvent K}
    (taken : SendStep P name pub s e t) :
    SavedChain.Step P.kdf (s.chain name) e.label (t.chain name) := by
  have resting : s.progress = .idle → (s.chain name).held = none := by
    intro idle
    simp [SendState.chain, idle, SendProgress.held]
  cases taken with
  | create idle drawn fresh =>
    refine (SavedChain.Step.start (resting idle) drawn fresh).to ?_
    simp [SendState.chain, sendingKey, savedKey, setChannel, GroupSession.createOwnSendChain]
  | persist idle =>
    refine SavedChain.Step.save.to ?_
    simp only [SendState.chain, savedKey_persist, idle, SendProgress.held, Option.map_none]
    rfl
  | receive env rxMs idle =>
    obtain ⟨memory, disk⟩ := dispatch_keys (P := P) s.client name env rxMs
    split at disk
    next surfaced =>
      refine SavedChain.Step.save.to ?_
      simp [SendState.chain, memory, disk, surfaced, idle, SendProgress.held]
    next quiet =>
      have unsaved : (decide (s.client.target env = some name) &&
          (s.client.dispatchChannel P env rxMs).2.isSome) = false := by
        simpa using quiet
      refine SavedChain.Step.skip.to ?_
      simp [SendState.chain, memory, disk, unsaved]
  | @encrypt out own session env idle joined chain built =>
    have current : (s.chain name).current = some own.chainKey := by
      simp [SendState.chain, sendingKey, chain]
    refine (SavedChain.Step.advance env.ciphertext current).to ?_
    simp only [channelEnvelope, GroupSession.encrypt, chain, Except.map, Except.ok.injEq,
      Prod.mk.injEq] at built
    obtain ⟨rfl, -⟩ := built
    simp [SendState.chain, sendingKey, savedKey, setChannel, SendProgress.held]
  | write held =>
    refine (SavedChain.Step.use (by simp [SendState.chain, held, SendProgress.held])).to ?_
    simp [SendState.chain, sendingKey, savedKey, held, SendProgress.held]
  | publish held =>
    refine (SavedChain.Step.use (by simp [SendState.chain, held, SendProgress.held])).to ?_
    simp [SendState.chain, sendingKey, savedKey, held, SendProgress.held]
  | save held =>
    refine SavedChain.Step.save.to ?_
    simp only [SendState.chain, savedKey_persist, SendProgress.held, Option.map_none]
    rfl
  | fail => exact SavedChain.Step.release
  | restart => exact .crash _ (restart_sendingKey s.client name)

/-- No message key is used for two ciphertexts in a run that never dies with a
written envelope unsaved. The client may start with any channel whose chains, if
it has any, were drawn as `seeds`. -/
theorem message_keys_used_once (P : SenderKeys K) (name pub : Bytes) {s t : SendState K}
    (start : SavedChain.WellFormed P.kdf (s.chain name)) {events : List (SendEvent K)}
    (run : Run (Guarded (SendStep P name pub) SavedBeforeRestart) s events t) :
    events.Pairwise KeyUsedOnce := by
  have simulated : Run (Guarded (SavedChain.Step P.kdf) SavedChain.Safe) (s.chain name)
      (events.map SendEvent.label) (t.chain name) := by
    refine run.simulate (SendState.chain name) SendEvent.label ?_
    rintro s e t ⟨allowed, taken⟩
    refine ⟨?_, send_simulates taken⟩
    cases e with
    | internal => trivial
    | wrote => trivial
    | restart => exact allowed
  have pairs := List.pairwise_map.mp (SavedChain.used_once start simulated)
  refine pairs.imp ?_
  rintro e f related key env env' rfl rfl
  exact related key env.ciphertext env'.ciphertext rfl rfl

/-- A client that has never sent on any channel. -/
def SendState.new : SendState K := ⟨ChannelClient.new, .idle, false, []⟩

theorem new_wellFormed (P : SenderKeys K) (name : Bytes) :
    SavedChain.WellFormed P.kdf (SendState.new.chain name : SavedChain K Bytes) := by
  refine ⟨by simp [SendState.new, SendState.chain], ?_, ?_, ?_⟩
  · intro key member
    simp [SendState.new, SendState.chain, sendingKey, ChannelClient.new, ChannelState.new,
      GroupSession.new] at member
  · intro key member
    simp [SendState.new, SendState.chain, savedKey, ChannelClient.new] at member
  · intro key text held
    simp [SendState.new, SendState.chain, SendProgress.held] at held

/-- The ciphertext of a message under the chain `own`. -/
def ciphertextOf (P : SenderKeys K) (own : OwnChain K) (out : Outgoing) : Bytes :=
  P.message.encode ⟨own.chainId, own.nextIndex, P.aead.encrypt (P.kdf.messageKey own.chainKey)
    (composeAad own.chainId own.nextIndex
      (envelopeAadBytes out.envelopeId out.timestampMs)) out.text⟩

/-- A client with a chain can encrypt and write any message. -/
theorem exists_write {name : Bytes} (pub : Bytes) {s : SendState K} {own : OwnChain K}
    (idle : s.progress = .idle) (joined : (s.client.channels name).ownDist ≠ [])
    (chain : (s.client.channels name).session.own = some own) (out : Outgoing) :
    ∃ t env, Run (Guarded (SendStep P name pub) SavedBeforeRestart) s
        [.internal, .wrote (P.kdf.messageKey own.chainKey) env] t ∧
      env.ciphertext = ciphertextOf P own out ∧ t.client.store = s.client.store ∧
      t.progress = .written (P.kdf.messageKey own.chainKey) env ∧ t.seeds = s.seeds := by
  obtain ⟨session, env, built, text⟩ : ∃ session env, channelEnvelope P
      (s.client.channels name).session pub (s.client.channels name).id out = .ok (session, env) ∧
      env.ciphertext = ciphertextOf P own out := by
    simp [channelEnvelope, GroupSession.encrypt, chain, Except.map, ciphertextOf]
  exact ⟨_, env, .cons ⟨trivial, .encrypt idle joined chain built⟩
    (.cons ⟨trivial, .write rfl⟩ (.nil _)), text, rfl, rfl, rfl⟩

/-- The channel `name` is in the store, with a chain at its start. -/
def StoredAtStart (P : SenderKeys K) (c : ChannelClient K) (name chainId : Bytes) (seed : K) :
    Prop :=
  c.store.chanState[name]? = some ⟨List.replicate 32 0,
    P.distribution.encode ⟨chainId, some seed, 0⟩⟩ ∧
  ∃ saved, c.store.sessions (chanStateKey name) = some saved ∧
    saved.own = some ⟨chainId, seed, 0⟩

/-- A channel can be created and persisted. -/
theorem exists_created (P : SenderKeys K) (name : CString) (pub chainId : Bytes) {seed : K}
    (drawn : P.kdf.IsSeed seed) :
    ∃ s, Run (Guarded (SendStep P name.val pub) SavedBeforeRestart) .new [.internal, .internal] s ∧
      s.progress = .idle ∧ StoredAtStart P s.client name.val chainId seed ∧
      (s.client.channels name.val).session.own = some ⟨chainId, seed, 0⟩ ∧
      (s.client.channels name.val).ownDist = P.distribution.encode ⟨chainId, some seed, 0⟩ := by
  have create : SendStep P name.val pub .new .internal _ :=
    @SendStep.create K P name.val pub .new chainId seed rfl drawn (by simp [SendState.new])
  refine ⟨_, .cons ⟨trivial, create⟩ (.cons ⟨trivial, .persist rfl⟩ (.nil _)), rfl, ⟨?_, ?_⟩,
    ?_, ?_⟩
  · simp [SendState.new, persistChanSession, persistChanMeta, setChannel, ChannelClient.new,
      ChannelState.new, GroupSession.createOwnSendChain]
  · simp [SendState.new, persistChanSession, persistChanMeta, setChannel,
      GroupSession.createOwnSendChain, GroupSession.serializeState]
  · simp [persistChanSession, persistChanMeta, setChannel, GroupSession.createOwnSendChain]
  · simp [persistChanSession, persistChanMeta, setChannel, GroupSession.createOwnSendChain]

/-- A restart puts such a channel back to its start. -/
theorem restart_atStart {c : ChannelClient K} {name chainId : Bytes} {seed : K}
    (stored : StoredAtStart P c name chainId seed) :
    ((c.restart P).channels name).session.own = some ⟨chainId, seed, 0⟩ ∧
    ((c.restart P).channels name).ownDist = P.distribution.encode ⟨chainId, some seed, 0⟩ := by
  obtain ⟨row, saved, disk, own⟩ := stored
  rw [restart_channel row (by simp)]
  simp [restoreChannel, foldl_tryInstall_own, disk, GroupSession.deserializeState, own]

private def room : CString := cstr (ascii "room")

private theorem zero_seed : SenderKeys.nat.kdf.IsSeed 0 := by
  intro k
  simp [SenderKeys.nat, ChainKdf.nat]

private theorem dist_ne (d : SenderKeysDistribution Nat) :
    SenderKeys.nat.distribution.encode d ≠ [] :=
  Codec.ofCountable_encode_ne _ d

/-- The message "a", and the message "b". -/
private def outgoing (b : UInt8) : Outgoing := ⟨List.replicate 16 0, 0, [b]⟩

/-- One message to the relay and to gossip, then a restart. -/
private def savedRun (key : Nat) (env : Envelope) : List (SendEvent Nat) :=
  [.internal, .internal, .internal, .wrote key env, .wrote key env, .internal, .restart]

theorem key_used_once_when_saved :
    ∃ key env t, Run (Guarded (SendStep SenderKeys.nat room.val []) SavedBeforeRestart) .new
      (savedRun key env) t ∧ (savedRun key env).Pairwise KeyUsedOnce := by
  obtain ⟨s₁, run₁, idle₁, -, own₁, dist₁⟩ :=
    exists_created SenderKeys.nat room [] [] zero_seed
  obtain ⟨s₂, env, run₂, -, -, written, -⟩ := exists_write [] idle₁
    (by rw [dist₁]; exact dist_ne _) own₁ (outgoing 97)
  have run₃ : Run (Guarded (SendStep SenderKeys.nat room.val []) SavedBeforeRestart) s₂
      [.wrote _ env, .internal, .restart] _ :=
    .cons ⟨trivial, .publish written⟩
      (.cons ⟨trivial, .save (.inr rfl)⟩ (.cons ⟨rfl, .restart⟩ (.nil _)))
  have run := (run₁.append run₂).append run₃
  exact ⟨_, env, _, run,
    message_keys_used_once SenderKeys.nat room.val [] (new_wellFormed _ _) run⟩

/-- The process dies after the socket write and before the session is saved: the
next message goes out under the key of the last one. -/
theorem key_reused_after_crash :
    ¬ ∀ (K : Type) (P : SenderKeys K) (name pub : Bytes) (s t : SendState K)
      (events : List (SendEvent K)), SavedChain.WellFormed P.kdf (s.chain name) →
      Run (SendStep P name pub) s events t → events.Pairwise KeyUsedOnce := by
  intro claimed
  obtain ⟨s₁, run₁, idle₁, stored, own₁, dist₁⟩ :=
    exists_created SenderKeys.nat room [] [] zero_seed
  obtain ⟨s₂, env, run₂, text, kept, -, -⟩ := exists_write [] idle₁
    (by rw [dist₁]; exact dist_ne _) own₁ (outgoing 97)
  let s₃ : SendState Nat := { s₂ with client := s₂.client.restart .nat, progress := .idle }
  have restarted : SendStep SenderKeys.nat room.val [] s₂ .restart s₃ := .restart
  have stored₂ : StoredAtStart SenderKeys.nat s₂.client room.val [] 0 := by
    unfold StoredAtStart
    rw [kept]
    exact stored
  obtain ⟨own₃, dist₃⟩ := restart_atStart stored₂
  obtain ⟨s₄, env', run₄, text', -⟩ := exists_write [] (s := s₃) rfl
    (by rw [dist₃]; exact dist_ne _) own₃ (outgoing 98)
  have run := ((run₁.unguarded.append run₂.unguarded).append
    (.cons restarted run₄.unguarded))
  have pairs := claimed Nat .nat room.val [] _ _ _ (new_wellFormed _ _) run
  -- Drop the steps before the first write.
  have tail := (List.pairwise_cons.mp (List.pairwise_cons.mp (List.pairwise_cons.mp
    pairs).2).2).2
  have same := (List.pairwise_cons.mp tail).1 (.wrote (SenderKeys.nat.kdf.messageKey 0) env')
    (by simp) _ env env' rfl rfl
  rw [text, text'] at same
  have messages := SenderKeys.nat.message.encode_injective same
  have texts := (SenderKeys.nat.aead.encrypt_inj (SenderKeysMessage.mk.inj messages).2.2).2.2
  exact absurd texts (by decide)

end FinBit.Desktop
