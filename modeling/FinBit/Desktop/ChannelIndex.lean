import FinBit.Crypto.MlsReplay
import FinBit.Desktop.ChannelWorker
import FinBit.Lib.InverseMaps

/-! # The index of the channels

Names and ids of channels lead to each other as long as nobody invites under a name or an id
that is taken. The code does not check that: an invitation overwrites the id and the
distribution of whatever channel has its name, and an invite request turns it into an MLS
channel.
-/

namespace FinBit.Desktop

open FinBit.Lib FinBit.Crypto Std Store.SqliteStore

variable {K : Type} {M : Crypto.Mlspp}

/-! ### Writes that agree with what is there -/

/-- An operation that makes the id of the channel a second time. -/
def ChannelOp.rechecks (cs : Channel K M) : ChannelOp K M → Bool
  | .createLocal useMls _ _ => useMls
  | .roomJoin | .roomLeave => true
  | .invite _ _ => match cs.crypto with
    | .kMls => true
    | .kSenderKeys => false
  | _ => false

namespace ChannelWorker

variable (S : ChannelSetup K M)

/-- A channel that is not there yet gets an id that nobody has; one that is there keeps its own. The
cipher and the distribution of a channel that has been joined stay too. -/
def Consonant (c : ChannelWorker K M) : ChannelEvent K M → Prop
  | .op name op =>
    match c.channels name with
    | none => c.chanIdToName (S.channelIdFromName name) = none
    | some cs => unset 3 cs.id = true ∨ (op.rechecks cs = true ∧ unset 2 cs.id = true) →
        cs.id = S.channelIdFromName name
  | .payload _ (.channelKey id name dist) _ => ∀ sized : id.length = 32,
    match c.channels name with
    | none => c.chanIdToName ⟨id, sized⟩ = none
    | some cs => cs.id = ⟨id, sized⟩ ∧ (cs.subscribed = true → cs.ownDist = dist)
  | .payload _ (.mlsInviteRequest id name) _ => ∀ sized : id.length = 32,
    match c.channels name with
    | none => c.chanIdToName ⟨id, sized⟩ = none
    | some cs => (unset 2 cs.id = true → cs.id = ⟨id, sized⟩) ∧
        (cs.subscribed = true → cs.crypto = .kMls)
  | .payload _ (.mlsWelcome id name welcome) _ => ∀ sized : id.length = 32,
    match c.channels name with
    | none => False
    | some cs => ∀ join g, cs.pendingJoin = some join → MlsGroup.complete join welcome = .ok g →
        cs.id = ⟨id, sized⟩ ∧ (cs.subscribed = true → cs.crypto = .kMls)
  | _ => True

/-- Names and ids are inverse to each other. -/
def Indexed (c : ChannelWorker K M) : Prop := Mirror c.channels Channel.id c.chanIdToName

/-- What has been joined keeps its id, its distribution and its cipher. -/
def Unhijacked (c c' : ChannelWorker K M) : Prop :=
  ∀ name cs, c.channels name = some cs → cs.subscribed = true →
    ∃ cs', c'.channels name = some cs' ∧ cs'.id = cs.id ∧ cs'.ownDist = cs.ownDist ∧
      cs'.crypto = cs.crypto

/-! ### The maps and the rows -/

/-- The rows belong to channels that are there. -/
structure Sound (c : ChannelWorker K M) : Prop where
  indexed : c.Indexed
  rows : ∀ n row, c.store.chanState[n]? = some row → ∃ name cs, c.channels name = some cs ∧
    (cstr name).val = n ∧ cs.id.1 = row.channelId

section

variable {S : ChannelSetup K M} {c : ChannelWorker K M} {name : Bytes} {cs cs' : Channel K M}

theorem sound_new : (new : ChannelWorker K M).Sound where
  indexed := Mirror.empty
  rows := by simp [new]

theorem entry_of (here : c.channels name = some cs) : c.entry name = cs := by
  rw [entry, here, Option.getD_some]

/-- A channel changes and keeps its id. -/
theorem Sound.setChannel (sound : c.Sound) (here : c.channels name = some cs)
    (same : cs'.id = cs.id) : (c.setChannel name cs').Sound where
  indexed := sound.indexed.modify here same
  rows n row stored := by
    obtain ⟨other, x, there, named, id⟩ := sound.rows n row stored
    by_cases at' : other = name
    · subst at'
      rw [here] at there
      cases there
      exact ⟨other, cs', Function.update_self .., named, by rw [same, id]⟩
    · exact ⟨other, x, (Function.update_of_ne at' ..).trans there, named, id⟩

/-- The rest of the store does not matter. -/
theorem Sound.of_eq {c' : ChannelWorker K M} (sound : c.Sound) (channels : c'.channels = c.channels)
    (index : c'.chanIdToName = c.chanIdToName)
    (rows : c'.store.chanState = c.store.chanState) : c'.Sound where
  indexed := by
    rw [Indexed, channels, index]
    exact sound.indexed
  rows n row stored := by
    rw [channels]
    exact sound.rows n row (rows ▸ stored)

theorem Sound.persistChanMeta (sound : c.Sound) (here : c.channels name = some cs)
    (same : cs'.id = cs.id) : (c.persistChanMeta name cs').Sound where
  indexed := sound.indexed
  rows n row stored := by
    simp only [ChannelWorker.persistChanMeta, ExtTreeMap.getElem?_insert] at stored
    split at stored
    next this =>
      cases stored
      exact ⟨name, cs, here, by simpa using this, by rw [same]⟩
    · exact sound.rows n row stored

theorem Sound.persistChanSession (sound : c.Sound) : (c.persistChanSession name cs).Sound :=
  sound.of_eq rfl rfl rfl

theorem Sound.persistChannel (sound : c.Sound) (here : c.channels name = some cs)
    (same : cs'.id = cs.id) : (c.persistChannel name cs').Sound :=
  ((sound.setChannel here same).persistChanMeta (Function.update_self ..) rfl).persistChanSession

theorem Sound.save (sound : c.Sound) (here : c.channels name = some cs) (same : cs'.id = cs.id) :
    ((c.setChannel name cs').persistChanSession name cs').Sound :=
  (sound.setChannel here same).persistChanSession

theorem Sound.persistMlsSeed (sound : c.Sound) (here : c.channels name = some cs)
    (same : cs'.id = cs.id) : (c.persistMlsSeed name cs').Sound := by
  unfold ChannelWorker.persistMlsSeed
  split
  · exact sound
  · have kept : (c.setChannel name { cs' with mlsNextSeq := 0 }).Sound :=
      sound.setChannel here same
    exact kept.of_eq rfl rfl rfl

/-- After the seed is written the channel is still there. -/
theorem channels_persistMlsSeed (here : c.channels name = some cs) (same : cs'.id = cs.id) :
    ∃ x, (c.persistMlsSeed name cs').channels name = some x ∧ x.id = cs.id := by
  unfold ChannelWorker.persistMlsSeed
  split
  · exact ⟨cs, here, rfl⟩
  · exact ⟨_, Function.update_self .., same⟩

/-! ### Operations -/

theorem ensureId_none (absent : c.channels name = none) :
    c.ensureId S name = (c.setChannel name { Channel.new with id := S.channelIdFromName name }).setIndex
      (S.channelIdFromName name) name := by
  have blank : c.entry name = .new := by rw [entry, absent, Option.getD_none]
  rw [ensureId, blank]
  exact if_pos rfl

/-- On a channel that is there nothing happens, if its id is the right one. -/
theorem Sound.ensureId_some (sound : c.Sound) (here : c.channels name = some cs)
    (fits : unset 3 cs.id = true → cs.id = S.channelIdFromName name) : c.ensureId S name = c := by
  rw [ensureId, entry_of here]
  split
  next blank =>
    rw [← fits blank, ChannelWorker.setIndex, ChannelWorker.setChannel]
    dsimp only
    rw [sound.indexed.rewrite here, ← here, Function.update_eq_self]
  · rfl

theorem Sound.add (sound : c.Sound) (fresh : c.channels name = none)
    (free : c.chanIdToName cs.id = none) : ((c.setChannel name cs).setIndex cs.id name).Sound where
  indexed := sound.indexed.add fresh free
  rows n row stored := by
    obtain ⟨other, x, there, named, id⟩ := sound.rows n row stored
    have apart : other ≠ name := by
      rintro rfl
      rw [fresh] at there
      cases there
    exact ⟨other, x, (Function.update_of_ne apart ..).trans there, named, id⟩

/-- The id that is made again is the one that the channel has. -/
theorem id_deriveId (fits : unset 2 cs.id = true → cs.id = S.channelIdFromName name) :
    (deriveId S name cs).id = cs.id := by
  unfold deriveId
  split
  next blank => exact (fits blank).symm
  · rfl

theorem Sound.createLocal (sound : c.Sound) (here : c.channels name = some cs) {useMls : Bool}
    (same : cs'.id = cs.id) (group : CreateDraws M)
    (fits : useMls = true → unset 2 cs.id = true → cs.id = S.channelIdFromName name) :
    (c.createLocal S name cs' useMls group).Sound := by
  unfold ChannelWorker.createLocal
  split
  · exact sound.persistChannel here same
  next chosen =>
    have derived : (deriveId S name { cs' with crypto := .kMls }).id = cs.id := by
      rw [id_deriveId, same]
      intro blank
      dsimp only at blank ⊢
      rw [same] at blank ⊢
      exact fits (by simpa using chosen) blank
    dsimp only
    generalize deriveId S name { cs' with crypto := .kMls } = x at derived ⊢
    split
    · exact sound.persistChannel here derived
    next g created =>
      have made : ({ x with mls := some g } : Channel K M).id = cs.id := derived
      obtain ⟨y, seeded, id⟩ := channels_persistMlsSeed here made
      exact (sound.persistMlsSeed here made).persistChannel seeded (derived.trans id.symm)

theorem Sound.send (sound : c.Sound) (here : c.channels name = some cs)
    (out : ChannelClient.Outgoing) : (c.send S name cs out).Sound := by
  unfold ChannelWorker.send
  split
  · split
    · exact sound.setChannel here rfl
    · refine sound.save here ?_
      rfl
  · dsimp only
    split
    · exact sound
    · refine sound.save here ?_
      rfl

theorem Sound.invite (sound : c.Sound) (here : c.channels name = some cs) (draws : ChainDraws K)
    (hasSession : Bool)
    (fits : cs.crypto = .kMls → unset 2 cs.id = true → cs.id = S.channelIdFromName name) :
    (c.invite S name cs draws hasSession).Sound := by
  unfold ChannelWorker.invite
  split
  next cipher => exact sound.setChannel here (id_deriveId (fits cipher))
  · have same : (if cs.ownDist = [] then ChannelWorker.createOwnSendChain S cs draws else cs).id =
        cs.id := by
      split <;> rfl
    dsimp only
    split
    · exact sound.persistChannel here same
    · exact sound.setChannel here same

/-- The channel, its rows and its entry in the index all go. -/
theorem Sound.leave (sound : c.Sound) (here : c.channels name = some cs) :
    ({ c.chanDelete name cs.id with
      channels := Function.update c.channels name none
      chanIdToName := Function.update c.chanIdToName cs.id none } : ChannelWorker K M).Sound where
  indexed := sound.indexed.erase here
  rows n row stored := by
    simp only [chanDelete, ExtTreeMap.getElem?_erase] at stored
    split at stored
    · cases stored
    next apart =>
      obtain ⟨other, x, there, named, id⟩ := sound.rows n row stored
      have kept : other ≠ name := by
        rintro rfl
        exact apart (by simpa using named)
      exact ⟨other, x, (Function.update_of_ne kept ..).trans there, named, id⟩

/-- What an operation does once the channel has its id. -/
theorem Sound.perform (sound : c.Sound) {op : ChannelOp K M}
    (fits : c.Consonant S (.op name op)) : (c.perform S name op).Sound := by
  obtain ⟨c₁, same, sound₁, cs, here, again⟩ : ∃ c₁, c.ensureId S name = c₁ ∧ c₁.Sound ∧
      ∃ cs, c₁.channels name = some cs ∧
        (op.rechecks cs = true → unset 2 cs.id = true → cs.id = S.channelIdFromName name) := by
    dsimp only [Consonant] at fits
    cases found : c.channels name with
    | none =>
      rw [found] at fits
      have added : ((c.setChannel name { Channel.new with id := S.channelIdFromName name }).setIndex
          (S.channelIdFromName name) name).Sound := sound.add found fits
      exact ⟨_, ensureId_none found, added, _, Function.update_self .., fun _ _ => rfl⟩
    | some cs =>
      rw [found] at fits
      exact ⟨c, sound.ensureId_some found fun blank => fits (.inl blank), sound, cs, found,
        fun twice blank => fits (.inr ⟨twice, blank⟩)⟩
  simp only [ChannelWorker.perform, same, entry_of here]
  cases op with
  | create draws written =>
    dsimp only
    split
    · exact sound₁.persistChannel here rfl
    · exact sound₁.setChannel here rfl
  | createLocal useMls draws group =>
    refine sound₁.createLocal here ?_ group again
    split <;> rfl
  | join file =>
    cases file with
    | none => exact sound₁
    | some dist => exact sound₁.persistChannel here rfl
  | send out =>
    dsimp only
    split
    · exact sound₁
    · exact sound₁.send here out
  | leave => exact sound₁.leave here
  | roomJoin => exact sound₁.setChannel here (id_deriveId (again rfl))
  | roomLeave => exact sound₁.setChannel here (id_deriveId (again rfl))
  | invite draws hasSession =>
    refine sound₁.invite here draws hasSession fun cipher => again ?_
    simp only [ChannelOp.rechecks, cipher]

end

/-! ### What comes in -/

/-- All that the claims of others may not change. -/
structure SameFace (cs cs' : Channel K M) : Prop where
  id : cs'.id = cs.id
  ownDist : cs'.ownDist = cs.ownDist
  crypto : cs'.crypto = cs.crypto
  subscribed : cs'.subscribed = cs.subscribed

/-- What a payload or an envelope does to the maps and to the rows. -/
inductive Received (c c' : ChannelWorker K M) : Prop
  | ignored (same : c' = c)
  /-- A channel that is there changes. -/
  | changed (name : Bytes) (cs cs' : Channel K M) (here : c.channels name = some cs)
      (channels : c'.channels = Function.update c.channels name (some cs'))
      (index : c'.chanIdToName = c.chanIdToName) (id : cs'.id = cs.id)
      (settled : cs.subscribed = true → cs'.ownDist = cs.ownDist ∧ cs'.crypto = cs.crypto)
      (rows : ∀ n row, c'.store.chanState[n]? = some row →
        c.store.chanState[n]? = some row ∨ n = (cstr name).val ∧ row.channelId = cs'.id.1)
  /-- A channel comes in. -/
  | added (name : Bytes) (cs' : Channel K M) (fresh : c.channels name = none)
      (free : c.chanIdToName cs'.id = none)
      (channels : c'.channels = Function.update c.channels name (some cs'))
      (index : c'.chanIdToName = Function.update c.chanIdToName cs'.id (some name))
      (rows : ∀ n row, c'.store.chanState[n]? = some row →
        c.store.chanState[n]? = some row ∨ n = (cstr name).val ∧ row.channelId = cs'.id.1)

section

variable {S : ChannelSetup K M} {c c' : ChannelWorker K M} {name : Bytes} {cs cs' : Channel K M}

theorem Received.sound (received : Received c c') (sound : c.Sound) : c'.Sound := by
  cases received with
  | ignored same => exact same ▸ sound
  | changed name cs cs' here channels index id settled rows =>
    have kept := sound.setChannel here id
    constructor
    · rw [Indexed, channels, index]
      exact kept.indexed
    · intro n row stored
      rw [channels]
      rcases rows n row stored with before | ⟨rfl, written⟩
      · exact kept.rows n row before
      · exact ⟨name, cs', Function.update_self .., rfl, written.symm⟩
  | added name cs' fresh free channels index rows =>
    have more := sound.add fresh free
    constructor
    · rw [Indexed, channels, index]
      exact more.indexed
    · intro n row stored
      rw [channels]
      rcases rows n row stored with before | ⟨rfl, written⟩
      · exact more.rows n row before
      · exact ⟨name, cs', Function.update_self .., rfl, written.symm⟩

theorem Received.unhijacked (received : Received c c') : Unhijacked c c' := by
  intro other x there joined
  cases received with
  | ignored same => exact ⟨x, same ▸ there, rfl, rfl, rfl⟩
  | changed name cs cs' here channels index id settled rows =>
    rw [channels]
    by_cases named : other = name
    · subst named
      rw [here] at there
      cases there
      exact ⟨cs', Function.update_self .., id, settled joined⟩
    · exact ⟨x, (Function.update_of_ne named ..).trans there, rfl, rfl, rfl⟩
  | added name cs' fresh free channels index rows =>
    have apart : other ≠ name := by
      rintro rfl
      rw [fresh] at there
      cases there
    rw [channels]
    exact ⟨x, (Function.update_of_ne apart ..).trans there, rfl, rfl, rfl⟩

/-- Nothing but the channel of that name changes, and it keeps its face. -/
def Refaced (c : ChannelWorker K M) (name : Bytes) (cs : Channel K M) (c' : ChannelWorker K M) :
    Prop :=
  ∃ cs', SameFace cs cs' ∧ c'.channels = Function.update c.channels name (some cs') ∧
    c'.chanIdToName = c.chanIdToName ∧ c'.store.chanState = c.store.chanState

theorem Refaced.received (refaced : Refaced c name cs c') (here : c.channels name = some cs) :
    Received c c' := by
  obtain ⟨cs', face, channels, index, rows⟩ := refaced
  exact .changed name cs cs' here channels index face.id (fun _ => ⟨face.ownDist, face.crypto⟩)
    fun n row stored => .inl (rows ▸ stored)

theorem Refaced.setChannel (face : SameFace cs cs') : Refaced c name cs (c.setChannel name cs') :=
  ⟨cs', face, rfl, rfl, rfl⟩

theorem Refaced.trans {c'' : ChannelWorker K M} (first : Refaced c name cs c')
    (second : ∀ x, c'.channels name = some x → Refaced c' name x c'') : Refaced c name cs c'' := by
  obtain ⟨x, face, channels, index, rows⟩ := first
  have here : c'.channels name = some x := by rw [channels, Function.update_self]
  obtain ⟨y, face', channels', index', rows'⟩ := second x here
  refine ⟨y, ⟨face'.id.trans face.id, face'.ownDist.trans face.ownDist,
    face'.crypto.trans face.crypto, face'.subscribed.trans face.subscribed⟩, ?_,
    index'.trans index, rows'.trans rows⟩
  rw [channels', channels, Function.update_idem]

/-- A call of the group leaves the face of the channel alone. -/
theorem refaced_mutateMls (here : c.channels name = some cs) (op : MlsOp) :
    Refaced c name cs (c.mutateMls name op).1 := by
  have same : Refaced c name cs c := ⟨cs, ⟨rfl, rfl, rfl, rfl⟩, by
    rw [← here, Function.update_eq_self], rfl, rfl⟩
  simp only [mutateMls, entry_of here]
  split
  · exact same
  · split
    · refine ⟨_, ?_, rfl, rfl, rfl⟩
      exact ⟨rfl, rfl, rfl, rfl⟩
    · unfold persistMlsLastOp
      split
      · refine ⟨_, ?_, rfl, rfl, rfl⟩
        exact ⟨rfl, rfl, rfl, rfl⟩
      · dsimp only
        split
        · refine ⟨_, ?_, rfl, rfl, rfl⟩
          exact ⟨rfl, rfl, rfl, rfl⟩
        · refine ⟨_, ?_, (Function.update_idem ..), rfl, rfl⟩
          exact ⟨rfl, rfl, rfl, rfl⟩

/-- The branches that look a channel up by its id find one that is there. -/
theorem received_withGroup (sound : c.Sound) (id : Bytes32) {handle : Bytes → ChannelWorker K M}
    (handled : ∀ name cs, c.channels name = some cs → Refaced c name cs (handle name)) :
    Received c (c.withGroup id handle) := by
  unfold withGroup
  split
  · exact .ignored rfl
  next name found =>
    obtain ⟨cs, here, -⟩ := sound.indexed.found id name found
    split
    · exact .ignored rfl
    · split
      · rw [entry_of here]
        exact (Refaced.setChannel ⟨rfl, rfl, rfl, rfl⟩).received here
      · exact (handled name cs here).received here

theorem received_onMlsKeyPackage (sound : c.Sound) (id : Bytes32) (keyPackage leafSecret : Bytes) :
    Received c (c.onMlsKeyPackage id keyPackage leafSecret) := by
  refine received_withGroup sound id fun name cs here => ?_
  have proposed := refaced_mutateMls here (.proposeAdd keyPackage)
  dsimp only
  split
  · exact proposed.trans fun x there => refaced_mutateMls there (.commitPending leafSecret)
  · exact proposed

theorem received_onGroupMessage (sound : c.Sound) (id : Bytes32) (op : MlsOp) :
    Received c (c.onGroupMessage id op) :=
  received_withGroup sound id fun _ _ here => refaced_mutateMls here op

theorem received_onChannelKey (sound : c.Sound) {senderPub dist : Bytes} {id : Bytes}
    {draws : PayloadDraws M} (sized : id.length = 32)
    (fits : c.Consonant S (.payload senderPub (.channelKey id name dist) draws)) :
    Received c (c.onChannelKey S senderPub ⟨id, sized⟩ name dist) := by
  replace fits := fits sized
  have rows : ∀ n row, (c.onChannelKey S senderPub ⟨id, sized⟩ name dist).store.chanState[n]? =
      some row → c.store.chanState[n]? = some row ∨ n = (cstr name).val ∧ row.channelId = id := by
    intro n row stored
    simp only [onChannelKey, persistChanSession, persistChanPeerDist, persistChanMeta, setChannel,
      setIndex, ExtTreeMap.getElem?_insert] at stored
    split at stored
    next this =>
      cases stored
      exact .inr ⟨(by simpa using this : (cstr name).val = n).symm, rfl⟩
    · exact .inl stored
  cases found : c.channels name with
  | none =>
    rw [found] at fits
    exact .added name _ found fits rfl rfl rows
  | some cs =>
    rw [found] at fits
    obtain ⟨same, settled⟩ := fits
    refine .changed name cs _ found rfl ?_ same.symm ?_ rows
    · change Function.update c.chanIdToName ⟨id, sized⟩ (some name) = _
      rw [← same, sound.indexed.rewrite found]
    · intro joined
      rw [entry_of found]
      exact ⟨(settled joined).symm, rfl⟩

theorem received_onMlsInviteRequest (sound : c.Sound) {senderPub : Bytes} {id : Bytes}
    {draws : PayloadDraws M} (sized : id.length = 32)
    (fits : c.Consonant S (.payload senderPub (.mlsInviteRequest id name) draws)) :
    Received c (c.onMlsInviteRequest S ⟨id, sized⟩ name draws.join) := by
  replace fits := fits sized
  cases found : c.channels name with
  | none =>
    rw [found] at fits
    have blank : c.entry name = .new := by rw [entry, found, Option.getD_none]
    have zero : unset 2 (Channel.new : Channel K M).id = true := by rfl
    simp only [onMlsInviteRequest, blank, zero, if_true]
    split
    · exact .added name _ found fits rfl rfl fun n row stored => .inl stored
    · exact .added name _ found fits rfl rfl fun n row stored => .inl stored
  | some cs =>
    rw [found] at fits
    obtain ⟨same, settled⟩ := fits
    simp only [onMlsInviteRequest, entry_of found]
    -- an id that counts as unset is written again as it is
    have written : (if unset 2 cs.id = true then
        (c.setIndex ⟨id, sized⟩ name, { cs with id := ⟨id, sized⟩ }) else (c, cs)) = (c, cs) := by
      split
      next blank =>
        rw [← same blank, setIndex, sound.indexed.rewrite found]
      · rfl
    simp only [written]
    split
    · exact .changed name cs _ found rfl rfl rfl (fun joined => ⟨rfl, (settled joined).symm⟩)
        fun n row stored => .inl stored
    · exact .changed name cs _ found rfl rfl rfl (fun joined => ⟨rfl, (settled joined).symm⟩)
        fun n row stored => .inl stored

theorem received_onMlsWelcome (sound : c.Sound) {senderPub welcome : Bytes} {id : Bytes}
    {draws : PayloadDraws M} (sized : id.length = 32)
    (fits : c.Consonant S (.payload senderPub (.mlsWelcome id name welcome) draws)) :
    Received c (c.onMlsWelcome ⟨id, sized⟩ name welcome) := by
  replace fits := fits sized
  cases found : c.channels name with
  | none =>
    rw [found] at fits
    exact fits.elim
  | some cs =>
    rw [found] at fits
    have still : Received c (c.setChannel name cs) :=
      (Refaced.setChannel ⟨rfl, rfl, rfl, rfl⟩).received found
    simp only [onMlsWelcome, entry_of found]
    split
    · exact still
    next join waiting =>
      split
      · exact still
      next g completed =>
        obtain ⟨same, settled⟩ := fits join g waiting completed
        refine .changed name cs _ found (Function.update_idem ..) ?_ rfl
          (fun joined => ⟨rfl, (settled joined).symm⟩) fun n row stored => .inl stored
        change Function.update c.chanIdToName ⟨id, sized⟩ (some name) = _
        rw [← same, sound.indexed.rewrite found]

theorem sameFace_session (cs : Channel K M) (session : GroupSession K) :
    SameFace cs { cs with session := session } := ⟨rfl, rfl, rfl, rfl⟩

theorem sameFace_openEnvelope (cs : Channel K M) (env : Envelope) :
    SameFace cs (openEnvelope S cs env).1 := by
  unfold openEnvelope
  split
  · exact ⟨rfl, rfl, rfl, rfl⟩
  · exact ⟨rfl, rfl, rfl, rfl⟩

theorem received_dispatchChannel (sound : c.Sound) (env : Envelope) :
    Received c (c.dispatchChannel S env) := by
  unfold dispatchChannel
  split
  next gid _ =>
    split
    · exact .ignored rfl
    split
    next sized =>
      split
      · exact .ignored rfl
      next name found =>
        obtain ⟨cs, here, -⟩ := sound.indexed.found _ name found
        rw [entry_of here]
        dsimp only
        have installed := sameFace_session cs
          (ChannelClient.tryInstall S.senderKeys cs.session env.senderPubkey cs.ownDist)
        generalize Channel.mk _ _ _ _ _ _ _ _ = x at installed ⊢
        split
        · exact (Refaced.setChannel installed).received here
        · have opened := sameFace_openEnvelope (S := S) x env
          have face : SameFace cs (openEnvelope S x env).1 :=
            ⟨opened.id.trans installed.id, opened.ownDist.trans installed.ownDist,
              opened.crypto.trans installed.crypto, opened.subscribed.trans installed.subscribed⟩
          split
          · exact (Refaced.setChannel face).received here
          · refine Refaced.received ⟨_, face, rfl, rfl, rfl⟩ here
    · exact .ignored rfl
  · exact .ignored rfl

theorem received_receive (sound : c.Sound) {senderPub : Bytes} {payload : ChannelPayload}
    {draws : PayloadDraws M} (fits : c.Consonant S (.payload senderPub payload draws)) :
    Received c (c.receive S senderPub draws payload) := by
  cases payload with
  | channelKey id name dist =>
    simp only [receive]
    split
    next sized => exact received_onChannelKey sound sized fits
    · exact .ignored rfl
  | mlsInviteRequest id name =>
    simp only [receive]
    split
    next sized => exact received_onMlsInviteRequest sound sized fits
    · exact .ignored rfl
  | mlsWelcome id name welcome =>
    simp only [receive]
    split
    next sized => exact received_onMlsWelcome sound sized fits
    · exact .ignored rfl
  | mlsKeyPackage id keyPackage =>
    simp only [receive]
    split
    · exact received_onMlsKeyPackage sound _ keyPackage draws.leafSecret
    · exact .ignored rfl
  | mlsCommit id commit =>
    simp only [receive]
    split
    · exact received_onGroupMessage sound _ _
    · exact .ignored rfl
  | mlsProposal id proposal =>
    simp only [receive]
    split
    · exact received_onGroupMessage sound _ _
    · exact .ignored rfl
  | other => exact .ignored rfl

/-! ### Restart -/

/-- Rows of one id have one name. -/
theorem Sound.row_unique (sound : c.Sound) {n n' : Bytes} {row row' : StoredChannel}
    (here : c.store.chanState[n]? = some row) (there : c.store.chanState[n']? = some row')
    (same : row.channelId = row'.channelId) : n = n' := by
  obtain ⟨name, cs, found, rfl, id⟩ := sound.rows n row here
  obtain ⟨name', cs', found', rfl, id'⟩ := sound.rows n' row' there
  have one : cs.id = cs'.id := Subtype.ext (by rw [id, id', same])
  rw [sound.indexed.unique found found' one]

theorem channels_restart {n : Bytes} {row : StoredChannel} (here : c.store.chanState[n]? = some row)
    (sized : row.channelId.length = 32) :
    (c.restart S).channels n = some (restoreChannel S c.store n row ⟨row.channelId, sized⟩) := by
  simp only [restart, here, dif_pos sized]

/-- What the restore loop builds is indexed, since rows never share an id. -/
theorem Sound.restart (sound : c.Sound) : (c.restart S).Sound := by
  have sized (n : Bytes) (row : StoredChannel) (stored : c.store.chanState[n]? = some row) :
      row.channelId.length = 32 := by
    obtain ⟨name, cs, -, -, id⟩ := sound.rows n row stored
    exact id ▸ cs.id.2
  have listed (n : Bytes) (row : StoredChannel) : (n, row) ∈ c.store.chanState.toList.reverse ↔
      c.store.chanState[n]? = some row := by
    rw [List.mem_reverse, ExtTreeMap.mem_toList_iff_getElem?_eq_some]
  constructor
  · constructor
    · intro id n entry
      obtain ⟨⟨m, row⟩, first, rfl⟩ := Option.map_eq_some_iff.mp entry
      have stored := (listed m row).mp (List.mem_of_find?_eq_some first)
      have same : row.channelId = id.1 := by simpa using List.find?_some first
      exact ⟨_, channels_restart stored (sized m row stored), Subtype.ext same⟩
    · intro n cs there
      cases stored : c.store.chanState[n]? with
      | none => simp [ChannelWorker.restart, stored] at there
      | some row =>
        rw [channels_restart stored (sized n row stored)] at there
        cases there
        cases first : c.store.chanState.toList.reverse.find? fun entry =>
            entry.2.channelId = row.channelId with
        | none =>
          have missing := List.find?_eq_none.mp first (n, row) ((listed n row).mpr stored)
          simp at missing
        | some entry =>
          obtain ⟨m, row'⟩ := entry
          have stored' := (listed m row').mp (List.mem_of_find?_eq_some first)
          have same : row'.channelId = row.channelId := by simpa using List.find?_some first
          obtain rfl := sound.row_unique stored' stored same
          exact congrArg (Option.map Prod.fst) first
  · intro n row stored
    obtain ⟨name, cs, -, rfl, -⟩ := sound.rows n row stored
    exact ⟨_, _, channels_restart stored (sized _ row stored), by rw [cstr_val], rfl⟩

theorem Sound.step (sound : c.Sound) {event : ChannelEvent K M}
    (taken : Guarded (Step S) (Consonant S) c event c') : c'.Sound := by
  obtain ⟨fits, rfl⟩ := taken
  cases event with
  | op name op => exact sound.perform fits
  | payload senderPub payload draws => exact (received_receive sound fits).sound sound
  | envelope env => exact (received_dispatchChannel sound env).sound sound
  | restart => exact sound.restart

end

/-- As long as what is written agrees with what is there, names and ids stay inverse to each other,
and nothing that comes in changes what a joined channel is. -/
theorem channels_not_hijacked (S : ChannelSetup K M) (events : List (ChannelEvent K M))
    (c : ChannelWorker K M) (run : Run (Guarded (Step S) (Consonant S)) new events c) :
    c.Indexed ∧ ∀ event c', Guarded (Step S) (Consonant S) c event c' → event.Inbound →
      Unhijacked c c' := by
  have sound : c.Sound := run.invariant Sound (fun _ _ _ sound taken => sound.step taken) sound_new
  refine ⟨sound.indexed, ?_⟩
  rintro event c' ⟨fits, rfl⟩ inbound
  cases event with
  | op name op => exact inbound.elim
  | payload senderPub payload draws => exact (received_receive sound fits).unhijacked
  | envelope env => exact (received_dispatchChannel sound env).unhijacked
  | restart => exact inbound.elim

/-! ### An invitation under a name that is taken -/

private def idOfName : Bytes32 := .filled 1

private def otherId : Bytes32 := .filled 2

private noncomputable def tallySetup : ChannelSetup Nat Mlspp.tally where
  senderKeys := .nat
  me := zeros
  channelIdFromName _ := idOfName
  unprotect s _ := (s, .error "")

private def plans : Bytes := ascii "plans"

private def mallory : Bytes := List.replicate 32 9

private def createPlans : ChannelEvent Nat Mlspp.tally :=
  .op plans (.createLocal false ⟨List.replicate 16 0, 5⟩ tallyDraws)

private noncomputable def withPlans : ChannelWorker Nat Mlspp.tally :=
  new.handle tallySetup createPlans

/-- An invitation to a channel, with an id that is not the hash of its name. -/
private def invitation (name : Bytes) : ChannelEvent Nat Mlspp.tally :=
  .payload mallory (.channelKey otherId.1 name []) ⟨none, []⟩

private theorem channels_withPlans :
    ∃ cs, withPlans.channels plans = some cs ∧ cs.id = idOfName ∧ cs.subscribed = true ∧
      withPlans.chanIdToName idOfName = some plans :=
  ⟨_, rfl, rfl, rfl, rfl⟩

/-- Somebody invites to a channel under the name of one that was created here: it gets another id,
and the index leads from the old id to it as well. -/
theorem invitation_hijacks :
    ∃ (S : ChannelSetup Nat Mlspp.tally) (events : List (ChannelEvent Nat Mlspp.tally))
      (c c' : ChannelWorker Nat Mlspp.tally) (event : ChannelEvent Nat Mlspp.tally),
      Run (Step S) new events c ∧ Step S c event c' ∧ event.Inbound ∧ ¬c'.Indexed ∧
        ¬Unhijacked c c' := by
  obtain ⟨cs, here, id, joined, indexed⟩ := channels_withPlans
  have hijacked : ∃ cs', (withPlans.handle tallySetup (invitation plans)).channels plans = some cs' ∧
      cs'.id = otherId := ⟨_, rfl, rfl⟩
  have stale : (withPlans.handle tallySetup (invitation plans)).chanIdToName idOfName = some plans :=
    rfl
  have differ : otherId ≠ idOfName := by decide
  obtain ⟨cs', here', id'⟩ := hijacked
  refine ⟨tallySetup, [createPlans], withPlans, _, invitation plans, .cons rfl (.nil _), rfl, trivial,
    ?_, ?_⟩
  · intro mirror
    obtain ⟨x, found, same⟩ := mirror.found idOfName plans stale
    rw [here'] at found
    cases found
    exact differ (id'.symm.trans same)
  · intro kept
    obtain ⟨x, found, same, -⟩ := kept plans cs here joined
    rw [here'] at found
    cases found
    exact differ (id'.symm.trans (same.trans id))

/-- An invitation under a new name comes in beside a channel that was created. -/
theorem channels_not_hijacked_news :
    ∃ (events : List (ChannelEvent Nat Mlspp.tally)) (c c' : ChannelWorker Nat Mlspp.tally),
      Run (Guarded (Step tallySetup) (Consonant tallySetup)) new events c ∧
      c.chanIdToName otherId = none ∧ c'.chanIdToName otherId = some (ascii "news") ∧
      c.Indexed ∧ Unhijacked c c' := by
  have run : Run (Guarded (Step tallySetup) (Consonant tallySetup)) new [createPlans] withPlans :=
    .cons ⟨rfl, rfl⟩ (.nil _)
  have fits : Consonant tallySetup withPlans (invitation (ascii "news")) := fun _ => rfl
  obtain ⟨indexed, kept⟩ := channels_not_hijacked tallySetup _ _ run
  exact ⟨_, _, _, run, rfl, rfl, indexed, kept (invitation (ascii "news")) _ ⟨fits, rfl⟩ trivial⟩

end ChannelWorker

end FinBit.Desktop
