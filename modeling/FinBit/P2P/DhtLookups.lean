import FinBit.Lib.MapEntries
import FinBit.Lib.Runs
import FinBit.P2P.DhtNode

/-! # Lookups in the DHT

What a node hands to the callback of a lookup comes from two collections. The store
verifies what is put into it; the records that a lookup has seen are those of the store
when it started, and whatever the answers brought. Those are put into the store as well,
but the result is not looked at, so that a record that the store rejects is reported all
the same.
-/

namespace FinBit.P2P

open FinBit.Lib Std

abbrev kReplicationFactor : Nat := 8

/-- Up to `k` closest peers, and no more than a bucket holds. -/
def closestCapped (table : RoutingTable) (target : NodeId) (k : Nat) : List PeerInfo :=
  table.closest target (min k kBucketSize)

/-! ### Publishing and looking up -/

namespace RecordService

variable {R : Type} (kind : RecordKind R)

/-- The head of `publish` and `publish_prekey`, with whether the record goes out. -/
def publish (s : RecordService R) (record : R) (now : UInt64) :
    Except String (RecordService R × Bool) :=
  match s.store.put kind record now with
  | .error e => .error e
  | .ok (store, result) =>
    let kept := result = .accepted ∨ result = .alreadyKnown
    .ok ({ s with store := store }, kept ∧ (kind.publisherPubkey record).length = 32)

/-- The records by their key. -/
def seenFrom (records : List R) : ExtTreeMap Bytes R :=
  records.foldl (fun seen record => seen.insert (kind.recordKey record) record) ∅

/-- `lookup` and `lookup_prekey` once the peers to ask are known. -/
def lookup (s : RecordService R) (peers : List PeerInfo) (targetPubkey requestId : Bytes)
    (now : UInt64) : RecordService R × List (RecordEffect R) :=
  let localHits := s.store.get kind targetPubkey now
  if peers.isEmpty then (s, [.report targetPubkey localHits])
  else
    let seen := seenFrom kind localHits
    -- `emplace`: a lookup with the same id stays
    ({ s with pending := s.pending.insertIfNew requestId ⟨targetPubkey, peers.length, seen⟩ },
      [.report targetPubkey (seen.toList.map Prod.snd)])

/-- `abort_lookup` and `abort_prekey_lookup`. -/
def abort (s : RecordService R) (requestId : Bytes) : RecordService R :=
  { s with pending := s.pending.erase requestId }

end RecordService

/-- A message that goes out to a peer. -/
abbrev DhtSend := PeerInfo × DhtMessage

namespace DhtNode

def new (self : NodeId) : DhtNode := ⟨.new self, ⟨∅, ∅⟩, ⟨∅, ∅⟩⟩

section

variable (P : DhtCrypto) (nodeIdFromPubkey : Bytes → NodeId) (node : DhtNode)

/-- The peers for a key. -/
def peersFor (pubkey : Bytes) : List PeerInfo :=
  closestCapped node.routing (nodeIdFromPubkey pubkey) kReplicationFactor

/-- The message to each of the peers except the node itself. -/
def sendAll (peers : List PeerInfo) (message : DhtMessage) : List DhtSend :=
  (peers.filter fun p => p.id ≠ node.routing.self).map (·, message)

def publish (record : ProviderRecord) (now : UInt64) : Except String (DhtNode × List DhtSend) :=
  (node.providers.publish (providerKind P.verify) record now).map fun (service, out) =>
    ({ node with providers := service },
      if out then
        node.sendAll (node.peersFor nodeIdFromPubkey record.publisherPubkey)
          (.provider (.publish record))
      else [])

def publishPrekey (record : PrekeyRecord) (now : UInt64) :
    Except String (DhtNode × List DhtSend) :=
  (node.prekeys.publish (prekeyKind P.verify) record now).map fun (service, out) =>
    ({ node with prekeys := service },
      if out then
        node.sendAll (node.peersFor nodeIdFromPubkey record.publisherPubkey)
          (.prekey (.publish record))
      else [])

/-- With the request id that was drawn. -/
def lookup (targetPubkey requestId : Bytes) (now : UInt64) :
    DhtNode × List DhtEffect × List DhtSend :=
  if targetPubkey.length ≠ 32 then (node, [], [])
  else
    let peers := node.peersFor nodeIdFromPubkey targetPubkey
    let (service, effects) :=
      node.providers.lookup (providerKind P.verify) peers targetPubkey requestId now
    ({ node with providers := service }, effects.map .provider,
      node.sendAll peers (.provider (.lookup targetPubkey requestId)))

def lookupPrekey (targetPubkey requestId : Bytes) (now : UInt64) :
    DhtNode × List DhtEffect × List DhtSend :=
  if targetPubkey.length ≠ 32 then (node, [], [])
  else
    let peers := node.peersFor nodeIdFromPubkey targetPubkey
    let (service, effects) :=
      node.prekeys.lookup (prekeyKind P.verify) peers targetPubkey requestId now
    ({ node with prekeys := service }, effects.map .prekey,
      node.sendAll peers (.prekey (.lookup targetPubkey requestId)))

def abortLookup (requestId : Bytes) : DhtNode :=
  { node with providers := node.providers.abort requestId }

def abortPrekeyLookup (requestId : Bytes) : DhtNode :=
  { node with prekeys := node.prekeys.abort requestId }

end

end DhtNode

/-! ### Runs of a node -/

inductive DhtEvent where
  | observe (peer : PeerInfo)
  | message (fromPeer : PeerInfo) (wireBytes : Bytes) (now : UInt64)
  | publish (record : ProviderRecord) (now : UInt64)
  | publishPrekey (record : PrekeyRecord) (now : UInt64)
  | lookup (targetPubkey requestId : Bytes) (now : UInt64)
  | lookupPrekey (targetPubkey requestId : Bytes) (now : UInt64)
  | abortLookup (requestId : Bytes)
  | abortPrekeyLookup (requestId : Bytes)

/-- An event with the replies that it causes and what it hands to callbacks. -/
structure DhtLabel where
  event : DhtEvent
  effects : List DhtEffect

section

variable (P : DhtCrypto) (nodeIdFromPubkey : Bytes → NodeId)

def DhtNode.handle (node : DhtNode) : DhtEvent → Except String (DhtNode × List DhtEffect)
  | .observe peer => .ok (node.observe peer, [])
  | .message fromPeer wireBytes now => node.onMessage P fromPeer wireBytes now
  | .publish record now =>
    (node.publish P nodeIdFromPubkey record now).map fun (node, _) => (node, [])
  | .publishPrekey record now =>
    (node.publishPrekey P nodeIdFromPubkey record now).map fun (node, _) => (node, [])
  | .lookup targetPubkey requestId now =>
    let (node, effects, _) := node.lookup P nodeIdFromPubkey targetPubkey requestId now
    .ok (node, effects)
  | .lookupPrekey targetPubkey requestId now =>
    let (node, effects, _) := node.lookupPrekey P nodeIdFromPubkey targetPubkey requestId now
    .ok (node, effects)
  | .abortLookup requestId => .ok (node.abortLookup requestId, [])
  | .abortPrekeyLookup requestId => .ok (node.abortPrekeyLookup requestId, [])

def DhtStep (node : DhtNode) (label : DhtLabel) (after : DhtNode) : Prop :=
  node.handle P nodeIdFromPubkey label.event = .ok (after, label.effects)

end

/-! ### What a node has received -/

section

variable {R : Type}

/-- A record with the time at which it came in. -/
abbrev Receipts (R : Type) := List (R × UInt64)

def RecordMessage.records : RecordMessage R → List R
  | .publish record => [record]
  | .lookup _ _ => []
  | .response _ records => records

end

section

variable (P : DhtCrypto)

def DhtEvent.providers : DhtEvent → Receipts ProviderRecord
  | .message _ wireBytes now =>
    match P.message.decode wireBytes with
    | some (.provider m) => m.records.map (·, now)
    | _ => []
  | .publish record now => [(record, now)]
  | _ => []

def DhtEvent.prekeys : DhtEvent → Receipts PrekeyRecord
  | .message _ wireBytes now =>
    match P.message.decode wireBytes with
    | some (.prekey m) => m.records.map (·, now)
    | _ => []
  | .publishPrekey record now => [(record, now)]
  | _ => []

def receivedProviders (labels : List DhtLabel) : Receipts ProviderRecord :=
  labels.flatMap fun label => label.event.providers P

def receivedPrekeys (labels : List DhtLabel) : Receipts PrekeyRecord :=
  labels.flatMap fun label => label.event.prekeys P

end

section

variable {R : Type} (kind : RecordKind R)

/-- A record for the target that verifies and had not expired when it was received. -/
structure Vouched (received : Receipts R) (target : Bytes) (record : R) : Prop where
  publisher : kind.publisherPubkey record = target
  signed : kind.verifySignature record = .ok true
  unexpired : ∃ now, (record, now) ∈ received ∧ kind.expired record now = false

def RecordEffect.Verified (received : Receipts R) : RecordEffect R → Prop
  | .reply _ _ => True
  | .report target records => ∀ record ∈ records, Vouched kind received target record

/-- An answer to a lookup whose records for the target verify and have not expired. -/
def RecordMessage.Honest (s : RecordService R) (now : UInt64) : RecordMessage R → Prop
  | .response requestId records => ∀ pl, s.pending[requestId]? = some pl → ∀ record ∈ records,
      kind.publisherPubkey record = pl.targetPubkey →
        kind.verifySignature record = .ok true ∧ kind.expired record now = false
  | _ => True

/-- Everything that a store keeps is vouched for. -/
def RecordStore.Sound (received : Receipts R) (store : RecordStore R) : Prop :=
  ∀ (key : Bytes) (bucket : ExtTreeMap Bytes R), store[key]? = some bucket →
    AllValues (Vouched kind received key) bucket

structure RecordService.Sound (received : Receipts R) (s : RecordService R) : Prop where
  store : s.store.Sound kind received
  pending : AllValues (fun pl => AllValues (Vouched kind received pl.targetPubkey) pl.seen) s.pending

end

section

variable {R : Type} {kind : RecordKind R} {received : Receipts R} {target : Bytes} {now : UInt64}

theorem Vouched.mono {received' : Receipts R} (more : ∀ x ∈ received, x ∈ received') {record : R}
    (vouched : Vouched kind received target record) : Vouched kind received' target record := by
  obtain ⟨publisher, signed, t, member, unexpired⟩ := vouched
  exact ⟨publisher, signed, t, more _ member, unexpired⟩

theorem RecordService.Sound.mono {received' : Receipts R} {s : RecordService R}
    (more : ∀ x ∈ received, x ∈ received') (sound : s.Sound kind received) :
    s.Sound kind received' where
  store key bucket found := (sound.store key bucket found).mono fun _ => Vouched.mono more
  pending := sound.pending.mono fun _ seen => seen.mono fun _ => Vouched.mono more

theorem RecordStore.Sound.bucket {store : RecordStore R} (sound : store.Sound kind received)
    (key : Bytes) : AllValues (Vouched kind received key) (store[key]?.getD ∅) := by
  cases found : store[key]? with
  | none => exact AllValues.empty
  | some bucket => exact sound key bucket found

theorem RecordStore.Sound.put {store store' : RecordStore R} {record : R} {result : PutResult}
    (sound : store.Sound kind received) (member : (record, now) ∈ received)
    (put : store.put kind record now = .ok (store', result)) : store'.Sound kind received := by
  unfold RecordStore.put at put
  -- every check that fails leaves the store as it is
  split at put
  · cases put
    exact sound
  split at put
  · cases put
    exact sound
  split at put
  · cases put
    exact sound
  next unexpired =>
  split at put
  · cases put
  · cases put
    exact sound
  next signed =>
    dsimp only at put
    split at put
    · cases put
      exact sound
    · cases put
      -- here all checks have passed, so the new record is vouched for
      have vouched : Vouched kind received (kind.publisherPubkey record) record :=
        ⟨rfl, signed, now, member, by simpa using unexpired⟩
      intro key bucket found
      rw [ExtTreeMap.getElem?_insert] at found
      split at found
      next same =>
        cases found
        obtain rfl : kind.publisherPubkey record = key := by simpa using same
        exact (sound.bucket _).insert vouched
      · exact sound key bucket found

theorem RecordStore.Sound.get {store : RecordStore R} (sound : store.Sound kind received)
    {record : R} (member : record ∈ store.get kind target now) :
    Vouched kind received target record := by
  obtain ⟨k, found⟩ := mem_values.mp (List.mem_filter.mp member).1
  exact sound.bucket target k record found

variable (kind) in
/-- What is seen at first are the records themselves. -/
theorem allValues_seenFrom {p : R → Prop} {records : List R} (all : ∀ record ∈ records, p record) :
    AllValues p (RecordService.seenFrom kind records) := by
  -- the loop starts with the empty map, but the induction needs any
  have further : ∀ seen : ExtTreeMap Bytes R, AllValues p seen → AllValues p
      (records.foldl (fun seen record => seen.insert (kind.recordKey record) record) seen) := by
    induction records with
    | nil => exact fun seen before => before
    | cons record rest ih =>
      intro seen before
      have first := before.insert (k := kind.recordKey record) (all record List.mem_cons_self)
      exact ih (fun r later => all r (List.mem_cons_of_mem record later)) _ first
  exact further ∅ AllValues.empty

/-- The loop over an answer keeps what verifies, if everything for the target does. -/
theorem collect_sound {records : List R} {seen seen' : ExtTreeMap Bytes R}
    {store store' : RecordStore R} (member : ∀ record ∈ records, (record, now) ∈ received)
    (honest : ∀ record ∈ records, kind.publisherPubkey record = target →
      kind.verifySignature record = .ok true ∧ kind.expired record now = false)
    (seenSound : AllValues (Vouched kind received target) seen)
    (storeSound : store.Sound kind received)
    (collected : collect kind now target records seen store = .ok (seen', store')) :
    AllValues (Vouched kind received target) seen' ∧ store'.Sound kind received := by
  induction records generalizing seen store with
  | nil =>
    cases collected
    exact ⟨seenSound, storeSound⟩
  | cons record rest ih =>
    have member' : ∀ r ∈ rest, (r, now) ∈ received := fun r later =>
      member r (List.mem_cons_of_mem record later)
    have honest' := fun r later => honest r (List.mem_cons_of_mem record later)
    unfold collect at collected
    split at collected
    · -- records of other publishers are passed over
      exact ih member' honest' seenSound storeSound collected
    next publisher =>
      rw [not_ne_iff] at publisher
      cases put : store.put kind record now with
      | error e =>
        rw [put] at collected
        cases collected
      | ok outcome =>
        obtain ⟨stored, result⟩ := outcome
        rw [put] at collected
        -- the result of `put` is not looked at: only honesty vouches for what is seen
        obtain ⟨signed, unexpired⟩ := honest record List.mem_cons_self publisher
        have here := member record List.mem_cons_self
        exact ih member' honest' (seenSound.insert ⟨publisher, signed, now, here, unexpired⟩)
          (storeSound.put here put) collected

namespace RecordService.Sound

variable {s : RecordService R}

theorem publish {s' : RecordService R} {record : R} {out : Bool} (sound : s.Sound kind received)
    (member : (record, now) ∈ received)
    (published : s.publish kind record now = .ok (s', out)) : s'.Sound kind received := by
  unfold RecordService.publish at published
  cases put : s.store.put kind record now with
  | error e =>
    rw [put] at published
    cases published
  | ok outcome =>
    rw [put] at published
    cases published
    exact ⟨sound.store.put member put, sound.pending⟩

theorem abort (sound : s.Sound kind received) (requestId : Bytes) :
    (s.abort requestId).Sound kind received :=
  ⟨sound.store, sound.pending.erase⟩

theorem lookup (sound : s.Sound kind received) (peers : List PeerInfo)
    (target requestId : Bytes) (now : UInt64) :
    (s.lookup kind peers target requestId now).1.Sound kind received ∧
      ∀ effect ∈ (s.lookup kind peers target requestId now).2, effect.Verified kind received := by
  have hits : ∀ record ∈ s.store.get kind target now, Vouched kind received target record :=
    fun record member => sound.store.get member
  have seen := allValues_seenFrom kind hits
  unfold RecordService.lookup
  dsimp only
  split
  · refine ⟨sound, ?_⟩
    intro effect member
    rw [List.mem_singleton.mp member]
    exact hits
  · refine ⟨⟨sound.store, sound.pending.insertIfNew seen⟩, ?_⟩
    intro effect member
    rw [List.mem_singleton.mp member]
    intro record reported
    obtain ⟨k, found⟩ := mem_values.mp reported
    exact seen k record found

theorem onMessage {s' : RecordService R} {message : RecordMessage R}
    {effects : List (RecordEffect R)} (sound : s.Sound kind received)
    (member : ∀ record ∈ message.records, (record, now) ∈ received)
    (honest : message.Honest kind s now)
    (handled : s.onMessage kind now message = .ok (s', effects)) :
    s'.Sound kind received ∧ ∀ effect ∈ effects, effect.Verified kind received := by
  cases message with
  | publish record =>
    simp only [RecordService.onMessage] at handled
    cases put : s.store.put kind record now with
    | error e =>
      rw [put] at handled
      cases handled
    | ok outcome =>
      rw [put] at handled
      cases handled
      exact ⟨⟨sound.store.put (member record (by simp [RecordMessage.records])) put, sound.pending⟩,
        by simp⟩
  | lookup targetPubkey requestId =>
    simp only [RecordService.onMessage] at handled
    split at handled
    · cases handled
      exact ⟨sound, by simp⟩
    · cases handled
      refine ⟨sound, ?_⟩
      intro effect replied
      rw [List.mem_singleton.mp replied]
      trivial
  | response requestId records =>
    simp only [RecordService.onMessage] at handled
    cases found : s.pending[requestId]? with
    | none =>
      rw [found] at handled
      cases handled
      exact ⟨sound, by simp⟩
    | some pl =>
      rw [found] at handled
      dsimp only at handled
      cases collected : collect kind now pl.targetPubkey records pl.seen s.store with
      | error e =>
        rw [collected] at handled
        cases handled
      | ok outcome =>
        obtain ⟨seen, store⟩ := outcome
        rw [collected] at handled
        cases handled
        obtain ⟨seenSound, storeSound⟩ := collect_sound member (honest pl found)
          (sound.pending requestId pl found) sound.store collected
        refine ⟨⟨storeSound, ?_⟩, ?_⟩
        · dsimp only
          split
          · exact sound.pending.erase
          · exact sound.pending.insert seenSound
        · intro effect reported
          rw [List.mem_singleton.mp reported]
          intro record inside
          obtain ⟨k, value⟩ := mem_values.mp inside
          exact seenSound k record value

end RecordService.Sound

end

/-! ### Honest answers -/

section

variable (P : DhtCrypto) (nodeIdFromPubkey : Bytes → NodeId)

/-- A message that is no answer to a lookup, or one with records that verify. -/
def HonestAnswers (node : DhtNode) (label : DhtLabel) : Prop :=
  match label.event with
  | .message _ wireBytes now =>
    match P.message.decode wireBytes with
    | some (.provider m) => m.Honest (providerKind P.verify) node.providers now
    | some (.prekey m) => m.Honest (prekeyKind P.verify) node.prekeys now
    | _ => True
  | _ => True

/-- What a callback gets is vouched for by what came in so far. -/
def DhtEffect.Verified (labels : List DhtLabel) : DhtEffect → Prop
  | .provider effect => effect.Verified (providerKind P.verify) (receivedProviders P labels)
  | .prekey effect => effect.Verified (prekeyKind P.verify) (receivedPrekeys P labels)

structure DhtNode.Sound (labels : List DhtLabel) (node : DhtNode) : Prop where
  providers : node.providers.Sound (providerKind P.verify) (receivedProviders P labels)
  prekeys : node.prekeys.Sound (prekeyKind P.verify) (receivedPrekeys P labels)

theorem DhtNode.sound_new (self : NodeId) : (DhtNode.new self).Sound P [] where
  providers := ⟨by simp [RecordStore.Sound, DhtNode.new], AllValues.empty⟩
  prekeys := ⟨by simp [RecordStore.Sound, DhtNode.new], AllValues.empty⟩

variable {P nodeIdFromPubkey} {labels : List DhtLabel} {node node' : DhtNode}

theorem DhtNode.Sound.more (sound : node.Sound P labels) (label : DhtLabel) :
    node.Sound P (labels ++ [label]) where
  providers := sound.providers.mono (by simp +contextual [receivedProviders])
  prekeys := sound.prekeys.mono (by simp +contextual [receivedPrekeys])

/-- What a step does if it does not touch the services. -/
theorem DhtNode.Sound.observe (sound : node.Sound P labels) (peer : PeerInfo) :
    (node.observe peer).Sound P labels := ⟨sound.providers, sound.prekeys⟩

/-- What a step does if it only touches the providers. -/
theorem DhtNode.Sound.withProviders (sound : node.Sound P labels)
    {service : RecordService ProviderRecord} {effects : List (RecordEffect ProviderRecord)}
    (kept : service.Sound (providerKind P.verify) (receivedProviders P labels))
    (verified : ∀ effect ∈ effects,
      effect.Verified (providerKind P.verify) (receivedProviders P labels)) :
    { node with providers := service }.Sound P labels ∧
      ∀ effect ∈ effects.map DhtEffect.provider, effect.Verified P labels := by
  refine ⟨⟨kept, sound.prekeys⟩, ?_⟩
  intro effect member
  obtain ⟨inner, inside, rfl⟩ := List.mem_map.mp member
  exact verified inner inside

theorem DhtNode.Sound.withPrekeys (sound : node.Sound P labels)
    {service : RecordService PrekeyRecord} {effects : List (RecordEffect PrekeyRecord)}
    (kept : service.Sound (prekeyKind P.verify) (receivedPrekeys P labels))
    (verified : ∀ effect ∈ effects,
      effect.Verified (prekeyKind P.verify) (receivedPrekeys P labels)) :
    { node with prekeys := service }.Sound P labels ∧
      ∀ effect ∈ effects.map DhtEffect.prekey, effect.Verified P labels := by
  refine ⟨⟨sound.providers, kept⟩, ?_⟩
  intro effect member
  obtain ⟨inner, inside, rfl⟩ := List.mem_map.mp member
  exact verified inner inside

theorem DhtNode.Sound.onMessage {fromPeer : PeerInfo} {wireBytes : Bytes} {now : UInt64}
    {effects : List DhtEffect} (sound : node.Sound P labels)
    (providersIn : ∀ m, P.message.decode wireBytes = some (.provider m) → ∀ record ∈ m.records,
      (record, now) ∈ receivedProviders P labels)
    (prekeysIn : ∀ m, P.message.decode wireBytes = some (.prekey m) → ∀ record ∈ m.records,
      (record, now) ∈ receivedPrekeys P labels)
    (honest : HonestAnswers P node ⟨.message fromPeer wireBytes now, effects⟩)
    (handled : node.onMessage P fromPeer wireBytes now = .ok (node', effects)) :
    node'.Sound P labels ∧ ∀ effect ∈ effects, effect.Verified P labels := by
  unfold DhtNode.onMessage at handled
  unfold HonestAnswers at honest
  cases decoded : P.message.decode wireBytes with
  | none =>
    rw [decoded] at handled
    cases handled
    exact ⟨sound, by simp⟩
  | some message =>
    simp only [decoded] at handled honest
    cases message with
    | provider m =>
      obtain ⟨outcome, answered, same⟩ := map_eq_ok.mp handled
      obtain ⟨rfl, rfl⟩ := Prod.mk.inj same
      obtain ⟨kept, verified⟩ := sound.providers.onMessage (providersIn m decoded) honest answered
      exact (sound.observe fromPeer).withProviders kept verified
    | prekey m =>
      obtain ⟨outcome, answered, same⟩ := map_eq_ok.mp handled
      obtain ⟨rfl, rfl⟩ := Prod.mk.inj same
      obtain ⟨kept, verified⟩ := sound.prekeys.onMessage (prekeysIn m decoded) honest answered
      exact (sound.observe fromPeer).withPrekeys kept verified
    | notSet =>
      cases handled
      exact ⟨sound.observe fromPeer, by simp⟩

/-- One step of a node that is only given honest answers. -/
theorem DhtNode.Sound.step {label : DhtLabel} (sound : node.Sound P labels)
    (taken : Guarded (DhtStep P nodeIdFromPubkey) (HonestAnswers P) node label node') :
    node'.Sound P (labels ++ [label]) ∧
      ∀ effect ∈ label.effects, effect.Verified P (labels ++ [label]) := by
  obtain ⟨honest, handled⟩ := taken
  obtain ⟨event, effects⟩ := label
  unfold DhtStep at handled
  have sound := sound.more ⟨event, effects⟩
  cases event with
  | observe peer =>
    cases handled
    exact ⟨sound.observe peer, by simp⟩
  | message fromPeer wireBytes now =>
    refine sound.onMessage ?_ ?_ honest handled
    · intro m decoded record member
      simp [receivedProviders, DhtEvent.providers, decoded, member]
    · intro m decoded record member
      simp [receivedPrekeys, DhtEvent.prekeys, decoded, member]
  | publish record now =>
    obtain ⟨sent, out, same⟩ := map_eq_ok.mp handled
    obtain ⟨rfl, rfl⟩ := Prod.mk.inj same
    obtain ⟨outcome, published, rfl⟩ := map_eq_ok.mp out
    -- a record of the node's own counts as received when it is published
    have member : (record, now) ∈ receivedProviders P (labels ++ [⟨.publish record now, []⟩]) := by
      simp [receivedProviders, DhtEvent.providers]
    exact ⟨⟨sound.providers.publish member published, sound.prekeys⟩, by simp⟩
  | publishPrekey record now =>
    obtain ⟨sent, out, same⟩ := map_eq_ok.mp handled
    obtain ⟨rfl, rfl⟩ := Prod.mk.inj same
    obtain ⟨outcome, published, rfl⟩ := map_eq_ok.mp out
    have member : (record, now) ∈
        receivedPrekeys P (labels ++ [⟨.publishPrekey record now, []⟩]) := by
      simp [receivedPrekeys, DhtEvent.prekeys]
    exact ⟨⟨sound.providers, sound.prekeys.publish member published⟩, by simp⟩
  | lookup targetPubkey requestId now =>
    simp only [DhtNode.handle, DhtNode.lookup] at handled
    split at handled
    · cases handled
      exact ⟨sound, by simp⟩
    · cases handled
      obtain ⟨kept, verified⟩ := sound.providers.lookup
        (node.peersFor nodeIdFromPubkey targetPubkey) targetPubkey requestId now
      exact sound.withProviders kept verified
  | lookupPrekey targetPubkey requestId now =>
    simp only [DhtNode.handle, DhtNode.lookupPrekey] at handled
    split at handled
    · cases handled
      exact ⟨sound, by simp⟩
    · cases handled
      obtain ⟨kept, verified⟩ := sound.prekeys.lookup
        (node.peersFor nodeIdFromPubkey targetPubkey) targetPubkey requestId now
      exact sound.withPrekeys kept verified
  | abortLookup requestId =>
    cases handled
    exact ⟨⟨sound.providers.abort requestId, sound.prekeys⟩, by simp⟩
  | abortPrekeyLookup requestId =>
    cases handled
    exact ⟨⟨sound.providers, sound.prekeys.abort requestId⟩, by simp⟩

end

/-- As long as the answers to its lookups are honest, everything that a node reports is for
the key that was asked for, verifies, and had not expired when it came in. -/
theorem lookups_report_verified (P : DhtCrypto) (nodeIdFromPubkey : Bytes → NodeId) (self : NodeId)
    (before after : List DhtLabel) (label : DhtLabel) (node : DhtNode)
    (run : Run (Guarded (DhtStep P nodeIdFromPubkey) (HonestAnswers P)) (DhtNode.new self)
      (before ++ label :: after) node) :
    ∀ effect ∈ label.effects, effect.Verified P (before ++ [label]) := by
  obtain ⟨u, v, start, taken, -⟩ := run.split
  have sound : u.Sound P before :=
    start.invariant_history (fun labels node => node.Sound P labels)
      (fun _ _ _ _ sound taken => (sound.step taken).1) (DhtNode.sound_new P self)
  exact (sound.step taken).2

/-! ### An answer with a forged record -/

section

variable {R : Type} {kind : RecordKind R} {s : RecordService R}

/-- A record for the target is reported whatever the store makes of it. -/
theorem RecordService.reports_answer (safe : ∀ record, ¬Fails (kind.verifySignature record))
    {requestId : Bytes} {pl : PendingLookup R} (waiting : s.pending[requestId]? = some pl) (record : R)
    (publisher : kind.publisherPubkey record = pl.targetPubkey) (now : UInt64) :
    ∃ s' records, s.onMessage kind now (.response requestId [record]) =
      .ok (s', [.report pl.targetPubkey records]) ∧ record ∈ records := by
  obtain ⟨⟨store, result⟩, put⟩ :=
    not_fails_iff.mp (RecordStore.not_fails_put kind safe s.store record now)
  have collected : collect kind now pl.targetPubkey [record] pl.seen s.store =
      .ok (pl.seen.insert (kind.recordKey record) record, store) := by
    simp [collect, publisher, put]
  simp only [RecordService.onMessage, waiting, collected]
  exact ⟨_, _, rfl, mem_values.mpr ⟨kind.recordKey record, by simp⟩⟩

theorem RecordService.pending_lookup {peers : List PeerInfo} (some : peers ≠ [])
    {requestId : Bytes} (fresh : requestId ∉ s.pending) (target : Bytes) (now : UInt64) :
    ∃ pl, (s.lookup kind peers target requestId now).1.pending[requestId]? = Option.some pl ∧
      pl.targetPubkey = target := by
  have asks : peers.isEmpty = false := by simpa using some
  refine ⟨⟨target, peers.length, seenFrom kind (s.store.get kind target now)⟩, ?_, rfl⟩
  simp only [RecordService.lookup, asks]
  rw [if_neg (by simp), ExtTreeMap.getElem?_insertIfNew, if_pos ⟨by simp, fresh⟩]

end

namespace DhtNode

/-- The one signature that verifies. -/
private def goodSignature : Bytes := List.replicate 64 1

private noncomputable def oneSignature : DhtCrypto :=
  ⟨fun _ _ signature => signature = goodSignature, .ofCountable _⟩

private def somePeer : PeerInfo := ⟨Vector.replicate kNodeIdBytes 1, [], []⟩

private def target : Bytes := List.replicate 32 5

private def requestId : Bytes := List.replicate 16 6

private def recordWith (signature : Bytes) : ProviderRecord :=
  ⟨target, [[104]], 50, 100, List.replicate 16 0, signature, []⟩

private def asking : DhtNode := (DhtNode.new .zero).observe somePeer

private theorem peersFor_asking : asking.peersFor (fun _ => .zero) target ≠ [] := by
  have apart : somePeer.id ≠ NodeId.zero := by decide
  have index : bucketIndex (xorDistance .zero somePeer.id) = 152 := by decide +kernel
  have inside : 152 < kAddressBits := by decide
  have bucket : asking.routing.buckets ⟨152, inside⟩ = [somePeer] := by
    simp [asking, DhtNode.observe, DhtNode.new, RoutingTable.observe, RoutingTable.new, apart, index,
      RoutingTable.refresh, inside]
  have member : somePeer ∈ asking.routing.all :=
    List.mem_flatMap.mpr ⟨⟨152, inside⟩, List.mem_finRange _, by rw [bucket]; simp⟩
  intro none
  have sorted := (List.take_eq_nil_iff.mp none).resolve_left (by decide)
  exact List.not_mem_nil (sorted ▸ List.mem_mergeSort.mpr member)

private noncomputable def asked : DhtNode :=
  (asking.lookup oneSignature (fun _ => .zero) target requestId 100).1

private theorem asked_pending :
    ∃ pl, asked.providers.pending[requestId]? = some pl ∧ pl.targetPubkey = target := by
  have sized : ¬target.length ≠ 32 := by decide
  have fresh : requestId ∉ asking.providers.pending := by simp [asking, observe, new]
  simp only [asked, lookup, sized, if_false]
  exact RecordService.pending_lookup peersFor_asking fresh target 100

/-- The node learns of a peer and asks it. -/
private noncomputable def asks : List DhtLabel :=
  [⟨.observe somePeer, []⟩, ⟨.lookup target requestId 100,
    (asking.lookup oneSignature (fun _ => .zero) target requestId 100).2.1⟩]

private theorem run_asks :
    Run (Guarded (DhtStep oneSignature fun _ => .zero) (HonestAnswers oneSignature)) (new .zero)
      asks asked :=
  .cons ⟨trivial, rfl⟩ (.cons ⟨trivial, rfl⟩ (.nil asked))

/-- The peer answers with one record. -/
private noncomputable def answerWith (signature : Bytes) : DhtEvent :=
  .message somePeer
    (oneSignature.message.encode (.provider (.response requestId [recordWith signature]))) 100

private theorem handle_answerWith (signature : Bytes) :
    ∃ node effects records,
      DhtStep oneSignature (fun _ => .zero) asked ⟨answerWith signature, effects⟩ node ∧
      .provider (.report target records) ∈ effects ∧ recordWith signature ∈ records := by
  obtain ⟨pl, waiting, named⟩ := asked_pending
  obtain ⟨service, records, answered, reported⟩ := RecordService.reports_answer
    (s := (asked.observe somePeer).providers) (providerKind_safe oneSignature.verify) waiting
    (recordWith signature) named.symm 100
  simp only [DhtStep, answerWith, handle, onMessage, Codec.decode_encode, answered, Except.map]
  exact ⟨_, _, records, rfl, by simp [named], reported⟩

/-- A peer answers a lookup with a record that nobody signed, and the node reports it. -/
theorem forged_record_reported :
    ∃ labels node, Run (DhtStep oneSignature fun _ => .zero) (new .zero) labels node ∧
      ∃ label ∈ labels, ∃ pubkey records, .provider (.report pubkey records) ∈ label.effects ∧
        ∃ record ∈ records, verifyRecordSignature oneSignature.verify record = .ok false := by
  obtain ⟨node, effects, records, handled, reported, member⟩ := handle_answerWith []
  have run := run_asks.unguarded.append (.cons handled (.nil node))
  exact ⟨_, node, run, ⟨answerWith [], effects⟩, by simp, target, records, reported, recordWith [],
    member, rfl⟩

/-- The answer is a record that its publisher signed. -/
theorem lookups_report_verified_signed :
    ∃ before label node, Run (Guarded (DhtStep oneSignature fun _ => .zero)
        (HonestAnswers oneSignature)) (new .zero) (before ++ [label]) node ∧
      (∃ records, .provider (.report target records) ∈ label.effects ∧ records ≠ []) ∧
      ∀ effect ∈ label.effects, effect.Verified oneSignature (before ++ [label]) := by
  obtain ⟨node, effects, records, handled, reported, member⟩ := handle_answerWith goodSignature
  have honest : HonestAnswers oneSignature asked ⟨answerWith goodSignature, effects⟩ := by
    simp only [HonestAnswers, answerWith, Codec.decode_encode]
    intro pl found record inside _
    rw [List.mem_singleton.mp inside]
    refine ⟨?_, by decide⟩
    change verifyRecordSignature oneSignature.verify (recordWith goodSignature) = .ok true
    rw [verifyRecordSignature_eq]
    rfl
  have run := run_asks.append (.cons ⟨honest, handled⟩ (.nil node))
  exact ⟨asks, ⟨answerWith goodSignature, effects⟩, node, run,
    ⟨records, reported, List.ne_nil_of_mem member⟩,
    lookups_report_verified oneSignature (fun _ => .zero) .zero asks [] _ node run⟩

end DhtNode

end FinBit.P2P
