import Mathlib.Data.Finset.Card
import FinBit.P2P.DhtLookups

/-! # When a lookup is over

A lookup counts the answers that it waits for and not who gives them. Any answer with its
request id counts, so it may be over before a slow peer has answered, and what that peer
answers is then lost. If every answer comes from a peer that was asked and has not answered
yet, the lookup is over exactly when all of them have.
-/

namespace FinBit.P2P

open FinBit.Lib Std

/-! ### Who was asked and who has answered -/

/-- The peers that a lookup was sent to, and those that have answered it since. -/
structure LookupLog where
  asked : List NodeId
  answered : List NodeId

/-- The lookups that were started and not given up, by their request id. -/
abbrev LookupBook := Bytes → Option LookupLog

/-- What an event means for the lookups of one kind of record. -/
inductive LookupTurn where
  | unrelated
  | start (requestId : Bytes) (asked : List NodeId)
  | answer (requestId : Bytes) (peer : NodeId)
  | abort (requestId : Bytes)

def LookupBook.turn (book : LookupBook) : LookupTurn → LookupBook
  | .unrelated => book
  | .start requestId asked => Function.update book requestId (some ⟨asked, []⟩)
  | .answer requestId peer => Function.update book requestId
      ((book requestId).map fun log => { log with answered := peer :: log.answered })
  | .abort requestId => Function.update book requestId none

def RecordMessage.turn {R : Type} (fromPeer : PeerInfo) : RecordMessage R → LookupTurn
  | .response requestId _ => .answer requestId fromPeer.id
  | _ => .unrelated

section

variable (P : DhtCrypto) (nodeIdFromPubkey : Bytes → NodeId) (node : DhtNode)

/-- The peers that a lookup of the key is sent to, if there are peers to ask. -/
def DhtNode.startTurn (targetPubkey requestId : Bytes) : LookupTurn :=
  if targetPubkey.length ≠ 32 then .unrelated
  else
    let peers := node.peersFor nodeIdFromPubkey targetPubkey
    if peers.isEmpty then .unrelated
    else .start requestId ((peers.filter fun p => p.id ≠ node.routing.self).map (·.id))

def DhtNode.providerTurn : DhtEvent → LookupTurn
  | .lookup targetPubkey requestId _ => node.startTurn nodeIdFromPubkey targetPubkey requestId
  | .message fromPeer wireBytes _ =>
    match P.message.decode wireBytes with
    | some (.provider m) => m.turn fromPeer
    | _ => .unrelated
  | .abortLookup requestId => .abort requestId
  | _ => .unrelated

def DhtNode.prekeyTurn : DhtEvent → LookupTurn
  | .lookupPrekey targetPubkey requestId _ => node.startTurn nodeIdFromPubkey targetPubkey requestId
  | .message fromPeer wireBytes _ =>
    match P.message.decode wireBytes with
    | some (.prekey m) => m.turn fromPeer
    | _ => .unrelated
  | .abortPrekeyLookup requestId => .abort requestId
  | _ => .unrelated

end

/-- A node with the logs of its lookups. -/
structure LoggedDht where
  node : DhtNode
  providers : LookupBook
  prekeys : LookupBook

namespace LoggedDht

def new (self : NodeId) : LoggedDht := ⟨.new self, fun _ => none, fun _ => none⟩

def Step (P : DhtCrypto) (nodeIdFromPubkey : Bytes → NodeId) (w : LoggedDht) (label : DhtLabel)
    (w' : LoggedDht) : Prop :=
  DhtStep P nodeIdFromPubkey w.node label w'.node ∧
    w'.providers = w.providers.turn (w.node.providerTurn P nodeIdFromPubkey label.event) ∧
    w'.prekeys = w.prekeys.turn (w.node.prekeyTurn P nodeIdFromPubkey label.event)

end LoggedDht

/-! ### One kind of record -/

section

variable {R : Type} {kind : RecordKind R} {s s' : RecordService R} {book : LookupBook}
  {turn : LookupTurn}

/-- A request id that is drawn is not in use; and whoever answers a lookup that is pending was
asked by it and has not answered it before. -/
def RecordService.Orderly (s : RecordService R) (book : LookupBook) : LookupTurn → Prop
  | .start requestId _ => requestId ∉ s.pending
  | .answer requestId peer => requestId ∈ s.pending → ∀ log, book requestId = some log →
      peer ∈ log.asked ∧ peer ∉ log.answered
  | _ => True

/-- What an answer does to a lookup that waits for it. -/
def PendingLookup.answered (pending : ExtTreeMap Bytes (PendingLookup R)) (requestId : Bytes)
    (pl : PendingLookup R) (seen : ExtTreeMap Bytes R) : ExtTreeMap Bytes (PendingLookup R) :=
  if pl.awaitingReplies - 1 = 0 then pending.erase requestId
  else pending.insert requestId { pl with awaitingReplies := pl.awaitingReplies - 1, seen := seen }

/-- What an event does to the lookups that are pending. -/
inductive Turned (s s' : RecordService R) : LookupTurn → Prop
  | unrelated (same : s'.pending = s.pending) : Turned s s' .unrelated
  | started {requestId : Bytes} {asked : List NodeId} (pl : PendingLookup R)
      (some : 0 < pl.awaitingReplies) (enough : asked.toFinset.card ≤ pl.awaitingReplies)
      (added : s'.pending = s.pending.insertIfNew requestId pl) :
      Turned s s' (.start requestId asked)
  | ignored {requestId : Bytes} {peer : NodeId} (absent : s.pending[requestId]? = none)
      (same : s'.pending = s.pending) : Turned s s' (.answer requestId peer)
  | answered {requestId : Bytes} {peer : NodeId} (pl : PendingLookup R) (seen : ExtTreeMap Bytes R)
      (found : s.pending[requestId]? = some pl)
      (counted : s'.pending = PendingLookup.answered s.pending requestId pl seen) :
      Turned s s' (.answer requestId peer)
  | aborted {requestId : Bytes} (erased : s'.pending = s.pending.erase requestId) :
      Turned s s' (.abort requestId)

/-- A lookup that is pending still waits for as many as have not answered; one that is not has
heard from everybody. -/
structure RecordService.Counts (s : RecordService R) (book : LookupBook) : Prop where
  waiting : ∀ (requestId : Bytes) (pl : PendingLookup R), s.pending[requestId]? = some pl →
    ∃ log, book requestId = some log ∧ 0 < pl.awaitingReplies ∧ log.answered.Nodup ∧
      log.answered ⊆ log.asked ∧
      log.asked.toFinset.card ≤ pl.awaitingReplies + log.answered.length
  finished : ∀ (requestId : Bytes) (log : LookupLog), s.pending[requestId]? = none →
    book requestId = some log → ∀ p ∈ log.asked, p ∈ log.answered

/-- As many different answers as were asked for are answers of everybody. -/
theorem all_answered {asked answered : List NodeId} (distinct : answered.Nodup)
    (among : answered ⊆ asked) (enough : asked.toFinset.card ≤ answered.length) :
    ∀ p ∈ asked, p ∈ answered := by
  have sub : answered.toFinset ⊆ asked.toFinset := by
    intro p member
    exact List.mem_toFinset.mpr (among (List.mem_toFinset.mp member))
  rw [← List.toFinset_card_of_nodup distinct] at enough
  have same := Finset.eq_of_subset_of_card_le sub enough
  intro p member
  rw [← List.mem_toFinset, same]
  exact List.mem_toFinset.mpr member

namespace RecordService.Counts

/-- An event changes one lookup and its log, and leaves the others as they are. -/
theorem update (counts : s.Counts book) {requestId : Bytes} {log? : Option LookupLog}
    (others : ∀ other, other ≠ requestId → s'.pending[other]? = s.pending[other]?)
    (waiting : ∀ pl, s'.pending[requestId]? = some pl →
      ∃ log, log? = some log ∧ 0 < pl.awaitingReplies ∧ log.answered.Nodup ∧
        log.answered ⊆ log.asked ∧
        log.asked.toFinset.card ≤ pl.awaitingReplies + log.answered.length)
    (finished : s'.pending[requestId]? = none → ∀ log, log? = some log →
      ∀ p ∈ log.asked, p ∈ log.answered) :
    s'.Counts (Function.update book requestId log?) := by
  constructor
  · intro other pl found
    by_cases here : other = requestId
    · subst here
      obtain ⟨log, logged, rest⟩ := waiting pl found
      exact ⟨log, (Function.update_self ..).trans logged, rest⟩
    · rw [others other here] at found
      obtain ⟨log, logged, rest⟩ := counts.waiting other pl found
      exact ⟨log, (Function.update_of_ne here ..).trans logged, rest⟩
  · intro other log absent logged
    by_cases here : other = requestId
    · subst here
      rw [Function.update_self] at logged
      exact finished absent log logged
    · rw [others other here] at absent
      rw [Function.update_of_ne here] at logged
      exact counts.finished other log absent logged

theorem start (counts : s.Counts book) {requestId : Bytes} {asked : List NodeId}
    {pl : PendingLookup R} (fresh : requestId ∉ s.pending) (some : 0 < pl.awaitingReplies)
    (enough : asked.toFinset.card ≤ pl.awaitingReplies)
    (added : s'.pending = s.pending.insertIfNew requestId pl) :
    s'.Counts (book.turn (.start requestId asked)) := by
  have here : s'.pending[requestId]? = .some pl := by
    rw [added, ExtTreeMap.getElem?_insertIfNew, if_pos ⟨by simp, fresh⟩]
  refine counts.update (fun other apart => ?_) (fun pl' found => ?_) fun absent => ?_
  · rw [added, ExtTreeMap.getElem?_insertIfNew, if_neg (by simp [Ne.symm apart])]
  · obtain rfl := Option.some.inj (here.symm.trans found)
    exact ⟨⟨asked, []⟩, rfl, some, List.nodup_nil, by simp, by simpa using enough⟩
  · rw [here] at absent
    cases absent

theorem abort (counts : s.Counts book) {requestId : Bytes}
    (erased : s'.pending = s.pending.erase requestId) :
    s'.Counts (book.turn (.abort requestId)) := by
  refine counts.update (fun other apart => ?_) (fun pl found => ?_) fun _ log logged => ?_
  · simp [erased, ExtTreeMap.getElem?_erase, Ne.symm apart]
  · simp [erased] at found
  · cases logged

/-- An answer to a lookup that is over, or was never made. -/
theorem ignore (counts : s.Counts book) {requestId : Bytes} (peer : NodeId)
    (absent : s.pending[requestId]? = none) (same : s'.pending = s.pending) :
    s'.Counts (book.turn (.answer requestId peer)) := by
  refine counts.update (fun other _ => by rw [same]) (fun pl found => ?_) fun _ log logged => ?_
  · rw [same, absent] at found
    cases found
  · obtain ⟨earlier, noted, rfl⟩ := Option.map_eq_some_iff.mp logged
    exact fun p member =>
      List.mem_cons_of_mem peer (counts.finished requestId earlier absent noted p member)

/-- An answer that is counted: it comes from somebody who was asked and had not answered. -/
theorem answer (counts : s.Counts book) {requestId : Bytes} {peer : NodeId} {pl : PendingLookup R}
    {seen : ExtTreeMap Bytes R} (orderly : s.Orderly book (.answer requestId peer))
    (found : s.pending[requestId]? = some pl)
    (counted : s'.pending = PendingLookup.answered s.pending requestId pl seen) :
    s'.Counts (book.turn (.answer requestId peer)) := by
  obtain ⟨log, logged, positive, distinct, among, enough⟩ := counts.waiting requestId pl found
  have waits : requestId ∈ s.pending := by
    rw [ExtTreeMap.mem_iff_isSome_getElem?, found]
    rfl
  obtain ⟨asked, unheard⟩ := orderly waits log logged
  have distinct' : (peer :: log.answered).Nodup := List.nodup_cons.mpr ⟨unheard, distinct⟩
  have among' : peer :: log.answered ⊆ log.asked := List.cons_subset.mpr ⟨asked, among⟩
  rw [LookupBook.turn, logged, Option.map_some]
  refine counts.update (fun other apart => ?_) (fun pl' found' => ?_) fun absent log' noted => ?_
  · rw [counted, PendingLookup.answered]
    split
    · simp [ExtTreeMap.getElem?_erase, Ne.symm apart]
    · simp [ExtTreeMap.getElem?_insert, Ne.symm apart]
  · rw [counted, PendingLookup.answered] at found'
    split at found'
    · simp at found'
    next more =>
      rw [ExtTreeMap.getElem?_insert_self] at found'
      cases found'
      refine ⟨_, rfl, by dsimp only; omega, distinct', among', ?_⟩
      dsimp only [List.length_cons]
      omega
  · cases noted
    rw [counted, PendingLookup.answered] at absent
    split at absent
    next last =>
      exact all_answered distinct' among' (by dsimp only [List.length_cons]; omega)
    · simp at absent

/-- One step, whatever it means for the lookups. -/
theorem step (counts : s.Counts book) (orderly : s.Orderly book turn) (turned : Turned s s' turn) :
    s'.Counts (book.turn turn) := by
  cases turned with
  | unrelated same =>
    constructor
    · intro requestId pl found
      exact counts.waiting requestId pl (same ▸ found)
    · intro requestId log absent
      exact counts.finished requestId log (same ▸ absent)
  | started pl some enough added => exact counts.start orderly some enough added
  | ignored absent same => exact counts.ignore _ absent same
  | answered pl seen found counted => exact counts.answer orderly found counted
  | aborted erased => exact counts.abort erased

end RecordService.Counts

/-- Only an answer or an abort ends a lookup. -/
theorem Turned.removed (turned : Turned s s' turn) {requestId : Bytes}
    (waits : requestId ∈ s.pending) (gone : requestId ∉ s'.pending) :
    turn = .abort requestId ∨ ∃ peer, turn = .answer requestId peer := by
  cases turned with
  | unrelated same =>
    rw [same] at gone
    exact absurd waits gone
  | started pl some enough added =>
    rw [added, ExtTreeMap.mem_insertIfNew] at gone
    exact absurd (.inr waits) gone
  | ignored absent same =>
    rw [same] at gone
    exact absurd waits gone
  | @answered id peer pl seen found counted =>
    refine .inr ⟨peer, ?_⟩
    by_contra other
    have apart : id ≠ requestId := fun same => other (by rw [same])
    rw [counted, PendingLookup.answered] at gone
    split at gone
    · exact gone (ExtTreeMap.mem_erase.mpr ⟨by simpa using apart, waits⟩)
    · exact gone (ExtTreeMap.mem_insert.mpr (.inr waits))
  | @aborted id erased =>
    refine .inl ?_
    by_contra other
    have apart : id ≠ requestId := fun same => other (by rw [same])
    rw [erased] at gone
    exact gone (ExtTreeMap.mem_erase.mpr ⟨by simpa using apart, waits⟩)

/-! ### What the service does -/

theorem Turned.onMessage {now : UInt64} {message : RecordMessage R}
    {effects : List (RecordEffect R)} (fromPeer : PeerInfo)
    (handled : s.onMessage kind now message = .ok (s', effects)) :
    Turned s s' (message.turn fromPeer) := by
  cases message with
  | publish record =>
    simp only [RecordService.onMessage] at handled
    cases put : s.store.put kind record now with
    | error e => simp [put] at handled
    | ok outcome =>
      rw [put] at handled
      cases handled
      exact .unrelated rfl
  | lookup targetPubkey requestId =>
    simp only [RecordService.onMessage] at handled
    split at handled <;> cases handled <;> exact .unrelated rfl
  | response requestId records =>
    simp only [RecordService.onMessage] at handled
    cases found : s.pending[requestId]? with
    | none =>
      rw [found] at handled
      cases handled
      exact .ignored found rfl
    | some pl =>
      rw [found] at handled
      dsimp only at handled
      cases collected : collect kind now pl.targetPubkey records pl.seen s.store with
      | error e => simp [collected] at handled
      | ok outcome =>
        rw [collected] at handled
        cases handled
        exact .answered pl outcome.1 found rfl

/-- The peers that are waited for are at least those that are asked. -/
theorem Turned.lookup {peers : List PeerInfo} (some : ¬peers.isEmpty) (self : NodeId)
    (targetPubkey requestId : Bytes) (now : UInt64) :
    Turned s (s.lookup kind peers targetPubkey requestId now).1
      (.start requestId ((peers.filter fun p => p.id ≠ self).map (·.id))) := by
  have positive : 0 < peers.length := List.length_pos_iff.mpr (by simpa using some)
  simp only [RecordService.lookup, some]
  refine .started ⟨targetPubkey, peers.length, _⟩ positive ?_ rfl
  calc ((peers.filter fun p => p.id ≠ self).map (·.id)).toFinset.card
      ≤ ((peers.filter fun p => p.id ≠ self).map (·.id)).length := List.toFinset_card_le _
    _ ≤ peers.length := by
        rw [List.length_map]
        exact List.length_filter_le ..

theorem RecordService.pending_publish {record : R} {now : UInt64} {out : Bool}
    (published : s.publish kind record now = .ok (s', out)) : s'.pending = s.pending := by
  unfold RecordService.publish at published
  cases put : s.store.put kind record now with
  | error e => simp [put] at published
  | ok outcome =>
    rw [put] at published
    cases published
    rfl

/-! ### What reaches the callback -/

/-- What was seen under its own key is not lost, though it may be replaced. -/
theorem collect_keeps {now : UInt64} {target key : Bytes} {records : List R}
    {seen seen' : ExtTreeMap Bytes R} {store store' : RecordStore R}
    (before : ∃ r, seen[key]? = some r ∧ kind.recordKey r = key)
    (collected : collect kind now target records seen store = .ok (seen', store')) :
    ∃ r, seen'[key]? = some r ∧ kind.recordKey r = key := by
  induction records generalizing seen store with
  | nil =>
    cases collected
    exact before
  | cons record rest ih =>
    unfold collect at collected
    split at collected
    · exact ih before collected
    · cases put : store.put kind record now with
      | error e => simp [put] at collected
      | ok outcome =>
        rw [put] at collected
        refine ih ?_ collected
        rw [ExtTreeMap.getElem?_insert]
        split
        next same => exact ⟨record, rfl, by simpa using same⟩
        · exact before

/-- Every record of the answer that is for the target is seen. -/
theorem collect_sees {now : UInt64} {target : Bytes} {records : List R}
    {seen seen' : ExtTreeMap Bytes R} {store store' : RecordStore R}
    (collected : collect kind now target records seen store = .ok (seen', store')) :
    ∀ record ∈ records, kind.publisherPubkey record = target →
      ∃ r, seen'[kind.recordKey record]? = some r ∧ kind.recordKey r = kind.recordKey record := by
  induction records generalizing seen store with
  | nil => simp
  | cons first rest ih =>
    unfold collect at collected
    intro record member publisher
    split at collected
    next foreign =>
      rcases List.mem_cons.mp member with rfl | later
      · exact absurd publisher foreign
      · exact ih collected record later publisher
    · cases put : store.put kind first now with
      | error e => simp [put] at collected
      | ok outcome =>
        rw [put] at collected
        rcases List.mem_cons.mp member with rfl | later
        · exact collect_keeps ⟨record, ExtTreeMap.getElem?_insert_self, rfl⟩ collected
        · exact ih collected record later publisher

/-- The records of an answer are in what the lookup reports next. -/
def RecordService.Heard (kind : RecordKind R) (s : RecordService R) (requestId : Bytes)
    (records : List R) (effects : List (RecordEffect R)) : Prop :=
  ∃ pl reported, s.pending[requestId]? = some pl ∧ .report pl.targetPubkey reported ∈ effects ∧
    ∀ record ∈ records, kind.publisherPubkey record = pl.targetPubkey →
      kind.recordKey record ∈ reported.map kind.recordKey

theorem RecordService.heard {now : UInt64} {requestId : Bytes} {records : List R}
    {effects : List (RecordEffect R)} {pl : PendingLookup R} (found : s.pending[requestId]? = some pl)
    (handled : s.onMessage kind now (.response requestId records) = .ok (s', effects)) :
    s.Heard kind requestId records effects := by
  simp only [RecordService.onMessage, found] at handled
  cases collected : collect kind now pl.targetPubkey records pl.seen s.store with
  | error e => simp [collected] at handled
  | ok outcome =>
    obtain ⟨seen, store⟩ := outcome
    rw [collected] at handled
    cases handled
    refine ⟨pl, _, found, List.mem_singleton_self _, ?_⟩
    intro record member publisher
    obtain ⟨r, value, key⟩ := collect_sees collected record member publisher
    rw [← key]
    exact List.mem_map_of_mem (mem_values.mpr ⟨_, value⟩)

end

/-! ### The node -/

section

variable {P : DhtCrypto} {nodeIdFromPubkey : Bytes → NodeId} {node node' : DhtNode}
  {label : DhtLabel}

/-- What a message that parses does to the two services. -/
theorem DhtNode.handle_message {fromPeer : PeerInfo} {wireBytes : Bytes} {now : UInt64}
    {effects : List DhtEffect}
    (handled : node.onMessage P fromPeer wireBytes now = .ok (node', effects)) :
    match P.message.decode wireBytes with
    | some (.provider m) => node'.prekeys = node.prekeys ∧ ∃ out, effects = out.map .provider ∧
        node.providers.onMessage (providerKind P.verify) now m = .ok (node'.providers, out)
    | some (.prekey m) => node'.providers = node.providers ∧ ∃ out, effects = out.map .prekey ∧
        node.prekeys.onMessage (prekeyKind P.verify) now m = .ok (node'.prekeys, out)
    | _ => node'.providers = node.providers ∧ node'.prekeys = node.prekeys := by
  unfold DhtNode.onMessage at handled
  cases decoded : P.message.decode wireBytes with
  | none =>
    rw [decoded] at handled
    cases handled
    exact ⟨rfl, rfl⟩
  | some message =>
    simp only [decoded] at handled
    cases message with
    | provider m =>
      obtain ⟨⟨service, out⟩, answered, same⟩ := map_eq_ok.mp handled
      obtain ⟨rfl, rfl⟩ := Prod.mk.inj same
      exact ⟨rfl, out, rfl, answered⟩
    | prekey m =>
      obtain ⟨⟨service, out⟩, answered, same⟩ := map_eq_ok.mp handled
      obtain ⟨rfl, rfl⟩ := Prod.mk.inj same
      exact ⟨rfl, out, rfl, answered⟩
    | notSet =>
      cases handled
      exact ⟨rfl, rfl⟩

theorem DhtNode.turned (taken : DhtStep P nodeIdFromPubkey node label node') :
    Turned node.providers node'.providers (node.providerTurn P nodeIdFromPubkey label.event) ∧
      Turned node.prekeys node'.prekeys (node.prekeyTurn P nodeIdFromPubkey label.event) := by
  obtain ⟨event, effects⟩ := label
  unfold DhtStep at taken
  cases event with
  | observe peer =>
    cases taken
    exact ⟨.unrelated rfl, .unrelated rfl⟩
  | message fromPeer wireBytes now =>
    have outcome := DhtNode.handle_message taken
    simp only [DhtNode.providerTurn, DhtNode.prekeyTurn]
    generalize P.message.decode wireBytes = message at outcome ⊢
    rcases message with _ | m | m | _
    · exact ⟨.unrelated (by rw [outcome.1]), .unrelated (by rw [outcome.2])⟩
    · obtain ⟨same, out, -, handled⟩ := outcome
      exact ⟨.onMessage fromPeer handled, .unrelated (by rw [same])⟩
    · obtain ⟨same, out, -, handled⟩ := outcome
      exact ⟨.unrelated (by rw [same]), .onMessage fromPeer handled⟩
    · exact ⟨.unrelated (by rw [outcome.1]), .unrelated (by rw [outcome.2])⟩
  | publish record now =>
    obtain ⟨sent, out, same⟩ := map_eq_ok.mp taken
    obtain ⟨rfl, rfl⟩ := Prod.mk.inj same
    obtain ⟨outcome, published, rfl⟩ := map_eq_ok.mp out
    exact ⟨.unrelated (RecordService.pending_publish published), .unrelated rfl⟩
  | publishPrekey record now =>
    obtain ⟨sent, out, same⟩ := map_eq_ok.mp taken
    obtain ⟨rfl, rfl⟩ := Prod.mk.inj same
    obtain ⟨outcome, published, rfl⟩ := map_eq_ok.mp out
    exact ⟨.unrelated rfl, .unrelated (RecordService.pending_publish published)⟩
  | lookup targetPubkey requestId now =>
    simp only [DhtNode.handle, DhtNode.lookup] at taken
    simp only [DhtNode.providerTurn, DhtNode.startTurn, DhtNode.prekeyTurn]
    split at taken
    next short =>
      cases taken
      rw [if_pos short]
      exact ⟨.unrelated rfl, .unrelated rfl⟩
    next sized =>
      cases taken
      rw [if_neg sized]
      split
      next none =>
        refine ⟨.unrelated ?_, .unrelated rfl⟩
        simp only [RecordService.lookup, none, if_true]
      next some => exact ⟨.lookup some _ _ _ now, .unrelated rfl⟩
  | lookupPrekey targetPubkey requestId now =>
    simp only [DhtNode.handle, DhtNode.lookupPrekey] at taken
    simp only [DhtNode.providerTurn, DhtNode.startTurn, DhtNode.prekeyTurn]
    split at taken
    next short =>
      cases taken
      rw [if_pos short]
      exact ⟨.unrelated rfl, .unrelated rfl⟩
    next sized =>
      cases taken
      rw [if_neg sized]
      split
      next none =>
        refine ⟨.unrelated rfl, .unrelated ?_⟩
        simp only [RecordService.lookup, none, if_true]
      next some => exact ⟨.unrelated rfl, .lookup some _ _ _ now⟩
  | abortLookup requestId =>
    cases taken
    exact ⟨.aborted rfl, .unrelated rfl⟩
  | abortPrekeyLookup requestId =>
    cases taken
    exact ⟨.unrelated rfl, .aborted rfl⟩

end

/-- Everybody who was asked has answered. -/
def LookupLog.Complete (log : LookupLog) : Prop := ∀ p ∈ log.asked, p ∈ log.answered

/-- A lookup that the step ends was given up, or everybody has answered it. -/
def RecordService.EndsComplete {R : Type} (s s' : RecordService R) (book : LookupBook)
    (turn : LookupTurn) : Prop :=
  ∀ requestId ∈ s.pending, requestId ∉ s'.pending →
    turn = .abort requestId ∨ ∃ log, book requestId = some log ∧ log.Complete

namespace LoggedDht

section

variable (P : DhtCrypto) (nodeIdFromPubkey : Bytes → NodeId)

/-- No request id is drawn while it is in use, and a pending lookup is only answered by the peers
that it was sent to, once by each. -/
def Orderly (w : LoggedDht) (label : DhtLabel) : Prop :=
  w.node.providers.Orderly w.providers (w.node.providerTurn P nodeIdFromPubkey label.event) ∧
    w.node.prekeys.Orderly w.prekeys (w.node.prekeyTurn P nodeIdFromPubkey label.event)

/-- What a step must not do to a lookup: end it too early, or keep an answer from its callback. -/
structure Patient (w : LoggedDht) (label : DhtLabel) (w' : LoggedDht) : Prop where
  providersEnd : w.node.providers.EndsComplete w'.node.providers w'.providers
    (w.node.providerTurn P nodeIdFromPubkey label.event)
  prekeysEnd : w.node.prekeys.EndsComplete w'.node.prekeys w'.prekeys
    (w.node.prekeyTurn P nodeIdFromPubkey label.event)
  providersHeard : ∀ fromPeer wireBytes now requestId records log,
    label.event = .message fromPeer wireBytes now →
    P.message.decode wireBytes = some (.provider (.response requestId records)) →
    w.providers requestId = some log → fromPeer.id ∈ log.asked → ¬log.Complete →
      ∃ effects, label.effects = effects.map .provider ∧
        w.node.providers.Heard (providerKind P.verify) requestId records effects
  prekeysHeard : ∀ fromPeer wireBytes now requestId records log,
    label.event = .message fromPeer wireBytes now →
    P.message.decode wireBytes = some (.prekey (.response requestId records)) →
    w.prekeys requestId = some log → fromPeer.id ∈ log.asked → ¬log.Complete →
      ∃ effects, label.effects = effects.map .prekey ∧
        w.node.prekeys.Heard (prekeyKind P.verify) requestId records effects

end

structure Counts (w : LoggedDht) : Prop where
  providers : w.node.providers.Counts w.providers
  prekeys : w.node.prekeys.Counts w.prekeys

theorem counts_new (self : NodeId) : (new self).Counts where
  providers := ⟨by simp [new, DhtNode.new], by simp [new]⟩
  prekeys := ⟨by simp [new, DhtNode.new], by simp [new]⟩

section

variable {P : DhtCrypto} {nodeIdFromPubkey : Bytes → NodeId} {w w' : LoggedDht} {label : DhtLabel}

theorem Counts.step (counts : w.Counts)
    (taken : Guarded (Step P nodeIdFromPubkey) (Orderly P nodeIdFromPubkey) w label w') :
    w'.Counts := by
  obtain ⟨⟨providersOrderly, prekeysOrderly⟩, moved, providersNoted, prekeysNoted⟩ := taken
  obtain ⟨providersTurned, prekeysTurned⟩ := DhtNode.turned moved
  constructor
  · rw [providersNoted]
    exact counts.providers.step providersOrderly providersTurned
  · rw [prekeysNoted]
    exact counts.prekeys.step prekeysOrderly prekeysTurned

end

end LoggedDht

/-- When the counts are right after a step, what it ended had heard from everybody. -/
theorem Turned.endsComplete {R : Type} {s s' : RecordService R} {book : LookupBook}
    {turn : LookupTurn} (turned : Turned s s' turn) (before : s.Counts book)
    (after : s'.Counts (book.turn turn)) : s.EndsComplete s' (book.turn turn) turn := by
  intro requestId waits gone
  rcases turned.removed waits gone with aborted | ⟨peer, rfl⟩
  · exact .inl aborted
  · right
    obtain ⟨pl, found⟩ : ∃ pl, s.pending[requestId]? = some pl :=
      Option.isSome_iff_exists.mp (ExtTreeMap.mem_iff_isSome_getElem?.mp waits)
    obtain ⟨log, logged, -⟩ := before.waiting requestId pl found
    have noted : book.turn (.answer requestId peer) requestId =
        some { log with answered := peer :: log.answered } := by
      rw [LookupBook.turn, Function.update_self, logged]
      rfl
    have absent : s'.pending[requestId]? = none := ExtTreeMap.getElem?_eq_none gone
    exact ⟨_, noted, after.finished requestId _ absent noted⟩

/-- A lookup that still waits for somebody is pending. -/
theorem RecordService.Counts.pending {R : Type} {s : RecordService R} {book : LookupBook}
    (counts : s.Counts book) {requestId : Bytes} {log : LookupLog}
    (logged : book requestId = some log) (waits : ¬log.Complete) :
    ∃ pl, s.pending[requestId]? = some pl := by
  cases found : s.pending[requestId]? with
  | none => exact absurd (counts.finished requestId log found logged) waits
  | some pl => exact ⟨pl, rfl⟩

/-- In an orderly run a lookup is over when it is given up or has been answered by all, and until
then every answer reaches its callback. -/
theorem lookups_are_patient (P : DhtCrypto) (nodeIdFromPubkey : Bytes → NodeId) (self : NodeId)
    (labels : List DhtLabel) (w w' : LoggedDht) (label : DhtLabel)
    (run : Run (Guarded (LoggedDht.Step P nodeIdFromPubkey) (LoggedDht.Orderly P nodeIdFromPubkey))
      (.new self) labels w)
    (taken : Guarded (LoggedDht.Step P nodeIdFromPubkey) (LoggedDht.Orderly P nodeIdFromPubkey)
      w label w') :
    LoggedDht.Patient P nodeIdFromPubkey w label w' := by
  have before : w.Counts :=
    run.invariant LoggedDht.Counts (fun _ _ _ counts taken => counts.step taken)
      (LoggedDht.counts_new self)
  have after : w'.Counts := before.step taken
  obtain ⟨-, moved, providersNoted, prekeysNoted⟩ := taken
  obtain ⟨providersTurned, prekeysTurned⟩ := DhtNode.turned moved
  refine ⟨?_, ?_, ?_, ?_⟩
  · rw [providersNoted]
    exact providersTurned.endsComplete before.providers (providersNoted ▸ after.providers)
  · rw [prekeysNoted]
    exact prekeysTurned.endsComplete before.prekeys (prekeysNoted ▸ after.prekeys)
  · intro fromPeer wireBytes now requestId records log message decoded logged _ waits
    obtain ⟨pl, found⟩ := before.providers.pending logged waits
    rw [DhtStep, message] at moved
    have outcome := DhtNode.handle_message moved
    rw [decoded] at outcome
    obtain ⟨-, effects, same, handled⟩ := outcome
    exact ⟨effects, same, RecordService.heard found handled⟩
  · intro fromPeer wireBytes now requestId records log message decoded logged _ waits
    obtain ⟨pl, found⟩ := before.prekeys.pending logged waits
    rw [DhtStep, message] at moved
    have outcome := DhtNode.handle_message moved
    rw [decoded] at outcome
    obtain ⟨-, effects, same, handled⟩ := outcome
    exact ⟨effects, same, RecordService.heard found handled⟩

/-! ### Two peers, one of which answers twice -/

/-- A table with one bucket in use lists that bucket. -/
theorem flatMap_update {α : Type} {n : Nat} (i : Fin n) (l : List α) :
    (List.finRange n).flatMap (Function.update (fun _ => []) i l) = l := by
  obtain ⟨before, after, positions⟩ := List.append_of_mem (List.mem_finRange i)
  have distinct := List.nodup_finRange n
  rw [positions] at distinct ⊢
  have apart := List.nodup_middle.mp distinct
  have other : ∀ j ∈ before ++ after, Function.update (fun _ => []) i l j = ([] : List α) := by
    intro j member
    have differ : j ≠ i := fun same => (List.nodup_cons.mp apart).1 (by rwa [same] at member)
    exact Function.update_of_ne differ ..
  have none (js : List (Fin n)) (among : ∀ j ∈ js, j ∈ before ++ after) :
      js.flatMap (Function.update (fun _ => []) i l) = [] :=
    List.flatMap_eq_nil_iff.mpr fun j member => other j (among j member)
  rw [List.flatMap_append, List.flatMap_cons, Function.update_self,
    none before fun j => List.mem_append_left _, none after fun j => List.mem_append_right _]
  simp

namespace LoggedDht

private def goodCrypto : SignVerify := fun _ _ _ => true

private noncomputable def anyCrypto : DhtCrypto := ⟨goodCrypto, .ofCountable _⟩

private def fastPeer : PeerInfo := ⟨Vector.replicate kNodeIdBytes 1, [], []⟩

private theorem last_octet : 19 < kNodeIdBytes := by decide

private def slowPeer : PeerInfo := ⟨(Vector.replicate kNodeIdBytes 1).set 19 2 last_octet, [], []⟩

private def wanted : Bytes := List.replicate 32 5

private def drawn : Bytes := List.replicate 16 6

private def acquainted : DhtNode := ((DhtNode.new .zero).observe fastPeer).observe slowPeer

private theorem all_acquainted : acquainted.routing.all = [fastPeer, slowPeer] := by
  have inside : 152 < kAddressBits := by decide
  have fastIndex : bucketIndex (xorDistance .zero fastPeer.id) = 152 := by decide +kernel
  have slowIndex : bucketIndex (xorDistance .zero slowPeer.id) = 152 := by decide +kernel
  have differ : fastPeer.id ≠ slowPeer.id := by decide
  have first := (RoutingTable.new .zero).buckets_observe (by decide) fastIndex inside
  have self : ((RoutingTable.new .zero).observe fastPeer).self = .zero :=
    RoutingTable.self_observe ..
  have second := ((RoutingTable.new .zero).observe fastPeer).buckets_observe
    (self.symm ▸ (by decide : slowPeer.id ≠ NodeId.zero)) (self.symm ▸ slowIndex) inside
  have buckets : acquainted.routing.buckets =
      Function.update (fun _ => []) ⟨152, inside⟩ [fastPeer, slowPeer] := by
    rw [acquainted, DhtNode.observe, DhtNode.observe, DhtNode.new, second, first,
      Function.update_self, Function.update_idem]
    simp [RoutingTable.refresh, RoutingTable.new, differ, kBucketSize]
  rw [RoutingTable.all, buckets, flatMap_update]

private theorem peersFor_acquainted :
    (acquainted.peersFor (fun _ => .zero) wanted).Perm [fastPeer, slowPeer] := by
  rw [DhtNode.peersFor, closestCapped, RoutingTable.closest, all_acquainted,
    List.take_of_length_le (by simp [List.length_mergeSort, kReplicationFactor, kBucketSize])]
  exact List.mergeSort_perm ..

/-- The peers that a lookup by this node is sent to. -/
private def askedBy (node : DhtNode) : List NodeId :=
  ((node.peersFor (fun _ => .zero) wanted).filter fun p => p.id ≠ node.routing.self).map (·.id)

/-- The lookup with those that have answered it. -/
private def bookOf (asked answered : List NodeId) : LookupBook :=
  Function.update (fun _ => none) drawn (some ⟨asked, answered⟩)

private noncomputable def inquiring (node : DhtNode) : LoggedDht where
  node := (node.lookup anyCrypto (fun _ => .zero) wanted drawn 100).1
  providers := bookOf (askedBy node) []
  prekeys := fun _ => none

/-- The lookup waits for so many more answers. -/
private def Waits (w : LoggedDht) (awaiting : Nat) (asked answered : List NodeId) : Prop :=
  w.providers = bookOf asked answered ∧
    ∃ pl, w.node.providers.pending[drawn]? = some pl ∧ pl.awaitingReplies = awaiting

section

variable {node : DhtNode}

private theorem inquire (asks : ¬(node.peersFor (fun _ => .zero) wanted).isEmpty)
    (fresh : drawn ∉ node.providers.pending) :
    Guarded (Step anyCrypto fun _ => .zero) (Orderly anyCrypto fun _ => .zero)
      ⟨node, fun _ => none, fun _ => none⟩ ⟨.lookup wanted drawn 100,
        (node.lookup anyCrypto (fun _ => .zero) wanted drawn 100).2.1⟩ (inquiring node) := by
  have sized : ¬wanted.length ≠ 32 := by decide
  have turn : node.providerTurn anyCrypto (fun _ => .zero) (.lookup wanted drawn 100) =
      .start drawn (askedBy node) := by
    rw [DhtNode.providerTurn, DhtNode.startTurn, if_neg sized]
    dsimp only
    rw [if_neg asks, askedBy]
  refine ⟨⟨?_, trivial⟩, rfl, ?_, rfl⟩
  · dsimp only
    rw [turn]
    exact fresh
  · dsimp only
    rw [turn]
    rfl

private theorem waits_inquiring (asks : ¬(node.peersFor (fun _ => .zero) wanted).isEmpty)
    (fresh : drawn ∉ node.providers.pending) :
    Waits (inquiring node) (node.peersFor (fun _ => .zero) wanted).length (askedBy node) [] := by
  have sized : ¬wanted.length ≠ 32 := by decide
  refine ⟨rfl, ?_⟩
  simp only [inquiring, DhtNode.lookup, sized, if_false, RecordService.lookup, asks]
  exact ⟨_, (ExtTreeMap.getElem?_insertIfNew ..).trans (if_pos ⟨by simp, fresh⟩), rfl⟩

end

/-- An answer without records. -/
private noncomputable def emptyAnswer (peer : PeerInfo) : DhtEvent :=
  .message peer (anyCrypto.message.encode (.provider (.response drawn []))) 100

private theorem orderly_emptyAnswer {w : LoggedDht} {awaiting : Nat} {asked answered : List NodeId}
    (waits : Waits w awaiting asked answered) (peer : PeerInfo) (effects : List DhtEffect)
    (among : peer.id ∈ asked) (unheard : peer.id ∉ answered) :
    Orderly anyCrypto (fun _ => .zero) w ⟨emptyAnswer peer, effects⟩ := by
  constructor
  · simp only [DhtNode.providerTurn, emptyAnswer, Codec.decode_encode, RecordMessage.turn]
    intro _ log logged
    rw [waits.1, bookOf, Function.update_self] at logged
    cases logged
    exact ⟨among, unheard⟩
  · simp only [DhtNode.prekeyTurn, emptyAnswer, Codec.decode_encode]
    trivial

/-- Whoever answers, the lookup waits for one answer less, and is over with the last. -/
private theorem step_emptyAnswer {w : LoggedDht} {awaiting : Nat} {asked answered : List NodeId}
    (waits : Waits w awaiting asked answered) (peer : PeerInfo) :
    ∃ effects w', Step anyCrypto (fun _ => .zero) w ⟨emptyAnswer peer, effects⟩ w' ∧
      w'.providers = bookOf asked (peer.id :: answered) ∧
      if awaiting - 1 = 0 then w'.node.providers.pending[drawn]? = none
      else Waits w' (awaiting - 1) asked (peer.id :: answered) := by
  obtain ⟨book, pl, found, rfl⟩ := waits
  have turn : w.node.providerTurn anyCrypto (fun _ => .zero) (emptyAnswer peer) =
      .answer drawn peer.id := by
    simp [DhtNode.providerTurn, emptyAnswer, Codec.decode_encode, RecordMessage.turn]
  have noted : w.providers.turn (.answer drawn peer.id) = bookOf asked (peer.id :: answered) := by
    rw [book, LookupBook.turn, bookOf, Function.update_self, Function.update_idem]
    rfl
  obtain ⟨⟨service, out⟩, handled⟩ := not_fails_iff.mp (RecordService.not_fails_onMessage
    (providerKind_safe anyCrypto.verify) w.node.providers 100 (.response drawn []))
  have moved : DhtStep anyCrypto (fun _ => .zero) w.node
      ⟨emptyAnswer peer, out.map .provider⟩ { w.node.observe peer with providers := service } := by
    simp only [DhtStep, DhtNode.handle, emptyAnswer, DhtNode.onMessage, Codec.decode_encode]
    change (RecordService.onMessage _ w.node.providers _ _).map _ = _
    rw [handled]
    rfl
  simp only [RecordService.onMessage, found, collect] at handled
  cases handled
  refine ⟨_, ⟨_, bookOf asked (peer.id :: answered),
    w.prekeys.turn (w.node.prekeyTurn anyCrypto (fun _ => .zero) (emptyAnswer peer))⟩,
    ⟨moved, ?_, rfl⟩, rfl, ?_⟩
  · dsimp only
    rw [turn, noted]
  · dsimp only
    split
    · simp
    next more => exact ⟨rfl, _, ExtTreeMap.getElem?_insert_self, rfl⟩

private theorem asks_acquainted : ¬(acquainted.peersFor (fun _ => .zero) wanted).isEmpty := by
  rw [List.isEmpty_iff_length_eq_zero, peersFor_acquainted.length_eq]
  decide

private theorem asked_acquainted {peer : PeerInfo} (known : peer = fastPeer ∨ peer = slowPeer) :
    peer.id ∈ askedBy acquainted := by
  have self : acquainted.routing.self = .zero := by
    rw [acquainted, DhtNode.observe, DhtNode.observe]
    exact (RoutingTable.self_observe ..).trans (RoutingTable.self_observe ..)
  have listed : peer ∈ acquainted.peersFor (fun _ => .zero) wanted :=
    peersFor_acquainted.mem_iff.mpr (by simpa using known)
  have apart : peer.id ≠ NodeId.zero := by
    rcases known with rfl | rfl <;> decide
  refine List.mem_map_of_mem (List.mem_filter.mpr ⟨listed, ?_⟩)
  rw [self]
  exact decide_eq_true apart

private theorem meet (node : DhtNode) (providers prekeys : LookupBook) (peer : PeerInfo) :
    Guarded (Step anyCrypto fun _ => .zero) (Orderly anyCrypto fun _ => .zero)
      ⟨node, providers, prekeys⟩ ⟨.observe peer, []⟩ ⟨node.observe peer, providers, prekeys⟩ :=
  ⟨⟨trivial, trivial⟩, rfl, rfl, rfl⟩

/-- Both peers are learnt of, and asked. -/
private theorem run_inquiring :
    (∃ labels, Run (Guarded (Step anyCrypto fun _ => .zero) (Orderly anyCrypto fun _ => .zero))
      (new .zero) labels (inquiring acquainted)) ∧
      Waits (inquiring acquainted) 2 (askedBy acquainted) [] := by
  have fresh : drawn ∉ acquainted.providers.pending := by
    change drawn ∉ (∅ : ExtTreeMap Bytes (PendingLookup ProviderRecord))
    simp
  have waits := waits_inquiring asks_acquainted fresh
  rw [peersFor_acquainted.length_eq] at waits
  exact ⟨⟨_, .cons (meet (.new .zero) _ _ fastPeer) (.cons (meet _ _ _ slowPeer)
    (.cons (inquire asks_acquainted fresh) (.nil _)))⟩, waits⟩

/-- When the fast peer answers again the lookup is over, although the slow one has not answered;
and when it does, nothing is reported. -/
theorem lookup_over_too_early :
    ∃ labels w label w', Run (Step anyCrypto fun _ => .zero) (new .zero) labels w ∧
      Step anyCrypto (fun _ => .zero) w label w' ∧
      drawn ∈ w.node.providers.pending ∧ drawn ∉ w'.node.providers.pending ∧
      (∀ requestId, label.event ≠ .abortLookup requestId) ∧
      (∃ log, w'.providers drawn = some log ∧ slowPeer.id ∈ log.asked ∧
        slowPeer.id ∉ log.answered) ∧
      ∀ records, ∃ w'', Step anyCrypto (fun _ => .zero) w' ⟨.message slowPeer
        (anyCrypto.message.encode (.provider (.response drawn records))) 100, []⟩ w'' := by
  obtain ⟨⟨labels, run⟩, waits⟩ := run_inquiring
  obtain ⟨effects, once, first, -, waits'⟩ := step_emptyAnswer waits fastPeer
  rw [if_neg (by decide)] at waits'
  obtain ⟨effects', twice, second, book, done⟩ := step_emptyAnswer waits' fastPeer
  rw [if_pos rfl] at done
  have gone : drawn ∉ twice.node.providers.pending := by
    rw [ExtTreeMap.mem_iff_isSome_getElem?, done]
    simp
  have still : drawn ∈ once.node.providers.pending := by
    obtain ⟨-, pl, found, -⟩ := waits'
    rw [ExtTreeMap.mem_iff_isSome_getElem?, found]
    rfl
  refine ⟨_, once, _, twice, run.unguarded.append (.cons first (.nil once)), second, still, gone, ?_, ?_, ?_⟩
  · simp [emptyAnswer]
  · rw [book, bookOf, Function.update_self]
    exact ⟨_, rfl, asked_acquainted (.inr rfl), by decide⟩
  · intro records
    refine ⟨⟨twice.node.observe slowPeer, twice.providers.turn (.answer drawn slowPeer.id),
      twice.prekeys⟩, ?_, ?_, ?_⟩
    · simp only [DhtStep, DhtNode.handle, DhtNode.onMessage, Codec.decode_encode]
      change (RecordService.onMessage _ twice.node.providers _ _).map _ = _
      simp only [RecordService.onMessage, done]
      rfl
    · simp [DhtNode.providerTurn, Codec.decode_encode, RecordMessage.turn]
    · simp [DhtNode.prekeyTurn, Codec.decode_encode, LookupBook.turn]

/-- Both peers answer, and with the second answer the lookup is over. -/
theorem lookups_are_patient_both :
    ∃ labels w label w', Run (Guarded (Step anyCrypto fun _ => .zero)
        (Orderly anyCrypto fun _ => .zero)) (new .zero) labels w ∧
      drawn ∈ w.node.providers.pending ∧ drawn ∉ w'.node.providers.pending ∧
      Patient anyCrypto (fun _ => .zero) w label w' := by
  obtain ⟨⟨labels, run⟩, waits⟩ := run_inquiring
  obtain ⟨effects, once, first, -, waits'⟩ := step_emptyAnswer waits fastPeer
  rw [if_neg (by decide)] at waits'
  obtain ⟨effects', twice, second, -, done⟩ := step_emptyAnswer waits' slowPeer
  rw [if_pos rfl] at done
  have gone : drawn ∉ twice.node.providers.pending := by
    rw [ExtTreeMap.mem_iff_isSome_getElem?, done]
    simp
  have still : drawn ∈ once.node.providers.pending := by
    obtain ⟨-, pl, found, -⟩ := waits'
    rw [ExtTreeMap.mem_iff_isSome_getElem?, found]
    rfl
  have orderly := orderly_emptyAnswer waits fastPeer effects (asked_acquainted (.inl rfl)) (by simp)
  have orderly' := orderly_emptyAnswer waits' slowPeer effects' (asked_acquainted (.inr rfl))
    (by decide)
  have run' := run.append (.cons ⟨orderly, first⟩ (.nil once))
  exact ⟨_, once, _, twice, run', still, gone,
    lookups_are_patient anyCrypto _ .zero _ once twice _ run' ⟨orderly', second⟩⟩

end LoggedDht

end FinBit.P2P
