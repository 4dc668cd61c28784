import FinBit.Lib.Runs
import FinBit.Crypto.RatchetRuns
import FinBit.Crypto.RatchetDelivery

/-! # Runs of a conversation

From a new session on, the two sides stay in step whatever the network delivers, as long
as no sending counter wraps. The counters are 32 bits wide and nothing looks at their
overflow: a message numbered 0 again after 2 ^ 32 others is not opened before the one
that was sent before it.
-/

namespace FinBit.Crypto

open FinBit.Lib Std

variable {K : Type}

section Runs

variable (P : RatchetCrypto K) (pubOf : K → Bytes) (shared : K)

/-- The two states of a new session. -/
def Conversation.begin (a : Ratchet K) (drawn ours : KeyPair K) : Conversation K where
  alice := ⟨a, [], []⟩
  bob := ⟨Ratchet.initBob P shared ours, [], []⟩
  drawn := [drawn.pub, ours.pub]

/-- The steps of a conversation. -/
def Conversation.Steps (w : Conversation K) (event : ConversationEvent K) (w' : Conversation K) :
    Prop :=
  w' = w.step P event

/-- Both sides know the chains of the session. -/
def Conversation.InStep (w : Conversation K) : Prop :=
  ∃ G sa sb placea placeb gota gotb,
    Joint P pubOf shared G w.alice w.bob sa sb placea placeb gota gotb w.drawn

variable {P pubOf shared}

theorem Conversation.inStep_begin (honest : HonestDh P pubOf) {a : Ratchet K}
    {drawn ours : KeyPair K} (created : Ratchet.initAlice P drawn shared ours.pub = .ok a)
    (drawn_honest : drawn.pub = pubOf drawn.priv) (ours_honest : ours.pub = pubOf ours.priv)
    (distinct : drawn.pub ≠ ours.pub) :
    (Conversation.begin P shared a drawn ours).InStep P pubOf shared := by
  obtain ⟨dh, agreed⟩ := honest.contributes drawn.priv ours.priv
  simp only [Ratchet.initAlice, ours_honest, agreed, Except.ok.injEq] at created
  subst created
  -- chain 0 is the published key, chain 1 the initiator's first
  let G : Chains K := {
    priv := fun k => if k = 0 then ours.priv else drawn.priv
    base := fun _ => (P.kdfRk shared dh).2
    root := fun k => if k = 1 then shared else (P.kdfRk shared dh).1
    len := fun _ => 0 }
  have pub_zero : G.pub pubOf 0 = ours.pub := ours_honest.symm
  have pub_one : G.pub pubOf 1 = drawn.pub := drawn_honest.symm
  have none_cached (s : Nat) (Seen : Nat → Nat → Prop) :
      G.Cached P pubOf s ∅ Seen fun _ => 0 := by
    intro h n key
    simp
  refine ⟨G, 1, 0, fun _ => (0, 0), fun _ => (0, 0), fun _ => 0, fun _ => 0, ?_⟩
  constructor
  case apart => exact .inl rfl
  case chains =>
    constructor
    case first => rfl
    case derived =>
      intro k below
      obtain rfl : k = 0 := by omega
      exact ⟨dh, agreed, rfl⟩
    case distinct =>
      intro j j_below k k_below same
      have zero_or_one {k : Nat} (below : k ≤ max 1 0) : k = 0 ∨ k = 1 := by omega
      rcases zero_or_one j_below with rfl | rfl <;> rcases zero_or_one k_below with rfl | rfl
      · rfl
      · rw [pub_zero, pub_one] at same
        exact absurd same.symm distinct
      · rw [pub_zero, pub_one] at same
        exact absurd same distinct
      · rfl
    case small => simp [G]
    case unsent => rfl
    case used =>
      intro k below
      have zero_or_one : k = 0 ∨ k = 1 := by omega
      rcases zero_or_one with rfl | rfl
      · simp [pub_zero, Conversation.begin]
      · simp [pub_one, Conversation.begin]
  case p_sends =>
    constructor
    case pub => exact pub_one.symm
    all_goals simp [Conversation.begin, Ratchet.blank, G, Chains.pn]
  case q_sends =>
    constructor
    case pub => exact pub_zero.symm
    all_goals simp [Conversation.begin, Ratchet.initBob, Ratchet.blank, G, Chains.pn]
  case p_receives =>
    constructor
    case dhr => exact fun _ => rfl
    case cache => exact none_cached _ _
    all_goals simp [Conversation.begin, Ratchet.blank]
  case q_receives =>
    constructor
    case cache => exact none_cached _ _
    all_goals simp [Conversation.begin, Ratchet.initBob, Ratchet.blank]

/-- The invariant as one party sees it. -/
theorem Conversation.InStep.of_role {w : Conversation K} (inStep : w.InStep P pubOf shared)
    (role : Role) : ∃ G sp sq placep placeq gotp gotq, Joint P pubOf shared G (w.party role)
      (w.party role.other) sp sq placep placeq gotp gotq w.drawn := by
  obtain ⟨G, sa, sb, placea, placeb, gota, gotb, joint⟩ := inStep
  cases role with
  | alice => exact ⟨G, sa, sb, placea, placeb, gota, gotb, joint⟩
  | bob => exact ⟨G, sb, sa, placeb, placea, gotb, gota, joint.symm⟩

theorem Conversation.inStep_set {w : Conversation K} {role : Role} {p : Party K}
    {drawn : List Bytes} {G : Chains K} {sp sq : Nat} {placep placeq : Nat → Nat × Nat}
    {gotp gotq : Nat → Nat}
    (joint : Joint P pubOf shared G p (w.party role.other) sp sq placep placeq gotp gotq drawn) :
    { w.set role p with drawn := drawn }.InStep P pubOf shared := by
  cases role with
  | alice => exact ⟨G, sp, sq, placep, placeq, gotp, gotq, joint⟩
  | bob => exact ⟨G, sq, sp, placeq, placep, gotq, gotp, joint.symm⟩

/-- What each step keeps. -/
theorem Conversation.InStep.step (honest : HonestDh P pubOf) (free : CollisionFree P shared)
    {w : Conversation K} (inStep : w.InStep P pubOf shared) {event : ConversationEvent K}
    (fair : Fair P pubOf w event) (counted : Counted w event) :
    (w.step P event).InStep P pubOf shared := by
  cases event with
  | encrypt sender plaintext outerAad =>
    obtain ⟨G, sp, sq, placep, placeq, gotp, gotq, joint⟩ := inStep.of_role sender
    obtain ⟨G', placep', after⟩ := joint.encrypt counted plaintext outerAad
    have drawn : (w.set sender ((w.party sender).encrypt P plaintext outerAad)).drawn = w.drawn := by
      cases sender <;> rfl
    have result := inStep_set (w := w) after
    rwa [← drawn] at result
  | deliver receiver place drawn =>
    simp only [Conversation.step]
    split
    · exact inStep
    next e at_place =>
      obtain ⟨G, sp, sq, placep, placeq, gotp, gotq, joint⟩ := inStep.of_role receiver
      obtain ⟨drawn_honest, unused, bounds⟩ := fair
      by_cases again : place ∈ (w.party receiver).seen
      · -- nothing happens but the delivery
        have replayed := joint.replayed honest free at_place again drawn
        have after := (joint.seen_again again).more_drawn (w.party receiver).ratchet.dhsPub
        simp only [Party.deliver, replayed]
        exact inStep_set after
      · obtain ⟨within, room⟩ := bounds e at_place again
        obtain ⟨-, G', sp', gotp', after⟩ := joint.first_delivery honest at_place drawn_honest
          unused again within room
        exact inStep_set after

/-- In every run in which no sending counter wraps, the first delivery of a message
returns its plaintext, and any later one returns nothing and changes nothing. -/
theorem delivered_once (honest : HonestDh P pubOf) (free : CollisionFree P shared) {a : Ratchet K}
    {drawn ours : KeyPair K} (created : Ratchet.initAlice P drawn shared ours.pub = .ok a)
    (drawn_honest : drawn.pub = pubOf drawn.priv) (ours_honest : ours.pub = pubOf ours.priv)
    (distinct : drawn.pub ≠ ours.pub) {w : Conversation K} {events : List (ConversationEvent K)}
    (run : Run (Guarded (Conversation.Steps P) fun w event => Fair P pubOf w event ∧ Counted w event)
      (Conversation.begin P shared a drawn ours) events w)
    {receiver : Role} {place : Nat} {fresh : KeyPair K} {e : SentMessage}
    (sent : (w.party receiver.other).sent[place]? = some e)
    (fair : Fair P pubOf w (.deliver receiver place fresh)) :
    (place ∉ (w.party receiver).seen →
      ((w.party receiver).ratchet.tryDecrypt P fresh e.bytes e.outerAad).2 =
        .ok (some e.plaintext)) ∧
    (place ∈ (w.party receiver).seen →
      (w.party receiver).ratchet.tryDecrypt P fresh e.bytes e.outerAad =
        ((w.party receiver).ratchet, .ok none)) := by
  have inStep : w.InStep P pubOf shared := by
    apply run.invariant (Conversation.InStep P pubOf shared) ?_
      (Conversation.inStep_begin honest created drawn_honest ours_honest distinct)
    rintro w event w' inStep ⟨⟨fair, counted⟩, rfl⟩
    exact inStep.step honest free fair counted
  obtain ⟨G, sp, sq, placep, placeq, gotp, gotq, joint⟩ := inStep.of_role receiver
  obtain ⟨fresh_honest, unused, bounds⟩ := fair
  constructor
  · intro first
    obtain ⟨within, room⟩ := bounds e sent first
    exact (joint.first_delivery honest sent fresh_honest unused first within room).1
  · intro again
    exact joint.replayed honest free sent again fresh

end Runs

/-! ### A counter that wraps -/

open Ratchet (octets octetPoint octetPair)

private theorem octets_dh (a b : Nat) : octets.x25519Dh a (octetPoint b) =
    let product := UInt8.ofNat (2 * a + 1) * UInt8.ofNat (2 * b + 1)
    if product = 0 then none else some product.toNat := by
  simp only [octets, octetPoint, List.getLastD_concat]

theorem honestDh_octets : HonestDh octets octetPoint where
  length_pub k := by simp [octetPoint]
  comm a b := by simp only [octets_dh, UInt8.mul_comm]
  contributes a b := by
    have odd : UInt8.ofNat (2 * a + 1) * UInt8.ofNat (2 * b + 1) ≠ 0 := by
      intro product
      have residue := congrArg UInt8.toNat product
      simp only [UInt8.toNat_mul, UInt8.toNat_ofNat', UInt8.reduceToNat, ← Nat.mul_mod] at residue
      have even : (2 * a + 1) * (2 * b + 1) % 2 = 0 := by omega
      simp [Nat.mul_mod, Nat.add_mod] at even
    simp only [octets_dh, odd, if_false]
    exact ⟨_, rfl⟩

theorem collisionFree_octets : CollisionFree octets 0 where
  root_inj same := by simpa [octets] using same
  chain_inj same := by
    simp only [octets, Nat.add_right_cancel_iff] at same
    exact Nat.pair_eq_pair.mp (by omega)
  chain_seed r d k same := by
    simp only [octets, ChainKdf.nat] at same
    omega
  shared_root r d := by simp [octets]

/-- An initiator that meets the responder of scalar 2. -/
private noncomputable def opening : Ratchet Nat :=
  { Ratchet.blank octets with
    dhsPub := octetPoint 1
    dhsPriv := 1
    dhrPub := octetPoint 2
    haveDhr := true
    rk := (octets.kdfRk 0 15).1
    cks := (octets.kdfRk 0 15).2
    haveCks := true }

private theorem opening_created :
    Ratchet.initAlice octets (octetPair 1) 0 (octetPair 2).pub = .ok opening := by
  have agreed : octets.x25519Dh 1 (octetPoint 2) = some 15 := by decide
  simp only [Ratchet.initAlice, octetPair, agreed]
  rfl

/-- The responder after the first message. -/
private noncomputable def answered : Ratchet Nat :=
  (Ratchet.initBob octets 0 (octetPair 2)).turned octets (octetPoint 1) (octetPair 3) 15 21

/-- After `n` messages that were delivered as they were sent. -/
private structure InOrder (n : Nat) (w : Conversation Nat) : Prop where
  alice : w.alice.ratchet =
    { opening with cks := octets.kdfCk.nextKey^[n] opening.cks, ns := UInt32.ofNat n }
  bob : w.bob.ratchet =
    { answered with ckr := octets.kdfCk.nextKey^[n] opening.cks, nr := UInt32.ofNat n }
  sent : w.alice.sent.length = n
  seen : ∀ t, t ∈ w.bob.seen ↔ t < n
  unused : octetPoint 4 ∉ w.drawn

/-- The initiator's message at position `n`. -/
private noncomputable def chatter (n : Nat) : SentMessage where
  bytes := octets.message.encode
    { headerDhPub := octetPoint 1
      pn := 0
      n := UInt32.ofNat n
      ciphertext := octets.aead.encrypt
        (octets.kdfCk.messageKey (octets.kdfCk.nextKey^[n] opening.cks))
        (Ratchet.composeAad (octetPoint 1) 0 (UInt32.ofNat n) []) [7] }
  outerAad := []
  plaintext := [7]

private theorem send_chatter {w : Conversation Nat} {n : Nat} (at_n : w.alice.ratchet =
      { opening with cks := octets.kdfCk.nextKey^[n] opening.cks, ns := UInt32.ofNat n }) :
    w.step octets (.encrypt .alice [7] []) = { w with alice := { w.alice with
      ratchet := { opening with
        cks := octets.kdfCk.nextKey^[n + 1] opening.cks
        ns := UInt32.ofNat (n + 1) }
      sent := w.alice.sent ++ [chatter n] } } := by
  simp only [Conversation.step, Conversation.set, Conversation.party, Party.encrypt,
    Ratchet.encrypt, at_n, chatter, Function.iterate_succ_apply', UInt32.ofNat_add]
  rfl

private theorem parse_chatter (n : Nat) :
    ∃ ct, Ratchet.parseMessage octets (chatter n).bytes =
        some ⟨octetPoint 1, 0, UInt32.ofNat n, ct⟩ ∧
      octets.aead.encrypt (octets.kdfCk.messageKey (octets.kdfCk.nextKey^[n] opening.cks))
        (Ratchet.composeAad (octetPoint 1) 0 (UInt32.ofNat n) []) [7] = ct := by
  refine ⟨_, ?_, rfl⟩
  simp [Ratchet.parseMessage, chatter, Option.filter, octetPoint]

private theorem deliver_chatter (n : Nat) :
    { answered with ckr := octets.kdfCk.nextKey^[n] opening.cks, nr := UInt32.ofNat n :
        Ratchet Nat }.tryDecrypt octets (octetPair 4) (chatter n).bytes [] =
      ({ answered with
          ckr := octets.kdfCk.nextKey^[n + 1] opening.cks
          nr := UInt32.ofNat (n + 1) }, .ok (some [7])) := by
  obtain ⟨ct, parsed, made⟩ := parse_chatter n
  apply Ratchet.tryDecrypt_of_parsed parsed
  rw [Ratchet.decryptMessage_next octets rfl (by simp [Ratchet.isNewDh, answered, Ratchet.turned])
    rfl, octets.aead.decrypt_eq_some_iff.mpr made, Function.iterate_succ_apply', UInt32.ofNat_add]
  rfl

private theorem first_chatter :
    (Ratchet.initBob octets 0 (octetPair 2)).tryDecrypt octets (octetPair 3) (chatter 0).bytes [] =
      (answered, .ok (some [7])) := by
  obtain ⟨ct, parsed, made⟩ := parse_chatter 0
  apply Ratchet.tryDecrypt_of_parsed parsed
  have received : octets.x25519Dh 2 (octetPoint 1) = some 15 := by decide
  have sent : octets.x25519Dh 3 (octetPoint 1) = some 21 := by decide
  have first : (Ratchet.initBob octets 0 (octetPair 2)).decryptMessage octets (octetPair 3)
      ⟨octetPoint 1, 0, 0, ct⟩ [] = (answered, .ok (octets.aead.decrypt _ _ ct)) :=
    Ratchet.decryptMessage_first octets rfl rfl rfl received sent
  have opened := octets.aead.decrypt_eq_some_iff.mpr made
  exact first.trans (congrArg (fun pt => (answered, Except.ok pt)) opened)

/-- The steps that the network and the key generator allow, whatever the counters do. -/
private abbrev FairSteps : Conversation Nat → ConversationEvent Nat → Conversation Nat → Prop :=
  Guarded (Conversation.Steps octets) (Fair octets octetPoint)

/-- A message that its receiver takes at once, without skipping a key. -/
private theorem fair_deliver {w : Conversation Nat} {n : Nat} {drawn : KeyPair Nat}
    {e : SentMessage} {r : Ratchet Nat} {m : RatchetMessage} (at_n : w.alice.sent[n]? = some e)
    (drawn_honest : drawn.pub = octetPoint drawn.priv) (unused : drawn.pub ∉ w.drawn)
    (parsed : Ratchet.parseMessage octets e.bytes = some m)
    (near : w.bob.ratchet.refuses m = false) (close : w.bob.ratchet.isNewDh m.headerDhPub = true →
      m.n.toNat ≤ Ratchet.kMaxSkip)
    (result : (w.bob.ratchet.tryDecrypt octets drawn e.bytes e.outerAad).1 = r)
    (empty : r.skipped = ∅) : Fair octets octetPoint w (.deliver .bob n drawn) := by
  refine ⟨drawn_honest, unused, ?_⟩
  intro e' at_n' _
  obtain rfl : e = e' := Option.some.inj (at_n.symm.trans at_n')
  constructor
  · intro m' parsed' _
    obtain rfl : m = m' := Option.some.inj (parsed.symm.trans parsed')
    exact ⟨near, close⟩
  · rw [show w.party .bob = w.bob from rfl, result, empty]
    simp

private theorem InOrder.next {n : Nat} {w : Conversation Nat} (inOrder : InOrder n w) :
    ∃ w', Run FairSteps w [.encrypt .alice [7] [], .deliver .bob n (octetPair 4)] w' ∧
      InOrder (n + 1) w' := by
  have newest : (w.alice.sent ++ [chatter n])[n]? = some (chatter n) := by
    rw [← inOrder.sent, List.getElem?_concat_length]
  have delivered := deliver_chatter n
  rw [← inOrder.bob] at delivered
  refine ⟨_, .cons ⟨trivial, (send_chatter inOrder.alice).symm⟩ (.cons ⟨?_, rfl⟩ (.nil _)), ?_⟩
  · obtain ⟨ct, parsed, -⟩ := parse_chatter n
    refine fair_deliver newest rfl inOrder.unused parsed ?_ ?_ (congrArg Prod.fst delivered) rfl
    · simp [inOrder.bob, Ratchet.refuses, Ratchet.isNewDh, Ratchet.tooFar, answered, Ratchet.turned]
    · simp [inOrder.bob, Ratchet.isNewDh, answered, Ratchet.turned]
  · simp only [Conversation.step, Conversation.party, Role.other, newest, Conversation.set,
      Party.deliver, show (chatter n).outerAad = [] from rfl, delivered]
    constructor
    case alice => rfl
    case bob => rfl
    case sent => simp [inOrder.sent]
    case seen =>
      intro t
      rw [List.mem_cons, inOrder.seen]
      omega
    case unused =>
      intro member
      rcases List.mem_cons.mp member with same | before
      · exact absurd same (by decide)
      · exact inOrder.unused before

private theorem fair_first {w : Conversation Nat} (sent : w.alice.sent = [chatter 0])
    (bob : w.bob.ratchet = Ratchet.initBob octets 0 (octetPair 2))
    (drawn : w.drawn = [octetPoint 1, octetPoint 2]) :
    Fair octets octetPoint w (.deliver .bob 0 (octetPair 3)) := by
  obtain ⟨ct, parsed, -⟩ := parse_chatter 0
  have first := congrArg Prod.fst first_chatter
  rw [← bob] at first
  refine fair_deliver (e := chatter 0) (by rw [sent]; rfl) rfl (by rw [drawn]; decide) parsed ?_ ?_
    first rfl
  · rw [bob]
    rfl
  · simp

private theorem inOrder_one : ∃ w, Run FairSteps
    (Conversation.begin octets 0 opening (octetPair 1) (octetPair 2))
    [.encrypt .alice [7] [], .deliver .bob 0 (octetPair 3)] w ∧ InOrder 1 w := by
  refine ⟨_, .cons ⟨trivial, (send_chatter (n := 0) rfl).symm⟩ (.cons ⟨?_, rfl⟩ (.nil _)), ?_⟩
  · exact fair_first rfl rfl rfl
  · simp only [Conversation.step, Conversation.party, Role.other, Conversation.begin,
      List.nil_append, List.getElem?_cons_zero, Conversation.set, Party.deliver,
      show (chatter 0).outerAad = [] from rfl, first_chatter]
    constructor
    case alice => rfl
    case bob => rfl
    case sent => rfl
    case seen => simp
    case unused => decide

private theorem exists_inOrder {n : Nat} (positive : 0 < n) : ∃ events w, Run FairSteps
    (Conversation.begin octets 0 opening (octetPair 1) (octetPair 2)) events w ∧ InOrder n w := by
  induction n, positive using Nat.le_induction with
  | base =>
    obtain ⟨w, run, inOrder⟩ := inOrder_one
    exact ⟨_, w, run, inOrder⟩
  | succ n _ ih =>
    obtain ⟨events, w, run, inOrder⟩ := ih
    obtain ⟨w', run', inOrder'⟩ := inOrder.next
    exact ⟨_, w', run.append run', inOrder'⟩

/-- The key that the receiver takes for number 0 is the one before the right one. -/
private theorem overtaken_chatter {n : Nat} (wraps : (n + 1) % 2 ^ 32 = 0) :
    { answered with ckr := octets.kdfCk.nextKey^[n] opening.cks, nr := UInt32.ofNat n :
        Ratchet Nat }.tryDecrypt octets (octetPair 4) (chatter (n + 1)).bytes [] =
      ({ answered with ckr := octets.kdfCk.nextKey^[n] opening.cks, nr := UInt32.ofNat n },
        .ok none) := by
  obtain ⟨ct, parsed, made⟩ := parse_chatter (n + 1)
  have zero : UInt32.ofNat (n + 1) = 0 := by
    rw [← UInt32.toNat_inj, UInt32.toNat_ofNat']
    exact wraps
  have wrong : octets.aead.decrypt (octets.kdfCk.messageKey (octets.kdfCk.nextKey^[n] opening.cks))
      (Ratchet.composeAad (octetPoint 1) 0 0 []) ct = none := by
    apply Option.eq_none_iff_forall_ne_some.mpr
    intro pt opened
    have sealed := octets.aead.decrypt_eq_some_iff.mp opened
    have keys := (octets.aead.encrypt_inj (sealed.trans made.symm)).1
    have seed : octets.kdfCk.IsSeed opening.cks := collisionFree_octets.chain_seed 0 15
    have positions :=
      (octets.kdfCk.iterate_inj seed seed (octets.kdfCk.messageKey_injective keys)).2
    omega
  rw [zero] at parsed
  simp [Ratchet.tryDecrypt, Ratchet.decrypt, parsed, Ratchet.decryptMessage, Ratchet.isNewDh,
    answered, Ratchet.turned, Ratchet.openInChain_eq, Ratchet.tooFar, Ratchet.ahead, wrong]

/-- In a session of more than 2 ^ 32 messages one that overtakes another is lost, though
nothing else is missing. -/
theorem wrapped_counter_lost :
    HonestDh octets octetPoint ∧ CollisionFree octets 0 ∧ ∃ a events w e,
      Ratchet.initAlice octets (octetPair 1) 0 (octetPair 2).pub = .ok a ∧
      Run (Guarded (Conversation.Steps octets) (Fair octets octetPoint))
        (Conversation.begin octets 0 a (octetPair 1) (octetPair 2)) events w ∧
      w.alice.sent[2 ^ 32]? = some e ∧ (∀ t, t ∈ w.bob.seen ↔ t < 2 ^ 32 - 1) ∧
      Fair octets octetPoint w (.deliver .bob (2 ^ 32) (octetPair 4)) ∧
      (w.bob.ratchet.tryDecrypt octets (octetPair 4) e.bytes e.outerAad).2 = .ok none := by
  obtain ⟨n, count⟩ : ∃ n, n + 1 = 2 ^ 32 := ⟨2 ^ 32 - 1, by decide⟩
  obtain ⟨events, w, run, inOrder⟩ := exists_inOrder (n := n) (by omega)
  have lost := overtaken_chatter (n := n) (by omega)
  rw [← inOrder.bob] at lost
  have behind : (w.alice.sent ++ [chatter n] ++ [chatter (n + 1)])[n + 1]? =
      some (chatter (n + 1)) := by
    rw [← inOrder.sent]
    simp
  -- two more messages, of which the second is delivered first
  have more : ∃ w', Run FairSteps w [.encrypt .alice [7] [], .encrypt .alice [7] []] w' ∧
      w'.bob = w.bob ∧ w'.drawn = w.drawn ∧
      w'.alice.sent = w.alice.sent ++ [chatter n] ++ [chatter (n + 1)] :=
    ⟨_, .cons ⟨trivial, (send_chatter inOrder.alice).symm⟩
      (.cons ⟨trivial, (send_chatter (n := n + 1) rfl).symm⟩ (.nil _)), rfl, rfl, rfl⟩
  obtain ⟨w', run', bob, drawn, sent⟩ := more
  rw [← sent] at behind
  rw [← bob] at lost
  refine ⟨honestDh_octets, collisionFree_octets, opening, _, w', chatter (n + 1), opening_created,
    run.append run', ?_, ?_, ?_, ?_⟩
  · rw [← count]
    exact behind
  · rw [show 2 ^ 32 - 1 = n by omega, bob]
    exact inOrder.seen
  · obtain ⟨ct, parsed, -⟩ := parse_chatter (n + 1)
    rw [← count]
    refine fair_deliver behind rfl (drawn ▸ inOrder.unused) parsed ?_ ?_ (congrArg Prod.fst lost) ?_
    · simp [bob, inOrder.bob, Ratchet.refuses, Ratchet.isNewDh, Ratchet.tooFar, answered,
        Ratchet.turned, count]
    · simp [bob, inOrder.bob, Ratchet.isNewDh, answered, Ratchet.turned]
    · rw [bob, inOrder.bob]
      rfl
  · exact congrArg Prod.snd lost

/-- A message and its first delivery. -/
theorem delivered_once_greeting :
    ∃ a w e, Run (Guarded (Conversation.Steps octets)
          fun w event => Fair octets octetPoint w event ∧ Counted w event)
        (Conversation.begin octets 0 a (octetPair 1) (octetPair 2)) [.encrypt .alice [7] []] w ∧
      w.alice.sent[0]? = some e ∧ e.plaintext = [7] ∧
      (w.bob.ratchet.tryDecrypt octets (octetPair 3) e.bytes e.outerAad).2 =
        .ok (some e.plaintext) := by
  have counted : Counted (Conversation.begin octets 0 opening (octetPair 1) (octetPair 2))
      (.encrypt .alice [7] []) := by
    change (0 : UInt32).toNat + 1 < 2 ^ 32
    decide
  have run : Run (Guarded (Conversation.Steps octets)
        fun w event => Fair octets octetPoint w event ∧ Counted w event)
      (Conversation.begin octets 0 opening (octetPair 1) (octetPair 2)) [.encrypt .alice [7] []] _ :=
    .cons ⟨⟨trivial, counted⟩, (send_chatter (n := 0) rfl).symm⟩ (.nil _)
  refine ⟨opening, _, chatter 0, run, rfl, rfl, ?_⟩
  have once := delivered_once honestDh_octets collisionFree_octets opening_created rfl rfl
    (by decide) run (e := chatter 0) (by rfl) (fair_first rfl rfl rfl)
  exact once.1 List.not_mem_nil

end FinBit.Crypto
