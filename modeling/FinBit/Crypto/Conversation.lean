import FinBit.Crypto.RatchetPair

/-! # Two ratchets over an unreliable network

The two parties of a session encrypt and decrypt in any order, and the network
reorders, drops and duplicates what they send. A delivery names a message by its
place in the sender's log, so that the first delivery of a message can be told from
a later one.

The chains of the session are numbered in the order in which they are made. Chain 0
is the responder's published key, under which nothing is sent; the initiator makes
the odd chains and the responder the even ones. A party that sends in chain `s`
receives in chain `s - 1`, and the two parties are always one chain apart.
-/

namespace FinBit.Crypto

open FinBit.Lib Std

variable {K : Type}

/-! ### The conversation -/

inductive Role
  | alice
  | bob
  deriving DecidableEq

def Role.other : Role → Role
  | alice => bob
  | bob => alice

/-- A message as its sender produced it. -/
structure SentMessage where
  bytes : Bytes
  outerAad : Bytes
  plaintext : Bytes

structure Party (K : Type) where
  ratchet : Ratchet K
  /-- What this party has encrypted. -/
  sent : List SentMessage
  /-- The places in the other party's log of what has been delivered to this one. -/
  seen : List Nat

structure Conversation (K : Type) where
  alice : Party K
  bob : Party K
  /-- The public DH keys that have been in use. -/
  drawn : List Bytes

inductive ConversationEvent (K : Type)
  | encrypt (sender : Role) (plaintext outerAad : Bytes)
  | deliver (receiver : Role) (place : Nat) (drawn : KeyPair K)

namespace Conversation

def party (w : Conversation K) : Role → Party K
  | .alice => w.alice
  | .bob => w.bob

def set (w : Conversation K) (role : Role) (p : Party K) : Conversation K :=
  match role with
  | .alice => { w with alice := p }
  | .bob => { w with bob := p }

end Conversation

section

variable (P : RatchetCrypto K) (pubOf : K → Bytes)

/-- An `encrypt` that throws sends nothing. -/
def Party.encrypt (p : Party K) (plaintext outerAad : Bytes) : Party K :=
  match p.ratchet.encrypt P plaintext outerAad with
  | .error _ => p
  | .ok (r, bytes) =>
    { p with ratchet := r, sent := p.sent ++ [⟨bytes, outerAad, plaintext⟩] }

def Party.deliver (p : Party K) (place : Nat) (drawn : KeyPair K) (e : SentMessage) : Party K :=
  { p with
    ratchet := (p.ratchet.tryDecrypt P drawn e.bytes e.outerAad).1
    seen := place :: p.seen }

def Conversation.step (w : Conversation K) : ConversationEvent K → Conversation K
  | .encrypt sender plaintext outerAad =>
    w.set sender ((w.party sender).encrypt P plaintext outerAad)
  | .deliver receiver place drawn =>
    match (w.party receiver.other).sent[place]? with
    | none => w
    | some e =>
      let p := (w.party receiver).deliver P place drawn e
      { w.set receiver p with drawn := p.ratchet.dhsPub :: w.drawn }

/-- The delivery needs at most `kMaxSkip` skipped keys in each chain. -/
def Ratchet.WithinSkip (s : Ratchet K) (ratchetMsg : Bytes) : Prop :=
  ∀ m, Ratchet.parseMessage P ratchetMsg = some m →
    s.skipped[(m.headerDhPub, m.n)]? = none →
      s.refuses m = false ∧ (s.isNewDh m.headerDhPub = true → m.n.toNat ≤ Ratchet.kMaxSkip)

/-- What is assumed of a step: key pairs that may be drawn are honest and fresh, a
first delivery is within the skip limit, and the cache stays below its bound. -/
def Fair (w : Conversation K) : ConversationEvent K → Prop
  | .encrypt _ _ _ => True
  | .deliver receiver place drawn =>
    drawn.pub = pubOf drawn.priv ∧ drawn.pub ∉ w.drawn ∧
    ∀ e, (w.party receiver.other).sent[place]? = some e → place ∉ (w.party receiver).seen →
      (w.party receiver).ratchet.WithinSkip P e.bytes ∧
      ((w.party receiver).ratchet.tryDecrypt P drawn e.bytes e.outerAad).1.skipped.size <
        Ratchet.kMaxSkip

/-- The sender's message counter does not wrap. -/
def Counted (w : Conversation K) : ConversationEvent K → Prop
  | .encrypt sender _ _ => (w.party sender).ratchet.ns.toNat + 1 < 2 ^ 32
  | .deliver _ _ _ => True

/-- The key derivation functions do not collide, and the session's secret is none of
their results. -/
structure CollisionFree (shared : K) : Prop where
  root_inj : ∀ {r r' d d'}, (P.kdfRk r d).1 = (P.kdfRk r' d').1 → r = r' ∧ d = d'
  chain_inj : ∀ {r r' d d'}, (P.kdfRk r d).2 = (P.kdfRk r' d').2 → r = r' ∧ d = d'
  chain_seed : ∀ r d, P.kdfCk.IsSeed (P.kdfRk r d).2
  shared_root : ∀ r d, (P.kdfRk r d).1 ≠ shared

end

/-! ### Chains -/

/-- The chains of a session, as far as they have been made. `root k` is the root key
that chain `k` is derived from. -/
structure Chains (K : Type) where
  priv : Nat → K
  base : Nat → K
  root : Nat → K
  len : Nat → Nat

namespace Chains

variable (P : RatchetCrypto K) (pubOf : K → Bytes) (G : Chains K)

def pub (k : Nat) : Bytes := pubOf (G.priv k)

/-- The length of the sender's chain before this one. -/
def pn (k : Nat) : Nat := if 2 ≤ k then G.len (k - 2) else 0

def key (k i : Nat) : K := P.kdfCk.messageKey (P.kdfCk.nextKey^[i] (G.base k))

/-- The message at a position of a chain. -/
def messageAt (k i : Nat) (outerAad plaintext : Bytes) : RatchetMessage where
  headerDhPub := G.pub pubOf k
  pn := UInt32.ofNat (G.pn k)
  n := UInt32.ofNat i
  ciphertext := P.aead.encrypt (G.key P k i)
    (Ratchet.composeAad (G.pub pubOf k) (UInt32.ofNat (G.pn k)) (UInt32.ofNat i) outerAad) plaintext

/-- What holds of the chains up to `top`. -/
structure Valid (shared : K) (top : Nat) (drawn : List Bytes) : Prop where
  first : G.root 1 = shared
  derived : ∀ k < top, ∃ dh, P.x25519Dh (G.priv (k + 1)) (G.pub pubOf k) = some dh ∧
    P.kdfRk (G.root (k + 1)) dh = (G.root (k + 2), G.base (k + 1))
  distinct : ∀ j ≤ top, ∀ k ≤ top, G.pub pubOf j = G.pub pubOf k → j = k
  small : ∀ k, G.len k < 2 ^ 32
  unsent : G.len 0 = 0
  used : ∀ k ≤ top, G.pub pubOf k ∈ drawn

/-- `G'` goes on from `G`: chains beyond `top` may be new, and chain `c` may have grown. -/
structure Extends (G G' : Chains K) (top c : Nat) : Prop where
  priv : ∀ k ≤ top, G'.priv k = G.priv k
  base : ∀ k ≤ top, G'.base k = G.base k
  root : ∀ k ≤ top + 1, G'.root k = G.root k
  len : ∀ k ≤ top, k ≠ c → G'.len k = G.len k
  grown : c ≤ top → G.len c ≤ G'.len c
  recent : top ≤ c + 1

end Chains

/-- A party that sends in chain `s`, with the place of each of its messages. -/
structure Sends (P : RatchetCrypto K) (pubOf : K → Bytes) (G : Chains K) (p : Party K) (s : Nat)
    (place : Nat → Nat × Nat) : Prop where
  priv : p.ratchet.dhsPriv = G.priv s
  pub : p.ratchet.dhsPub = G.pub pubOf s
  have_cks : p.ratchet.haveCks = decide (1 ≤ s)
  cks : 1 ≤ s → p.ratchet.cks = P.kdfCk.nextKey^[G.len s] (G.base s)
  ns : p.ratchet.ns.toNat = G.len s
  pn : p.ratchet.pn = UInt32.ofNat (G.pn s)
  rk : p.ratchet.rk = G.root (s + 1)
  located : ∀ t e, p.sent[t]? = some e →
    e.bytes = P.message.encode
      (G.messageAt P pubOf (place t).1 (place t).2 e.outerAad e.plaintext) ∧
    (place t).2 < G.len (place t).1 ∧ 1 ≤ (place t).1 ∧ (place t).1 ≤ s ∧ (place t).1 % 2 = s % 2
  injective : ∀ t < p.sent.length, ∀ t' < p.sent.length, place t = place t' → t = t'

/-- A message has been delivered. -/
def Party.Seen (p : Party K) (place : Nat → Nat × Nat) (k i : Nat) : Prop :=
  ∃ t ∈ p.seen, place t = (k, i)

/-- The cache of a party that sends in chain `s` holds what was passed over and has not
been delivered since. -/
def Chains.Cached (P : RatchetCrypto K) (pubOf : K → Bytes) (G : Chains K) (s : Nat)
    (cache : ExtTreeMap SkippedIndex K) (Seen : Nat → Nat → Prop) (got : Nat → Nat) : Prop :=
  ∀ (h : Bytes) (n : UInt32) (key : K), cache[(h, n)]? = some key ↔
    ∃ j, j % 2 ≠ s % 2 ∧ h = G.pub pubOf j ∧ n.toNat < got j ∧ ¬Seen j n.toNat ∧
      key = G.key P j n.toNat

/-- A party that sends in chain `s` and has gone through the first `got j` positions of
each chain of its peer, whose messages have these places. -/
structure Receives (P : RatchetCrypto K) (pubOf : K → Bytes) (G : Chains K) (p : Party K) (s : Nat)
    (count : Nat) (place : Nat → Nat × Nat) (got : Nat → Nat) : Prop where
  have_dhr : p.ratchet.haveDhr = decide (1 ≤ s)
  dhr : 1 ≤ s → p.ratchet.dhrPub = G.pub pubOf (s - 1)
  have_ckr : p.ratchet.haveCkr = decide (2 ≤ s)
  ckr : 2 ≤ s → p.ratchet.ckr = P.kdfCk.nextKey^[got (s - 1)] (G.base (s - 1))
  nr : 1 ≤ s → p.ratchet.nr.toNat = got (s - 1)
  le : ∀ j, got j ≤ G.len j
  past : ∀ j, j + 1 < s → j % 2 ≠ s % 2 → got j = G.len j
  later : ∀ j, s ≤ j → got j = 0
  cache : G.Cached P pubOf s p.ratchet.skipped (p.Seen place) got
  seen : ∀ t ∈ p.seen, t < count ∧ (place t).2 < got (place t).1

/-- The two sides of a session, `p` and `q`, one chain apart. -/
structure Joint (P : RatchetCrypto K) (pubOf : K → Bytes) (shared : K) (G : Chains K)
    (p q : Party K) (sp sq : Nat) (placep placeq : Nat → Nat × Nat) (gotp gotq : Nat → Nat)
    (drawn : List Bytes) : Prop where
  chains : G.Valid P pubOf shared (max sp sq) drawn
  apart : sp = sq + 1 ∨ sq = sp + 1
  p_sends : Sends P pubOf G p sp placep
  q_sends : Sends P pubOf G q sq placeq
  p_receives : Receives P pubOf G p sp q.sent.length placeq gotp
  q_receives : Receives P pubOf G q sq p.sent.length placep gotq

theorem Joint.symm {P : RatchetCrypto K} {pubOf : K → Bytes} {shared : K} {G : Chains K}
    {p q : Party K} {sp sq : Nat} {placep placeq : Nat → Nat × Nat} {gotp gotq : Nat → Nat}
    {drawn : List Bytes} (joint : Joint P pubOf shared G p q sp sq placep placeq gotp gotq drawn) :
    Joint P pubOf shared G q p sq sp placeq placep gotq gotp drawn where
  chains := by
    rw [max_comm]
    exact joint.chains
  apart := joint.apart.symm
  p_sends := joint.q_sends
  q_sends := joint.p_sends
  p_receives := joint.q_receives
  q_receives := joint.p_receives

/-! ### Going on from given chains -/

section Extension

variable {P : RatchetCrypto K} {pubOf : K → Bytes} {G G' : Chains K} {top c : Nat}

namespace Chains.Extends

theorem pub_eq (on : G.Extends G' top c) {k : Nat} (below : k ≤ top) :
    G'.pub pubOf k = G.pub pubOf k := by
  simp only [Chains.pub, on.priv k below]

theorem key_eq (on : G.Extends G' top c) {k : Nat} (below : k ≤ top) (i : Nat) :
    G'.key P k i = G.key P k i := by
  simp only [Chains.key, on.base k below]

/-- The chain that grows is not one that another chain has recorded as finished. -/
theorem pn_eq (on : G.Extends G' top c) {k : Nat} (below : k ≤ top) : G'.pn k = G.pn k := by
  have recent := on.recent
  unfold Chains.pn
  split
  · exact on.len (k - 2) (by omega) (by omega)
  · rfl

theorem messageAt_eq (on : G.Extends G' top c) {k : Nat} (below : k ≤ top) (i : Nat)
    (outerAad plaintext : Bytes) :
    G'.messageAt P pubOf k i outerAad plaintext = G.messageAt P pubOf k i outerAad plaintext := by
  simp only [Chains.messageAt, on.pub_eq below, on.key_eq below, on.pn_eq below]

theorem len_le (on : G.Extends G' top c) {k : Nat} (below : k ≤ top) : G.len k ≤ G'.len k := by
  by_cases grows : k = c
  · rw [grows]
    exact on.grown (grows ▸ below)
  · rw [on.len k below grows]

end Chains.Extends

theorem Chains.Cached.on {s : Nat} {cache : ExtTreeMap SkippedIndex K} {Seen : Nat → Nat → Prop}
    {got : Nat → Nat} (cached : G.Cached P pubOf s cache Seen got) (on : G.Extends G' top c)
    (below : ∀ j, top < j → got j = 0) : G'.Cached P pubOf s cache Seen got := by
  intro h n key
  rw [cached]
  -- an entry belongs to a chain that has been made
  have inside (j : Nat) (entry : n.toNat < got j) : j ≤ top := by
    by_contra beyond
    rw [below j (by omega)] at entry
    omega
  constructor
  · rintro ⟨j, parity, header, passed, unseen, rfl⟩
    rw [← on.pub_eq (inside j passed)] at header
    exact ⟨j, parity, header, passed, unseen, (on.key_eq (inside j passed) _).symm⟩
  · rintro ⟨j, parity, header, passed, unseen, rfl⟩
    rw [on.pub_eq (inside j passed)] at header
    exact ⟨j, parity, header, passed, unseen, on.key_eq (inside j passed) _⟩

/-- A party whose sending chain does not grow. -/
theorem Sends.on {p : Party K} {s : Nat} {place : Nat → Nat × Nat}
    (sends : Sends P pubOf G p s place) (on : G.Extends G' top c) (below : s ≤ top)
    (still : s ≠ c) : Sends P pubOf G' p s place where
  priv := by rw [on.priv s below, sends.priv]
  pub := by rw [on.pub_eq below, sends.pub]
  have_cks := sends.have_cks
  cks made := by rw [on.base s below, on.len s below still, sends.cks made]
  ns := by rw [on.len s below still, sends.ns]
  pn := by rw [on.pn_eq below, sends.pn]
  rk := by rw [on.root (s + 1) (by omega), sends.rk]
  located t e at_t := by
    obtain ⟨bytes, short, made, upto, parity⟩ := sends.located t e at_t
    have inside : (place t).1 ≤ top := by omega
    rw [on.messageAt_eq inside]
    have := on.len_le inside
    exact ⟨bytes, by omega, made, upto, parity⟩
  injective := sends.injective

theorem Receives.on {p : Party K} {s count : Nat} {place : Nat → Nat × Nat} {got : Nat → Nat}
    (receives : Receives P pubOf G p s count place got) (on : G.Extends G' top c)
    (below : s ≤ top) : Receives P pubOf G' p s count place got where
  have_dhr := receives.have_dhr
  dhr heard := by rw [on.pub_eq (by omega), receives.dhr heard]
  have_ckr := receives.have_ckr
  ckr heard := by rw [on.base (s - 1) (by omega), receives.ckr heard]
  nr := receives.nr
  le j := by
    by_cases inside : j ≤ top
    · exact Nat.le_trans (receives.le j) (on.len_le inside)
    · rw [receives.later j (by omega)]
      omega
  past j passed parity := by
    have recent := on.recent
    rw [on.len j (by omega) (by omega)]
    exact receives.past j passed parity
  later := receives.later
  cache := receives.cache.on on fun j beyond => receives.later j (by omega)
  seen := receives.seen

end Extension

/-! ### Root keys -/

/-- The root keys of a session do not repeat. -/
theorem Chains.Valid.root_injective {P : RatchetCrypto K} {pubOf : K → Bytes} {G : Chains K}
    {shared : K} {top : Nat} {drawn : List Bytes} (chains : G.Valid P pubOf shared top drawn)
    (free : CollisionFree P shared) {i j : Nat} (low : i ≤ top) (high : j ≤ top)
    (same : G.root (i + 1) = G.root (j + 1)) : i = j := by
  -- both sides are derived from the root key before, or from the session's secret
  induction i generalizing j with
  | zero =>
    cases j with
    | zero => rfl
    | succ j =>
      obtain ⟨dh, -, derived⟩ := chains.derived j (by omega)
      rw [chains.first, ← (Prod.mk.inj derived).1] at same
      exact absurd same.symm (free.shared_root _ _)
  | succ i ih =>
    obtain ⟨dh, -, derived⟩ := chains.derived i (by omega)
    cases j with
    | zero =>
      rw [chains.first, ← (Prod.mk.inj derived).1] at same
      exact absurd same (free.shared_root _ _)
    | succ j =>
      obtain ⟨dh', -, derived'⟩ := chains.derived j (by omega)
      rw [← (Prod.mk.inj derived).1, ← (Prod.mk.inj derived').1] at same
      rw [ih (by omega) (by omega) (free.root_inj same).1]

/-! ### Sending -/

section Sending

variable {P : RatchetCrypto K} {pubOf : K → Bytes} {shared : K} {G : Chains K} {p q : Party K}
  {sp sq : Nat} {placep placeq : Nat → Nat × Nat} {gotp gotq : Nat → Nat} {drawn : List Bytes}

/-- A longer log of the peer, in which the old places stand. -/
theorem Receives.longer {count count' : Nat} {place place' : Nat → Nat × Nat} {got : Nat → Nat}
    (receives : Receives P pubOf G p sp count place got) (longer : count ≤ count')
    (kept : ∀ t < count, place' t = place t) : Receives P pubOf G p sp count' place' got := by
  have seen_iff (k i : Nat) : p.Seen place' k i ↔ p.Seen place k i := by
    constructor
    · rintro ⟨t, member, at_t⟩
      exact ⟨t, member, by rw [← kept t (receives.seen t member).1, at_t]⟩
    · rintro ⟨t, member, at_t⟩
      exact ⟨t, member, by rw [kept t (receives.seen t member).1, at_t]⟩
  exact { receives with
    cache := by
      have same : p.Seen place' = p.Seen place := by
        funext k i
        exact propext (seen_iff k i)
      rw [same]
      exact receives.cache
    seen := by
      intro t member
      obtain ⟨before, passed⟩ := receives.seen t member
      rw [kept t before]
      exact ⟨by omega, passed⟩ }

/-- The chains after another message in chain `k`. -/
def Chains.grow (G : Chains K) (k : Nat) : Chains K :=
  { G with len := Function.update G.len k (G.len k + 1) }

theorem Chains.extends_grow (G : Chains K) {k top : Nat} (recent : top ≤ k + 1) :
    G.Extends (G.grow k) top k where
  priv _ _ := rfl
  base _ _ := rfl
  root _ _ := rfl
  len j _ other := Function.update_of_ne other _ _
  grown _ := by simp [Chains.grow]
  recent := recent

theorem Joint.encrypt (joint : Joint P pubOf shared G p q sp sq placep placeq gotp gotq drawn)
    (counted : p.ratchet.ns.toNat + 1 < 2 ^ 32) (plaintext outerAad : Bytes) :
    ∃ G' placep', Joint P pubOf shared G' (p.encrypt P plaintext outerAad) q sp sq placep' placeq
      gotp gotq drawn := by
  have sends := joint.p_sends
  have apart := joint.apart
  by_cases made : 1 ≤ sp
  swap
  · -- the responder has not heard from its peer yet
    have no_chain : p.ratchet.haveCks = false := by rw [sends.have_cks]; simpa using made
    have nothing : p.encrypt P plaintext outerAad = p := by
      simp [Party.encrypt, Ratchet.encrypt, no_chain]
    rw [nothing]
    exact ⟨G, placep, joint⟩
  have sending : p.ratchet.haveCks = true := by rw [sends.have_cks]; simpa using made
  have number : p.ratchet.ns = UInt32.ofNat (G.len sp) := by rw [← sends.ns, UInt32.ofNat_toNat]
  have sent : p.encrypt P plaintext outerAad =
      { p with
        ratchet := { p.ratchet with
          cks := P.kdfCk.nextKey p.ratchet.cks
          ns := p.ratchet.ns + 1 }
        sent := p.sent ++ [⟨P.message.encode
          (G.messageAt P pubOf sp (G.len sp) outerAad plaintext), outerAad, plaintext⟩] } := by
    simp only [Party.encrypt, Ratchet.encrypt, sending, Bool.true_eq_false, if_false,
      Chains.messageAt, Chains.key, ← sends.cks made, ← sends.pub, ← sends.pn, ← number]
  have on : G.Extends (G.grow sp) (max sp sq) sp := G.extends_grow (by omega)
  have grown : (G.grow sp).len sp = G.len sp + 1 := Function.update_self ..
  have kept (t : Nat) (before : t < p.sent.length) :
      Function.update placep p.sent.length (sp, G.len sp) t = placep t :=
    Function.update_of_ne (by omega) _ _
  rw [sent]
  refine ⟨G.grow sp, Function.update placep p.sent.length (sp, G.len sp), ?_⟩
  constructor
  case chains =>
    have chains := joint.chains
    refine ⟨chains.first, chains.derived, chains.distinct, ?_, ?_, chains.used⟩
    · intro k
      by_cases here : k = sp
      · rw [here, grown, ← sends.ns]
        exact counted
      · rw [show (G.grow sp).len k = G.len k from Function.update_of_ne here _ _]
        exact chains.small k
    · rw [show (G.grow sp).len 0 = G.len 0 from Function.update_of_ne (by omega) _ _]
      exact chains.unsent
  case apart => exact apart
  case q_sends => exact joint.q_sends.on on (by omega) (by omega)
  case p_receives =>
    have receives := joint.p_receives.on on (by omega)
    exact { receives with }
  case q_receives =>
    apply (joint.q_receives.on on (by omega)).longer _ kept
    simp
  case p_sends =>
    constructor
    case priv => exact sends.priv
    case pub => exact sends.pub
    case have_cks => exact sends.have_cks
    case cks =>
      intro _
      rw [grown, Function.iterate_succ_apply']
      exact congrArg P.kdfCk.nextKey (sends.cks made)
    case ns =>
      rw [grown, ← sends.ns, UInt32.toNat_add]
      simp only [UInt32.reduceToNat]
      omega
    case pn => rw [on.pn_eq (by omega)]; exact sends.pn
    case rk => exact sends.rk
    case located =>
      intro t e at_t
      by_cases before : t < p.sent.length
      · -- an old message stays where it is
        rw [List.getElem?_append_left before] at at_t
        obtain ⟨bytes, short, first, upto, parity⟩ := sends.located t e at_t
        rw [kept t before, on.messageAt_eq (by omega)]
        have := on.len_le (k := (placep t).1) (by omega)
        exact ⟨bytes, by omega, first, upto, parity⟩
      · -- the new one is the last of its chain
        have last : t = p.sent.length := by
          have bound := (List.getElem?_eq_some_iff.mp at_t).1
          simp only [List.length_append, List.length_singleton] at bound
          omega
        subst last
        rw [List.getElem?_concat_length] at at_t
        obtain rfl := (Option.some.inj at_t).symm
        rw [Function.update_self, on.messageAt_eq (by omega)]
        refine ⟨rfl, ?_, made, Nat.le_refl sp, rfl⟩
        rw [grown]
        omega
    case injective =>
      have fresh (t : Nat) (before : t < p.sent.length) : placep t ≠ (sp, G.len sp) := by
        intro same
        have short := (sends.located t _ (List.getElem?_eq_getElem before)).2.1
        rw [same] at short
        exact Nat.lt_irrefl _ short
      intro t bound t' bound' same
      simp only [List.length_append, List.length_singleton] at bound bound'
      by_cases before : t < p.sent.length <;> by_cases before' : t' < p.sent.length
      · rw [kept t before, kept t' before'] at same
        exact sends.injective t before t' before' same
      · have last : t' = p.sent.length := by omega
        rw [kept t before, last, Function.update_self] at same
        exact absurd same (fresh t before)
      · have last : t = p.sent.length := by omega
        rw [kept t' before', last, Function.update_self] at same
        exact absurd same.symm (fresh t' before')
      · omega

end Sending

end FinBit.Crypto
