import FinBit.Crypto.RatchetRuns
import FinBit.Crypto.RatchetPair

/-! # Sessions of the web client

The WASM shim keeps one `DoubleRatchet` for each peer and hands ciphertexts to `decrypt`,
which changes the ratchet before the tag is checked and does not restore it as `try_decrypt`
does. Two runs are compared here: one with ciphertexts inserted that do not open, and one
without them.
-/

namespace FinBit.Web

open FinBit.Lib FinBit.Crypto Std

variable {K : Type}

/-- `WebClient`, as far as direct messages need it. -/
structure WebClient (K : Type) where
  x25519 : KeyPair K
  sessions : Bytes → Option (Ratchet K)

namespace WebClient

variable (P : RatchetCrypto K)

def setSession (w : WebClient K) (peer : Bytes) (s : Option (Ratchet K)) : WebClient K :=
  { w with sessions := Function.update w.sessions peer s }

/-- `ratchet_init_alice`; the old session is erased before the new one can fail. -/
def ratchetInitAlice (w : WebClient K) (peer : Bytes) (sharedSecret : K) (peerDhPub : Bytes)
    (drawn : KeyPair K) : WebClient K × Except String (Option Bytes) :=
  if peerDhPub.length ≠ 32 then (w, .error "32B args required")
  else
    match Ratchet.initAlice P drawn sharedSecret peerDhPub with
    | .ok s => (w.setSession peer (some s), .ok none)
    | .error e => (w.setSession peer none, .error e)

def ratchetInitBob (w : WebClient K) (peer : Bytes) (sharedSecret : K) :
    WebClient K × Except String (Option Bytes) :=
  (w.setSession peer (some (Ratchet.initBob P sharedSecret w.x25519)), .ok none)

def ratchetEncrypt (w : WebClient K) (peer plaintext : Bytes) :
    WebClient K × Except String (Option Bytes) :=
  match w.sessions peer with
  | none => (w, .error "no session for peer")
  | some s =>
    match s.encrypt P plaintext [] with
    | .error e => (w, .error e)
    | .ok (t, message) => (w.setSession peer (some t), .ok (some message))

/-- `ratchet_decrypt`; no plaintext is JavaScript's `null`, an error an exception. -/
def ratchetDecrypt (w : WebClient K) (peer : Bytes) (drawn : KeyPair K) (ciphertext : Bytes) :
    WebClient K × Except String (Option Bytes) :=
  match w.sessions peer with
  | none => (w, .ok none)
  | some s =>
    let (t, result) := s.decrypt P drawn ciphertext []
    (w.setSession peer (some t), result)

/-- The calls of the script; `inserted` is an inbound ciphertext that one of the two runs
does not have. -/
inductive Event (K : Type)
  | initAlice (peer : Bytes) (sharedSecret : K) (peerDhPub : Bytes) (drawn : KeyPair K)
  | initBob (peer : Bytes) (sharedSecret : K)
  | encrypt (peer plaintext : Bytes)
  | decrypt (peer : Bytes) (drawn : KeyPair K) (ciphertext : Bytes)
  | inserted (peer : Bytes) (drawn : KeyPair K) (ciphertext : Bytes)

def handle (w : WebClient K) : Event K → WebClient K × Except String (Option Bytes)
  | .initAlice peer sharedSecret peerDhPub drawn =>
    w.ratchetInitAlice P peer sharedSecret peerDhPub drawn
  | .initBob peer sharedSecret => w.ratchetInitBob P peer sharedSecret
  | .encrypt peer plaintext => w.ratchetEncrypt P peer plaintext
  | .decrypt peer drawn ciphertext | .inserted peer drawn ciphertext =>
    w.ratchetDecrypt P peer drawn ciphertext

def run (w : WebClient K) (events : List (Event K)) : WebClient K :=
  events.foldl (fun w e => (w.handle P e).1) w

def Event.isInserted : Event K → Bool
  | .inserted .. => true
  | _ => false

/-- The run without the inserted ciphertexts. -/
def without (events : List (Event K)) : List (Event K) := events.filter (!·.isInserted)

/-- The ciphertext is stopped before a key is derived for it, or it names the recorded key of
a peer that has not been heard from, which no message of the peer does. -/
def Harmless (w : WebClient K) (peer ciphertext : Bytes) : Prop :=
  ∀ s, w.sessions peer = some s → s.Stopped P ciphertext [] ∨ s.Unarmed P ciphertext

/-- A message under the recorded key of a peer that has not been heard from. -/
def Baseless (w : WebClient K) : Event K → Prop
  | .decrypt peer _ ciphertext => ∃ s, w.sessions peer = some s ∧ s.Unarmed P ciphertext
  | _ => False

end WebClient

/-! ### Ratchets that have not heard from their peer -/

/-- Without a receive chain, the chain key and its counter stand for nothing: the next DH
step replaces them. -/
def Idle (s t : Ratchet K) : Prop :=
  t = s ∨ s.haveCkr = false ∧ t = { s with ckr := t.ckr, nr := t.nr }

namespace Idle

variable {P : RatchetCrypto K} {s t u : Ratchet K}

theorem refl (s : Ratchet K) : Idle s s := .inl rfl

theorem symm (idle : Idle s t) : Idle t s := by
  rcases idle with rfl | ⟨no_chain, same⟩
  · exact .refl t
  · exact .inr ⟨by rw [same, no_chain], by rw [same]⟩

theorem trans (first : Idle s t) (second : Idle t u) : Idle s u := by
  rcases first with rfl | ⟨no_chain, first⟩
  · exact second
  rcases second with rfl | ⟨-, second⟩
  · exact .inr ⟨no_chain, first⟩
  · exact .inr ⟨no_chain, by rw [second, first]⟩

theorem unarmed {ratchetMsg : Bytes} (idle : Idle s t) (unarmed : s.Unarmed P ratchetMsg) :
    t.Unarmed P ratchetMsg := by
  rcases idle with rfl | ⟨-, same⟩
  · exact unarmed
  · rw [same]
    exact unarmed

/-- A message without a chain uses up a key that nobody has. -/
theorem of_unarmed {ratchetMsg : Bytes} (unarmed : s.Unarmed P ratchetMsg) (drawn : KeyPair K)
    (outerAad : Bytes) : Idle s (s.decrypt P drawn ratchetMsg outerAad).1 := by
  obtain ⟨m, parsed, uncached, have_dhr, no_chain, header⟩ := unarmed
  have known : s.isNewDh m.headerDhPub = false := by simp [Ratchet.isNewDh, have_dhr, header]
  refine .inr ⟨no_chain, ?_⟩
  simp [Ratchet.decrypt, parsed, Ratchet.decryptMessage, uncached, known, Ratchet.openInChain,
    Ratchet.skipMessageKeys, no_chain]

/-- Both take the same DH step, which starts a chain of its own. -/
theorem dhRatchet (idle : Idle s t) (headerDhPub : Bytes) (drawn : KeyPair K) :
    (∃ u v, s.dhRatchet P headerDhPub drawn = .error u ∧
      t.dhRatchet P headerDhPub drawn = .error v ∧ Idle u v) ∨
    ∃ u, s.dhRatchet P headerDhPub drawn = .ok u ∧ t.dhRatchet P headerDhPub drawn = .ok u := by
  rcases idle with rfl | ⟨no_chain, idle⟩
  · cases ratcheted : t.dhRatchet P headerDhPub drawn with
    | error u => exact .inl ⟨u, u, rfl, rfl, .refl u⟩
    | ok u => exact .inr ⟨u, rfl, rfl⟩
  · rw [idle]
    cases received : P.x25519Dh s.dhsPriv headerDhPub with
    | none =>
      -- the exception leaves the chain key as it was
      left
      simp [Ratchet.dhRatchet, received, Idle, no_chain]
    | some dh =>
      cases sent : P.x25519Dh drawn.priv headerDhPub with
      | none => left; simp [Ratchet.dhRatchet, received, sent, Idle]
      | some reply => right; simp [Ratchet.dhRatchet, received, sent]

theorem decryptMessage (idle : Idle s t) (drawn : KeyPair K) (m : RatchetMessage)
    (outerAad : Bytes)
    (armed : ¬(s.skipped[(m.headerDhPub, m.n)]? = none ∧ s.haveDhr = true ∧ s.haveCkr = false ∧
      m.headerDhPub = s.dhrPub)) :
    Idle (s.decryptMessage P drawn m outerAad).1 (t.decryptMessage P drawn m outerAad).1 ∧
      (t.decryptMessage P drawn m outerAad).2 = (s.decryptMessage P drawn m outerAad).2 := by
  obtain rfl | ⟨no_chain, same⟩ := id idle
  · exact ⟨.refl _, rfl⟩
  have cache : t.skipped = s.skipped := by rw [same]
  have header : t.isNewDh m.headerDhPub = s.isNewDh m.headerDhPub := by
    rw [same]
    rfl
  have no_chain' : t.haveCkr = false := by rw [same, no_chain]
  cases cached : s.skipped[(m.headerDhPub, m.n)]? with
  | some key =>
    cases opened : P.aead.decrypt key (Ratchet.composeAad m.headerDhPub m.pn m.n outerAad)
        m.ciphertext with
    | none => simpa [Ratchet.decryptMessage, cache, cached, opened] using idle
    | some pt =>
      simp only [Ratchet.decryptMessage, cache, cached, opened, and_true]
      exact .inr ⟨no_chain, by rw [same]⟩
  | none =>
    have new : s.isNewDh m.headerDhPub = true := by
      by_contra known
      simp only [Ratchet.isNewDh, Bool.or_eq_true, Bool.not_eq_true', decide_eq_true_eq, not_or,
        Bool.not_eq_false, Decidable.not_not] at known
      exact armed ⟨cached, known.1, no_chain, known.2⟩
    rcases idle.dhRatchet (P := P) m.headerDhPub drawn with ⟨u, v, left, right, still⟩ |
      ⟨u, left, right⟩
    · simpa [Ratchet.decryptMessage, Ratchet.skipMessageKeys, cache, cached, header, new, no_chain,
        no_chain', left, right] using still
    · simp [Ratchet.decryptMessage, Ratchet.skipMessageKeys, cache, cached, header, new, no_chain,
        no_chain', left, right, refl]

/-- Both runs come to the same result for a message, unless it is one of those. -/
theorem decrypt (idle : Idle s t) (drawn : KeyPair K) (ratchetMsg outerAad : Bytes) :
    Idle (s.decrypt P drawn ratchetMsg outerAad).1 (t.decrypt P drawn ratchetMsg outerAad).1 ∧
      (¬s.Unarmed P ratchetMsg →
        (t.decrypt P drawn ratchetMsg outerAad).2 = (s.decrypt P drawn ratchetMsg outerAad).2) := by
  by_cases unarmed : s.Unarmed P ratchetMsg
  · refine ⟨?_, fun armed => absurd unarmed armed⟩
    have left := of_unarmed unarmed drawn outerAad
    have right := of_unarmed (idle.unarmed unarmed) drawn outerAad
    exact left.symm.trans (idle.trans right)
  · cases parsed : Ratchet.parseMessage P ratchetMsg with
    | none => simpa [Ratchet.decrypt, parsed] using idle
    | some m =>
      simp only [Ratchet.decrypt, parsed]
      obtain ⟨still, result⟩ := idle.decryptMessage drawn m outerAad (P := P)
        fun h => unarmed ⟨m, parsed, h⟩
      exact ⟨still, fun _ => result⟩

end Idle

namespace WebClient

variable {P : RatchetCrypto K} {w v : WebClient K}

/-- The client of the one run next to that of the other. -/
structure Alike (w v : WebClient K) : Prop where
  x25519 : v.x25519 = w.x25519
  sessions : ∀ peer, Option.Rel Idle (w.sessions peer) (v.sessions peer)

namespace Alike

theorem refl (w : WebClient K) : Alike w w where
  x25519 := rfl
  sessions peer := by
    cases w.sessions peer with
    | none => exact .none
    | some s => exact .some (.refl s)

theorem setSession (alike : Alike w v) (peer : Bytes) {s t : Option (Ratchet K)}
    (idle : Option.Rel Idle s t) : Alike (w.setSession peer s) (v.setSession peer t) where
  x25519 := alike.x25519
  sessions other := by
    simp only [WebClient.setSession, Function.update_apply]
    split
    · exact idle
    · exact alike.sessions other

theorem session_cases (alike : Alike w v) (peer : Bytes) :
    w.sessions peer = none ∧ v.sessions peer = none ∨
      ∃ s t, w.sessions peer = some s ∧ v.sessions peer = some t ∧ Idle s t := by
  have idle := alike.sessions peer
  generalize w.sessions peer = left at idle ⊢
  generalize v.sessions peer = right at idle ⊢
  cases idle with
  | none => exact .inl ⟨rfl, rfl⟩
  | some idle => exact .inr ⟨_, _, rfl, rfl, idle⟩

theorem ratchetDecrypt (alike : Alike w v) (peer : Bytes) (drawn : KeyPair K)
    (ciphertext : Bytes) :
    Alike (w.ratchetDecrypt P peer drawn ciphertext).1
        (v.ratchetDecrypt P peer drawn ciphertext).1 ∧
      ((¬∃ s, w.sessions peer = some s ∧ s.Unarmed P ciphertext) →
        (v.ratchetDecrypt P peer drawn ciphertext).2 =
          (w.ratchetDecrypt P peer drawn ciphertext).2) := by
  rcases alike.session_cases peer with ⟨left, right⟩ | ⟨s, t, left, right, idle⟩
  · simpa [WebClient.ratchetDecrypt, left, right] using alike
  · obtain ⟨still, result⟩ := idle.decrypt (P := P) drawn ciphertext []
    simp only [WebClient.ratchetDecrypt, left, right]
    refine ⟨alike.setSession peer (.some still), fun armed => result fun unarmed => ?_⟩
    exact armed ⟨s, rfl, unarmed⟩

theorem ratchetEncrypt (alike : Alike w v) (peer plaintext : Bytes) :
    Alike (w.ratchetEncrypt P peer plaintext).1 (v.ratchetEncrypt P peer plaintext).1 ∧
      (v.ratchetEncrypt P peer plaintext).2 = (w.ratchetEncrypt P peer plaintext).2 := by
  rcases alike.session_cases peer with ⟨left, right⟩ | ⟨s, t, left, right, idle⟩
  · simpa [WebClient.ratchetEncrypt, left, right] using alike
  obtain rfl | ⟨no_chain, same⟩ := id idle
  · simp only [WebClient.ratchetEncrypt, left, right]
    cases t.encrypt P plaintext [] with
    | error e => exact ⟨alike, rfl⟩
    | ok sent => exact ⟨alike.setSession peer (.some (.refl _)), rfl⟩
  · -- sending reads and writes the other chain only
    simp only [WebClient.ratchetEncrypt, left, right]
    rw [same]
    cases sending : s.haveCks with
    | false => simpa [Ratchet.encrypt, sending] using alike
    | true =>
      simp only [Ratchet.encrypt, sending, Bool.true_eq_false, if_false, and_true]
      exact alike.setSession peer (.some (.inr ⟨no_chain, rfl⟩))

theorem handle (alike : Alike w v) (e : Event K) :
    Alike (w.handle P e).1 (v.handle P e).1 ∧
      (e.isInserted = false → ¬w.Baseless P e → (v.handle P e).2 = (w.handle P e).2) := by
  cases e with
  | initAlice peer sharedSecret peerDhPub drawn =>
    simp only [WebClient.handle, WebClient.ratchetInitAlice]
    split
    · exact ⟨alike, fun _ _ => rfl⟩
    · cases Ratchet.initAlice P drawn sharedSecret peerDhPub with
      | ok s => exact ⟨alike.setSession peer (.some (.refl s)), fun _ _ => rfl⟩
      | error e => exact ⟨alike.setSession peer .none, fun _ _ => rfl⟩
  | initBob peer sharedSecret =>
    simp only [WebClient.handle, WebClient.ratchetInitBob, alike.x25519]
    exact ⟨alike.setSession peer (.some (.refl _)), fun _ _ => trivial⟩
  | encrypt peer plaintext =>
    obtain ⟨still, result⟩ := alike.ratchetEncrypt (P := P) peer plaintext
    exact ⟨still, fun _ _ => result⟩
  | decrypt peer drawn ciphertext =>
    obtain ⟨still, result⟩ := alike.ratchetDecrypt (P := P) peer drawn ciphertext
    exact ⟨still, fun _ armed => result armed⟩
  | inserted peer drawn ciphertext =>
    exact ⟨(alike.ratchetDecrypt peer drawn ciphertext).1, fun genuine => by cases genuine⟩

/-- An inserted ciphertext of the harmless kind. -/
theorem inserted (alike : Alike w v) {peer ciphertext : Bytes}
    (harmless : v.Harmless P peer ciphertext) (drawn : KeyPair K) :
    Alike w (v.ratchetDecrypt P peer drawn ciphertext).1 := by
  rcases alike.session_cases peer with ⟨left, right⟩ | ⟨s, t, left, right, idle⟩
  · simpa [WebClient.ratchetDecrypt, right] using alike
  have unchanged : Idle t (t.decrypt P drawn ciphertext []).1 := by
    rcases harmless t right with stopped | unarmed
    · exact .inl ((Ratchet.decrypt_fst_eq_iff P t drawn ciphertext []).mpr stopped)
    · exact .of_unarmed unarmed drawn []
  have written := alike.setSession peer (.some (idle.trans unchanged))
  have same : w.setSession peer (some s) = w := by
    simp only [WebClient.setSession, ← left, Function.update_eq_self]
  simpa only [WebClient.ratchetDecrypt, right, same] using written

/-- The two runs side by side, from clients that are alike. -/
theorem run (alike : Alike w v) (events : List (Event K))
    (harmless : ∀ before peer drawn ciphertext after,
      events = before ++ .inserted peer drawn ciphertext :: after →
      (v.run P before).Harmless P peer ciphertext) :
    Alike (w.run P (without events)) (v.run P events) := by
  induction events generalizing w v with
  | nil => exact alike
  | cons e rest ih =>
    have later (before peer drawn ciphertext after)
        (split : rest = before ++ .inserted peer drawn ciphertext :: after) :
        ((v.handle P e).1.run P before).Harmless P peer ciphertext :=
      harmless (e :: before) peer drawn ciphertext after (by rw [split, List.cons_append])
    cases inserted : e.isInserted with
    | false =>
      have kept : without (e :: rest) = e :: without rest := by simp [without, inserted]
      rw [kept]
      exact ih (alike.handle e).1 later
    | true =>
      have left_out : without (e :: rest) = without rest := by simp [without, inserted]
      rw [left_out]
      refine ih ?_ later
      cases e with
      | inserted peer drawn ciphertext =>
        exact alike.inserted (harmless [] peer drawn ciphertext rest rfl) drawn
      | initAlice | initBob | encrypt | decrypt => cases inserted

end Alike

/-- In every run whose inserted ciphertexts are harmless in the state they arrive in, every
other call comes to the result it has without them. -/
theorem inserted_cost_nothing (w : WebClient K) (events : List (Event K))
    (harmless : ∀ before peer drawn ciphertext after,
      events = before ++ .inserted peer drawn ciphertext :: after →
      (w.run P before).Harmless P peer ciphertext)
    (before : List (Event K)) (e : Event K) (after : List (Event K))
    (split : events = before ++ e :: after) (genuine : e.isInserted = false)
    (based : ¬(w.run P (without before)).Baseless P e) :
    ((w.run P before).handle P e).2 = ((w.run P (without before)).handle P e).2 := by
  have alike : Alike (w.run P (without before)) (w.run P before) := by
    refine (Alike.refl w).run before fun earlier peer drawn ciphertext later within => ?_
    refine harmless earlier peer drawn ciphertext (later ++ e :: after) ?_
    rw [split, within, List.append_assoc, List.cons_append]
  exact (alike.handle e).2 genuine based

/-! ### A first message lost -/

open Ratchet (octets octetPair octetPoint)

/-- A client that has been written to by the peer `[1]`, and has its first message to come. -/
private noncomputable def responder : WebClient Nat where
  x25519 := octetPair 2
  sessions := Function.update (fun _ => none) [1] (some (Ratchet.initBob octets 0 (octetPair 2)))

/-- The first message of a peer whose ratchet key is `octetPair 1`, with this ciphertext. -/
private noncomputable def firstMessage (ciphertext : Bytes) : Bytes :=
  octets.message.encode ⟨octetPoint 1, 0, 0, ciphertext⟩

/-- The genuine ciphertext. -/
private noncomputable def firstCiphertext : Bytes :=
  octets.aead.encrypt (octets.kdfCk.messageKey (octets.kdfRk 0 15).2)
    (Ratchet.composeAad (octetPoint 1) 0 0 []) [42]

private theorem parse_firstMessage (ciphertext : Bytes) :
    Ratchet.parseMessage octets (firstMessage ciphertext) =
      some ⟨octetPoint 1, 0, 0, ciphertext⟩ := by
  simp [Ratchet.parseMessage, firstMessage, octetPoint, Option.filter]

/-- The first message starts a chain, whether it opens or not. -/
private theorem responder_first (ciphertext : Bytes) :
    (Ratchet.initBob octets 0 (octetPair 2)).decrypt octets (octetPair 3)
        (firstMessage ciphertext) [] =
      ((Ratchet.initBob octets 0 (octetPair 2)).turned octets (octetPoint 1) (octetPair 3) 15 21,
        .ok (octets.aead.decrypt (octets.kdfCk.messageKey (octets.kdfRk 0 15).2)
          (Ratchet.composeAad (octetPoint 1) 0 0 []) ciphertext)) := by
  have received : octets.x25519Dh 2 (octetPoint 1) = some 15 := by decide
  have sent : octets.x25519Dh 3 (octetPoint 1) = some 21 := by decide
  simp only [Ratchet.decrypt, parse_firstMessage]
  exact Ratchet.decryptMessage_first octets rfl rfl rfl received sent

/-- The peer's ciphertext under the key after it. -/
private theorem firstCiphertext_late :
    octets.aead.decrypt (octets.kdfCk.messageKey (octets.kdfCk.nextKey (octets.kdfRk 0 15).2))
      (Ratchet.composeAad (octetPoint 1) 0 0 []) firstCiphertext = none := by
  apply Option.eq_none_iff_forall_ne_some.mpr
  intro pt opened
  have keys := (octets.aead.encrypt_inj (octets.aead.decrypt_eq_some_iff.mp opened)).1
  have chains := octets.kdfCk.messageKey_injective keys
  change 2 * (octets.kdfRk 0 15).2 + 2 = (octets.kdfRk 0 15).2 at chains
  omega

/-- A number that has passed is opened with the next key of the chain. -/
private theorem decryptMessage_passed {s : Ratchet K} {h ct : Bytes} {pn n : UInt32}
    (empty : s.skipped = ∅) (known : s.isNewDh h = false) (passed : n.toNat ≤ s.nr.toNat)
    (drawn : KeyPair K) :
    (s.decryptMessage P drawn ⟨h, pn, n, ct⟩ []).2 =
      .ok (P.aead.decrypt (P.kdfCk.messageKey s.ckr) (Ratchet.composeAad h pn n []) ct) := by
  have in_range : s.tooFar n = false := by
    simp only [Ratchet.tooFar, Bool.and_eq_false_iff, decide_eq_false_iff_not]
    omega
  have none_ahead : s.ahead n = 0 := by
    unfold Ratchet.ahead
    split <;> omega
  simp [Ratchet.decryptMessage, empty, known, Ratchet.openInChain_eq, in_range, none_ahead]

private theorem turned_first :
    (((Ratchet.initBob octets 0 (octetPair 2)).turned octets (octetPoint 1) (octetPair 3) 15
      21).decrypt octets (octetPair 3) (firstMessage firstCiphertext) []).2 = .ok none := by
  simp only [Ratchet.decrypt, parse_firstMessage]
  rw [decryptMessage_passed rfl (by simp [Ratchet.isNewDh, Ratchet.turned]) (by
    simp [Ratchet.turned])]
  exact congrArg Except.ok firstCiphertext_late

/-- A forged first message does not open, and the genuine one does not after it. -/
theorem forged_first_costs_genuine :
    ∃ (w : WebClient Nat) (a a' : Ratchet Nat) (message forged : Bytes),
      w.sessions [1] = some (Ratchet.initBob octets 0 (octetPair 2)) ∧
      Ratchet.initAlice octets (octetPair 1) 0 (octetPoint 2) = .ok a ∧
      a.encrypt octets [42] [] = .ok (a', message) ∧
      (w.ratchetDecrypt octets [1] (octetPair 3) forged).2 = .ok none ∧
      (w.ratchetDecrypt octets [1] (octetPair 3) message).2 = .ok (some [42]) ∧
      ((w.ratchetDecrypt octets [1] (octetPair 3) forged).1.ratchetDecrypt octets [1]
        (octetPair 3) message).2 = .ok none := by
  have agreed : octets.x25519Dh 1 (octetPoint 2) = some 15 := by decide
  have session : responder.sessions [1] = some (Ratchet.initBob octets 0 (octetPair 2)) := rfl
  obtain ⟨a, a', created, sent⟩ : ∃ a a', Ratchet.initAlice octets (octetPair 1) 0 (octetPoint 2) =
      .ok a ∧ a.encrypt octets [42] [] = .ok (a', firstMessage firstCiphertext) := by
    simp only [Ratchet.initAlice, octetPair, agreed]
    exact ⟨_, _, rfl, rfl⟩
  refine ⟨responder, a, a', firstMessage firstCiphertext, firstMessage [], session, created, sent,
    ?_, ?_, ?_⟩
  · simp only [ratchetDecrypt, session, responder_first]
    exact congrArg Except.ok (Aead.ofCountable_decrypt_nil _ _ _)
  · simp only [ratchetDecrypt, session, responder_first]
    exact congrArg Except.ok (octets.aead.decrypt_encrypt _ _ _)
  · -- the key is used up, and the genuine message is tried with the one after it
    simp only [ratchetDecrypt, session, responder_first, setSession, Function.update_self]
    exact turned_first

/-- Bytes that do not parse are passed over, and the first message still opens. -/
theorem inserted_cost_nothing_unparsed :
    ((responder.run octets [.inserted [1] (octetPair 3) []]).handle octets
      (.decrypt [1] (octetPair 3) (firstMessage firstCiphertext))).2 = .ok (some [42]) := by
  let insertion : Event Nat := .inserted [1] (octetPair 3) []
  let genuine : Event Nat := .decrypt [1] (octetPair 3) (firstMessage firstCiphertext)
  have unparsed : Ratchet.parseMessage octets [] = none := by
    simp only [Ratchet.parseMessage]
    rw [show octets.message.decode [] = none from Codec.ofCountable_decode_nil _]
    rfl
  have harmless (before peer drawn ciphertext after)
      (split : [insertion, genuine] = before ++ .inserted peer drawn ciphertext :: after) :
      (responder.run octets before).Harmless octets peer ciphertext := by
    intro s _
    have empty : ciphertext = [] := by
      have member : Event.inserted peer drawn ciphertext ∈ [insertion, genuine] := by simp [split]
      simp only [List.mem_cons, List.not_mem_nil, or_false, insertion, genuine, reduceCtorEq,
        Event.inserted.injEq] at member
      exact member.2.2
    left
    intro m parsed
    rw [empty, unparsed] at parsed
    cases parsed
  have session : responder.sessions [1] = some (Ratchet.initBob octets 0 (octetPair 2)) := rfl
  have based : ¬(responder.run octets (without [insertion])).Baseless octets genuine := by
    rintro ⟨s, found, m, -, -, have_dhr, -⟩
    obtain rfl := Option.some.inj (session.symm.trans found)
    cases have_dhr
  refine (inserted_cost_nothing responder [insertion, genuine] harmless [insertion] genuine [] rfl
    rfl based).trans ?_
  change (responder.ratchetDecrypt octets [1] (octetPair 3) (firstMessage firstCiphertext)).2 = _
  simp only [ratchetDecrypt, session, responder_first]
  exact congrArg Except.ok (octets.aead.decrypt_encrypt _ _ _)

end WebClient

end FinBit.Web
