import Mathlib.Data.List.Find
import FinBit.Desktop.DirectMessages

/-! # A direct message that is not surfaced

An envelope from which no payload is surfaced should leave every ratchet as it
was. `dispatch_envelope` does not roll back: the plain path calls `decrypt`, which
uses up a message key before the tag is checked, and may have created the session
it decrypts with; the sealed path rolls back a failed decryption, but not a failed
check of the sender after it.

`Harmless` lists the envelopes for which none of this matters, from the state and
the envelope alone: they are stopped before a key is derived, or they are genuine
and carry a payload that is accepted. `dispatchDm_atomic_iff` shows that the list
is complete.
-/

namespace FinBit.Desktop

open FinBit.Lib FinBit.Crypto FinBit.Handshake Std

variable {K : Type}

/-- The same names have a ratchet, for the same peers and in the same state. -/
def SameRatchets (before after : Sessions K) : Prop :=
  ∀ name, after.ratchetAt name = before.ratchetAt name

def DmOutcome.Surfaces : DmOutcome → Prop
  | .surfaced _ _ => True
  | .dropped => False
  | .threw _ => False

namespace Sessions

theorem ratchetAt_insert (sessions : Sessions K) (name : Bytes) (s : Session K) (k : Bytes) :
    ratchetAt (sessions.insert name s) k =
      if name = k then s.rat.map fun rat => (s.peerPub, rat) else sessions.ratchetAt k := by
  by_cases same : name = k <;> simp [ratchetAt, ExtTreeMap.getElem?_insert, same]

/-- Assigning to a name that is there adds no name. -/
theorem keys_insert_of_some {sessions : Sessions K} {name : Bytes} {old : Session K}
    (present : sessions[name]? = some old) (s : Session K) :
    (sessions.insert name s).keys = sessions.keys := by
  have mapped : sessions.insert name s =
      sessions.map fun k old => if k = name then s else old := by
    apply ExtTreeMap.ext_getElem?
    intro k
    rw [ExtTreeMap.getElem?_insert, ExtTreeMap.getElem?_map]
    by_cases same : name = k
    · subst same
      simp [present]
    · simp [same, Ne.symm same]
  rw [mapped, ExtTreeMap.keys_map]

end Sessions

section

variable (P : DmCrypto K) (client : DmClient K) (env : Envelope) (drawn : Bytes → KeyPair K)

/-! ### The loop over the sessions

What a pass does to a session depends on its peer and its ratchet only. -/

/-- What `try_session` says about a session. -/
def verdict (sessions : Sessions K) (name : Bytes) : Tried :=
  match sessions.ratchetAt name with
  | none => .failed
  | some (peer, rat) =>
    match (rat.decrypt P.toRatchetCrypto (drawn name) env.ciphertext env.aad).2 with
    | .error e => .threw e
    | .ok none => .failed
    | .ok (some pt) => if senderVerified P client env peer pt then .found peer pt else .failed

/-- The ratchet that `try_session` leaves. -/
def triedRatchet (sessions : Sessions K) (name : Bytes) : Option (Bytes × Ratchet K) :=
  (sessions.ratchetAt name).map fun (peer, rat) =>
    (peer, (rat.tryDecrypt P.toRatchetCrypto (drawn name) env.ciphertext env.aad).1)

def selected (select : Ratchet K → Bool) (sessions : Sessions K) (name : Bytes) : Bool :=
  (sessions.ratchetAt name).any fun entry => select entry.2

section

variable {P client env drawn}

theorem verdict_congr {a b : Sessions K} {name : Bytes} (same : a.ratchetAt name = b.ratchetAt name) :
    verdict P client env drawn a name = verdict P client env drawn b name := by
  rw [verdict, verdict, same]

theorem triedRatchet_congr {a b : Sessions K} {name : Bytes}
    (same : a.ratchetAt name = b.ratchetAt name) :
    triedRatchet P env drawn a name = triedRatchet P env drawn b name := by
  rw [triedRatchet, triedRatchet, same]

theorem selected_congr {select : Ratchet K → Bool} {a b : Sessions K} {name : Bytes}
    (same : a.ratchetAt name = b.ratchetAt name) :
    selected select a name = selected select b name := by
  rw [selected, selected, same]

end

theorem trySession_spec {sessions : Sessions K} {name : Bytes} {s : Session K} {rat : Ratchet K}
    (present : sessions[name]? = some s) (has : s.rat = some rat) :
    (trySession P client env (drawn name) s rat).2 = verdict P client env drawn sessions name ∧
    (trySession P client env (drawn name) s rat).1.rat.map
        (fun t => ((trySession P client env (drawn name) s rat).1.peerPub, t)) =
      triedRatchet P env drawn sessions name := by
  have entry : sessions.ratchetAt name = some (s.peerPub, rat) := by
    simp [Sessions.ratchetAt, present, has]
  simp only [verdict, triedRatchet, entry, ← Ratchet.tryDecrypt_snd, trySession, Option.map_some]
  rcases rat.tryDecrypt P.toRatchetCrypto (drawn name) env.ciphertext env.aad with ⟨t, e | none | pt⟩
  · simp
  · simp
  · cases ok : senderVerified P client env s.peerPub pt <;> simp [ok]

/-- One iteration. -/
theorem tryPass_cons (select : Ratchet K → Bool) (name : Bytes) (rest : List Bytes)
    (sessions : Sessions K) :
    (selected select sessions name = false ∧
      tryPass P client env drawn select (name :: rest) sessions =
        tryPass P client env drawn select rest sessions) ∨
    (selected select sessions name = true ∧ ∃ after : Sessions K,
      (∀ k, after.ratchetAt k =
        if name = k then triedRatchet P env drawn sessions name else sessions.ratchetAt k) ∧
      after.keys = sessions.keys ∧
      tryPass P client env drawn select (name :: rest) sessions =
        if verdict P client env drawn sessions name = .failed then
          tryPass P client env drawn select rest after
        else (after, verdict P client env drawn sessions name)) := by
  cases present : sessions[name]? with
  | none => left; simp [selected, Sessions.ratchetAt, tryPass, present]
  | some s =>
    cases has : s.rat with
    | none => left; simp [selected, Sessions.ratchetAt, tryPass, present, has]
    | some rat =>
      cases wanted : select rat with
      | false => left; simp [selected, Sessions.ratchetAt, tryPass, present, has, wanted]
      | true =>
        right
        have spec := trySession_spec P client env drawn present has
        refine ⟨by simp [selected, Sessions.ratchetAt, present, has, wanted],
          sessions.insert name (trySession P client env (drawn name) s rat).1, ?_,
          Sessions.keys_insert_of_some present _, ?_⟩
        · intro k
          rw [Sessions.ratchetAt_insert, spec.2]
        · rw [← spec.1]
          simp only [tryPass, present, has, wanted, Bool.true_eq_false, if_false]
          rcases trySession P client env (drawn name) s rat with ⟨t, _ | _ | _⟩ <;> simp

/-- The session that ends a pass: the first selected one whose verdict is not a
plain failure. -/
def decisive (select : Ratchet K → Bool) (sessions : Sessions K) (name : Bytes) : Bool :=
  selected select sessions name && verdict P client env drawn sessions name ≠ .failed

/-- A pass in closed form, from the sessions it starts with. -/
structure PassSpec (select : Ratchet K → Bool) (names : List Bytes) (sessions : Sessions K)
    (result : Sessions K × Tried) : Prop where
  outcome : result.2 =
    match names.find? (decisive P client env drawn select sessions) with
    | none => .failed
    | some name => verdict P client env drawn sessions name
  /-- A pass that ran to its end has tried every selected session. -/
  ended : names.find? (decisive P client env drawn select sessions) = none → ∀ k,
    result.1.ratchetAt k =
      if k ∈ names ∧ selected select sessions k = true then triedRatchet P env drawn sessions k
      else sessions.ratchetAt k
  stopped : ∀ name, names.find? (decisive P client env drawn select sessions) = some name →
    result.1.ratchetAt name = triedRatchet P env drawn sessions name
  peers : ∀ k, (result.1.ratchetAt k).map Prod.fst = (sessions.ratchetAt k).map Prod.fst
  keys : result.1.keys = sessions.keys

theorem tryPass_spec (select : Ratchet K → Bool) {names : List Bytes} (nodup : names.Nodup)
    (sessions : Sessions K) :
    PassSpec P client env drawn select names sessions
      (tryPass P client env drawn select names sessions) := by
  induction names generalizing sessions with
  | nil => exact ⟨rfl, by simp [tryPass], by simp, by simp [tryPass], rfl⟩
  | cons name rest ih =>
    obtain ⟨fresh, nodup⟩ := List.nodup_cons.mp nodup
    rcases tryPass_cons P client env drawn select name rest sessions with
      ⟨unselected, step⟩ | ⟨wanted, after, ratchets, keys, step⟩
    · -- the session is passed over
      have passed : decisive P client env drawn select sessions name = false := by
        simp [decisive, unselected]
      have spec := ih nodup sessions
      rw [step]
      constructor
      · rw [List.find?_cons_of_neg (by simp [passed])]
        exact spec.outcome
      · rw [List.find?_cons_of_neg (by simp [passed])]
        intro ended k
        rw [spec.ended ended]
        by_cases same : k = name
        · subst same
          simp [unselected]
        · simp [same]
      · rw [List.find?_cons_of_neg (by simp [passed])]
        exact spec.stopped
      · exact spec.peers
      · exact spec.keys
    · have tried_peer : (triedRatchet P env drawn sessions name).map Prod.fst =
          (sessions.ratchetAt name).map Prod.fst := by
        simp [triedRatchet, Function.comp_def]
      have after_peers : ∀ k,
          (after.ratchetAt k).map Prod.fst = (sessions.ratchetAt k).map Prod.fst := by
        intro k
        rw [ratchets]
        split
        next same => rw [← same, tried_peer]
        · rfl
      by_cases failed : verdict P client env drawn sessions name = .failed
      · -- the loop goes on, and the later sessions are untouched so far
        have passed : decisive P client env drawn select sessions name = false := by
          simp [decisive, failed]
        have other : ∀ k, k ≠ name → after.ratchetAt k = sessions.ratchetAt k :=
          fun k different => by rw [ratchets, if_neg different.symm]
        have later : ∀ k ∈ rest, after.ratchetAt k = sessions.ratchetAt k :=
          fun k member => other k fun same => fresh (same ▸ member)
        have spec := ih nodup after
        have found : rest.find? (decisive P client env drawn select after) =
            rest.find? (decisive P client env drawn select sessions) := by
          apply List.find?_congr
          intro k member
          rw [decisive, decisive, selected_congr (later k member), verdict_congr (later k member)]
        rw [step, if_pos failed]
        constructor
        · rw [List.find?_cons_of_neg (by simp [passed]), spec.outcome, found]
          split
          · rfl
          next k hit =>
            have member := List.mem_of_find?_eq_some hit
            exact verdict_congr (later k member)
        · rw [List.find?_cons_of_neg (by simp [passed]), ← found]
          intro ended k
          rw [spec.ended ended]
          by_cases same : k = name
          · subst same
            simp [fresh, wanted, ratchets]
          · simp [same, selected_congr (other k same), triedRatchet_congr (other k same), other k same]
        · rw [List.find?_cons_of_neg (by simp [passed]), ← found]
          intro k hit
          have member := List.mem_of_find?_eq_some hit
          exact (spec.stopped k hit).trans (triedRatchet_congr (later k member))
        · exact fun k => (spec.peers k).trans (after_peers k)
        · exact spec.keys.trans keys
      · have hit : decisive P client env drawn select sessions name = true := by
          simp [decisive, wanted, failed]
        rw [step, if_neg failed]
        constructor
        · rw [List.find?_cons_of_pos hit]
        · rw [List.find?_cons_of_pos hit]
          simp
        · rw [List.find?_cons_of_pos hit]
          rintro k ⟨⟩
          simp [ratchets]
        · exact after_peers
        · exact keys

/-! ### The two passes together -/

/-- The names in the order in which the pre-pass tries them. -/
def trialOrder : List Bytes :=
  client.sessions.keys.filter (selected (headerMatches P env) client.sessions) ++
    client.sessions.keys.filter fun name => !selected (headerMatches P env) client.sessions name

/-- A ratchet that pass 1 has tried is not moved by pass 2. -/
theorem tried_again {rat : Ratchet K} {drawn : KeyPair K} (matched : headerMatches P env rat = true)
    (unmatched : headerMatches P env
      (rat.tryDecrypt P.toRatchetCrypto drawn env.ciphertext env.aad).1 = false) :
    (rat.tryDecrypt P.toRatchetCrypto drawn env.ciphertext env.aad).1.Stopped
      P.toRatchetCrypto env.ciphertext env.aad := by
  by_cases nothing : (rat.decrypt P.toRatchetCrypto drawn env.ciphertext env.aad).2 = .ok none
  · have same := (Ratchet.tryDecrypt_fst_eq_iff _ _ _ _ _).mpr nothing
    rw [same, matched] at unmatched
    cases unmatched
  · have kept : rat.tryDecrypt P.toRatchetCrypto drawn env.ciphertext env.aad =
        rat.decrypt P.toRatchetCrypto drawn env.ciphertext env.aad := by
      unfold Ratchet.tryDecrypt
      split
      next same => rw [same] at nothing; exact absurd rfl nothing
      · rfl
    rw [kept] at unmatched ⊢
    rcases Ratchet.decrypt_again _ rat drawn env.ciphertext env.aad matched with again | stopped
    · rw [headerMatches, again] at unmatched
      cases unmatched
    · exact stopped

/-- The pre-pass in closed form, from the sessions it starts with. -/
structure PrePassSpec (result : Sessions K × Tried) : Prop where
  outcome : result.2 =
    match (trialOrder P client env).find? fun name =>
        verdict P client env drawn client.sessions name ≠ .failed with
    | none => .failed
    | some name => verdict P client env drawn client.sessions name
  ended : result.2 = .failed → ∀ k,
    result.1.ratchetAt k = triedRatchet P env drawn client.sessions k
  stopped : ∀ name, (trialOrder P client env).find? (fun name =>
      verdict P client env drawn client.sessions name ≠ .failed) = some name →
    result.1.ratchetAt name = triedRatchet P env drawn client.sessions name
  peers : ∀ k, (result.1.ratchetAt k).map Prod.fst = (client.sessions.ratchetAt k).map Prod.fst
  keys : result.1.keys = client.sessions.keys

theorem find?_trialOrder :
    ((trialOrder P client env).find? fun name =>
        verdict P client env drawn client.sessions name ≠ .failed) =
      (client.sessions.keys.find?
          (decisive P client env drawn (headerMatches P env) client.sessions)).or
        (client.sessions.keys.find?
          fun name => !selected (headerMatches P env) client.sessions name &&
            verdict P client env drawn client.sessions name ≠ .failed) := by
  rw [trialOrder, List.find?_append, List.find?_filter, List.find?_filter]
  congr 1 <;>
  · apply List.find?_congr
    intro name _
    simp [decisive]

/-- Pass 2, from the sessions that an unsuccessful pass 1 leaves: it decides on the
sessions that were not tried yet, and afterwards every session has been tried once. -/
theorem second_pass {sessions : Sessions K} {k : Bytes}
    (after : sessions.ratchetAt k =
      if selected (headerMatches P env) client.sessions k = true then
        triedRatchet P env drawn client.sessions k
      else client.sessions.ratchetAt k) :
    decisive P client env drawn (fun rat => !headerMatches P env rat) sessions k =
      (!selected (headerMatches P env) client.sessions k &&
        verdict P client env drawn client.sessions k ≠ .failed) ∧
    (if selected (fun rat => !headerMatches P env rat) sessions k = true then
        triedRatchet P env drawn sessions k
      else sessions.ratchetAt k) = triedRatchet P env drawn client.sessions k := by
  cases entry : client.sessions.ratchetAt k with
  | none =>
    have gone : sessions.ratchetAt k = none := by simpa [triedRatchet, selected, entry] using after
    simp [decisive, selected, verdict, triedRatchet, entry, gone]
  | some found =>
    obtain ⟨peer, rat⟩ := found
    cases matched : headerMatches P env rat with
    | false =>
      have same : sessions.ratchetAt k = client.sessions.ratchetAt k := by
        rw [after]
        simp [selected, entry, matched]
      simp [decisive, selected, verdict_congr same, triedRatchet_congr same, same, entry, matched]
    | true =>
      have moved : sessions.ratchetAt k = some (peer,
          (rat.tryDecrypt P.toRatchetCrypto (drawn k) env.ciphertext env.aad).1) := by
        rw [after]
        simp [selected, triedRatchet, entry, matched]
      cases again : headerMatches P env
          (rat.tryDecrypt P.toRatchetCrypto (drawn k) env.ciphertext env.aad).1 with
      | true => simp [decisive, selected, triedRatchet, moved, entry, matched, again]
      | false =>
        -- a counter that wrapped; the second try is refused
        have unmoved := (Ratchet.decrypt_fst_eq_iff _ _ (drawn k) _ _).mpr
          (tried_again P env matched again)
        have nothing := Ratchet.decrypt_snd_of_unmoved _ _ _ _ _ unmoved
        have kept := (Ratchet.tryDecrypt_fst_eq_iff _ _ _ _ _).mpr nothing
        simp [decisive, selected, verdict, triedRatchet, moved, entry, matched, again, nothing,
          kept]

theorem sealedPrePass_spec :
    PrePassSpec P client env drawn (sealedPrePass P client env drawn) := by
  have first := tryPass_spec P client env drawn (headerMatches P env)
    client.sessions.nodup_keys client.sessions
  have search := find?_trialOrder P client env drawn
  cases hit : client.sessions.keys.find?
      (decisive P client env drawn (headerMatches P env) client.sessions) with
  | some name =>
    have decided : verdict P client env drawn client.sessions name ≠ .failed := by
      have := List.find?_some hit
      simp only [decisive, Bool.and_eq_true, decide_eq_true_eq] at this
      exact this.2
    rw [hit, Option.some_or] at search
    have outcome := first.outcome
    rw [hit] at outcome
    have stops : sealedPrePass P client env drawn =
        tryPass P client env drawn (headerMatches P env) client.sessions.keys client.sessions := by
      unfold sealedPrePass
      split
      next failed =>
        rw [failed] at outcome
        exact absurd outcome.symm decided
      · rfl
    rw [stops]
    constructor
    · rw [search, outcome]
    · intro failed
      exact absurd (outcome.symm.trans failed) decided
    · intro other found
      rw [search] at found
      obtain rfl : name = other := by simpa using found
      exact first.stopped name hit
    · exact first.peers
    · exact first.keys
  | none =>
    rw [hit, Option.none_or] at search
    have outcome := first.outcome
    rw [hit] at outcome
    have ended := first.ended hit
    have peers := first.peers
    have keys := first.keys
    unfold sealedPrePass
    generalize tryPass P client env drawn (headerMatches P env) client.sessions.keys
      client.sessions = result at outcome ended peers keys ⊢
    obtain ⟨sessions, tried⟩ := result
    dsimp only at outcome
    subst outcome
    dsimp only at ended peers keys ⊢
    have second := tryPass_spec P client env drawn (fun rat => !headerMatches P env rat)
      client.sessions.nodup_keys sessions
    -- a selected session has an entry, so it is among the names
    have after : ∀ k, sessions.ratchetAt k =
        if selected (headerMatches P env) client.sessions k = true then
          triedRatchet P env drawn client.sessions k
        else client.sessions.ratchetAt k := by
      intro k
      rw [ended]
      by_cases member : k ∈ client.sessions.keys
      · simp [member]
      · have absent : client.sessions[k]? = none := by
          rw [ExtTreeMap.mem_keys] at member
          exact ExtTreeMap.getElem?_eq_none member
        simp [member, selected, Sessions.ratchetAt, absent]
    have found : client.sessions.keys.find?
          (decisive P client env drawn (fun rat => !headerMatches P env rat) sessions) =
        (trialOrder P client env).find? fun name =>
          verdict P client env drawn client.sessions name ≠ .failed := by
      rw [search]
      apply List.find?_congr
      intro k _
      exact (second_pass P client env drawn (after k)).1
    -- the session that decides was not tried in pass 1
    have untouched : ∀ name, (trialOrder P client env).find? (fun name =>
        verdict P client env drawn client.sessions name ≠ .failed) = some name →
        sessions.ratchetAt name = client.sessions.ratchetAt name ∧
          verdict P client env drawn client.sessions name ≠ .failed := by
      intro name decides
      rw [search] at decides
      have := List.find?_some decides
      simp only [Bool.and_eq_true, Bool.not_eq_true', decide_eq_true_eq] at this
      rw [after, this.1]
      exact ⟨rfl, this.2⟩
    have result := second.outcome
    rw [found] at result
    constructor
    · rw [result]
      split
      · rfl
      next name decides => exact verdict_congr (untouched name decides).1
    · intro nothing k
      have none_decides : (trialOrder P client env).find? (fun name =>
          verdict P client env drawn client.sessions name ≠ .failed) = none := by
        rw [Option.eq_none_iff_forall_ne_some]
        intro name decides
        have := untouched name decides
        rw [nothing, decides] at result
        exact this.2 ((verdict_congr this.1).symm.trans result.symm)
      rw [second.ended (found.trans none_decides),
        ← (second_pass P client env drawn (after k)).2]
      by_cases member : k ∈ client.sessions.keys
      · simp [member]
      · rw [← keys, ExtTreeMap.mem_keys] at member
        have absent := ExtTreeMap.getElem?_eq_none member
        simp [selected, Sessions.ratchetAt, absent]
    · intro name decides
      rw [second.stopped name (found.trans decides)]
      exact triedRatchet_congr (untouched name decides).1
    · exact fun k => (second.peers k).trans (peers k)
    · exact second.keys.trans keys

/-! ### The sender's session -/

/-- The ratchet that an envelope from the sender meets: the one on file, or the one
that would be created for it. -/
def ratchetFor (sender : Bytes) : Option (Ratchet K) :=
  match client.sessions.ratchetAt (sessionName client.sessions sender) with
  | some (_, rat) => some rat
  | none =>
    match P.edToCurve sender with
    | none => none
    | some peerX =>
      match deriveHybridRecv P.toHybridCrypto client.x25519 peerX client.pqSec env.pqCt with
      | .error _ => none
      | .ok shared => some (Ratchet.initBob P.toRatchetCrypto shared client.x25519)

/-- The payload is read and passes the check of its branch. -/
def Accepts (plaintext : Bytes) : Prop :=
  ∃ payload, P.payload.decode plaintext = some payload ∧ payload.body.accepted = true

theorem readPayload_surfaces_iff (sender plaintext : Bytes) :
    (readPayload P sender plaintext).Surfaces ↔ Accepts P plaintext := by
  cases decoded : P.payload.decode plaintext with
  | none => simp [readPayload, Accepts, decoded, DmOutcome.Surfaces]
  | some payload =>
    by_cases ok : payload.body.accepted <;>
      simp [readPayload, Accepts, decoded, ok, DmOutcome.Surfaces]

theorem ratchetAt_getD (name : Bytes) :
    (client.sessions[name]?.getD .blank).rat.map
        (fun rat => ((client.sessions[name]?.getD .blank).peerPub, rat)) =
      client.sessions.ratchetAt name := by
  cases present : client.sessions[name]? <;>
    simp [Sessions.ratchetAt, present, Session.blank]

/-- What `respond` does with the session under the sender's name. -/
inductive Responded (sender : Bytes) (s : Session K) :
    Except DmOutcome (Session K × Ratchet K) → Prop
  | found {rat : Ratchet K} (has : s.rat = some rat)
      (meets : ratchetFor P client env sender = some rat) : Responded sender s (.ok (s, rat))
  | created {t : Session K} {rat : Ratchet K} (lacks : s.rat = none) (gets : t.rat = some rat)
      (meets : ratchetFor P client env sender = some rat) : Responded sender s (.ok (t, rat))
  | failed {outcome : DmOutcome} (lacks : s.rat = none) (quiet : ¬outcome.Surfaces)
      (meets : ratchetFor P client env sender = none) : Responded sender s (.error outcome)

theorem respond_spec (sender : Bytes) {s : Session K}
    (entry : s.rat.map (fun rat => (s.peerPub, rat)) =
      client.sessions.ratchetAt (sessionName client.sessions sender)) :
    Responded P client env sender s (respond P client env sender s) := by
  cases has : s.rat with
  | some rat =>
    have meets : ratchetFor P client env sender = some rat := by simp [ratchetFor, ← entry, has]
    simpa [respond, has] using Responded.found has meets
  | none =>
    rw [has] at entry
    cases curve : P.edToCurve sender with
    | none =>
      have meets : ratchetFor P client env sender = none := by simp [ratchetFor, ← entry, curve]
      have way : Responded P client env sender s (.error .dropped) := .failed has id meets
      simpa [respond, has, curve] using way
    | some peerX =>
      cases derived : deriveHybridRecv P.toHybridCrypto client.x25519 peerX client.pqSec
          env.pqCt with
      | error e =>
        have meets : ratchetFor P client env sender = none := by
          simp [ratchetFor, ← entry, curve, derived]
        have way : Responded P client env sender s (.error (.threw e)) := .failed has id meets
        simpa [respond, has, curve, derived] using way
      | ok shared =>
        have meets : ratchetFor P client env sender =
            some (Ratchet.initBob P.toRatchetCrypto shared client.x25519) := by
          simp [ratchetFor, ← entry, curve, derived]
        simpa [respond, has, curve, derived] using Responded.created has rfl meets

/-- Putting a session back with the ratchet it had changes no ratchet. -/
theorem sameRatchets_insert {sessions : Sessions K} {name : Bytes} {s : Session K}
    (same : s.rat.map (fun rat => (s.peerPub, rat)) = sessions.ratchetAt name) :
    SameRatchets sessions (sessions.insert name s) := by
  intro k
  rw [Sessions.ratchetAt_insert]
  split
  next here => rw [same, here]
  · rfl

theorem not_sameRatchets_insert {sessions : Sessions K} {name : Bytes} {s : Session K}
    (moved : s.rat.map (fun rat => (s.peerPub, rat)) ≠ sessions.ratchetAt name) :
    ¬SameRatchets sessions (sessions.insert name s) := by
  intro same
  have here := same name
  rw [Sessions.ratchetAt_insert, if_pos rfl] at here
  exact moved here

/-! ### Envelopes with a sender -/

/-- The envelopes with a plain sender that do no harm. -/
inductive PlainHarmless (sender : Bytes) : Prop
  /-- There is no session, and none can be created. -/
  | refused (lacks : ratchetFor P client env sender = none)
  | mismatch {peer : Bytes} {rat : Ratchet K}
      (known : client.sessions.ratchetAt (sessionName client.sessions sender) = some (peer, rat))
      (tampered : env.aadConsistent = false)
  | stopped {peer : Bytes} {rat : Ratchet K}
      (known : client.sessions.ratchetAt (sessionName client.sessions sender) = some (peer, rat))
      (stops : rat.Stopped P.toRatchetCrypto env.ciphertext env.aad)
  | genuine {rat : Ratchet K} {pt : Bytes} (meets : ratchetFor P client env sender = some rat)
      (consistent : env.aadConsistent = true)
      (opens : rat.Opens P.toRatchetCrypto (drawn (sessionName client.sessions sender))
        env.ciphertext env.aad pt)
      (accepted : Accepts P pt)

theorem receive_spec (drawn : KeyPair K) (sender : Bytes) (s : Session K) (rat : Ratchet K) :
    (receive P env drawn sender s rat).1.rat.map
        (fun t => ((receive P env drawn sender s rat).1.peerPub, t)) =
      some (s.peerPub, (rat.decrypt P.toRatchetCrypto drawn env.ciphertext env.aad).1) ∧
    ((receive P env drawn sender s rat).2.Surfaces ↔
      ∃ pt, rat.Opens P.toRatchetCrypto drawn env.ciphertext env.aad pt ∧ Accepts P pt) := by
  simp only [← Ratchet.decrypt_snd_eq_some_iff, receive]
  rcases rat.decrypt P.toRatchetCrypto drawn env.ciphertext env.aad with ⟨t, e | none | pt⟩
  · simp [DmOutcome.Surfaces]
  · simp [DmOutcome.Surfaces]
  · simp [Session.acknowledge, readPayload_surfaces_iff]

theorem deliver_plain_iff (sender : Bytes) :
    (¬(deliver P client env drawn sender none).2.Surfaces →
      SameRatchets client.sessions (deliver P client env drawn sender none).1) ↔
    PlainHarmless P client env drawn sender := by
  have entry := ratchetAt_getD client (sessionName client.sessions sender)
  simp only [deliver]
  generalize client.sessions[sessionName client.sessions sender]?.getD .blank = s at entry ⊢
  have way := respond_spec P client env sender entry
  generalize respond P client env sender s = responded at way ⊢
  cases way with
  | failed lacks quiet meets =>
    exact ⟨fun _ => .refused meets, fun _ _ => sameRatchets_insert entry⟩
  | @found rat has meets =>
    have known := entry.symm
    rw [has, Option.map_some] at known
    cases consistent : env.aadConsistent with
    | false =>
      exact ⟨fun _ => .mismatch known consistent, fun _ _ => sameRatchets_insert entry⟩
    | true =>
      obtain ⟨ratchet, surfaces⟩ :=
        receive_spec P env (drawn (sessionName client.sessions sender)) sender s rat
      simp only [Bool.true_eq_false, if_false, surfaces]
      constructor
      · intro atomic
        by_cases opens : ∃ pt, rat.Opens P.toRatchetCrypto
            (drawn (sessionName client.sessions sender)) env.ciphertext env.aad pt ∧ Accepts P pt
        · obtain ⟨pt, opened, accepted⟩ := opens
          exact .genuine meets consistent opened accepted
        · have unmoved := atomic opens (sessionName client.sessions sender)
          rw [Sessions.ratchetAt_insert, if_pos rfl, ratchet, known] at unmoved
          exact .stopped known ((Ratchet.decrypt_fst_eq_iff _ _ _ _ _).mp (by simpa using unmoved))
      · intro harmless unsurfaced
        apply sameRatchets_insert
        rw [ratchet, known]
        cases harmless with
        | refused lacks => rw [lacks] at meets; cases meets
        | mismatch _ tampered => rw [consistent] at tampered; cases tampered
        | stopped on_file stops =>
          obtain ⟨-, rfl⟩ : _ ∧ rat = _ := by simpa using known.symm.trans on_file
          rw [(Ratchet.decrypt_fst_eq_iff _ _ _ _ _).mpr stops]
        | genuine here _ opens accepted =>
          obtain rfl : rat = _ := by simpa using meets.symm.trans here
          exact absurd ⟨_, opens, accepted⟩ unsurfaced
  | @created t rat lacks gets meets =>
    have unknown := entry.symm
    rw [lacks, Option.map_none] at unknown
    -- the new session is a change in itself, so the payload has to surface
    cases consistent : env.aadConsistent with
    | false =>
      have moved : t.rat.map (fun rat => (t.peerPub, rat)) ≠
          client.sessions.ratchetAt (sessionName client.sessions sender) := by
        simp [gets, unknown]
      constructor
      · intro atomic
        exact absurd (atomic id) (not_sameRatchets_insert moved)
      · intro harmless
        cases harmless with
        | refused lacks => rw [lacks] at meets; cases meets
        | mismatch known _ => rw [unknown] at known; cases known
        | stopped known _ => rw [unknown] at known; cases known
        | genuine _ same _ _ => rw [consistent] at same; cases same
    | true =>
      obtain ⟨ratchet, surfaces⟩ :=
        receive_spec P env (drawn (sessionName client.sessions sender)) sender t rat
      simp only [Bool.true_eq_false, if_false, surfaces]
      constructor
      · intro atomic
        by_contra harmful
        refine not_sameRatchets_insert (by simp [ratchet, unknown]) (atomic ?_)
        rintro ⟨pt, opens, accepted⟩
        exact harmful (.genuine meets consistent opens accepted)
      · intro harmless unsurfaced
        cases harmless with
        | refused lacks => rw [lacks] at meets; cases meets
        | mismatch known _ => rw [unknown] at known; cases known
        | stopped known _ => rw [unknown] at known; cases known
        | genuine here _ opens accepted =>
          obtain rfl : rat = _ := by simpa using meets.symm.trans here
          exact absurd ⟨_, opens, accepted⟩ unsurfaced

/-! ### Sealed envelopes -/

/-- The pre-pass goes on past the session. -/
def Passes (name : Bytes) : Prop :=
  ∀ peer rat, client.sessions.ratchetAt name = some (peer, rat) →
    ¬rat.LowOrder P.toRatchetCrypto (drawn name) env.ciphertext ∧
    ∀ pt, rat.Opens P.toRatchetCrypto (drawn name) env.ciphertext env.aad pt →
      senderVerified P client env peer pt = false

/-- The sealed envelopes that do no harm. -/
inductive SealedHarmless : Prop
  /-- No session opens the message, and none throws over it. -/
  | unrecognised (closed : ∀ name peer rat, client.sessions.ratchetAt name = some (peer, rat) →
      ¬rat.LowOrder P.toRatchetCrypto (drawn name) env.ciphertext ∧
      ∀ pt, ¬rat.Opens P.toRatchetCrypto (drawn name) env.ciphertext env.aad pt)
  /-- The first session that decides is the sender's, and the rest goes through. -/
  | genuine {earlier later : List Bytes} {name peer pt : Bytes} {rat : Ratchet K}
      (order : trialOrder P client env = earlier ++ name :: later)
      (passes : ∀ other ∈ earlier, Passes P client env drawn other)
      (known : client.sessions.ratchetAt name = some (peer, rat))
      (opens : rat.Opens P.toRatchetCrypto (drawn name) env.ciphertext env.aad pt)
      (verified : senderVerified P client env peer pt = true)
      (meets : (ratchetFor P client env peer).isSome)
      (consistent : env.aadConsistent = true) (accepted : Accepts P pt)

/-- A statement about the entry under a name, once the entry is known. -/
private theorem forall_entry_iff {peer : Bytes} {rat : Ratchet K}
    {Q : Bytes → Ratchet K → Prop} :
    (∀ peer' rat', some (peer, rat) = some (peer', rat') → Q peer' rat') ↔ Q peer rat := by
  constructor
  · exact fun all => all peer rat rfl
  · rintro holds _ _ ⟨⟩
    exact holds

theorem verdict_eq_failed_iff (name : Bytes) :
    verdict P client env drawn client.sessions name = .failed ↔ Passes P client env drawn name := by
  cases entry : client.sessions.ratchetAt name with
  | none => simp [verdict, Passes, entry]
  | some found =>
    obtain ⟨peer, rat⟩ := found
    have opened := Ratchet.decrypt_snd_eq_some_iff P.toRatchetCrypto rat (drawn name)
      env.ciphertext env.aad
    have threw := Ratchet.lowOrder_iff P.toRatchetCrypto rat (drawn name) env.ciphertext env.aad
    rw [Passes, entry, forall_entry_iff]
    simp only [verdict, entry, ← opened, threw]
    rcases (rat.decrypt P.toRatchetCrypto (drawn name) env.ciphertext env.aad).2 with
      e | none | pt
    · simp
    · simp
    · cases senderVerified P client env peer pt <;> simp

theorem verdict_eq_found_iff {name peer pt : Bytes} :
    verdict P client env drawn client.sessions name = .found peer pt ↔
      ∃ rat, client.sessions.ratchetAt name = some (peer, rat) ∧
        rat.Opens P.toRatchetCrypto (drawn name) env.ciphertext env.aad pt ∧
        senderVerified P client env peer pt = true := by
  cases entry : client.sessions.ratchetAt name with
  | none => simp [verdict, entry]
  | some found =>
    obtain ⟨owner, rat⟩ := found
    have opened := Ratchet.decrypt_snd_eq_some_iff P.toRatchetCrypto rat (drawn name)
      env.ciphertext env.aad pt
    simp only [verdict, entry, Option.some.injEq, Prod.mk.injEq, and_assoc,
      exists_and_left, exists_eq_left']
    simp only [← opened]
    rcases (rat.decrypt P.toRatchetCrypto (drawn name) env.ciphertext env.aad).2 with
      e | none | text
    · simp
    · simp
    · dsimp only
      constructor
      · intro found
        split at found
        next ok =>
          obtain ⟨rfl, rfl⟩ : owner = peer ∧ text = pt := by simpa using found
          exact ⟨rfl, rfl, ok⟩
        · cases found
      · rintro ⟨rfl, same, ok⟩
        obtain rfl : text = pt := by simpa using same
        rw [if_pos ok]

/-- The search for the sender's session reads only whose ratchets there are. -/
theorem sessionName_congr {before after : Sessions K} (sender : Bytes)
    (keys : after.keys = before.keys)
    (peers : ∀ k, (after.ratchetAt k).map Prod.fst = (before.ratchetAt k).map Prod.fst) :
    sessionName after sender = sessionName before sender := by
  have same : ∀ k, (after.ratchetAt k).any (fun entry => entry.1 = sender) =
      (before.ratchetAt k).any fun entry => entry.1 = sender := by
    intro k
    have := congrArg (Option.any fun peer => decide (peer = sender)) (peers k)
    simpa [Option.any_map, Function.comp_def] using this
  simp only [sessionName, keys, same]

theorem ratchetFor_isSome_congr {sessions : Sessions K} (sender : Bytes)
    (keys : sessions.keys = client.sessions.keys)
    (peers : ∀ k,
      (sessions.ratchetAt k).map Prod.fst = (client.sessions.ratchetAt k).map Prod.fst) :
    (ratchetFor P { client with sessions := sessions } env sender).isSome =
      (ratchetFor P client env sender).isSome := by
  simp only [ratchetFor, sessionName_congr sender keys peers]
  have := peers (sessionName client.sessions sender)
  cases left : sessions.ratchetAt (sessionName client.sessions sender) <;>
    cases right : client.sessions.ratchetAt (sessionName client.sessions sender) <;>
    simp_all

/-- A sealed envelope has been decrypted before, so `deliver` changes no ratchet
that is there. -/
theorem deliver_sealed (sender pt : Bytes) :
    ((deliver P client env drawn sender (some pt)).2.Surfaces ↔
      (ratchetFor P client env sender).isSome ∧ env.aadConsistent = true ∧ Accepts P pt) ∧
    ∀ k, (client.sessions.ratchetAt k).isSome →
      (deliver P client env drawn sender (some pt)).1.ratchetAt k =
        client.sessions.ratchetAt k := by
  have entry := ratchetAt_getD client (sessionName client.sessions sender)
  simp only [deliver]
  generalize client.sessions[sessionName client.sessions sender]?.getD .blank = s at entry ⊢
  have way := respond_spec P client env sender entry
  generalize respond P client env sender s = responded at way ⊢
  cases way with
  | failed lacks quiet meets =>
    exact ⟨by simp [meets, quiet], fun k _ => sameRatchets_insert entry k⟩
  | found has meets =>
    cases consistent : env.aadConsistent with
    | false => exact ⟨by simp [DmOutcome.Surfaces], fun k _ => sameRatchets_insert entry k⟩
    | true =>
      exact ⟨by simp [meets, readPayload_surfaces_iff],
        fun k _ => sameRatchets_insert (s := s.acknowledge) entry k⟩
  | created lacks gets meets =>
    rw [lacks, Option.map_none] at entry
    have elsewhere : ∀ k, (client.sessions.ratchetAt k).isSome →
        sessionName client.sessions sender ≠ k := by
      rintro k has rfl
      rw [← entry] at has
      cases has
    cases consistent : env.aadConsistent with
    | false =>
      refine ⟨by simp [DmOutcome.Surfaces], fun k has => ?_⟩
      simp [Sessions.ratchetAt_insert, elsewhere k has]
    | true =>
      refine ⟨by simp [meets, readPayload_surfaces_iff], fun k has => ?_⟩
      simp [Sessions.ratchetAt_insert, elsewhere k has]

/-- The pre-pass as a whole leaves every ratchet alone just where none opens the
message and none throws. -/
theorem triedRatchet_eq_iff (name : Bytes) :
    triedRatchet P env drawn client.sessions name = client.sessions.ratchetAt name ↔
      ∀ peer rat, client.sessions.ratchetAt name = some (peer, rat) →
        ¬rat.LowOrder P.toRatchetCrypto (drawn name) env.ciphertext ∧
        ∀ pt, ¬rat.Opens P.toRatchetCrypto (drawn name) env.ciphertext env.aad pt := by
  cases entry : client.sessions.ratchetAt name with
  | none => simp [triedRatchet, entry]
  | some found =>
    obtain ⟨peer, rat⟩ := found
    have unmoved := Ratchet.tryDecrypt_fst_eq_iff P.toRatchetCrypto rat (drawn name)
      env.ciphertext env.aad
    have opened := Ratchet.decrypt_snd_eq_some_iff P.toRatchetCrypto rat (drawn name)
      env.ciphertext env.aad
    have threw := Ratchet.lowOrder_iff P.toRatchetCrypto rat (drawn name) env.ciphertext env.aad
    rw [forall_entry_iff]
    simp only [triedRatchet, entry, Option.map_some, Option.some.injEq, Prod.mk.injEq, true_and,
      unmoved, ← opened, threw]
    rcases (rat.decrypt P.toRatchetCrypto (drawn name) env.ciphertext env.aad).2 with
      e | none | pt <;> simp

/-- `SealedHarmless` in terms of the session that decides. -/
theorem sealedHarmless_iff : SealedHarmless P client env drawn ↔
    (∀ name, triedRatchet P env drawn client.sessions name = client.sessions.ratchetAt name) ∨
    ∃ name peer pt, (trialOrder P client env).find? (fun name =>
        verdict P client env drawn client.sessions name ≠ .failed) = some name ∧
      verdict P client env drawn client.sessions name = .found peer pt ∧
      (ratchetFor P client env peer).isSome ∧ env.aadConsistent = true ∧ Accepts P pt := by
  constructor
  · intro harmless
    cases harmless with
    | unrecognised closed =>
      exact .inl fun name => (triedRatchet_eq_iff P client env drawn name).mpr (closed name)
    | @genuine earlier later name peer pt rat order passes known opens verified meets consistent
        accepted =>
      have found := (verdict_eq_found_iff P client env drawn).mpr ⟨rat, known, opens, verified⟩
      refine .inr ⟨name, peer, pt, ?_, found, meets, consistent, accepted⟩
      rw [List.find?_eq_some_iff_append]
      refine ⟨by simp [found], earlier, later, order, fun other member => ?_⟩
      simp [(verdict_eq_failed_iff P client env drawn other).mpr (passes other member)]
  · rintro (unmoved | ⟨name, peer, pt, decides, found, meets, consistent, accepted⟩)
    · exact .unrecognised fun name => (triedRatchet_eq_iff P client env drawn name).mp (unmoved name)
    · obtain ⟨rat, known, opens, verified⟩ := (verdict_eq_found_iff P client env drawn).mp found
      obtain ⟨-, earlier, later, order, passes⟩ := List.find?_eq_some_iff_append.mp decides
      refine .genuine order (fun other member => ?_) known opens verified meets consistent accepted
      rw [← verdict_eq_failed_iff]
      simpa using passes other member

/-- A session that decides has a ratchet, and it has moved. -/
theorem triedRatchet_of_decided {name : Bytes}
    (decided : verdict P client env drawn client.sessions name ≠ .failed) :
    (client.sessions.ratchetAt name).isSome ∧
      triedRatchet P env drawn client.sessions name ≠ client.sessions.ratchetAt name := by
  cases entry : client.sessions.ratchetAt name with
  | none => simp [verdict, entry] at decided
  | some found =>
    refine ⟨rfl, fun same => decided ?_⟩
    rw [← entry, triedRatchet_eq_iff] at same
    rw [verdict_eq_failed_iff]
    intro peer rat known
    obtain ⟨low, closed⟩ := same peer rat known
    exact ⟨low, fun pt opens => absurd opens (closed pt)⟩

theorem sealed_iff {key : Bytes} (sealed : env.senderPubkey = [])
    (to_user : env.recipient = .userPubkey key) :
    (¬(dispatchDm P client env drawn).2.Surfaces →
      SameRatchets client.sessions (dispatchDm P client env drawn).1) ↔
    SealedHarmless P client env drawn := by
  obtain ⟨outcome, ended, stopped, peers, keys⟩ := sealedPrePass_spec P client env drawn
  rw [sealedHarmless_iff]
  simp only [dispatchDm, sealed, to_user, if_true]
  generalize sealedPrePass P client env drawn = result at outcome ended stopped peers keys ⊢
  obtain ⟨sessions, tried⟩ := result
  dsimp only at outcome ended stopped peers keys
  cases decides : (trialOrder P client env).find? (fun name =>
      verdict P client env drawn client.sessions name ≠ .failed) with
  | none =>
    rw [decides] at outcome
    subst outcome
    simp [SameRatchets, ended rfl, DmOutcome.Surfaces]
  | some name =>
    rw [decides] at outcome
    have decided : verdict P client env drawn client.sessions name ≠ .failed := by
      simpa using List.find?_some decides
    obtain ⟨has, moved⟩ := triedRatchet_of_decided P client env drawn decided
    have here := stopped name decides
    dsimp only at outcome
    cases verdict_eq : verdict P client env drawn client.sessions name with
    | failed => exact absurd verdict_eq decided
    | threw e =>
      rw [verdict_eq] at outcome
      subst outcome
      constructor
      · intro atomic
        exact absurd (here.symm.trans (atomic id name)) moved
      · rintro (unmoved | ⟨_, peer, pt, same, found, _⟩)
        · exact absurd (unmoved name) moved
        · obtain rfl : name = _ := by simpa using same
          rw [verdict_eq] at found
          cases found
    | found peer pt =>
      rw [verdict_eq] at outcome
      subst outcome
      obtain ⟨surfaces, frame⟩ :=
        deliver_sealed P { client with sessions := sessions } env drawn peer pt
      rw [ratchetFor_isSome_congr P client env peer keys peers] at surfaces
      dsimp only
      constructor
      · intro atomic
        by_cases surfaced : (ratchetFor P client env peer).isSome ∧ env.aadConsistent = true ∧
            Accepts P pt
        · exact .inr ⟨name, peer, pt, rfl, verdict_eq, surfaced⟩
        · -- unsurfaced, yet the session that matched has moved
          have kept := atomic (surfaces.not.mpr surfaced) name
          have tried_has : (sessions.ratchetAt name).isSome := by
            rw [here, triedRatchet, Option.isSome_map]
            exact has
          rw [frame name tried_has] at kept
          exact absurd (here.symm.trans kept) moved
      · rintro (unmoved | ⟨_, peer', pt', same, found, surfaced⟩)
        · exact absurd (unmoved name) moved
        · obtain rfl : name = _ := by simpa using same
          obtain ⟨rfl, rfl⟩ : peer = peer' ∧ pt = pt' := by
            simpa using verdict_eq.symm.trans found
          exact fun unsurfaced => absurd (surfaces.mpr surfaced) unsurfaced

/-! ### The result -/

/-- The envelopes for the user that do no harm. -/
inductive Harmless : Prop
  | malformed (present : env.senderPubkey ≠ []) (wrong : env.senderPubkey.length ≠ 32)
  | plain (sized : env.senderPubkey.length = 32)
      (harmless : PlainHarmless P client env drawn env.senderPubkey)
  | hidden (sealed : env.senderPubkey = []) (harmless : SealedHarmless P client env drawn)

/-- An envelope for the user that surfaces nothing leaves every ratchet alone just
where it is harmless. -/
theorem dispatchDm_atomic_iff {key : Bytes} (to_user : env.recipient = .userPubkey key) :
    (¬(dispatchDm P client env drawn).2.Surfaces →
      SameRatchets client.sessions (dispatchDm P client env drawn).1) ↔
    Harmless P client env drawn := by
  by_cases sealed : env.senderPubkey = []
  · rw [sealed_iff P client env drawn sealed to_user]
    constructor
    · exact .hidden sealed
    · intro harmless
      cases harmless with
      | malformed present _ => exact absurd sealed present
      | plain sized _ => simp [sealed] at sized
      | hidden _ harmless => exact harmless
  · by_cases sized : env.senderPubkey.length = 32
    · simp only [dispatchDm, sealed, if_false, sized, ne_eq, not_true_eq_false]
      rw [deliver_plain_iff]
      constructor
      · exact .plain sized
      · intro harmless
        cases harmless with
        | malformed _ wrong => exact absurd sized wrong
        | plain _ harmless => exact harmless
        | hidden empty _ => exact absurd empty sealed
    · simp only [dispatchDm, sealed, if_false, sized, ne_eq, not_false_eq_true, if_true]
      exact ⟨fun _ => .malformed sealed sized, fun _ _ _ => rfl⟩

end

/-! ### A packet from a stranger -/

private noncomputable def newcomer : DmClient Nat := ⟨natPoint 1, ⟨natPoint 1, 1⟩, [], ∅⟩

/-- No ciphertext, under any key that converts to a point. -/
private def emptyPacket : Envelope :=
  ⟨[], 0, [], .userPubkey (natPoint 1), natPoint 2, [], []⟩

/-- A client without sessions drops an empty packet and has a ratchet for its
sender afterwards, with a root key that the sender has not agreed to. -/
theorem dispatchDm_not_atomic :
    ¬(¬(dispatchDm DmCrypto.nat newcomer emptyPacket fun _ => ⟨natPoint 3, 3⟩).2.Surfaces →
      SameRatchets newcomer.sessions
        (dispatchDm DmCrypto.nat newcomer emptyPacket fun _ => ⟨natPoint 3, 3⟩).1) := by
  have unparsed : Ratchet.parseMessage DmCrypto.nat.toRatchetCrypto [] = none := by
    simp [Ratchet.parseMessage, DmCrypto.nat, Codec.ofCountable_decode_nil]
  have curve : DmCrypto.nat.edToCurve (natPoint 2) = some (natPoint 2) := by
    simp [DmCrypto.nat, natPoint]
  have dh : DmCrypto.nat.x25519Dh 1 (natPoint 2) = some 15 := by
    simp [DmCrypto.nat, natPoint]
  have sender : natPoint 2 ≠ [] ∧ (natPoint 2).length = 32 := by simp [natPoint]
  -- the first packet of an unknown key creates a session before anything is decrypted
  have dispatched : dispatchDm DmCrypto.nat newcomer emptyPacket (fun _ => ⟨natPoint 3, 3⟩) =
      (newcomer.sessions.insert (sessionName newcomer.sessions (natPoint 2))
        { peerPub := natPoint 2
          peerX := natPoint 2
          rat := some (.initBob DmCrypto.nat.toRatchetCrypto (DmCrypto.nat.x3dh 15)
            ⟨natPoint 1, 1⟩)
          pqCt := []
          pqAcked := false
          sealOutbound := false }, .dropped) := by
    simp [dispatchDm, emptyPacket, sender, deliver, respond, newcomer, Session.blank, curve,
      deriveHybridRecv, deriveSharedSecret, dh, bind, Except.bind, Envelope.aadConsistent,
      receive, Ratchet.decrypt, unparsed]
  rw [dispatched]
  intro atomic
  exact not_sameRatchets_insert (by simp [newcomer, Sessions.ratchetAt]) (atomic id)

/-- The same client and packet, once more as an instance of the general result. -/
theorem dispatchDm_atomic_iff_newcomer :
    emptyPacket.recipient = .userPubkey (natPoint 1) ∧
    ((¬(dispatchDm DmCrypto.nat newcomer emptyPacket fun _ => ⟨natPoint 3, 3⟩).2.Surfaces →
      SameRatchets newcomer.sessions
        (dispatchDm DmCrypto.nat newcomer emptyPacket fun _ => ⟨natPoint 3, 3⟩).1) ↔
    Harmless DmCrypto.nat newcomer emptyPacket fun _ => ⟨natPoint 3, 3⟩) :=
  ⟨rfl, dispatchDm_atomic_iff _ _ _ _ rfl⟩

end FinBit.Desktop
