import Mathlib.Data.List.Pairwise
import FinBit.Lib.SignedColumns
import FinBit.Lib.Sorting
import FinBit.Identity.UsernameGossip

/-! # Convergence of username logs

`resolve` gives a name to the oldest of its claims in the log. The log keeps one claim
for each name and key, the first that it was offered, so that what it keeps of a key
with several claims for a name depends on the order in which they arrive. The owner does
not depend on it exactly if all claims of the owner for the name are older than those
of any other key.
-/

namespace FinBit.Identity

open FinBit.Lib

/-! ### The order of claims -/

/-- The order in which `resolve` sorts. -/
def claimLe (a b : UserClaim) : Bool :=
  a.timestampMs.toInt64 < b.timestampMs.toInt64 ||
    (a.timestampMs = b.timestampMs && a.signature ≤ b.signature)

theorem claimLe_iff {a b : UserClaim} : claimLe a b = true ↔
    a.timestampMs.toInt64 < b.timestampMs.toInt64 ∨
      a.timestampMs = b.timestampMs ∧ a.signature ≤ b.signature := by
  simp [claimLe]

theorem claimLe_trans (a b c : UserClaim) (first : claimLe a b) (second : claimLe b c) :
    claimLe a c := by
  rw [claimLe_iff] at first second ⊢
  -- by which column each of the two comparisons is decided
  rcases first with less | ⟨same, le⟩ <;> rcases second with less' | ⟨same', le'⟩
  · exact .inl (Int64.lt_trans less less')
  · exact .inl (same' ▸ less)
  · exact .inl (same ▸ less')
  · exact .inr ⟨same.trans same', List.le_trans le le'⟩

theorem claimLe_total (a b : UserClaim) : claimLe a b || claimLe b a := by
  rw [Bool.or_eq_true, claimLe_iff, claimLe_iff]
  by_cases same : a.timestampMs.toInt64 = b.timestampMs.toInt64
  · -- the signature breaks the tie
    have equal : a.timestampMs = b.timestampMs := congrArg Int64.toUInt64 same
    rcases List.le_total a.signature b.signature with le | le
    · exact .inl (.inr ⟨equal, le⟩)
    · exact .inr (.inr ⟨equal.symm, le⟩)
  · rcases Int64.lt_or_lt_of_ne same with less | less
    · exact .inl (.inl less)
    · exact .inr (.inl less)

/-- Time stamps are compared as signed numbers, which those of this age do not show. -/
theorem toInt64_lt_iff {a b : UInt64} (left : a.toNat < 2 ^ 63) (right : b.toNat < 2 ^ 63) :
    a.toInt64 < b.toInt64 ↔ a < b := by
  have positive : ¬Negative a := Nat.not_le.mpr left
  have positive' : ¬Negative b := Nat.not_le.mpr right
  rw [toInt64_lt_iff_negative, if_pos (iff_of_false positive positive')]

/-- `a` comes before `b` by time stamp and signature. -/
def Older (a b : UserClaim) : Prop :=
  a.timestampMs < b.timestampMs ∨ a.timestampMs = b.timestampMs ∧ a.signature < b.signature

theorem not_older_iff {a b : UserClaim} (left : a.timestampMs.toNat < 2 ^ 63)
    (right : b.timestampMs.toNat < 2 ^ 63) : ¬Older a b ↔ claimLe b a = true := by
  rw [claimLe_iff, toInt64_lt_iff right left, Older, not_or, not_and]
  constructor
  · rintro ⟨notLess, signature⟩
    by_cases same : a.timestampMs = b.timestampMs
    · exact .inr ⟨same.symm, List.not_lt.mp (signature same)⟩
    · exact .inl (UInt64.lt_of_le_of_ne (UInt64.not_lt.mp notLess) (Ne.symm same))
  · rintro (less | ⟨same, signature⟩)
    · refine ⟨UInt64.lt_asymm less, ?_⟩
      rintro same
      rw [same] at less
      exact absurd less (UInt64.lt_irrefl _)
    · rw [same]
      exact ⟨UInt64.lt_irrefl _, fun _ => List.not_lt.mpr signature⟩

/-! ### Offering claims -/

/-- A claim that passes every check of `append_claim` at time `now`. -/
structure Acceptable (verify : SignVerify) (c : UserClaim) (now : UInt64) : Prop where
  username : isValidUsername c.username = true
  pubkey : c.pubkey.length = 32
  nonce : c.nonce.length = 16
  signature : c.signature.length = 64
  clock : c.timestampMs ≤ now + kAcceptedClockSkewMs
  signed : ∃ m, verifyClaimMessage c = some m ∧ verify c.pubkey m c.signature = true

/-- The log after an offer, whatever the result. -/
def UsernameLog.offer (verify : SignVerify) (log : UsernameLog) (o : UserClaim × UInt64) :
    Except String UsernameLog :=
  (log.appendClaim verify o.1 o.2).map Prod.fst

/-- A new log that is offered claims one after the other, each at some time. -/
def offerAll (verify : SignVerify) (offers : List (UserClaim × UInt64)) :
    Except String UsernameLog :=
  offers.foldlM (UsernameLog.offer verify) []

/-- Of the claims for a name by a key, the first one. -/
def UsernameLog.keep (log : UsernameLog) (c : UserClaim) : UsernameLog :=
  if log.hasRow c.username c.pubkey then log else log ++ [c]

def UsernameLog.keepAll (log : UsernameLog) (claims : List UserClaim) : UsernameLog :=
  claims.foldl UsernameLog.keep log

section Offers

variable {verify : SignVerify} {c : UserClaim} {now : UInt64} {log : UsernameLog}

theorem Acceptable.appendClaim (acceptable : Acceptable verify c now) (log : UsernameLog) :
    log.appendClaim verify c now =
      if log.hasRow c.username c.pubkey then .ok (log, .alreadyKnown)
      else .ok (log ++ [c], .accepted) := by
  obtain ⟨username, pubkey, nonce, signature, clock, m, message, signed⟩ := acceptable
  have timely : ¬c.timestampMs > now + kAcceptedClockSkewMs := UInt64.not_lt.mpr clock
  have verified : UsernameLog.verifyClaimSignature verify c = .ok true := by
    rw [UsernameLog.verifyClaimSignature_eq, message]
    simpa using signed
  -- past its checks `append_claim` only asks for the name and the key, not for the time stamp
  simp only [UsernameLog.appendClaim, username, pubkey, nonce, signature, timely, verified,
    UsernameLog.insertClaim, isValidUsername_cstr username]
  cases log.hasRow c.username c.pubkey <;> rfl

theorem Acceptable.offer (acceptable : Acceptable verify c now) (log : UsernameLog) :
    log.offer verify (c, now) = .ok (log.keep c) := by
  simp only [UsernameLog.offer, acceptable.appendClaim, UsernameLog.keep]
  cases log.hasRow c.username c.pubkey <;> rfl

/-- The log keeps the first claim of each kind. -/
theorem offerAll_from {offers : List (UserClaim × UInt64)}
    (acceptable : ∀ o ∈ offers, Acceptable verify o.1 o.2) (log : UsernameLog) :
    offers.foldlM (UsernameLog.offer verify) log = .ok (log.keepAll (offers.map Prod.fst)) := by
  induction offers generalizing log with
  | nil => rfl
  | cons o rest ih =>
    have first := (acceptable o List.mem_cons_self).offer log
    rw [List.foldlM_cons, first]
    exact ih (fun o' later => acceptable o' (List.mem_cons_of_mem o later)) (log.keep o.1)

end Offers

/-! ### What a log keeps -/

namespace UsernameLog

variable {log : UsernameLog} {claims : List UserClaim} {c : UserClaim}

/-- Names are C strings, and no two rows have the same name and key. -/
structure Keyed (log : UsernameLog) : Prop where
  names : ∀ r ∈ log, (cstr r.username).val = r.username
  distinct : log.Pairwise fun a b => ¬(a.username = b.username ∧ a.pubkey = b.pubkey)

theorem hasRow_iff (clean : (cstr c.username).val = c.username) :
    log.hasRow c.username c.pubkey = true ↔
      ∃ r ∈ log, r.username = c.username ∧ r.pubkey = c.pubkey := by
  simp [hasRow, clean]

theorem Keyed.keep (keyed : Keyed log) (clean : (cstr c.username).val = c.username) :
    Keyed (log.keep c) := by
  unfold UsernameLog.keep
  split
  · exact keyed
  next free =>
    rw [hasRow_iff clean] at free
    -- the new row clashes with no other, or it would not have been added
    refine ⟨?_, List.pairwise_append.mpr ⟨keyed.distinct, List.pairwise_singleton _ _, ?_⟩⟩
    · intro r member
      rcases List.mem_append.mp member with earlier | last
      · exact keyed.names r earlier
      · rw [List.mem_singleton.mp last]
        exact clean
    · intro r member c' last same
      rw [List.mem_singleton.mp last] at same
      exact free ⟨r, member, same⟩

theorem Keyed.keepAll (keyed : Keyed log)
    (clean : ∀ c ∈ claims, (cstr c.username).val = c.username) : Keyed (log.keepAll claims) := by
  induction claims generalizing log with
  | nil => exact keyed
  | cons c rest ih =>
    exact ih (keyed.keep (clean c List.mem_cons_self)) fun c' later =>
      clean c' (List.mem_cons_of_mem c later)

/-- A row is the only one of its kind. -/
theorem Keyed.unique (keyed : Keyed log) {a b : UserClaim} (left : a ∈ log) (right : b ∈ log)
    (name : a.username = b.username) (key : a.pubkey = b.pubkey) : a = b := by
  by_contra different
  have symm : Std.Symm fun a b : UserClaim => ¬(a.username = b.username ∧ a.pubkey = b.pubkey) := by
    constructor
    intro x y apart same
    exact apart ⟨same.1.symm, same.2.symm⟩
  exact keyed.distinct.forall left right different ⟨name, key⟩

/-- A row is there, or one of its kind. -/
theorem mem_keepAll {r : UserClaim} (kept : r ∈ log.keepAll claims) : r ∈ log ∨ r ∈ claims := by
  induction claims generalizing log with
  | nil => exact .inl kept
  | cons c rest ih =>
    rcases ih kept with before | later
    · unfold UsernameLog.keep at before
      split at before
      · exact .inl before
      · rcases List.mem_append.mp before with earlier | last
        · exact .inl earlier
        · exact .inr (List.mem_cons.mpr (.inl (List.mem_singleton.mp last)))
    · exact .inr (List.mem_cons_of_mem c later)

theorem prefix_keep (log : UsernameLog) (c : UserClaim) : log <+: log.keep c := by
  unfold UsernameLog.keep
  split
  · exact List.prefix_rfl
  · exact List.prefix_append _ _

theorem prefix_keepAll (log : UsernameLog) (claims : List UserClaim) :
    log <+: log.keepAll claims := by
  induction claims generalizing log with
  | nil => exact List.prefix_rfl
  | cons c rest ih => exact (prefix_keep log c).trans (ih (log.keep c))

/-- Every claim that was offered has a row of its kind. -/
theorem exists_kept (log : UsernameLog) (clean : ∀ c ∈ claims, (cstr c.username).val = c.username)
    (member : c ∈ claims) :
    ∃ r ∈ log.keepAll claims, r.username = c.username ∧ r.pubkey = c.pubkey := by
  induction claims generalizing log with
  | nil => cases member
  | cons first rest ih =>
    have others : ∀ c ∈ rest, (cstr c.username).val = c.username := fun c' later =>
      clean c' (List.mem_cons_of_mem first later)
    rcases List.mem_cons.mp member with rfl | later
    · have row : ∃ r ∈ log.keep c, r.username = c.username ∧ r.pubkey = c.pubkey := by
        unfold UsernameLog.keep
        split
        next taken => exact (hasRow_iff (clean c List.mem_cons_self)).mp taken
        · exact ⟨c, by simp, rfl, rfl⟩
      obtain ⟨r, there, same⟩ := row
      exact ⟨r, (prefix_keepAll _ rest).subset there, same⟩
    · exact ih _ others later

end UsernameLog

/-! ### Owners -/

/-- A claim for the name that no other one precedes. -/
structure Smallest (claims : List UserClaim) (username : Bytes) (m : UserClaim) : Prop where
  member : m ∈ claims
  name : m.username = username
  least : ∀ c ∈ claims, c.username = username → ¬Older c m

/-- The claims are offered, each at least once and at a time at which it passes. -/
structure Offered (verify : SignVerify) (claims : List UserClaim)
    (offers : List (UserClaim × UInt64)) : Prop where
  acceptable : ∀ o ∈ offers, Acceptable verify o.1 o.2
  all : ∀ c, c ∈ claims ↔ c ∈ offers.map Prod.fst

/-- Any two logs that were offered the claims agree on every name, and give it to its
smallest claim. -/
def Converge (verify : SignVerify) (claims : List UserClaim) : Prop :=
  ∀ offers offers', Offered verify claims offers → Offered verify claims offers' →
    ∃ log log', offerAll verify offers = .ok log ∧ offerAll verify offers' = .ok log' ∧
      ∀ username, log.resolve username = log'.resolve username ∧
        ∀ m, Smallest claims username m → log.resolve username = some m.pubkey

/-- All claims of the owner of a name are older than those of any other key. -/
def OwnersFirst (claims : List UserClaim) : Prop :=
  ∀ username m, Smallest claims username m → ∀ a ∈ claims, ∀ b ∈ claims, a.username = username →
    b.username = username → a.pubkey = m.pubkey → b.pubkey ≠ m.pubkey → Older a b

section Owners

variable {verify : SignVerify} {claims : List UserClaim} {log : UsernameLog} {username : Bytes}

/-- The rows for a name. -/
def UsernameLog.rowsFor (log : UsernameLog) (username : Bytes) : List UserClaim :=
  log.filter fun row => row.username = (cstr username).val

theorem mem_rowsFor {r : UserClaim} :
    r ∈ log.rowsFor username ↔ r ∈ log ∧ r.username = (cstr username).val := by
  simp [UsernameLog.rowsFor]

theorem resolve_eq (sized : ∀ r ∈ log, r.pubkey.length = 32) (username : Bytes) :
    log.resolve username = ((log.rowsFor username).mergeSort claimLe).head?.map UserClaim.pubkey := by
  change (((log.rowsFor username).mergeSort claimLe).head?.map UserClaim.pubkey).filter _ = _
  cases first : ((log.rowsFor username).mergeSort claimLe).head? with
  | none => rfl
  | some h =>
    have member := (head_mergeSort_le claimLe_trans claimLe_total first).1
    simp [sized h (mem_rowsFor.mp member).1]

/-- What is known of claims that were all acceptable at one time of this age. -/
structure Sound (claims : List UserClaim) : Prop where
  names : ∀ c ∈ claims, (cstr c.username).val = c.username
  keys : ∀ c ∈ claims, c.pubkey.length = 32
  stamps : ∀ c ∈ claims, c.timestampMs.toNat < 2 ^ 63

theorem Sound.resolve (sound : Sound claims) {offered : List UserClaim}
    (all : ∀ c, c ∈ claims ↔ c ∈ offered) :
    ∀ username, UsernameLog.resolve (UsernameLog.keepAll [] offered) username =
      (((UsernameLog.keepAll [] offered).rowsFor username).mergeSort claimLe).head?.map
        UserClaim.pubkey := by
  apply resolve_eq
  intro r kept
  rcases UsernameLog.mem_keepAll kept with nothing | member
  · cases nothing
  · exact sound.keys r ((all r).mpr member)

/-- The rows for a name are claims for it. -/
theorem claim_of_row {offered : List UserClaim} (all : ∀ c, c ∈ claims ↔ c ∈ offered)
    {r : UserClaim} (row : r ∈ (UsernameLog.keepAll [] offered).rowsFor username) :
    r ∈ claims ∧ r.username = (cstr username).val := by
  obtain ⟨kept, name⟩ := mem_rowsFor.mp row
  rcases UsernameLog.mem_keepAll kept with nothing | member
  · cases nothing
  · exact ⟨(all r).mpr member, name⟩

theorem Sound.exists_row (sound : Sound claims) {offered : List UserClaim}
    (all : ∀ c, c ∈ claims ↔ c ∈ offered) {c : UserClaim} (member : c ∈ claims)
    (name : c.username = (cstr username).val) :
    ∃ r ∈ (UsernameLog.keepAll [] offered).rowsFor username, r.pubkey = c.pubkey := by
  have clean : ∀ c ∈ offered, (cstr c.username).val = c.username := fun c there =>
    sound.names c ((all c).mpr there)
  obtain ⟨r, kept, same, key⟩ := UsernameLog.exists_kept [] clean ((all c).mp member)
  exact ⟨r, mem_rowsFor.mpr ⟨kept, same.trans name⟩, key⟩

/-- Of finitely many claims for a name one is smallest. -/
theorem Sound.exists_smallest (sound : Sound claims) {c : UserClaim} (member : c ∈ claims) :
    ∃ m, Smallest claims c.username m := by
  have listed : c ∈ claims.filter fun d => d.username = c.username := by simp [member]
  obtain ⟨m, first⟩ := exists_head_mergeSort claimLe listed
  obtain ⟨inside, least⟩ := head_mergeSort_le claimLe_trans claimLe_total first
  rw [List.mem_filter, decide_eq_true_eq] at inside
  refine ⟨m, inside.1, inside.2, ?_⟩
  intro d there name
  rw [not_older_iff (sound.stamps d there) (sound.stamps m inside.1)]
  exact least d (by simp [there, name])

/-- If owners come first, the owner is the one of the smallest claim. -/
theorem OwnersFirst.resolve (first : OwnersFirst claims) (sound : Sound claims)
    {offered : List UserClaim} (all : ∀ c, c ∈ claims ↔ c ∈ offered) {m : UserClaim}
    (smallest : Smallest claims (cstr username).val m) :
    UsernameLog.resolve (UsernameLog.keepAll [] offered) username = some m.pubkey := by
  rw [sound.resolve all]
  obtain ⟨r, row, key⟩ := sound.exists_row all smallest.member smallest.name
  obtain ⟨h, head⟩ := exists_head_mergeSort claimLe row
  obtain ⟨inside, least⟩ := head_mergeSort_le claimLe_trans claimLe_total head
  obtain ⟨claim, name⟩ := claim_of_row all inside
  obtain ⟨claim', name'⟩ := claim_of_row all row
  rw [head, Option.map_some, Option.some.injEq]
  -- otherwise the kept claim `r` of the owner is older than the head `h` of another key
  by_contra other
  have older := first _ m smallest r claim' h claim name' name key other
  exact (not_older_iff (sound.stamps r claim') (sound.stamps h claim)).mpr (least r row) older

/-- Claims that are offered once more. -/
theorem mem_iff_mem_offered {a b : UserClaim} (left : a ∈ claims) (right : b ∈ claims)
    (c : UserClaim) : c ∈ claims ↔ c ∈ b :: a :: claims := by
  simp only [List.mem_cons]
  constructor
  · exact fun member => .inr (.inr member)
  · rintro (rfl | rfl | member) <;> assumption

/-- Two claims of different keys, of which the one that is not younger is offered first. -/
theorem resolve_ne_of_offered_first (sound : Sound claims) {a b : UserClaim} (left : a ∈ claims)
    (right : b ∈ claims) (name : b.username = a.username) (apart : b.pubkey ≠ a.pubkey)
    (young : ¬Older a b) :
    UsernameLog.resolve (UsernameLog.keepAll [] (b :: a :: claims)) a.username ≠ some a.pubkey := by
  have all := mem_iff_mem_offered left right
  have clean : ∀ c ∈ b :: a :: claims, (cstr c.username).val = c.username := fun c there =>
    sound.names c ((all c).mpr there)
  have keyed : UsernameLog.Keyed (UsernameLog.keepAll [] (b :: a :: claims)) :=
    UsernameLog.Keyed.keepAll ⟨by simp, List.Pairwise.nil⟩ clean
  -- both are kept, in this order
  have two : UsernameLog.keep (UsernameLog.keep [] b) a = [b, a] := by
    simp [UsernameLog.keep, UsernameLog.hasRow, apart]
  have kept : [b, a] <+: UsernameLog.keepAll [] (b :: a :: claims) := by
    rw [← two]
    exact UsernameLog.prefix_keepAll _ claims
  have rows : [b, a].Sublist ((UsernameLog.keepAll [] (b :: a :: claims)).rowsFor a.username) := by
    have both := kept.sublist.filter fun row => row.username = (cstr a.username).val
    have nameA := sound.names a left
    rw [List.filter_cons_of_pos (by simp [name, nameA]),
      List.filter_cons_of_pos (by simp [nameA])] at both
    exact both
  have distinct : ((UsernameLog.keepAll [] (b :: a :: claims)).rowsFor a.username).Nodup := by
    apply List.Pairwise.filter
    apply keyed.distinct.imp
    rintro x y different rfl
    exact different ⟨rfl, rfl⟩
  rw [sound.resolve all]
  intro owned
  obtain ⟨h, head, key⟩ := Option.map_eq_some_iff.mp owned
  have inside := (head_mergeSort_le claimLe_trans claimLe_total head).1
  -- the only row of this key is `a`, which does not come first
  have same : h = a := by
    by_contra ne
    obtain ⟨inLog, nameH⟩ := mem_rowsFor.mp inside
    obtain ⟨inLog', nameA⟩ := mem_rowsFor.mp (rows.subset (by simp : a ∈ [b, a]))
    exact ne (keyed.unique inLog inLog' (nameH.trans nameA.symm) key)
  rw [same] at head
  -- where the two are tied the stable sort keeps the order of the offers
  have tied := (not_older_iff (sound.stamps a left) (sound.stamps b right)).mp young
  exact head_mergeSort_ne claimLe_trans claimLe_total distinct rows tied head

end Owners

/-- Claims that pass at a time of this age. -/
theorem sound_of_acceptable {verify : SignVerify} {claims : List UserClaim} {now : UInt64}
    (age : now.toNat + kAcceptedClockSkewMs.toNat < 2 ^ 63)
    (acceptable : ∀ c ∈ claims, Acceptable verify c now) : Sound claims := by
  refine ⟨?_, ?_, ?_⟩
  · exact fun c member => isValidUsername_cstr (acceptable c member).username
  · exact fun c member => (acceptable c member).pubkey
  · intro c member
    have early := UInt64.le_iff_toNat_le.mp (acceptable c member).clock
    rw [UInt64.toNat_add, Nat.mod_eq_of_lt (by omega)] at early
    omega

/-- Claims converge exactly if for every name all claims of the owner are older than
those of the other keys. -/
theorem converge_iff (verify : SignVerify) (claims : List UserClaim) (now : UInt64)
    (age : now.toNat + kAcceptedClockSkewMs.toNat < 2 ^ 63)
    (acceptable : ∀ c ∈ claims, Acceptable verify c now) :
    Converge verify claims ↔ OwnersFirst claims := by
  have sound := sound_of_acceptable age acceptable
  constructor
  · intro converge username m smallest a left b right nameA nameB owner other
    by_contra young
    subst nameA
    -- the claims in this order, at the time at which all of them pass
    let offers := (b :: a :: claims).map fun c => (c, now)
    have listed : offers.map Prod.fst = b :: a :: claims := by simp [offers, Function.comp_def]
    have offered : Offered verify claims offers := by
      refine ⟨?_, ?_⟩
      · intro o member
        obtain ⟨c, inside, rfl⟩ := List.mem_map.mp member
        exact acceptable c ((mem_iff_mem_offered left right c).mpr inside)
      · rw [listed]
        exact mem_iff_mem_offered left right
    obtain ⟨log, log', ran, -, resolves⟩ := converge offers offers offered offered
    have kept := offerAll_from offered.acceptable []
    rw [listed] at kept
    obtain rfl := Except.ok.inj (ran.symm.trans kept)
    have owned := (resolves a.username).2 m smallest
    rw [← owner] at owned other
    exact resolve_ne_of_offered_first sound left right nameB other young owned
  · intro first offers offers' offered offered'
    refine ⟨_, _, offerAll_from offered.acceptable [], offerAll_from offered'.acceptable [], ?_⟩
    intro username
    constructor
    · -- the two logs agree: on the owner of a claimed name, and on nobody otherwise
      by_cases claimed : ∃ c ∈ claims, c.username = (cstr username).val
      · obtain ⟨c, member, name⟩ := claimed
        obtain ⟨m, smallest⟩ := sound.exists_smallest member
        rw [name] at smallest
        rw [first.resolve sound offered.all smallest, first.resolve sound offered'.all smallest]
      · have unclaimed {offered : List UserClaim} (all : ∀ c, c ∈ claims ↔ c ∈ offered) :
            (UsernameLog.keepAll [] offered).rowsFor username = [] := by
          apply List.eq_nil_iff_forall_not_mem.mpr
          intro r row
          obtain ⟨claim, name⟩ := claim_of_row all row
          exact claimed ⟨r, claim, name⟩
        rw [sound.resolve offered.all, sound.resolve offered'.all, unclaimed offered.all,
          unclaimed offered'.all]
    · intro m smallest
      have name : (cstr username).val = username := by
        rw [← smallest.name]
        exact sound.names m smallest.member
      exact first.resolve sound offered.all (name.symm ▸ smallest)

/-- A row that no row of another key precedes. -/
theorem resolve_of_least {log : UsernameLog} (sized : ∀ r ∈ log, r.pubkey.length = 32)
    {username : Bytes} {r : UserClaim} (row : r ∈ log.rowsFor username)
    (least : ∀ h ∈ log.rowsFor username, claimLe h r = true → h.pubkey = r.pubkey) :
    log.resolve username = some r.pubkey := by
  rw [resolve_eq sized]
  obtain ⟨h, head⟩ := exists_head_mergeSort claimLe row
  obtain ⟨inside, le⟩ := head_mergeSort_le claimLe_trans claimLe_total head
  rw [head, Option.map_some, least h inside (le r row)]

/-! ### Claims of two keys -/

/-- A claim for "bob" by a key of this octet. -/
private def bob (key stamp : UInt8) : UserClaim :=
  ⟨ascii "bob", List.replicate 32 key, stamp.toUInt64, List.replicate 16 0, List.replicate 64 0⟩

private theorem bob_acceptable (key stamp : UInt8) :
    Acceptable (fun _ _ _ => true) (bob key stamp) 300 := by
  have name : isValidUsername (ascii "bob") = true := by decide
  refine ⟨name, by simp [bob], by simp [bob], by simp [bob], ?_, ?_⟩
  · have small := stamp.toNat_lt
    rw [UInt64.le_iff_toNat_le]
    simp only [bob, UInt8.toNat_toUInt64]
    have limit : (300 + kAcceptedClockSkewMs : UInt64).toNat = 300300 := by decide
    omega
  · refine ⟨_, rfl, rfl⟩

private theorem bob_offered {claims offers : List UserClaim} (all : ∀ c, c ∈ claims ↔ c ∈ offers)
    (bobs : ∀ c ∈ offers, ∃ key stamp, c = bob key stamp) :
    Offered (fun _ _ _ => true) claims (offers.map fun c => (c, 300)) := by
  refine ⟨?_, ?_⟩
  · intro o member
    obtain ⟨c, inside, rfl⟩ := List.mem_map.mp member
    obtain ⟨key, stamp, rfl⟩ := bobs c inside
    exact bob_acceptable key stamp
  · simpa [Function.comp_def] using all

private theorem resolve_bobs {key stamp key' stamp' : UInt8} {r : UserClaim}
    (row : r ∈ [bob key stamp, bob key' stamp'])
    (least : ∀ h ∈ [bob key stamp, bob key' stamp'], claimLe h r = true → h.pubkey = r.pubkey) :
    UsernameLog.resolve [bob key stamp, bob key' stamp'] (ascii "bob") = some r.pubkey := by
  have rows : UsernameLog.rowsFor [bob key stamp, bob key' stamp'] (ascii "bob") =
      [bob key stamp, bob key' stamp'] := rfl
  apply resolve_of_least
  · simp [bob]
  · rwa [rows]
  · rwa [rows]

/-- A key claims a name at 10 and at 5, another key claims it at 7. The first key owns
the name in the log that has got the older claim first, and not in the other one. -/
theorem older_claim_ignored :
    ∃ offers offers' : List (UserClaim × UInt64), ∃ log log' : UsernameLog,
      Offered (fun _ _ _ => true) [bob 1 10, bob 2 7, bob 1 5] offers ∧
      Offered (fun _ _ _ => true) [bob 1 10, bob 2 7, bob 1 5] offers' ∧
      offerAll (fun _ _ _ => true) offers = .ok log ∧
      offerAll (fun _ _ _ => true) offers' = .ok log' ∧
      Smallest [bob 1 10, bob 2 7, bob 1 5] (ascii "bob") (bob 1 5) ∧
      log.resolve (ascii "bob") = some (List.replicate 32 2) ∧
      log'.resolve (ascii "bob") = some (List.replicate 32 1) := by
  have bobs : ∀ c ∈ [bob 1 10, bob 2 7, bob 1 5], ∃ key stamp, c = bob key stamp := by
    simp only [List.forall_mem_cons]
    exact ⟨⟨1, 10, rfl⟩, ⟨2, 7, rfl⟩, ⟨1, 5, rfl⟩, by simp⟩
  have bobs' : ∀ c ∈ [bob 1 5, bob 2 7, bob 1 10], ∃ key stamp, c = bob key stamp := by
    simp only [List.forall_mem_cons]
    exact ⟨⟨1, 5, rfl⟩, ⟨2, 7, rfl⟩, ⟨1, 10, rfl⟩, by simp⟩
  have same : ∀ c, c ∈ [bob 1 10, bob 2 7, bob 1 5] ↔ c ∈ [bob 1 5, bob 2 7, bob 1 10] := by
    intro c
    simp only [List.mem_cons, List.not_mem_nil, or_false]
    tauto
  have offered := bob_offered (fun _ => Iff.rfl) bobs
  have offered' := bob_offered same bobs'
  refine ⟨_, _, [bob 1 10, bob 2 7], [bob 1 5, bob 2 7], offered, offered',
    offerAll_from offered.acceptable [], offerAll_from offered'.acceptable [], ⟨by simp, rfl, ?_⟩,
    ?_, ?_⟩
  · simp only [List.forall_mem_cons, Older, bob]
    decide
  · exact resolve_bobs (r := bob 2 7) (by simp) (by decide)
  · exact resolve_bobs (r := bob 1 5) (by simp) (by decide)

/-- Each key claims the name once. -/
theorem converge_once : Converge (fun _ _ _ => true) [bob 1 5, bob 2 7] := by
  have acceptable : ∀ c ∈ [bob 1 5, bob 2 7], Acceptable (fun _ _ _ => true) c 300 := by
    simp only [List.forall_mem_cons]
    exact ⟨bob_acceptable 1 5, bob_acceptable 2 7, by simp⟩
  have order : Older (bob 1 5) (bob 2 7) := .inl (by decide)
  refine (converge_iff _ _ 300 (by decide) acceptable).mpr ?_
  intro username m smallest a left b right nameA nameB owner other
  simp only [List.mem_cons, List.not_mem_nil, or_false] at left right
  rcases left with rfl | rfl <;> rcases right with rfl | rfl
  · exact absurd owner other
  · exact order
  · -- the later claim is not the smallest one
    have member := smallest.member
    simp only [List.mem_cons, List.not_mem_nil, or_false] at member
    rcases member with rfl | rfl
    · exact absurd rfl other
    · exact absurd order (smallest.least (bob 1 5) (by simp) nameB)
  · exact absurd owner other

end FinBit.Identity
