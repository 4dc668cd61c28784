import FinBit.P2P.RecordRuns

/-! # The clock of a record store

The end of a record's life is the sum of two numbers that come with it, and the latest date that a
store accepts is the sum of its clock and a constant. Both are taken modulo 2^64.
-/

namespace FinBit.P2P

open FinBit.Lib Std

/-! ### Sums modulo 2^64 -/

/-- The end of a life that is past, over the natural numbers. -/
def Lapsed (publishedAtMs ttlMs now : UInt64) : Prop :=
  publishedAtMs.toNat + ttlMs.toNat ≤ now.toNat

/-- A date beyond the clock and the permitted skew, over the natural numbers. -/
def FutureDated (publishedAtMs now : UInt64) : Prop :=
  now.toNat + kRecordClockSkewMs.toNat < publishedAtMs.toNat

theorem add_le_iff_lapsed (publishedAtMs ttlMs now : UInt64) :
    (publishedAtMs + ttlMs ≤ now ↔ Lapsed publishedAtMs ttlMs now) ↔
      ¬(2 ^ 64 ≤ publishedAtMs.toNat + ttlMs.toNat ∧
        publishedAtMs.toNat + ttlMs.toNat ≤ 2 ^ 64 + now.toNat) := by
  have small := publishedAtMs.toNat_lt
  have small' := ttlMs.toNat_lt
  have bound := now.toNat_lt
  rw [UInt64.le_iff_toNat_le, UInt64.toNat_add, Lapsed]
  omega

theorem add_lt_iff_futureDated (publishedAtMs now : UInt64) :
    (publishedAtMs > now + kRecordClockSkewMs ↔ FutureDated publishedAtMs now) ↔
      (now.toNat + kRecordClockSkewMs.toNat < 2 ^ 64 ∨
        publishedAtMs.toNat + 2 ^ 64 ≤ now.toNat + kRecordClockSkewMs.toNat) := by
  have small := publishedAtMs.toNat_lt
  have bound := now.toNat_lt
  have skew := kRecordClockSkewMs.toNat_lt
  rw [gt_iff_lt, UInt64.lt_iff_toNat_lt, UInt64.toNat_add, FutureDated]
  omega

section

variable {R : Type} (kind : RecordKind R) (ttlMs : UInt64) (record : R) (now : UInt64)

/-- Each call treats a record as expired when its life is over, and as dated in the future when it
is, over the natural numbers. -/
structure KeepsTime : Prop where
  future : kind.wellFormed record = true → ∀ store : RecordStore R,
    store.put kind record now = .ok (store, .rejectedClock) ↔
      FutureDated (kind.publishedAtMs record) now
  put : kind.wellFormed record = true → ∀ store : RecordStore R,
    store.put kind record now ≠ .ok (store, .rejectedClock) →
      (store.put kind record now = .ok (store, .rejectedExpired) ↔
        Lapsed (kind.publishedAtMs record) ttlMs now)
  get : ∀ (store : RecordStore R) p key, store.lookup p key = some record →
    (record ∉ store.get kind p now ↔ Lapsed (kind.publishedAtMs record) ttlMs now)
  /-- The record that is later than the others of its publisher. -/
  getLatest : ∀ (store : RecordStore R) p key, store.lookup p key = some record →
    (∀ key' other, store.lookup p key' = some other → other ≠ record →
      kind.publishedAtMs other < kind.publishedAtMs record) →
    (store.getLatest kind p now ≠ some record ↔ Lapsed (kind.publishedAtMs record) ttlMs now)
  pruneExpired : ∀ (store : RecordStore R) p key, store.lookup p key = some record →
    ((store.pruneExpired kind now).1.lookup p key = none ↔
      Lapsed (kind.publishedAtMs record) ttlMs now)

variable {kind record now}

namespace RecordStore

variable {store : RecordStore R}

theorem put_eq_rejectedClock_iff (formed : kind.wellFormed record = true) :
    store.put kind record now = .ok (store, .rejectedClock) ↔
      kind.publishedAtMs record > now + kRecordClockSkewMs := by
  rw [put, if_neg (by simp [formed])]
  by_cases future : kind.publishedAtMs record > now + kRecordClockSkewMs
  · rw [if_pos future]
    exact iff_of_true rfl future
  · rw [if_neg future]
    refine iff_of_false (fun answer => ?_) future
    split at answer
    · cases answer
    split at answer
    · cases answer
    · cases answer
    · dsimp only at answer
      split at answer <;> cases congrArg Prod.snd (Except.ok.inj answer)

theorem put_eq_rejectedExpired_iff (formed : kind.wellFormed record = true)
    (clock : ¬kind.publishedAtMs record > now + kRecordClockSkewMs) :
    store.put kind record now = .ok (store, .rejectedExpired) ↔ kind.expired record now = true := by
  rw [put, if_neg (by simp [formed]), if_neg clock]
  by_cases gone : kind.expired record now = true
  · rw [if_pos gone]
    exact iff_of_true rfl gone
  · rw [if_neg gone]
    refine iff_of_false (fun answer => ?_) gone
    split at answer
    · cases answer
    · cases answer
    · dsimp only at answer
      split at answer <;> cases congrArg Prod.snd (Except.ok.inj answer)

theorem not_mem_get_iff {p key : Bytes} (held : store.lookup p key = some record) :
    record ∉ store.get kind p now ↔ kind.expired record now = true := by
  rw [mem_get]
  cases gone : kind.expired record now with
  | true => exact iff_of_true (fun both => nomatch both.2) rfl
  | false => exact iff_of_false (fun absent => absent ⟨⟨key, held⟩, rfl⟩) nofun

/-- The latest record is passed over only where it has expired. -/
theorem getLatest_ne_iff {p key : Bytes} (held : store.lookup p key = some record)
    (last : ∀ key' other, store.lookup p key' = some other → other ≠ record →
      kind.publishedAtMs other < kind.publishedAtMs record) :
    store.getLatest kind p now ≠ some record ↔ kind.expired record now = true := by
  obtain ⟨absent, greatest⟩ := getLatest_spec kind store p now
  rw [← not_mem_get_iff held]
  refine not_congr ⟨fun answer => (greatest record answer).1, fun listed => ?_⟩
  cases answer : store.getLatest kind p now with
  | none =>
    rw [absent.mp answer] at listed
    cases listed
  | some best =>
    obtain ⟨member, all⟩ := greatest best answer
    by_contra other
    obtain ⟨⟨key', found⟩, -⟩ := mem_get.mp member
    have before := last key' best found fun same => other (congrArg some same)
    exact UInt64.not_lt.mpr (all record listed) before

theorem lookup_pruneExpired_eq_none_iff {p key : Bytes}
    (held : store.lookup p key = some record) :
    (store.pruneExpired kind now).1.lookup p key = none ↔ kind.expired record now = true := by
  rw [lookup_pruneExpired, held, Option.filter_some]
  cases kind.expired record now <;> simp

end RecordStore

/-- Every call asks the same two questions. -/
theorem keepsTime_iff_tests :
    KeepsTime kind ttlMs record now ↔
      (kind.expired record now = true ↔ Lapsed (kind.publishedAtMs record) ttlMs now) ∧
      (kind.wellFormed record = true →
        (kind.publishedAtMs record > now + kRecordClockSkewMs ↔
          FutureDated (kind.publishedAtMs record) now)) := by
  constructor
  · intro keeps
    constructor
    · let store : RecordStore R :=
        Nested.put ∅ (kind.publisherPubkey record) (kind.recordKey record) record
      have held : store.lookup (kind.publisherPubkey record) (kind.recordKey record) = some record := by
        rw [RecordStore.lookup_put, if_pos ⟨rfl, rfl⟩]
      rw [← RecordStore.lookup_pruneExpired_eq_none_iff held]
      exact keeps.pruneExpired store _ _ held
    · intro formed
      exact (RecordStore.put_eq_rejectedClock_iff formed).symm.trans (keeps.future formed ∅)
  · rintro ⟨expires, dated⟩
    constructor
    · intro formed store
      rw [RecordStore.put_eq_rejectedClock_iff formed, dated formed]
    · intro formed store past
      rw [ne_eq, RecordStore.put_eq_rejectedClock_iff formed] at past
      rw [RecordStore.put_eq_rejectedExpired_iff formed past, expires]
    · intro store p key held
      rw [RecordStore.not_mem_get_iff held, expires]
    · intro store p key held last
      rw [RecordStore.getLatest_ne_iff held last, expires]
    · intro store p key held
      rw [RecordStore.lookup_pruneExpired_eq_none_iff held, expires]

/-- A kind of record that expires at the sum of its date and its time to live. -/
theorem keepsTime_iff_of_expired
    (expired : kind.expired record now = decide (kind.publishedAtMs record + ttlMs ≤ now)) :
    KeepsTime kind ttlMs record now ↔
      ¬(2 ^ 64 ≤ (kind.publishedAtMs record).toNat + ttlMs.toNat ∧
        (kind.publishedAtMs record).toNat + ttlMs.toNat ≤ 2 ^ 64 + now.toNat) ∧
      (kind.wellFormed record = true →
        now.toNat + kRecordClockSkewMs.toNat < 2 ^ 64 ∨
          (kind.publishedAtMs record).toNat + 2 ^ 64 ≤ now.toNat + kRecordClockSkewMs.toNat) := by
  rw [keepsTime_iff_tests, expired, decide_eq_true_iff, add_le_iff_lapsed, add_lt_iff_futureDated]

end

/-- Provider and prekey records are treated by their lifes and dates exactly when their end does not
wrap around to the clock or below it, and the clock and the skew do not wrap around below their date. -/
theorem keepsTime_iff (verify : SignVerify) :
    (∀ (record : ProviderRecord) now, KeepsTime (providerKind verify) record.ttlMs record now ↔
      ¬(2 ^ 64 ≤ record.publishedAtMs.toNat + record.ttlMs.toNat ∧
        record.publishedAtMs.toNat + record.ttlMs.toNat ≤ 2 ^ 64 + now.toNat) ∧
      ((providerKind verify).wellFormed record = true →
        now.toNat + kRecordClockSkewMs.toNat < 2 ^ 64 ∨
          record.publishedAtMs.toNat + 2 ^ 64 ≤ now.toNat + kRecordClockSkewMs.toNat)) ∧
    (∀ (record : PrekeyRecord) now, KeepsTime (prekeyKind verify) record.ttlMs record now ↔
      ¬(2 ^ 64 ≤ record.publishedAtMs.toNat + record.ttlMs.toNat ∧
        record.publishedAtMs.toNat + record.ttlMs.toNat ≤ 2 ^ 64 + now.toNat) ∧
      ((prekeyKind verify).wellFormed record = true →
        now.toNat + kRecordClockSkewMs.toNat < 2 ^ 64 ∨
          record.publishedAtMs.toNat + 2 ^ 64 ≤ now.toNat + kRecordClockSkewMs.toNat)) :=
  ⟨fun record _ => keepsTime_iff_of_expired record.ttlMs rfl,
    fun record _ => keepsTime_iff_of_expired record.ttlMs rfl⟩

private def everlasting : ProviderRecord :=
  ⟨List.replicate 32 1, [ascii "a"], 10, 0xFFFFFFFFFFFFFFFF, List.replicate 16 2,
    List.replicate 64 3, []⟩

/-- A record that is meant to last counts as expired from the beginning. -/
theorem not_keepsTime :
    ¬∀ verify record now, KeepsTime (providerKind verify) record.ttlMs record now := by
  intro all
  have expired : (providerKind fun _ _ _ => true).expired everlasting 20 =
      decide (everlasting.publishedAtMs + everlasting.ttlMs ≤ 20) := rfl
  have keeps := (keepsTime_iff_of_expired _ expired).mp (all (fun _ _ _ => true) everlasting 20)
  refine keeps.1 ⟨?_, ?_⟩
  · decide
  · decide

end FinBit.P2P
