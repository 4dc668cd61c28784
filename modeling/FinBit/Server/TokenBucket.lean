import FinBit.Lib.Metering
import FinBit.Server.Relay

/-! # Token buckets

`TokenBucket` and `KeyedLimiter`, in exact arithmetic where the source has `double`. The
relay's limiter has one rate and one burst for all keys and makes the bucket of a key when it
is first charged; nothing takes a bucket away again.

A charge is let through that is short of a billionth of a token. With the relay's rate and a
clock in nanoseconds the tokens are multiples of a larger fraction, so no charge profits from
it.
-/

namespace FinBit.Server

open FinBit.Lib

/-- The clock is read in nanoseconds. -/
structure TokenBucket where
  rate : Nat
  burst : Nat
  tokens : ℚ
  lastRefill : UInt64

namespace TokenBucket

def new (rate burst : Nat) (now : UInt64) : TokenBucket := ⟨rate, burst, burst, now⟩

def refill (b : TokenBucket) (now : UInt64) : TokenBucket :=
  if now ≤ b.lastRefill then b
  else
    let added := b.rate * ((now.toNat : ℚ) - b.lastRefill.toNat) / 10 ^ 9
    { b with tokens := min (b.tokens + added) b.burst, lastRefill := now }

def tryConsume (b : TokenBucket) (now : UInt64) (bytes : Nat) : TokenBucket × Bool :=
  let b := b.refill now
  if b.tokens + 1 / 10 ^ 9 < bytes then (b, false)
  else ({ b with tokens := b.tokens - bytes }, true)

end TokenBucket

structure KeyedLimiter where
  rate : Nat
  burst : Nat
  buckets : Map Bytes TokenBucket

namespace KeyedLimiter

def new (rate burst : Nat) : KeyedLimiter := ⟨rate, burst, ∅⟩

/-- `try_consume`. A bucket that is made here is full, so a second reading of the clock
between the two makes no difference. -/
def tryConsume (k : KeyedLimiter) (now : UInt64) (key : Bytes) (bytes : Nat) :
    KeyedLimiter × Bool :=
  let bucket := (k.buckets.lookup key).getD (.new k.rate k.burst now)
  ({ k with buckets := k.buckets.insert key (bucket.tryConsume now bytes).1 },
    (bucket.tryConsume now bytes).2)

end KeyedLimiter

def kDefaultSustainedBytesPerSec : Nat := 50 * 1024

def kDefaultBurstBytes : Nat := 500 * 1024

/-! ### What a bucket has let through -/

/-- Four steps of the grid come in with a nanosecond. -/
def OnGrid (tokens : ℚ) : Prop := ∃ k : ℤ, tokens = k / 78125

theorem OnGrid.le_of_near {tokens : ℚ} (grid : OnGrid tokens) {bytes : Nat}
    (near : ¬tokens + 1 / 10 ^ 9 < bytes) : (bytes : ℚ) ≤ tokens := by
  obtain ⟨k, rfl⟩ := grid
  by_contra short
  rw [not_le, div_lt_iff₀ (by norm_num)] at short
  have whole : k + 1 ≤ (bytes : ℤ) * 78125 := by exact_mod_cast short
  have whole' : (k : ℚ) + 1 ≤ bytes * 78125 := by exact_mod_cast whole
  apply near
  linarith

/-- The rate in tokens for a nanosecond. -/
def perNanosecond : ℚ := kDefaultSustainedBytesPerSec / 10 ^ 9

theorem perNanosecond_nonneg : 0 ≤ perNanosecond := div_nonneg (Nat.cast_nonneg _) (by norm_num)

/-- The ledger was spent through this bucket. -/
structure TokenBucket.Meters (b : TokenBucket) (ledger : Ledger) : Prop where
  rate : b.rate = kDefaultSustainedBytesPerSec
  burst : b.burst = kDefaultBurstBytes
  grid : OnGrid b.tokens
  metered : Metered kDefaultBurstBytes perNanosecond ledger b.lastRefill.toNat b.tokens

namespace TokenBucket.Meters

variable {b : TokenBucket} {ledger : Ledger} {now : UInt64}

theorem new (now : UInt64) :
    (TokenBucket.new kDefaultSustainedBytesPerSec kDefaultBurstBytes now).Meters [] where
  rate := rfl
  burst := rfl
  grid := ⟨kDefaultBurstBytes * 78125, by simp [TokenBucket.new]⟩
  metered := .full (Nat.cast_nonneg _) perNanosecond_nonneg now.toNat

theorem refill (meters : b.Meters ledger) (later : b.lastRefill ≤ now) :
    (b.refill now).Meters ledger ∧ (b.refill now).lastRefill = now := by
  unfold TokenBucket.refill
  split
  next early => exact ⟨meters, UInt64.le_antisymm later early⟩
  dsimp only
  have ordered : b.lastRefill.toNat ≤ now.toNat := later
  have elapsed : (b.lastRefill.toNat : ℚ) ≤ now.toNat := by exact_mod_cast ordered
  have added : (b.rate : ℚ) * ((now.toNat : ℚ) - b.lastRefill.toNat) / 10 ^ 9 =
      perNanosecond * (now.toNat - b.lastRefill.toNat) := by
    rw [meters.rate, perNanosecond]
    ring
  have gained := mul_nonneg perNanosecond_nonneg (sub_nonneg.mpr elapsed)
  rw [added, meters.burst]
  refine ⟨⟨meters.rate, rfl, ?_, ?_⟩, rfl⟩
  · -- both sides of the minimum are on the grid
    rcases min_choice (b.tokens + perNanosecond * (now.toNat - b.lastRefill.toNat))
      (kDefaultBurstBytes : ℚ) with same | same
    · obtain ⟨k, tokens⟩ := meters.grid
      refine ⟨k + 4 * ((now.toNat : ℤ) - b.lastRefill.toNat), ?_⟩
      dsimp only
      rw [same, tokens, perNanosecond, kDefaultSustainedBytesPerSec]
      push_cast
      ring
    · exact ⟨kDefaultBurstBytes * 78125, by dsimp only; rw [same]; simp⟩
  · refine meters.metered.refill perNanosecond_nonneg ordered (min_le_left _ _) (min_le_right _ _) ?_
    have := meters.metered.nonneg
    exact le_min (by linarith) (Nat.cast_nonneg _)

theorem tryConsume (meters : b.Meters ledger) (later : b.lastRefill ≤ now) (bytes : Nat) :
    (b.tryConsume now bytes).1.lastRefill = now ∧
      (b.tryConsume now bytes).1.Meters
        (if (b.tryConsume now bytes).2 then ledger ++ [(now.toNat, bytes)] else ledger) := by
  obtain ⟨refilled, here⟩ := meters.refill later
  unfold TokenBucket.tryConsume
  dsimp only
  split
  · exact ⟨here, refilled⟩
  next enough =>
    have paid := refilled.grid.le_of_near enough
    refine ⟨here, refilled.rate, refilled.burst, ?_, ?_⟩
    · obtain ⟨k, tokens⟩ := refilled.grid
      refine ⟨k - bytes * 78125, ?_⟩
      dsimp only
      rw [tokens]
      push_cast
      ring
    · have spent := refilled.metered.spend perNanosecond_nonneg paid
      dsimp only
      rw [here] at spent ⊢
      simpa using spent

end TokenBucket.Meters

/-- What was spent under a key went through its bucket, up to now. -/
structure KeyedLimiter.Meters (k : KeyedLimiter) (key : Bytes) (ledger : Ledger) (now : Nat) :
    Prop where
  rate : k.rate = kDefaultSustainedBytesPerSec
  burst : k.burst = kDefaultBurstBytes
  untouched : k.buckets.lookup key = none → ledger = []
  bucket : ∀ b, k.buckets.lookup key = some b → b.Meters ledger ∧ b.lastRefill.toNat ≤ now

namespace KeyedLimiter.Meters

variable {k : KeyedLimiter} {key : Bytes} {ledger : Ledger} {now : Nat}

theorem new (key : Bytes) :
    (KeyedLimiter.new kDefaultSustainedBytesPerSec kDefaultBurstBytes).Meters key [] 0 where
  rate := rfl
  burst := rfl
  untouched _ := rfl
  bucket _ found := by cases found

theorem later (meters : k.Meters key ledger now) {now' : Nat} (later : now ≤ now') :
    k.Meters key ledger now' where
  rate := meters.rate
  burst := meters.burst
  untouched := meters.untouched
  bucket b found := ⟨(meters.bucket b found).1, (meters.bucket b found).2.trans later⟩

/-- A charge to another key. -/
theorem tryConsume_other (meters : k.Meters key ledger now) {other : Bytes} (ne : key ≠ other)
    (clock : UInt64) (bytes : Nat) : (k.tryConsume clock other bytes).1.Meters key ledger now where
  rate := meters.rate
  burst := meters.burst
  untouched free := by
    apply meters.untouched
    rwa [KeyedLimiter.tryConsume, AList.lookup_insert_ne ne] at free
  bucket b found := by
    apply meters.bucket
    rwa [KeyedLimiter.tryConsume, AList.lookup_insert_ne ne] at found

/-- A charge to the key goes into its ledger if it is let through. -/
theorem tryConsume (meters : k.Meters key ledger now) {clock : UInt64} (later : now ≤ clock.toNat)
    (bytes : Nat) :
    (k.tryConsume clock key bytes).1.Meters key
      (if (k.tryConsume clock key bytes).2 then ledger ++ [(clock.toNat, bytes)] else ledger)
      clock.toNat := by
  -- the bucket that is charged, new or not
  have charged : ((k.buckets.lookup key).getD (.new k.rate k.burst clock)).Meters ledger ∧
      ((k.buckets.lookup key).getD (.new k.rate k.burst clock)).lastRefill ≤ clock := by
    cases found : k.buckets.lookup key with
    | none =>
      rw [meters.untouched found, meters.rate, meters.burst]
      exact ⟨.new clock, UInt64.le_refl clock⟩
    | some b =>
      obtain ⟨inside, old⟩ := meters.bucket b found
      exact ⟨inside, UInt64.le_iff_toNat_le.mpr (old.trans later)⟩
  obtain ⟨here, spent⟩ := charged.1.tryConsume charged.2 bytes
  constructor
  · exact meters.rate
  · exact meters.burst
  · intro free
    rw [KeyedLimiter.tryConsume, AList.lookup_insert] at free
    cases free
  · intro b found
    rw [KeyedLimiter.tryConsume, AList.lookup_insert] at found
    obtain rfl := Option.some.inj found
    exact ⟨spent, by rw [here]⟩

/-- In no window does the key spend more than the burst and what comes in meanwhile. -/
theorem within_le (meters : k.Meters key ledger now) (start length : Nat) :
    (ledger.within start (start + length) : ℚ) ≤
      kDefaultBurstBytes + kDefaultSustainedBytesPerSec * length / 10 ^ 9 := by
  have rate : perNanosecond * (((start + length : Nat) : ℚ) - start) =
      kDefaultSustainedBytesPerSec * length / 10 ^ 9 := by
    rw [perNanosecond, Nat.cast_add]
    ring
  cases found : k.buckets.lookup key with
  | none =>
    rw [meters.untouched found, Ledger.within_nil, Nat.cast_zero]
    exact add_nonneg (Nat.cast_nonneg _)
      (div_nonneg (mul_nonneg (Nat.cast_nonneg _) (Nat.cast_nonneg _)) (by norm_num))
  | some b =>
    rw [← rate]
    exact (meters.bucket b found).1.metered.windows start (start + length) (Nat.le_add_right _ _)

end KeyedLimiter.Meters

end FinBit.Server
