import VarnishModules.Digest

/-!
The token buckets of `vmod_vsthrottle.c`, one at a time, in exact arithmetic.

The times and the tokens are not rounded and do not overflow.  The quotient of
`calc_tokens` is 0 for a period of 0, where the module divides by zero and gets
an infinity or a NaN.
-/

namespace VarnishModules.TokenBucket

structure Tbucket where
  digest : Digest
  lastUsed : ℚ
  period : ℚ
  block : ℚ
  tokens : ℤ
  capacity : ℤ
  deriving DecidableEq

def tbAlloc (digest : Digest) (limit : ℤ) (period now : ℚ) : Tbucket where
  digest := digest
  lastUsed := now
  period := period
  block := 0
  tokens := limit
  capacity := limit

/-- The conversion of a `double` to `long`. -/
def toLong (x : ℚ) : ℤ :=
  if 0 ≤ x then ⌊x⌋ else ⌈x⌉

/-- Nothing is returned if the assertion on `delta` fails. -/
def calcTokens (b : Tbucket) (now : ℚ) : Option Tbucket :=
  let delta := now - b.lastUsed
  if 0 ≤ delta then
    let tokens := b.tokens + toLong (delta / b.period * b.capacity)
    some { b with tokens := if tokens > b.capacity then b.capacity else tokens }
  else
    none

/-- What `is_denied` does to the refilled bucket, and its result, if a block that begins `now`
is over at `ends`. -/
def denyUntil (b : Tbucket) (block now ends : ℚ) : Bool × Tbucket :=
  let blocked : Bool := 0 < block ∧ now < b.block
  let b := if blocked then { b with lastUsed := now } else b
  let (ret, b) :=
    if b.tokens > 0 then
      (blocked, { b with tokens := b.tokens - 1, lastUsed := now })
    else if 0 < block ∧ !blocked then
      (true, { b with block := ends })
    else
      (true, b)
  let b := if 0 < block ∧ !ret ∧ !blocked then { b with block := 0 } else b
  (ret, b)

def denyBucket (b : Tbucket) (block now : ℚ) : Bool × Tbucket :=
  denyUntil b block now (now + block)

/-- `run_gc` releases the bucket. -/
def expired (now : ℚ) (b : Tbucket) : Bool :=
  b.period < now - b.lastUsed

@[simp] theorem denyUntil_digest (b : Tbucket) (block now ends : ℚ) :
    (denyUntil b block now ends).2.digest = b.digest := by
  unfold denyUntil
  grind

@[simp] theorem denyBucket_digest (b : Tbucket) (block now : ℚ) :
    (denyBucket b block now).2.digest = b.digest :=
  denyUntil_digest b block now _

theorem calcTokens_digest {b b' : Tbucket} {now : ℚ} (h : calcTokens b now = some b') :
    b'.digest = b.digest := by
  unfold calcTokens at h
  grind

/-! The three things `is_denied` can do. -/

theorem denyUntil_blocked {b : Tbucket} {block now ends : ℚ} (h : 0 < block ∧ now < b.block) :
    denyUntil b block now ends = (true, { b with
      lastUsed := now, tokens := if 0 < b.tokens then b.tokens - 1 else b.tokens }) := by
  unfold denyUntil
  by_cases htokens : 0 < b.tokens <;> simp [h, htokens]

theorem denyUntil_admitted {b : Tbucket} {block now ends : ℚ} (h : ¬(0 < block ∧ now < b.block))
    (htokens : 0 < b.tokens) :
    denyUntil b block now ends = (false, { b with
      lastUsed := now, tokens := b.tokens - 1, block := if 0 < block then 0 else b.block }) := by
  have hblocked : (decide (0 < block ∧ now < b.block)) = false := decide_eq_false h
  unfold denyUntil
  simp only [hblocked]
  by_cases hblock : 0 < block <;> simp [htokens, hblock]

theorem denyUntil_empty {b : Tbucket} {block now ends : ℚ} (h : ¬(0 < block ∧ now < b.block))
    (htokens : ¬ 0 < b.tokens) :
    denyUntil b block now ends =
      (true, { b with block := if 0 < block then ends else b.block }) := by
  have hblocked : (decide (0 < block ∧ now < b.block)) = false := decide_eq_false h
  unfold denyUntil
  simp only [hblocked]
  by_cases hblock : 0 < block <;> simp [htokens, hblock]

theorem denyBucket_blocked {b : Tbucket} {block now : ℚ} (h : 0 < block ∧ now < b.block) :
    denyBucket b block now = (true, { b with
      lastUsed := now, tokens := if 0 < b.tokens then b.tokens - 1 else b.tokens }) :=
  denyUntil_blocked h

theorem denyBucket_admitted {b : Tbucket} {block now : ℚ} (h : ¬(0 < block ∧ now < b.block))
    (htokens : 0 < b.tokens) :
    denyBucket b block now = (false, { b with
      lastUsed := now, tokens := b.tokens - 1, block := if 0 < block then 0 else b.block }) :=
  denyUntil_admitted h htokens

theorem denyBucket_empty {b : Tbucket} {block now : ℚ} (h : ¬(0 < block ∧ now < b.block))
    (htokens : ¬ 0 < b.tokens) :
    denyBucket b block now =
      (true, { b with block := if 0 < block then now + block else b.block }) :=
  denyUntil_empty h htokens

/-- A token is paid for an admission, and only an empty bucket is not used. -/
theorem denyBucket_cases (b : Tbucket) (block now : ℚ) :
    (denyBucket b block now).2.lastUsed = now ∧
        (denyBucket b block now).2.tokens + (if (denyBucket b block now).1 then 0 else 1) ≤
          b.tokens ∨
      (denyBucket b block now).1 = true ∧ (denyBucket b block now).2.tokens = b.tokens ∧
        (denyBucket b block now).2.lastUsed = b.lastUsed ∧ b.tokens ≤ 0 := by
  by_cases hblocked : 0 < block ∧ now < b.block
  · rw [denyBucket_blocked hblocked]
    refine Or.inl ⟨rfl, ?_⟩
    change (if 0 < b.tokens then b.tokens - 1 else b.tokens) + 0 ≤ b.tokens
    split <;> omega
  · by_cases htokens : 0 < b.tokens
    · rw [denyBucket_admitted hblocked htokens]
      refine Or.inl ⟨rfl, ?_⟩
      change b.tokens - 1 + 1 ≤ b.tokens
      omega
    · rw [denyBucket_empty hblocked htokens]
      exact Or.inr ⟨rfl, rfl, rfl, not_lt.mp htokens⟩

/-- The bucket of a limit and a period, at the time `t`. -/
structure Fits (limit : ℤ) (period t : ℚ) (b : Tbucket) : Prop where
  period : b.period = period
  capacity : b.capacity = limit
  lastUsed : b.lastUsed ≤ t
  nonneg : 0 ≤ b.tokens
  le : b.tokens ≤ limit

/-- The tokens `calc_tokens` adds before it compares with the capacity. -/
def refill (b : Tbucket) (now : ℚ) : ℤ :=
  toLong ((now - b.lastUsed) / b.period * b.capacity)

def refilled (b : Tbucket) (now : ℚ) : Tbucket :=
  { b with tokens := min b.capacity (b.tokens + refill b now) }

theorem refilled_tbAlloc (d : Digest) (limit : ℤ) (period now : ℚ) :
    refilled (tbAlloc d limit period now) now = tbAlloc d limit period now := by
  simp [refilled, refill, tbAlloc, toLong]

theorem refilled_of_used {b : Tbucket} {now : ℚ} (hused : b.lastUsed = now)
    (hle : b.tokens ≤ b.capacity) : refilled b now = b := by
  subst hused
  simp [refilled, refill, toLong, hle]

variable {limit : ℤ} {period t now : ℚ} {b : Tbucket}

theorem Fits.mono (hb : Fits limit period t b) (ht : t ≤ now) : Fits limit period now b :=
  { hb with lastUsed := hb.lastUsed.trans ht }

theorem fits_tbAlloc (hlimit : 0 ≤ limit) (d : Digest) :
    Fits limit period now (tbAlloc d limit period now) :=
  ⟨rfl, rfl, le_refl _, hlimit, le_refl _⟩

theorem Fits.refill_eq (hlimit : 0 ≤ limit) (hperiod : 0 < period)
    (hb : Fits limit period t b) (ht : t ≤ now) :
    refill b now = ⌊(now - b.lastUsed) / period * limit⌋ ∧ 0 ≤ refill b now := by
  have hnonneg : 0 ≤ (now - b.lastUsed) / period * limit := by
    have h₁ : 0 ≤ now - b.lastUsed := by linarith [hb.lastUsed]
    have h₂ : (0 : ℚ) ≤ limit := by exact_mod_cast hlimit
    positivity
  have heq : refill b now = ⌊(now - b.lastUsed) / period * limit⌋ := by
    rw [refill, hb.period, hb.capacity, toLong, if_pos hnonneg]
  exact ⟨heq, heq ▸ Int.floor_nonneg.mpr hnonneg⟩

/-- A bucket idle for longer than its period has a full capacity to gain. -/
theorem Fits.le_refill_of_expired (hlimit : 0 ≤ limit) (hperiod : 0 < period)
    (hb : Fits limit period now b) (h : expired now b = true) : limit ≤ refill b now := by
  obtain ⟨hrefill, -⟩ := hb.refill_eq hlimit hperiod (le_refl now)
  have hidle : period < now - b.lastUsed := by
    rw [← hb.period]
    exact of_decide_eq_true h
  have hone : 1 ≤ (now - b.lastUsed) / period := (one_le_div hperiod).mpr hidle.le
  have hcast : (0 : ℚ) ≤ limit := by exact_mod_cast hlimit
  rw [hrefill, Int.le_floor]
  exact le_mul_of_one_le_left hcast hone

theorem calcTokens_eq (h : b.lastUsed ≤ now) : calcTokens b now = some (refilled b now) := by
  have hdelta : 0 ≤ now - b.lastUsed := by linarith
  simp only [calcTokens, hdelta, if_true, refilled, refill, Option.some.injEq, Tbucket.mk.injEq,
    true_and, and_true]
  split
  · next hgt => exact (min_eq_left hgt.le).symm
  · next hle => exact (min_eq_right (not_lt.mp hle)).symm

theorem Fits.refilled (hlimit : 0 ≤ limit) (hperiod : 0 < period)
    (hb : Fits limit period now b) : Fits limit period now (refilled b now) := by
  obtain ⟨-, hrefill⟩ := hb.refill_eq hlimit hperiod (le_refl now)
  have hnonneg := hb.nonneg
  refine ⟨hb.period, hb.capacity, hb.lastUsed, ?_, ?_⟩
  · rw [TokenBucket.refilled, hb.capacity]
    exact le_min hlimit (by omega)
  · rw [TokenBucket.refilled, hb.capacity]
    exact min_le_left _ _

theorem denyBucket_lastUsed (h : b.lastUsed ≤ now) (block : ℚ) :
    (denyBucket b block now).2.lastUsed ≤ now := by
  by_cases hblocked : 0 < block ∧ now < b.block
  · rw [denyBucket_blocked hblocked]
  · by_cases htokens : 0 < b.tokens
    · rw [denyBucket_admitted hblocked htokens]
    · rw [denyBucket_empty hblocked htokens]
      exact h

theorem Fits.denyUntil (hb : Fits limit period now b) (block ends : ℚ) :
    Fits limit period now (denyUntil b block now ends).2 := by
  have hnonneg := hb.nonneg
  have hle := hb.le
  by_cases hblocked : 0 < block ∧ now < b.block
  · rw [denyUntil_blocked hblocked]
    refine ⟨hb.period, hb.capacity, le_refl _, ?_, ?_⟩ <;> dsimp only <;> split <;> omega
  · by_cases htokens : 0 < b.tokens
    · rw [denyUntil_admitted hblocked htokens]
      refine ⟨hb.period, hb.capacity, le_refl _, ?_, ?_⟩ <;> dsimp only <;> omega
    · rw [denyUntil_empty hblocked htokens]
      exact ⟨hb.period, hb.capacity, hb.lastUsed, hnonneg, hle⟩

theorem Fits.denyBucket (hb : Fits limit period now b) (block : ℚ) :
    Fits limit period now (denyBucket b block now).2 :=
  hb.denyUntil block _

end VarnishModules.TokenBucket
