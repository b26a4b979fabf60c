import VarnishModules.VsthrottleCell

/-!
The refill of a bucket on machine integers.

`calc_tokens` converts the refill to a `long` and adds it before it caps the sum.
A run on machine integers goes as the exact one and ends where a step of the
arithmetic is undefined.
-/

namespace VarnishModules.VsthrottleLong

open VarnishModules.CStrings
open VarnishModules.TokenBucket
open VarnishModules.VsthrottleModel
open VarnishModules.VsthrottleStore
open VarnishModules.VsthrottleCell

inductive Undefined
  | assertion
  | division
  | conversion
  | addition
  deriving DecidableEq

def IsLong (x : ℤ) : Prop :=
  -2 ^ 63 ≤ x ∧ x < 2 ^ 63

instance (x : ℤ) : Decidable (IsLong x) :=
  inferInstanceAs (Decidable (_ ∧ _))

def calcTokensLong (b : Tbucket) (now : ℚ) : Except Undefined Tbucket :=
  let delta := now - b.lastUsed
  if delta < 0 then .error .assertion
  else if b.period = 0 then .error .division
  else
    let gain := toLong (delta / b.period * b.capacity)
    if ¬ IsLong gain then .error .conversion
    else if ¬ IsLong (b.tokens + gain) then .error .addition
    else
      let tokens := b.tokens + gain
      .ok { b with tokens := if tokens > b.capacity then b.capacity else tokens }

/-- The bucket a call refills. -/
def refills (H : Hashing) (vs : Vsthrottle) (c : Call) : Option Tbucket :=
  if c.op = .blocked then none
  else c.tuple.map fun k => fetch (H.doDigest k) k (bucketOf H vs k) c.now

/-- Nothing is returned where the arithmetic is undefined. -/
def Call.runLong (H : Hashing) (vs : Vsthrottle) (c : Call) : Option (Result × Vsthrottle) :=
  if ∀ b ∈ refills H vs c, (calcTokensLong b c.now).isOk then c.run H vs else none

def runLong (H : Hashing) : List Call → Vsthrottle → Option (List Event × Vsthrottle) :=
  Machine.run (Call.runLong H)

variable {H : Hashing} {vs vs' : Vsthrottle} {c : Call} {r : Result} {cs : List Call}
variable {es : List Event} {k : Tuple} {limit : ℤ} {period now t : ℚ} {b : Tbucket}

theorem Call.run_of_runLong (h : Call.runLong H vs c = some (r, vs')) :
    c.run H vs = some (r, vs') ∧ ∀ b ∈ refills H vs c, (calcTokensLong b c.now).isOk = true := by
  unfold Call.runLong at h
  split at h
  · next hdefined => exact ⟨h, hdefined⟩
  · exact absurd h (by simp)

theorem run_of_runLong (h : runLong H cs vs = some (es, vs')) : run H cs vs = some (es, vs') :=
  Machine.run_of_imp (fun _ _ _ hstep => (Call.run_of_runLong hstep).1) h

/-- The sum has to fit before it is capped. -/
theorem add_refill_lt_iff (hlimit : 0 ≤ limit) (hperiod : 0 < period)
    (hb : Fits limit period now b) (n : ℤ) :
    b.tokens + refill b now < n ↔ (now - b.lastUsed) * limit < (n - b.tokens) * period := by
  obtain ⟨hrefill, -⟩ := hb.refill_eq hlimit hperiod (le_refl now)
  calc b.tokens + refill b now < n
      ↔ ⌊(now - b.lastUsed) / period * limit⌋ < n - b.tokens := by rw [hrefill]; omega
    _ ↔ (now - b.lastUsed) / period * limit < ((n - b.tokens : ℤ) : ℚ) := Int.floor_lt
    _ ↔ (now - b.lastUsed) * limit < (n - b.tokens) * period := by
        rw [div_mul_eq_mul_div, div_lt_iff₀ hperiod, Int.cast_sub]

theorem calcTokensLong_eq (hlimit : 0 ≤ limit) (hperiod : 0 < period)
    (hb : Fits limit period now b) :
    calcTokensLong b now =
      if ¬ IsLong (refill b now) then .error .conversion
      else if b.tokens + refill b now < 2 ^ 63 then .ok (refilled b now)
      else .error .addition := by
  obtain ⟨-, hrefill⟩ := hb.refill_eq hlimit hperiod (le_refl now)
  have hnonneg := hb.nonneg
  have hdelta : ¬ now - b.lastUsed < 0 := by linarith [hb.lastUsed]
  have hne : b.period ≠ 0 := hb.period ▸ hperiod.ne'
  have hcap : (if b.tokens + refill b now > b.capacity then b.capacity
      else b.tokens + refill b now) = min b.capacity (b.tokens + refill b now) := by
    rw [min_def]
    split_ifs <;> omega
  have hsum : IsLong (b.tokens + refill b now) ↔ b.tokens + refill b now < 2 ^ 63 :=
    and_iff_right (by omega)
  simp only [calcTokensLong, hdelta, hne, if_false, ← refill.eq_def, hcap, hsum, ite_not, refilled]

/-- The refill is defined just when the sum fits. -/
theorem calcTokensLong_cases (hlimit : 0 ≤ limit) (hperiod : 0 ≤ period)
    (hb : Fits limit period now b) :
    ((now - b.lastUsed) * limit < (2 ^ 63 - b.tokens) * period ∧
        calcTokensLong b now = .ok (refilled b now)) ∨
      (¬ (now - b.lastUsed) * limit < (2 ^ 63 - b.tokens) * period ∧
        (calcTokensLong b now).isOk = false) := by
  rcases hperiod.eq_or_lt with rfl | hperiod
  · have hdelta : 0 ≤ now - b.lastUsed := by linarith [hb.lastUsed]
    have hcast : (0 : ℚ) ≤ limit := by exact_mod_cast hlimit
    refine Or.inr ⟨?_, ?_⟩
    · rw [mul_zero, not_lt]
      exact mul_nonneg hdelta hcast
    · simp [calcTokensLong, hdelta.not_gt, hb.period, Except.isOk, Except.toBool]
  · have hiff := add_refill_lt_iff hlimit hperiod hb (2 ^ 63)
    obtain ⟨-, hrefill⟩ := hb.refill_eq hlimit hperiod (le_refl now)
    have hnonneg := hb.nonneg
    rw [Int.cast_pow, Int.cast_ofNat] at hiff
    rw [calcTokensLong_eq hlimit hperiod hb, ← hiff]
    by_cases hsum : b.tokens + refill b now < 2 ^ 63
    · have hgain : IsLong (refill b now) := ⟨by omega, by omega⟩
      exact Or.inl ⟨hsum, by rw [if_neg (not_not.mpr hgain), if_pos hsum]⟩
    · refine Or.inr ⟨hsum, ?_⟩
      split_ifs <;> rfl

/-! SHA256 and the bytes of a `double`, on some more tuples. -/

def longSha256 (bytes : List UInt8) : Digest :=
  if bytes = [97, 1, 0, 0, 0, 0, 0, 0, 0, 0, 0, 0, 0, 0, 0, 0, 0, 0, 0, 0, 0, 0, 0, 0, 0] then
    ⟨[203, 84, 42, 246, 104, 162, 162, 234, 197, 81, 134, 84, 101, 111, 13, 115, 48, 110, 249, 47,
      15, 147, 67, 211, 169, 47, 26, 93, 195, 27, 35, 40], rfl⟩
  else if bytes = [97, 0, 0, 0, 0, 0, 0, 0, 64, 0, 0, 0, 0, 0, 0, 240, 63, 0, 0, 0, 0, 0, 0, 0, 0]
  then
    ⟨[90, 72, 149, 62, 65, 27, 51, 96, 53, 207, 53, 107, 110, 21, 77, 200, 4, 151, 184, 230, 104,
      162, 137, 211, 243, 65, 121, 200, 225, 167, 229, 15], rfl⟩
  else if bytes = [97, 0, 0, 0, 0, 1, 0, 0, 0, 0, 0, 0, 0, 0, 0, 240, 63, 0, 0, 0, 0, 0, 0, 0, 0]
  then
    ⟨[54, 116, 36, 187, 218, 98, 57, 159, 159, 232, 23, 118, 249, 168, 201, 230, 179, 101, 153,
      144, 143, 6, 154, 191, 219, 93, 160, 168, 100, 89, 18, 36], rfl⟩
  else if bytes = [97, 49, 0, 0, 0, 0, 0, 0, 0, 0, 0, 0, 0, 0, 128, 72, 64, 0, 0, 0, 0, 0, 0, 0, 0]
  then
    ⟨[174, 155, 170, 239, 15, 85, 31, 56, 119, 100, 78, 126, 77, 105, 207, 121, 214, 89, 145, 214,
      150, 109, 42, 229, 242, 251, 79, 211, 218, 15, 125, 51], rfl⟩
  else Digest.zero

def longDouble (x : ℚ) : List UInt8 :=
  if x = 49 then [0, 0, 0, 0, 0, 128, 72, 64] else tableDouble x

def longTable : Hashing where
  sha256 := longSha256
  doubleBytes := longDouble
  length_doubleBytes x := by
    unfold longDouble
    split
    · rfl
    · exact table.length_doubleBytes x

end VarnishModules.VsthrottleLong
