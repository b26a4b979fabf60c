import VarnishModules.Doubles
import VarnishModules.VsthrottleLong

/-!
The refill of a bucket in the arithmetic of the machine.

The times, the periods and what is computed from them are doubles, the tokens
are of type `long`.  A run ends where a step of the arithmetic is undefined.
-/

namespace VarnishModules.VsthrottleDouble

open VarnishModules.CStrings
open VarnishModules.Doubles
open VarnishModules.TokenBucket
open VarnishModules.VsthrottleModel
open VarnishModules.VsthrottleCell
open VarnishModules.VsthrottleLong (Undefined IsLong calcTokensLong longTable)

/-- `(delta / b->period) * b->capacity`. -/
def product (b : Tbucket) (delta : ℚ) : ℚ :=
  nearest (nearest (delta / b.period) * nearest b.capacity)

def calcTokensDouble (b : Tbucket) (now : ℚ) : Except Undefined Tbucket :=
  let delta := nearest (now - b.lastUsed)
  if delta < 0 then .error .assertion
  else if b.period = 0 then .error .division
  -- with an infinite quotient the product is an infinity or a NaN
  else if ¬ (IsFinite delta ∧ IsFinite (nearest (delta / b.period))) then .error .conversion
  else
    let gain := toLong (product b delta)
    if ¬ IsLong gain then .error .conversion
    else if ¬ IsLong (b.tokens + gain) then .error .addition
    else
      let tokens := b.tokens + gain
      .ok { b with tokens := if tokens > b.capacity then b.capacity else tokens }

def machine : Arith where
  calcTokens b now := (calcTokensDouble b now).toOption
  round := nearest

/-! What holds of every bucket, in any arithmetic. -/

/-- Every bucket has the property. -/
def All (P : Tbucket → Prop) (vs : Vsthrottle) : Prop :=
  ∀ p, ∀ b ∈ (vs p).buckets, P b

variable {A : Arith} {H : Hashing} {P : Tbucket → Prop} {vs vs' : Vsthrottle} {v v' : Partition}
variable {c : Call} {r : Result} {cs : List Call} {es : List Event} {k : Tuple} {T : Set Tuple}
variable {d : Digest} {b b' : Tbucket} {limit : ℤ} {period now t delta : ℚ}

theorem All.update (hvs : All P vs) {p : UInt8} (hv : ∀ b ∈ v.buckets, P b) :
    All P (Function.update vs p v) := by
  intro q b hb
  by_cases hq : q = p
  · subst hq
    exact hv b (by simpa using hb)
  · exact hvs q b (by simpa [hq] using hb)

theorem getBucket_all (hv : ∀ x ∈ v.buckets, P x) (halloc : P (tbAlloc d limit period now))
    (h : getBucket v d limit period now = some (b, v')) :
    P b ∧ ∀ x ∈ v'.buckets, P x := by
  cases hfind : OrderedTree.find Tbucket.digest d v.buckets with
  | some x =>
      simp only [getBucket, hfind, Option.some.injEq, Prod.mk.injEq] at h
      obtain ⟨rfl, rfl⟩ := h
      exact ⟨hv x (List.mem_of_find?_eq_some hfind), hv⟩
  | none =>
      have habsent : ∀ x ∈ v.buckets, x.digest ≠ (tbAlloc d limit period now).digest :=
        OrderedTree.find_eq_none_iff.mp hfind
      simp only [getBucket, hfind, OrderedTree.insert_of_absent habsent, Option.some.injEq,
        Prod.mk.injEq] at h
      obtain ⟨rfl, rfl⟩ := h
      refine ⟨halloc, fun x hx => ?_⟩
      rcases OrderedTree.mem_orderedInsert.mp hx with rfl | hx
      · exact halloc
      · exact hv x hx

theorem setBucket_all (hv : ∀ x ∈ v.buckets, P x) (hb : P b) :
    ∀ x ∈ (setBucket v b).buckets, P x := by
  intro x hx
  obtain ⟨y, hy, rfl⟩ := List.mem_map.mp hx
  split
  · exact hb
  · exact hv y hy

theorem countCall_all (hv : ∀ x ∈ v.buckets, P x) :
    ∀ x ∈ (A.countCall now v).buckets, P x := by
  intro x hx
  simp only [Arith.countCall, Arith.runGc] at hx
  split at hx
  · exact hv x (List.mem_of_mem_filter hx)
  · exact hv x hx

/-- What holds of a new bucket and is kept by refills and denials holds of every bucket. -/
theorem call_all (hvs : All P vs)
    (halloc : ∀ k, c.tuple = some k → P (tbAlloc (H.doDigest k) k.limit.toInt k.period c.now))
    (hcalc : ∀ b b', P b → A.calcTokens b c.now = some b' → P b')
    (hdeny : ∀ b block ends, P b → P (denyUntil b block c.now ends).2)
    (h : A.call H vs c = some (r, vs')) : All P vs' := by
  obtain ⟨op, key, limit, period, block, now⟩ := c
  cases key with
  | none =>
      cases op with
      | isDenied | remaining | blocked =>
          obtain ⟨-, rfl⟩ := Prod.mk.inj (Option.some.inj h)
          exact hvs
  | some key =>
      let k : Tuple := ⟨key, limit, period, block⟩
      have hget : ∀ b v, getBucket (vs (partOf (H.doDigest k))) (H.doDigest k) limit.toInt period
          now = some (b, v) → P b ∧ ∀ x ∈ v.buckets, P x :=
        fun b v => getBucket_all (hvs _) (halloc k rfl)
      cases op with
      | isDenied =>
          simp only [Arith.call, Arith.vmodIsDenied, Option.map_eq_some_iff, bind,
            Option.bind_eq_some_iff, pure, Option.some.injEq, Prod.mk.injEq] at h
          obtain ⟨_, ⟨⟨b, v⟩, hbucket, b₁, htokens, rfl⟩, -, rfl⟩ := h
          obtain ⟨hb, hv⟩ := hget b v hbucket
          exact hvs.update (countCall_all (setBucket_all hv (hdeny _ _ _ (hcalc _ _ hb htokens))))
      | remaining =>
          simp only [Arith.call, Arith.vmodRemaining, Option.map_eq_some_iff, bind,
            Option.bind_eq_some_iff, pure, Option.some.injEq, Prod.mk.injEq] at h
          obtain ⟨_, ⟨⟨b, v⟩, hbucket, b₁, htokens, rfl⟩, -, rfl⟩ := h
          obtain ⟨hb, hv⟩ := hget b v hbucket
          exact hvs.update (setBucket_all hv (hcalc _ _ hb htokens))
      | blocked =>
          simp only [Arith.call, Arith.vmodBlocked, Option.map_eq_some_iff, bind,
            Option.bind_eq_some_iff, pure, Option.some.injEq, Prod.mk.injEq] at h
          obtain ⟨_, ⟨⟨b, v⟩, hbucket, rfl⟩, -, rfl⟩ := h
          exact hvs.update (hget b v hbucket).2

/-! The refill. -/

theorem delta_nonneg (hb : Fits limit period now b) (hdelta : delta = nearest (now - b.lastUsed)) :
    0 ≤ delta :=
  hdelta ▸ nearest_nonneg (sub_nonneg.mpr hb.lastUsed)

theorem product_nonneg (hlimit : 0 ≤ limit) (hperiod : 0 ≤ period) (hb : Fits limit period now b)
    (hdelta : delta = nearest (now - b.lastUsed)) : 0 ≤ product b delta := by
  have hquotient : 0 ≤ delta / b.period :=
    div_nonneg (delta_nonneg hb hdelta) (hb.period ▸ hperiod)
  have hcapacity : 0 ≤ b.capacity := hb.capacity ▸ hlimit
  have hcast : (0 : ℚ) ≤ b.capacity := by exact_mod_cast hcapacity
  exact nearest_nonneg (mul_nonneg (nearest_nonneg hquotient) (nearest_nonneg hcast))

/-- A refill is defined if nothing is infinite and the sum fits before it is capped. -/
theorem calcTokensDouble_eq_ok_iff (hlimit : 0 ≤ limit) (hperiod : 0 ≤ period)
    (hb : Fits limit period now b) (hdelta : delta = nearest (now - b.lastUsed)) :
    calcTokensDouble b now = .ok b' ↔
      b.period ≠ 0 ∧ (IsFinite delta ∧ IsFinite (nearest (delta / b.period))) ∧
        b.tokens + ⌊product b delta⌋ < 2 ^ 63 ∧
        b' = { b with tokens := min b.capacity (b.tokens + ⌊product b delta⌋) } := by
  have helapsed : 0 ≤ delta := delta_nonneg hb hdelta
  have hproduct : 0 ≤ product b delta := product_nonneg hlimit hperiod hb hdelta
  have hgain : 0 ≤ ⌊product b delta⌋ := Int.floor_nonneg.mpr hproduct
  have htokens := hb.nonneg
  have hcap : (if b.tokens + ⌊product b delta⌋ > b.capacity then b.capacity
      else b.tokens + ⌊product b delta⌋) = min b.capacity (b.tokens + ⌊product b delta⌋) := by
    rw [min_def]
    split_ifs <;> omega
  simp only [calcTokensDouble, ← hdelta, helapsed.not_gt, if_false, toLong, if_pos hproduct, hcap]
  by_cases hzero : b.period = 0
  · simp [hzero]
  by_cases hfinite : IsFinite delta ∧ IsFinite (nearest (delta / b.period))
  · rw [if_neg hzero, if_neg (not_not.mpr hfinite)]
    by_cases hsum : b.tokens + ⌊product b delta⌋ < 2 ^ 63
    · rw [if_neg (not_not.mpr ⟨by omega, by omega⟩), if_neg (not_not.mpr ⟨by omega, by omega⟩)]
      exact ⟨fun h => ⟨hzero, hfinite, hsum, (Except.ok.inj h).symm⟩, fun h => by rw [h.2.2.2]⟩
    · have hoverflow : ¬ IsLong (b.tokens + ⌊product b delta⌋) := fun h => hsum h.2
      refine iff_of_false (fun h => ?_) fun h => hsum h.2.2.1
      simp only [hoverflow, not_false_eq_true, if_true] at h
      split at h <;> cases h
  · simp [hzero, hfinite]

theorem fits_of_calcTokensDouble (hlimit : 0 ≤ limit) (hperiod : 0 ≤ period)
    (hb : Fits limit period now b) (h : calcTokensDouble b now = .ok b') :
    Fits limit period now b' ∧ b'.digest = b.digest := by
  obtain ⟨-, -, -, rfl⟩ := (calcTokensDouble_eq_ok_iff hlimit hperiod hb rfl).mp h
  have hgain : 0 ≤ ⌊product b (nearest (now - b.lastUsed))⌋ :=
    Int.floor_nonneg.mpr (product_nonneg hlimit hperiod hb rfl)
  have htokens := hb.nonneg
  refine ⟨⟨hb.period, hb.capacity, hb.lastUsed, ?_, ?_⟩, rfl⟩
  · exact le_min (hb.capacity ▸ hlimit) (by omega)
  · exact hb.capacity ▸ min_le_left _ _

/-- Where nothing is rounded the refill is the one in exact arithmetic. -/
theorem calcTokensDouble_of_isDouble (hdelta : IsDouble (now - b.lastUsed))
    (hquotient : IsDouble ((now - b.lastUsed) / b.period)) (hcapacity : IsDouble b.capacity)
    (hproduct : IsDouble ((now - b.lastUsed) / b.period * b.capacity))
    (hfinite : IsFinite (now - b.lastUsed) ∧ IsFinite ((now - b.lastUsed) / b.period)) :
    calcTokensDouble b now = calcTokensLong b now := by
  simp only [calcTokensDouble, calcTokensLong, product, nearest_of_isDouble hdelta,
    nearest_of_isDouble hquotient, nearest_of_isDouble hcapacity, nearest_of_isDouble hproduct,
    hfinite, and_self, not_true_eq_false, if_false]

/-- The bucket is one of the limit and the period of a tuple in `T`. -/
def Known (H : Hashing) (T : Set Tuple) (t : ℚ) (b : Tbucket) : Prop :=
  ∃ k ∈ T, H.doDigest k = b.digest ∧ Fits k.limit.toInt k.period t b

def Nonneg (T : Set Tuple) : Prop :=
  ∀ k ∈ T, 0 ≤ k.limit.toInt ∧ 0 ≤ k.period

theorem Known.mono (hb : Known H T t b) (ht : t ≤ now) : Known H T now b := by
  obtain ⟨k, hk, hd, hfits⟩ := hb
  exact ⟨k, hk, hd, hfits.mono ht⟩

theorem known_tbAlloc (hT : Nonneg T) (hk : k ∈ T) :
    Known H T now (tbAlloc (H.doDigest k) k.limit.toInt k.period now) :=
  ⟨k, hk, rfl, fits_tbAlloc (hT k hk).1 _⟩

theorem Known.calcTokens (hT : Nonneg T) (hb : Known H T now b)
    (h : machine.calcTokens b now = some b') : Known H T now b' := by
  obtain ⟨k, hk, hd, hfits⟩ := hb
  have hok : calcTokensDouble b now = .ok b' := by
    cases hcalc : calcTokensDouble b now with
    | error e => simp [machine, hcalc, Except.toOption] at h
    | ok b₁ => simpa [machine, hcalc, Except.toOption] using h
  obtain ⟨hfits', hdigest⟩ := fits_of_calcTokensDouble (hT k hk).1 (hT k hk).2 hfits hok
  exact ⟨k, hk, hd.trans hdigest.symm, hfits'⟩

theorem Known.denyUntil (hb : Known H T now b) (block ends : ℚ) :
    Known H T now (denyUntil b block now ends).2 := by
  obtain ⟨k, hk, hd, hfits⟩ := hb
  exact ⟨k, hk, hd.trans (denyUntil_digest b block now ends).symm, hfits.denyUntil block ends⟩

/-- A call that is defined leaves sensible buckets. -/
theorem known_call (hT : Nonneg T) (hvs : All (Known H T t) vs) (ht : t ≤ c.now)
    (hc : ∀ k, c.tuple = some k → k ∈ T) (h : machine.call H vs c = some (r, vs')) :
    All (Known H T c.now) vs' :=
  call_all (fun p b hb => (hvs p b hb).mono ht) (fun k hk => known_tbAlloc hT (hc k hk))
    (fun _ _ hb hcalc => hb.calcTokens hT hcalc) (fun _ block ends hb => hb.denyUntil block ends) h

theorem known_run (hT : Nonneg (tuples cs)) (hvs : Loaded vs) (hcs : Monotonic cs)
    (hrun : machine.run H cs vs = some (es, vs')) (hnow : ∀ c ∈ cs, c.now ≤ now) :
    All (Known H (tuples cs) now) vs' := by
  obtain ⟨t, ht⟩ := Machine.exists_le_clock_le hcs hnow
  have htimed := Machine.timed_of_forall (machine.call H) vs hcs ht.2
    (P := fun c => ∀ k, c.tuple = some k → k ∈ tuples cs) fun c hc k hk => ⟨c, hc, hk⟩
  refine htimed.run_inv (fun t vs => All (Known H (tuples cs) t) vs)
    (fun t vs c r vs' hvs ht hc h => known_call hT hvs ht hc h)
    (fun t t' vs hvs ht p b hb => (hvs p b hb).mono ht) hrun (fun p b hb => ?_) ht.1 hnow
  rw [hvs p] at hb
  simp at hb

/-- So is the bucket found or allocated for a tuple. -/
theorem known_fetch (hT : Nonneg (insert k T)) (hvs : All (Known H T now) vs) :
    ∃ k' ∈ insert k T, H.doDigest k' = H.doDigest k ∧
      Fits k'.limit.toInt k'.period now (fetch (H.doDigest k) k (bucketOf H vs k) now) := by
  cases hfind : bucketOf H vs k with
  | none =>
      have hk := Set.mem_insert k T
      exact ⟨k, hk, rfl, fits_tbAlloc (hT k hk).1 _⟩
  | some b =>
      obtain ⟨k', hk', hd, hfits⟩ := hvs _ b (List.mem_of_find?_eq_some hfind)
      have hdigest : b.digest = H.doDigest k := by simpa using List.find?_some hfind
      exact ⟨k', Set.mem_insert_of_mem k hk', hd.trans hdigest, hfits⟩

/-- The inputs for which the rounding does no harm: no whole number of tokens that there is room
for lies between the product of the doubles and the exact one. -/
structure Harmless (b : Tbucket) (delta : ℚ) : Prop where
  period : 0 < b.period
  finite : IsFinite delta ∧ IsFinite (nearest (delta / b.period))
  sum : product b delta < 2 ^ 63 - b.tokens
  between : ∀ n : ℤ, 0 < n → n ≤ b.capacity - b.tokens →
    (n ≤ product b delta ↔ n * b.period ≤ delta * b.capacity)

/-- Where nothing is rounded only the sum has to fit. -/
theorem harmless_iff_of_isDouble (hperiod : 0 < b.period) (hfinite : IsFinite delta)
    (hquotient : IsDouble (delta / b.period)) (hbounded : IsFinite (delta / b.period))
    (hcapacity : IsDouble b.capacity) (hproduct : IsDouble (delta / b.period * b.capacity)) :
    Harmless b delta ↔ delta * b.capacity < (2 ^ 63 - b.tokens) * b.period := by
  have heq : product b delta = delta * b.capacity / b.period := by
    rw [product, nearest_of_isDouble hquotient, nearest_of_isDouble hcapacity,
      nearest_of_isDouble hproduct, div_mul_eq_mul_div]
  rw [← div_lt_iff₀ hperiod, ← heq]
  constructor
  · exact Harmless.sum
  · intro hsum
    refine ⟨hperiod, ⟨hfinite, by rwa [nearest_of_isDouble hquotient]⟩, hsum, fun n _ _ => ?_⟩
    rw [heq, le_div_iff₀ hperiod]

/-- Two numbers are the same below a third one if they are not less than the same numbers. -/
theorem min_eq_min_iff {m n l : ℤ} (hl : 0 ≤ l) (hm : 0 ≤ m) (hn : 0 ≤ n) :
    min l m = min l n ↔ ∀ i, 0 < i → i ≤ l → (i ≤ m ↔ i ≤ n) := by
  constructor
  · intro h i _ hi
    constructor <;> intro hle <;> omega
  · intro h
    by_contra hne
    rcases lt_or_gt_of_ne hne with hlt | hlt
    · have := (h (min l n) (by omega) (min_le_left l n)).mpr (min_le_right l n)
      omega
    · have := (h (min l m) (by omega) (min_le_left l m)).mp (min_le_right l m)
      omega

theorem calcTokensDouble_eq_iff (hlimit : 0 ≤ limit) (hperiod : 0 ≤ period)
    (hb : Fits limit period now b) (hdelta : delta = nearest (now - b.lastUsed)) :
    calcTokensDouble b now = .ok { b with
        tokens := min b.capacity (b.tokens + ⌊delta * b.capacity / b.period⌋) } ↔
      Harmless b delta := by
  have helapsed : 0 ≤ delta := delta_nonneg hb hdelta
  have hgain : 0 ≤ ⌊product b delta⌋ :=
    Int.floor_nonneg.mpr (product_nonneg hlimit hperiod hb hdelta)
  have hcapacity : 0 ≤ b.capacity := hb.capacity ▸ hlimit
  have hcast : (0 : ℚ) ≤ b.capacity := by exact_mod_cast hcapacity
  have hle : b.tokens ≤ b.capacity := hb.capacity ▸ hb.le
  have hperiod : 0 ≤ b.period := hb.period ▸ hperiod
  have hexact : 0 ≤ ⌊delta * b.capacity / b.period⌋ := by
    rw [Int.floor_nonneg]
    positivity
  have hsum : b.tokens + ⌊product b delta⌋ < 2 ^ 63 ↔ product b delta < 2 ^ 63 - b.tokens := by
    rw [← lt_sub_iff_add_lt', Int.floor_lt]
    push_cast
    rfl
  have hmin : ∀ n : ℤ, min b.capacity (b.tokens + n) = b.tokens + min (b.capacity - b.tokens) n :=
    fun n => by omega
  rw [calcTokensDouble_eq_ok_iff hlimit (hb.period ▸ hperiod) hb hdelta, hsum]
  simp only [Tbucket.mk.injEq, true_and, and_true, hmin, add_right_inj]
  rw [min_eq_min_iff (by omega) hexact hgain]
  constructor
  · rintro ⟨hzero, hfinite, hfit, hbetween⟩
    have hpos : 0 < b.period := hperiod.lt_of_ne' hzero
    refine ⟨hpos, hfinite, hfit, fun n hn hroom => ?_⟩
    rw [← Int.le_floor, ← hbetween n hn hroom, Int.le_floor, le_div_iff₀ hpos]
  · rintro ⟨hpos, hfinite, hfit, hbetween⟩
    refine ⟨hpos.ne', hfinite, hfit, fun n hn hroom => ?_⟩
    rw [Int.le_floor, Int.le_floor, hbetween n hn hroom, le_div_iff₀ hpos]

def tupleZero : Tuple := ⟨str "a", 1, 0, 0⟩

def tupleHuge : Tuple := ⟨str "a", 2 ^ 62, 1, 0⟩

def tupleRound : Tuple := ⟨str "a", 49, 49, 0⟩

def bucketThen (k : Tuple) (now : ℚ) : Option Tbucket :=
  (machine.run longTable [k.call .isDenied 0] Vsthrottle.empty).map fun q =>
    fetch (longTable.doDigest k) k (bucketOf longTable q.2 k) now

end VarnishModules.VsthrottleDouble
