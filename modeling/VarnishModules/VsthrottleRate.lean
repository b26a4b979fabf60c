import VarnishModules.VsthrottleCell

/-!
How many calls are admitted between two instants.

The tokens of a bucket and the fraction of a token that came in since it was last
used make up a level that no call fills and every admission takes one from.
-/

namespace VarnishModules.VsthrottleRate

open VarnishModules.TokenBucket
open VarnishModules.VsthrottleModel
open VarnishModules.VsthrottleStore
open VarnishModules.VsthrottleCell

def level (limit : ℤ) (period now : ℚ) (b : Tbucket) : ℚ :=
  min limit (b.tokens + limit / period * (now - b.lastUsed))

/-- A bucket that is not there counts as a full one. -/
def cellLevel (limit : ℤ) (period now : ℚ) : Option Tbucket → ℚ
  | none => limit
  | some b => level limit period now b

variable {limit : ℤ} {period now t : ℚ} {b : Tbucket}

theorem rate_nonneg (hlimit : 0 ≤ limit) (hperiod : 0 < period) : 0 ≤ (limit : ℚ) / period :=
  div_nonneg (by exact_mod_cast hlimit) hperiod.le

theorem level_nonneg (hlimit : 0 ≤ limit) (hperiod : 0 < period) (hb : Fits limit period now b) :
    0 ≤ level limit period now b := by
  have htokens : (0 : ℚ) ≤ b.tokens := by exact_mod_cast hb.nonneg
  have hgain := mul_nonneg (rate_nonneg hlimit hperiod) (sub_nonneg.mpr hb.lastUsed)
  exact le_min (by exact_mod_cast hlimit) (add_nonneg htokens hgain)

theorem level_idle (hlimit : 0 ≤ limit) (hperiod : 0 < period) (ht : t ≤ now) :
    level limit period now b ≤ level limit period t b + limit / period * (now - t) := by
  have hgain := mul_nonneg (rate_nonneg hlimit hperiod) (sub_nonneg.mpr ht)
  rw [level, level, ← min_add_add_right]
  apply min_le_min
  · linarith
  · apply le_of_eq
    ring

/-- The tokens after a refill are part of the level before it. -/
theorem refilled_tokens_le (hlimit : 0 ≤ limit) (hperiod : 0 < period)
    (hb : Fits limit period now b) : ((refilled b now).tokens : ℚ) ≤ level limit period now b := by
  obtain ⟨hrefill, -⟩ := hb.refill_eq hlimit hperiod (le_refl now)
  have hfloor := Int.floor_le ((now - b.lastUsed) / period * (limit : ℚ))
  have htokens : (refilled b now).tokens = min limit (b.tokens + refill b now) := by
    rw [refilled, hb.capacity]
  rw [htokens, level, Int.cast_min, Int.cast_add, hrefill]
  apply min_le_min_left
  apply add_le_add_right
  calc ((⌊(now - b.lastUsed) / period * (limit : ℚ)⌋ : ℤ) : ℚ)
      ≤ (now - b.lastUsed) / period * limit := hfloor
    _ = limit / period * (now - b.lastUsed) := by ring

/-- A bucket used just now holds its level. -/
theorem level_le_tokens (h : b.lastUsed = now) : level limit period now b ≤ b.tokens := by
  rw [level, h, sub_self, mul_zero, add_zero]
  exact min_le_right _ _

theorem denyBucket_level (hlimit : 0 ≤ limit) (hperiod : 0 < period)
    (hb : Fits limit period now b) (block : ℚ) :
    level limit period now (denyBucket (refilled b now) block now).2 +
        (if (denyBucket (refilled b now) block now).1 then 0 else 1) ≤
      level limit period now b := by
  rcases denyBucket_cases (refilled b now) block now with
    ⟨hused, hpaid⟩ | ⟨hdenied, htokens, hlast, hempty⟩
  · have hpaid' : ((denyBucket (refilled b now) block now).2.tokens : ℚ) +
        (if (denyBucket (refilled b now) block now).1 then 0 else 1) ≤
        (refilled b now).tokens := by
      exact_mod_cast hpaid
    calc _ ≤ _ := add_le_add_left (level_le_tokens hused) _
      _ ≤ _ := hpaid'
      _ ≤ _ := refilled_tokens_le hlimit hperiod hb
  · have hless : (refilled b now).tokens ≤ b.tokens := hempty.trans hb.nonneg
    have hless' : ((refilled b now).tokens : ℚ) ≤ b.tokens := by exact_mod_cast hless
    rw [hdenied, if_pos rfl, add_zero, level, htokens, hlast, level]
    exact min_le_min_left _ (add_le_add_left hless' _)

theorem level_of_expired (hlimit : 0 ≤ limit) (hperiod : 0 < period)
    (hb : Fits limit period now b) (h : expired now b = true) :
    level limit period now b = limit := by
  have htokens : (0 : ℚ) ≤ b.tokens := by exact_mod_cast hb.nonneg
  have hidle : period < now - b.lastUsed := by
    rw [← hb.period]
    exact of_decide_eq_true h
  have hgain := mul_le_mul_of_nonneg_left hidle.le (rate_nonneg hlimit hperiod)
  rw [div_mul_cancel₀ _ hperiod.ne'] at hgain
  exact min_eq_left (by linarith)

theorem cellLevel_sweep {d : Digest} {k : Tuple} (hlimit : 0 ≤ k.limit.toInt)
    (hperiod : 0 < k.period) {x : Option Tbucket} (hx : CellFits d k now x) (collects : Bool) :
    cellLevel k.limit.toInt k.period now (sweep collects now x) =
      cellLevel k.limit.toInt k.period now x := by
  rcases sweep_cases collects now x with heq | ⟨-, hnone, b, rfl, hb⟩
  · rw [heq]
  · rw [hnone]
    exact (level_of_expired hlimit hperiod (hx b rfl).toFits hb).symm

/-- The call is on `k`, and it is let through. -/
def Admitted {σ : Type} (k : Tuple) (e : Machine.Event σ Call Result) : Prop :=
  e.input.tuple = some k ∧ e.output = .denied false

instance {σ : Type} (k : Tuple) :
    DecidablePred (Admitted k : Machine.Event σ Call Result → Prop) :=
  fun _ => inferInstanceAs (Decidable (_ ∧ _))

theorem applyOp_level (hlimit : 0 ≤ limit) (hperiod : 0 < period) (hb : Fits limit period now b)
    (block : ℚ) {op : Op} (hop : op ≠ .remaining) :
    level limit period now (applyOp block b op now).2 +
        (if (applyOp block b op now).1 = .denied false then 1 else 0) ≤
      level limit period now b := by
  cases op with
  | isDenied =>
      have hlevel := denyBucket_level hlimit hperiod hb block
      cases hdenied : (denyBucket (refilled b now) block now).1 <;>
        simpa [applyOp, hdenied] using hlevel
  | remaining => exact absurd rfl hop
  | blocked => simp [applyOp]

/-- The level of the bucket of `k` pays for the calls on `k` that are let through. -/
theorem isPotential (H : Hashing) (k : Tuple) (hlimit : 0 ≤ k.limit.toInt)
    (hperiod : 0 < k.period) :
    Machine.IsPotential (Store.call H) Call.now
      (fun _ c => Separate H k c ∧ (c.tuple = some k → c.op ≠ .remaining)) (Inv H k) (Admitted k)
      (fun t st => cellLevel k.limit.toInt k.period t (st.cell (H.doDigest k)))
      k.limit.toInt (k.limit.toInt / k.period) where
  idle t t' st hst ht := by
    refine ⟨hst.mono ht, ?_⟩
    cases hcell : st.cell (H.doDigest k) with
    | none =>
        have hgain := mul_nonneg (rate_nonneg hlimit hperiod) (sub_nonneg.mpr ht)
        simpa [cellLevel] using hgain
    | some b => exact level_idle hlimit hperiod ht
  step st c r st' hst hc hcall := by
    obtain ⟨hsep, hop⟩ := hc
    obtain ⟨r₁, st₁, hcall₁, hst₁⟩ := hst.step hlimit hperiod (le_refl c.now) hsep
    obtain ⟨rfl, rfl⟩ := Prod.mk.inj (Option.some.inj (hcall₁.symm.trans hcall))
    refine ⟨hst₁, ?_⟩
    rcases own_or_other hst.before hsep hcall with ⟨hc, hr, hcell⟩ | ⟨hc, hcell⟩
    · have hfetch := hst.fetch hlimit
      have hsome := (hfetch.applyOp hlimit hperiod c.op).some
      have hlevel := applyOp_level hlimit hperiod hfetch.toFits k.block (hop hc)
      have hfull : level k.limit.toInt k.period c.now
          (fetch (H.doDigest k) k (st.cell (H.doDigest k)) c.now) ≤
          cellLevel k.limit.toInt k.period c.now (st.cell (H.doDigest k)) := by
        cases st.cell (H.doDigest k) with
        | none => exact min_le_left _ _
        | some b => exact le_refl _
      rw [hcell, cellLevel_sweep hlimit hperiod hsome]
      simp only [Admitted, hc, hr, true_and]
      exact hlevel.trans hfull
    · rw [hcell, cellLevel_sweep hlimit hperiod hst.fits]
      simp [Admitted, hc]
  nonneg t st hst := by
    cases hcell : st.cell (H.doDigest k) with
    | none =>
        change (0 : ℚ) ≤ k.limit.toInt
        exact_mod_cast hlimit
    | some b => exact level_nonneg hlimit hperiod (hst.fits b hcell).toFits
  le_cap t st _ := by
    cases st.cell (H.doDigest k) with
    | none => exact le_refl _
    | some b => exact min_le_left _ _
  rate_nonneg := rate_nonneg hlimit hperiod

/-- What `is_denied` lets through between two instants, whatever else is called. -/
theorem run_admitted_le (H : Hashing) {vs : Vsthrottle} (hvs : Loaded vs) {cs : List Call}
    (hcs : Monotonic cs) (k : Tuple) (hH : H.InjectiveOn (insert k (tuples cs)))
    (hlimit : 0 ≤ k.limit.toInt) (hperiod : 0 < k.period)
    (hremaining : ∀ c ∈ cs, c.tuple = some k → c.op ≠ .remaining) {t₁ t₂ : ℚ} (ht : t₁ ≤ t₂) :
    ∃ es vs', run H cs vs = some (es, vs') ∧
      (es.countP fun e => Admitted k e ∧ t₁ ≤ e.input.now ∧ e.input.now ≤ t₂ : ℚ) ≤
        k.limit.toInt + k.limit.toInt * (t₂ - t₁) / k.period := by
  obtain ⟨es, vs', hrun, hstore⟩ := run_loaded H hvs hcs
  obtain ⟨t, htimed⟩ := Machine.exists_timed (Store.call H) (abs vs) hcs
    (P := fun c => Separate H k c ∧ (c.tuple = some k → c.op ≠ .remaining))
    fun c hc => ⟨separate_of_injectiveOn hH c hc, hremaining c hc⟩
  have hcount := (isPotential H k hlimit hperiod).countP_between_le htimed hstore
    (inv_loaded hvs k t) ht
  rw [List.countP_map] at hcount
  refine ⟨es, vs', hrun, ?_⟩
  calc _ ≤ _ := hcount
    _ = _ := by ring

/-- Two calls at once on a limit of one. -/
theorem run_admitted_le_once :
    ∃ es vs', run table [tupleA.call .isDenied 0, tupleG.call .isDenied 0, tupleA.call .isDenied 0]
        Vsthrottle.empty = some (es, vs') ∧
      (es.countP fun e => Admitted tupleA e ∧ (0 : ℚ) ≤ e.input.now ∧ e.input.now ≤ 0 : ℚ) ≤ 1 := by
  obtain ⟨es, vs', hrun, hcount⟩ := run_admitted_le table loaded_empty
    (show Monotonic [tupleA.call .isDenied 0, tupleG.call .isDenied 0, tupleA.call .isDenied 0] by
      unfold Monotonic; decide +kernel) tupleA
    (table_injectiveOn_tuples (by decide +kernel) (by decide +kernel)) (by decide)
    (by norm_num [tupleA]) (by decide +kernel) (le_refl 0)
  have hlimit : tupleA.limit.toInt = 1 := by decide
  refine ⟨es, vs', hrun, hcount.trans ?_⟩
  norm_num [hlimit]

end VarnishModules.VsthrottleRate
