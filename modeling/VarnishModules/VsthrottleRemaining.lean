import VarnishModules.VsthrottleLong

/-!
What `remaining` promises: that many calls of `is_denied` at the same instant are
admitted, and the next one is not.
-/

namespace VarnishModules.VsthrottleRemaining

open VarnishModules.CStrings
open VarnishModules.TokenBucket
open VarnishModules.VsthrottleModel
open VarnishModules.VsthrottleStore
open VarnishModules.VsthrottleCell
open VarnishModules.VsthrottleLong

def Truthful (H : Hashing) (vs : Vsthrottle) (k : Tuple) (now : ℚ) : Prop :=
  ∃ (n : ℕ) (vs₁ : Vsthrottle) (es : List Event) (vs₂ : Vsthrottle),
    Call.runLong H vs (k.call .remaining now) = some (.remaining n, vs₁) ∧
    runLong H (List.replicate (n + 1) (k.call .isDenied now)) vs = some (es, vs₂) ∧
    es.map Machine.Event.output = List.replicate n (.denied false) ++ [.denied true]

/-- The bucket the next call on the tuple uses. -/
def bucketAt (H : Hashing) (vs : Vsthrottle) (k : Tuple) (now : ℚ) : Tbucket :=
  fetch (H.doDigest k) k (bucketOf H vs k) now

/-- The tuple has `m` tokens, and no block is in force. -/
structure Ready (H : Hashing) (k : Tuple) (now : ℚ) (m : ℤ) (vs : Vsthrottle) : Prop where
  wellFormed : WellFormed vs
  inv : Inv H k now (abs vs)
  notBlocked : ¬ (0 < k.block ∧ now < (bucketAt H vs k now).block)
  tokens : (refilled (bucketAt H vs k now) now).tokens = m
  isOk : (calcTokensLong (bucketAt H vs k now) now).isOk = true

variable {H : Hashing} {vs vs' : Vsthrottle} {k : Tuple} {now t : ℚ} {m : ℤ}

theorem refills_call (H : Hashing) (vs : Vsthrottle) (k : Tuple) {op : Op} (now : ℚ)
    (hop : op ≠ .blocked) :
    refills H vs (k.call op now) = some (bucketAt H vs k now) :=
  if_neg hop

/-- A call on the tuple, where the refill is defined. -/
theorem own_call (hlimit : 0 ≤ k.limit.toInt) (hperiod : 0 < k.period) (hvs : WellFormed vs)
    (hinv : Inv H k now (abs vs)) (op : Op) (hop : op ≠ .blocked)
    (hok : (calcTokensLong (bucketAt H vs k now) now).isOk = true) :
    ∃ vs' collects,
      Call.runLong H vs (k.call op now) =
        some ((applyOp k.block (bucketAt H vs k now) op now).1, vs') ∧
      WellFormed vs' ∧ Inv H k now (abs vs') ∧
      bucketOf H vs' k =
        sweep collects now (some (applyOp k.block (bucketAt H vs k now) op now).2) := by
  have hsep : Separate H k (k.call op now) := fun k' hk' _ => (Option.some.inj hk').symm
  obtain ⟨r, st', hcall, hinv'⟩ := hinv.step hlimit hperiod (le_refl now) hsep
  obtain ⟨⟨r₁, vs'⟩, hrun, heq⟩ :=
    Option.map_eq_some_iff.mp ((call_refines H hvs (k.call op now)).1.trans hcall)
  obtain ⟨rfl, rfl⟩ := Prod.mk.inj heq
  have hlong : Call.runLong H vs (k.call op now) = some (r₁, vs') := by
    rw [Call.runLong, refills_call H vs k now hop, if_pos (by simpa [Tuple.call] using hok), hrun]
  rcases own_or_other hinv.before hsep hcall with ⟨-, hr, hcell⟩ | ⟨hne, -⟩
  · have hr' : r₁ = (applyOp k.block (bucketAt H vs k now) op now).1 := hr
    exact ⟨vs', _, hr' ▸ hlong, (call_refines H hvs _).2 _ _ hrun, hinv', hcell⟩
  · exact absurd rfl hne

/-- A token is spent, and the bucket is one just used. -/
theorem Ready.admitted (hlimit : 0 ≤ k.limit.toInt) (hperiod : 0 < k.period) (hnow : 0 ≤ now)
    (hvs : Ready H k now (m + 1) vs) (hm : 0 ≤ m) :
    ∃ vs', Call.runLong H vs (k.call .isDenied now) = some (.denied false, vs') ∧
      Ready H k now m vs' := by
  obtain ⟨vs', collects, hrun, hwf, hinv, hbucket⟩ :=
    own_call hlimit hperiod hvs.wellFormed hvs.inv .isDenied (by decide) hvs.isOk
  have htokens := hvs.tokens
  have hdeny := denyBucket_admitted (b := refilled (bucketAt H vs k now) now) hvs.notBlocked
    (by omega)
  rw [applyOp, hdeny, htokens, add_sub_cancel_right] at hbucket hrun
  obtain ⟨b, hb, hused, hb_tokens, hblock⟩ : ∃ b, bucketOf H vs' k = some b ∧
      b.lastUsed = now ∧ b.tokens = m ∧ (0 < k.block → b.block = 0) := by
    rcases sweep_cases collects now (some { refilled (bucketAt H vs k now) now with
        lastUsed := now, tokens := m,
        block := if 0 < k.block then 0 else (refilled (bucketAt H vs k now) now).block })
      with heq | ⟨-, -, b, hb, hexpired⟩
    · exact ⟨_, hbucket.trans heq, rfl, rfl, fun hpos => if_pos hpos⟩
    · -- a bucket used just now is not collected
      obtain rfl := Option.some.inj hb
      have hfits := (hvs.inv.fetch hlimit).period
      have hidle : k.period < now - now := hfits ▸ of_decide_eq_true hexpired
      rw [sub_self] at hidle
      exact absurd hidle hperiod.not_gt
  have hbucketAt : bucketAt H vs' k now = b := by
    rw [bucketAt, hb]
    rfl
  have hfits := (hinv.fits b hb).toFits
  have hlong := Int64.toInt_lt k.limit
  have hle := hfits.le
  have hrefilled : refilled b now = b := refilled_of_used hused (hfits.capacity.symm ▸ hle)
  refine ⟨vs', hrun, hwf, hinv, ?_, ?_, ?_⟩
  · rw [hbucketAt]
    rintro ⟨hpos, hlt⟩
    rw [hblock hpos] at hlt
    exact hlt.not_ge hnow
  · rw [hbucketAt, hrefilled, hb_tokens]
  · rw [hbucketAt]
    rcases calcTokensLong_cases hlimit hperiod.le hfits with ⟨-, hok⟩ | ⟨hsum, -⟩
    · rw [hok]
      rfl
    · refine absurd ?_ hsum
      have hroom : (b.tokens : ℚ) < 2 ^ 63 := by exact_mod_cast hle.trans_lt hlong
      rw [hused, sub_self, zero_mul]
      exact mul_pos (sub_pos.mpr hroom) hperiod

theorem Ready.denied (hlimit : 0 ≤ k.limit.toInt) (hperiod : 0 < k.period)
    (hvs : Ready H k now 0 vs) :
    ∃ vs', Call.runLong H vs (k.call .isDenied now) = some (.denied true, vs') := by
  obtain ⟨vs', -, hrun, -⟩ :=
    own_call hlimit hperiod hvs.wellFormed hvs.inv .isDenied (by decide) hvs.isOk
  have hempty := denyBucket_empty (b := refilled (bucketAt H vs k now) now) hvs.notBlocked
    (by rw [hvs.tokens]; omega)
  rw [applyOp, hempty] at hrun
  exact ⟨vs', hrun⟩

/-- As many requests are admitted as there are tokens. -/
theorem Ready.run (hlimit : 0 ≤ k.limit.toInt) (hperiod : 0 < k.period) (hnow : 0 ≤ now)
    (n : ℕ) (hm : 0 ≤ m) (hvs : Ready H k now (m + n) vs) :
    ∃ es vs', runLong H (List.replicate n (k.call .isDenied now)) vs = some (es, vs') ∧
      es.map Machine.Event.output = List.replicate n (.denied false) ∧ Ready H k now m vs' := by
  induction n generalizing vs with
  | zero => exact ⟨[], vs, rfl, rfl, by simpa using hvs⟩
  | succ n ih =>
      rw [Nat.cast_succ, ← add_assoc] at hvs
      obtain ⟨vs₁, hstep, hvs₁⟩ := hvs.admitted hlimit hperiod hnow (by omega)
      obtain ⟨es, vs₂, hrest, houtputs, hvs₂⟩ := ih hvs₁
      refine ⟨_, vs₂, Machine.run_cons hstep hrest, ?_, hvs₂⟩
      rw [List.map_cons, houtputs, List.replicate_succ]

/-- What `remaining` returns is the truth if the refill is defined and the tokens fit an
`unsigned`. -/
theorem truthful_iff (hlimit : 0 ≤ k.limit.toInt) (hperiod : 0 < k.period) (hnow : 0 ≤ now)
    (hvs : WellFormed vs) (hinv : Inv H k now (abs vs))
    (hblock : ¬ (0 < k.block ∧ now < (bucketAt H vs k now).block)) :
    Truthful H vs k now ↔ (calcTokensLong (bucketAt H vs k now) now).isOk = true ∧
      (refilled (bucketAt H vs k now) now).tokens < 2 ^ 32 := by
  have hnonneg : 0 ≤ (refilled (bucketAt H vs k now) now).tokens :=
    ((hinv.fetch hlimit).toFits.refilled hlimit hperiod).nonneg
  constructor
  · rintro ⟨n, vs₁, es, vs₂, hremaining, hrun, houtputs⟩
    have hok := (Call.run_of_runLong hremaining).2 _ (refills_call H vs k now (by decide))
    have hready : Ready H k now (refilled (bucketAt H vs k now) now).tokens vs :=
      ⟨hvs, hinv, hblock, rfl, hok⟩
    refine ⟨hok, not_le.mp fun hlarge => ?_⟩
    obtain ⟨vs₃, -, hown, -⟩ := own_call hlimit hperiod hvs hinv .remaining (by decide) hok
    rw [hown] at hremaining
    obtain ⟨hresult, -⟩ := Prod.mk.inj (Option.some.inj hremaining)
    have hn : (refilled (bucketAt H vs k now) now).tokens % 2 ^ 32 = n :=
      Result.remaining.inj hresult
    -- the next request is admitted as well
    obtain ⟨es', vs₄, hrun', houtputs', -⟩ := Ready.run hlimit hperiod hnow (n + 1)
      (m := (refilled (bucketAt H vs k now) now).tokens - (n + 1 : ℕ)) (by omega)
      (by simpa using hready)
    rw [hrun] at hrun'
    obtain ⟨rfl, -⟩ := Prod.mk.inj (Option.some.inj hrun')
    rw [houtputs, List.replicate_succ'] at houtputs'
    simp at houtputs'
  · rintro ⟨hok, hsmall⟩
    obtain ⟨n, hn⟩ := Int.eq_ofNat_of_zero_le hnonneg
    have hready : Ready H k now (0 + n) vs := ⟨hvs, hinv, hblock, by rw [zero_add, hn], hok⟩
    obtain ⟨vs₁, -, hown, -⟩ := own_call hlimit hperiod hvs hinv .remaining (by decide) hok
    obtain ⟨es, vs₂, hrun, houtputs, hempty⟩ := hready.run hlimit hperiod hnow n le_rfl
    obtain ⟨vs₃, hlast⟩ := hempty.denied hlimit hperiod
    refine ⟨n, vs₁, es ++ [⟨vs₂, k.call .isDenied now, .denied true⟩], vs₃, ?_, ?_, ?_⟩
    · rw [hown, applyOp, Int.emod_eq_of_lt hnonneg hsmall, hn]
    · rw [List.replicate_succ']
      exact Machine.run_append hrun (Machine.run_cons hlast Machine.run_nil)
    · rw [List.map_append, houtputs]
      rfl

variable {limit : ℤ} {period : ℚ} {b : Tbucket}

/-- The tokens fit an `unsigned` if the limit does, or if not so many have come in. -/
theorem refilled_lt_iff (hlimit : 0 ≤ limit) (hperiod : 0 < period)
    (hb : Fits limit period now b) :
    (refilled b now).tokens < 2 ^ 32 ↔
      limit < 2 ^ 32 ∨ (now - b.lastUsed) * limit < (2 ^ 32 - b.tokens) * period := by
  have hsum := add_refill_lt_iff hlimit hperiod hb (2 ^ 32)
  rw [Int.cast_pow, Int.cast_ofNat] at hsum
  rw [← hsum, refilled, hb.capacity]
  exact min_lt_iff

theorem isOk_iff (hlimit : 0 ≤ limit) (hperiod : 0 < period) (hb : Fits limit period now b) :
    (calcTokensLong b now).isOk = true ↔
      (now - b.lastUsed) * limit < (2 ^ 63 - b.tokens) * period := by
  rcases calcTokensLong_cases hlimit hperiod.le hb with ⟨hsum, hok⟩ | ⟨hsum, herror⟩
  · exact iff_of_true (by rw [hok]; rfl) hsum
  · exact iff_of_false (by simp [herror]) hsum

/-- After any calls, `remaining` tells the truth about a tuple without a block in force, just
when the refill fits a `long` and the refilled tokens fit an `unsigned`. -/
theorem run_truthful_iff (H : Hashing) {vs : Vsthrottle} (hvs : Loaded vs) {cs : List Call}
    (hcs : Monotonic cs) (k : Tuple) (hlimit : 0 ≤ k.limit.toInt) (hperiod : 0 < k.period)
    (hH : H.InjectiveOn (insert k (tuples cs))) {es : List Event} {vs' : Vsthrottle}
    (hrun : runLong H cs vs = some (es, vs')) {now : ℚ} (hnow : ∀ c ∈ cs, c.now ≤ now)
    (hclock : 0 ≤ now) (hblock : ¬ (0 < k.block ∧ now < (bucketAt H vs' k now).block)) :
    Truthful H vs' k now ↔
      (now - (bucketAt H vs' k now).lastUsed) * k.limit.toInt <
          (2 ^ 63 - (bucketAt H vs' k now).tokens) * k.period ∧
        (k.limit.toInt < 2 ^ 32 ∨ (now - (bucketAt H vs' k now).lastUsed) * k.limit.toInt <
          (2 ^ 32 - (bucketAt H vs' k now).tokens) * k.period) := by
  obtain ⟨t, ht⟩ := Machine.exists_le_clock_le hcs hnow
  have htimed := Machine.timed_of_forall (Call.run H) vs hcs ht.2 (separate_of_injectiveOn hH)
  have hreach : WellFormed vs' ∧ Inv H k now (abs vs') := by
    refine htimed.run_inv (fun t vs => WellFormed vs ∧ Inv H k t (abs vs))
      (fun t vs c r vs' hI ht hsep h => ?_) (fun t t' vs hI ht => ⟨hI.1, hI.2.mono ht⟩)
      (run_of_runLong hrun) ⟨wellFormed_loaded hvs, inv_loaded hvs k t⟩ ht.1 hnow
    obtain ⟨r₁, st', hcall, hinv⟩ := hI.2.step hlimit hperiod ht hsep
    have hcall' := (call_refines H hI.1 c).1
    rw [h, hcall] at hcall'
    obtain ⟨-, rfl⟩ := Prod.mk.inj (Option.some.inj hcall')
    exact ⟨(call_refines H hI.1 c).2 r vs' h, hinv⟩
  have hfits : Fits k.limit.toInt k.period now (bucketAt H vs' k now) :=
    (hreach.2.fetch hlimit).toFits
  rw [truthful_iff hlimit hperiod hclock hreach.1 hreach.2 hblock, isOk_iff hlimit hperiod hfits,
    refilled_lt_iff hlimit hperiod hfits]

theorem run_truthful_iff_tupleA :
    ∃ es vs', runLong table [tupleA.call .isDenied 0] Vsthrottle.empty = some (es, vs') ∧
      (Truthful table vs' tupleA 1 ↔
        (1 - (bucketAt table vs' tupleA 1).lastUsed) * tupleA.limit.toInt <
            (2 ^ 63 - (bucketAt table vs' tupleA 1).tokens) * tupleA.period ∧
          (tupleA.limit.toInt < 2 ^ 32 ∨
            (1 - (bucketAt table vs' tupleA 1).lastUsed) * tupleA.limit.toInt <
              (2 ^ 32 - (bucketAt table vs' tupleA 1).tokens) * tupleA.period)) := by
  have hsome : (runLong table [tupleA.call .isDenied 0] Vsthrottle.empty).isSome = true := by
    decide +kernel
  obtain ⟨⟨es, vs'⟩, hrun⟩ := Option.isSome_iff_exists.mp hsome
  exact ⟨es, vs', hrun, run_truthful_iff table loaded_empty (List.pairwise_singleton _ _) tupleA
    (by decide) (by norm_num [tupleA])
    (table_injectiveOn_tuples (by decide) (by decide)) hrun (by simp [Tuple.call]) zero_le_one
    (fun h => absurd h.1 (by norm_num [tupleA]))⟩

def tupleWide : Tuple := ⟨str "a", 2 ^ 32, 1, 0⟩

/-- A full bucket of `2 ^ 32` tokens: `remaining` returns 0, and a request is admitted. -/
theorem not_truthful_tupleWide : ¬ Truthful longTable Vsthrottle.empty tupleWide 0 := by
  rintro ⟨n, vs₁, es, vs₂, hremaining, hrun, houtputs⟩
  have hzero : (Call.runLong longTable Vsthrottle.empty (tupleWide.call .remaining 0)).map
      Prod.fst = some (.remaining 0) := by
    decide +kernel
  rw [hremaining] at hzero
  obtain rfl : n = 0 := by exact_mod_cast Result.remaining.inj (Option.some.inj hzero)
  have hadmitted : (runLong longTable [tupleWide.call .isDenied 0] Vsthrottle.empty).map
      (fun q => q.1.map Machine.Event.output) = some [.denied false] := by
    decide +kernel
  rw [show [tupleWide.call .isDenied 0] = List.replicate (0 + 1) (tupleWide.call .isDenied 0)
    from rfl, hrun] at hadmitted
  exact absurd (houtputs.symm.trans (Option.some.inj hadmitted)) (by decide)

end VarnishModules.VsthrottleRemaining
