import VarnishModules.VsthrottleAgree

/-!
Runs with calls of `remaining` and `blocked`, and the same runs without them.

`remaining` stores the refill and leaves the time of the last use as it is, so the
same time can be credited again.
-/

namespace VarnishModules.VsthrottleObservers

open VarnishModules.TokenBucket
open VarnishModules.VsthrottleModel
open VarnishModules.VsthrottleStore
open VarnishModules.VsthrottleCell
open VarnishModules.VsthrottleAgree

def isDenial (c : Call) : Bool :=
  c.op = .isDenied

/-- If the call is of `remaining`, it has no whole token to add to the bucket, or enough
of them to fill it. -/
def Harmless (x : Option Tbucket) (c : Call) : Prop :=
  c.op = .remaining →
    ∀ b, x = some b → refill b c.now = 0 ∨ b.capacity ≤ b.tokens + refill b c.now

/-- Every bucket of the tuples is one of its limit and period. -/
structure AllFit (H : Hashing) (T : Set Tuple) (t : ℚ) (st : Store) : Prop where
  before : Before st t
  fits : ∀ k ∈ T, CellFits (H.doDigest k) k t (st.cell (H.doDigest k))

/-- The store of a run with the observers and the one without them. -/
structure Related (H : Hashing) (T : Set Tuple) (t : ℚ) (st st' : Store) : Prop where
  left : AllFit H T t st
  right : AllFit H T t st'
  gcCount : st.gcCount = st'.gcCount
  agree : ∀ k ∈ T, k.limit.toInt = 0 ∨
    Agree k t (st.cell (H.doDigest k)) (st'.cell (H.doDigest k))

/-- The digests of the tuples differ, and their limits and periods are sensible. -/
structure Sensible (H : Hashing) (T : Set Tuple) : Prop where
  injOn : Set.InjOn H.doDigest T
  limit : ∀ k ∈ T, 0 ≤ k.limit.toInt
  period : ∀ k ∈ T, 0 < k.period

def CallsOn (T : Set Tuple) (c : Call) : Prop :=
  ∀ k, c.tuple = some k → k ∈ T

variable {H : Hashing} {T : Set Tuple} {st st' st₁ : Store} {c : Call} {t now : ℚ}

theorem Sensible.separate (hT : Sensible H T) (hc : CallsOn T c) {k : Tuple} (hk : k ∈ T) :
    Separate H k c :=
  fun k' hk' heq => hT.injOn (hc k' hk') hk heq

theorem AllFit.inv (h : AllFit H T t st) {k : Tuple} (hk : k ∈ T) : Inv H k t st :=
  ⟨h.before, h.fits k hk⟩

theorem AllFit.mono (h : AllFit H T t st) (ht : t ≤ now) : AllFit H T now st :=
  ⟨h.before.mono ht, fun k hk => (h.fits k hk).mono ht⟩

theorem AllFit.step (hT : Sensible H T) (hc : CallsOn T c) (h : AllFit H T t st)
    (ht : t ≤ c.now) : ∃ r st', st.call H c = some (r, st') ∧ AllFit H T c.now st' := by
  obtain ⟨r, st', hcall, hbefore⟩ := h.before.call H c ht
  refine ⟨r, st', hcall, hbefore, fun k hk => ?_⟩
  obtain ⟨r₁, st₁, hcall₁, hinv⟩ :=
    (h.inv hk).step (hT.limit k hk) (hT.period k hk) ht (hT.separate hc hk)
  obtain ⟨rfl, rfl⟩ := Prod.mk.inj (Option.some.inj (hcall₁.symm.trans hcall))
  exact hinv.fits

theorem Related.mono (hT : Sensible H T) (h : Related H T t st st') (ht : t ≤ now) :
    Related H T now st st' :=
  ⟨h.left.mono ht, h.right.mono ht, h.gcCount, fun k hk => (h.agree k hk).imp_right fun hagree =>
    hagree.mono (hT.limit k hk) (hT.period k hk) (h.left.fits k hk) (h.right.fits k hk) ht⟩

theorem applyOp_of_limit_zero {d : Digest} {k : Tuple} {b : Tbucket} (hperiod : 0 < k.period)
    (hb : Holds d k now b) (hlimit : k.limit.toInt = 0) :
    (applyOp k.block b .isDenied now).1 = .denied true := by
  have hrefilled := hb.toFits.refilled hlimit.ge hperiod
  have hdenied := hrefilled.denyBucket k.block
  have htokens := hrefilled.le
  have htokens' := hdenied.nonneg
  rcases denyBucket_cases (refilled b now) k.block now with ⟨-, hpaid⟩ | ⟨hret, -⟩
  · cases hret : (denyBucket (refilled b now) k.block now).1 with
    | true => simp [applyOp, hret]
    | false =>
        rw [hret] at hpaid
        simp only [Bool.false_eq_true, if_false] at hpaid
        omega
  · simp [applyOp, hret]

theorem Related.result (hT : Sensible H T) (hc : CallsOn T c) (h : Related H T c.now st st')
    (hop : c.op = .isDenied) {r r' : Result} {st₁' : Store} (hcall : st.call H c = some (r, st₁))
    (hcall' : st'.call H c = some (r', st₁')) : r' = r := by
  cases hk : c.tuple with
  | none =>
      simp only [Store.call, hk, Option.some.injEq, Prod.mk.injEq] at hcall hcall'
      exact hcall'.1.symm.trans hcall.1
  | some k =>
      have hmem := hc k hk
      have hfits := h.left.fits k hmem
      have hfits' := h.right.fits k hmem
      have hlimit := hT.limit k hmem
      have hperiod := hT.period k hmem
      have hr := (own_or_other h.left.before (hT.separate hc hmem) hcall).resolve_right
        fun hother => hother.1 hk
      have hr' := (own_or_other h.right.before (hT.separate hc hmem) hcall').resolve_right
        fun hother => hother.1 hk
      rw [hr.2.1, hr'.2.1]
      by_cases hzero : k.limit.toInt = 0
      · rw [hop, applyOp_of_limit_zero hperiod (hfits.fetch hlimit) hzero,
          applyOp_of_limit_zero hperiod (hfits'.fetch hlimit) hzero]
      · have hagree := (h.agree k hmem).resolve_left hzero
        have hvisible : 0 < k.limit.toInt := lt_of_le_of_ne hlimit (Ne.symm hzero)
        exact (hagree.applyOp hlimit hperiod hfits hfits' (Or.inl hvisible) c.op).1.symm

/-- `is_denied` has the same result in both runs. -/
theorem Related.denial (hT : Sensible H T) (hc : CallsOn T c) (h : Related H T t st st')
    (ht : t ≤ c.now) (hop : c.op = .isDenied) :
    ∃ r st₁ st₁', st.call H c = some (r, st₁) ∧ st'.call H c = some (r, st₁') ∧
      Related H T c.now st₁ st₁' := by
  have h := h.mono hT ht
  obtain ⟨r, st₁, hcall, hleft⟩ := h.left.step hT hc (le_refl c.now)
  obtain ⟨r', st₁', hcall', hright⟩ := h.right.step hT hc (le_refl c.now)
  have hcollects : ∀ d, decide (Collects H st c d) = decide (Collects H st' c d) := fun d =>
    decide_eq_decide.mpr (by simp only [Collects, Store.CollectsNext, h.gcCount])
  refine ⟨r, st₁, st₁', hcall, ?_, hleft, hright, ?_, fun k hk => ?_⟩
  · rw [hcall', h.result hT hc hop hcall hcall']
  · funext p
    rw [call_gcCount hcall, call_gcCount hcall', h.gcCount]
  · by_cases hzero : k.limit.toInt = 0
    · exact Or.inl hzero
    have hagree := (h.agree k hk).resolve_left hzero
    refine Or.inr ?_
    have hvisible : 0 < k.limit.toInt := lt_of_le_of_ne (hT.limit k hk) (Ne.symm hzero)
    have hfits := h.left.fits k hk
    have hfits' := h.right.fits k hk
    have hcell := own_or_other h.left.before (hT.separate hc hk) hcall
    have hcell' := own_or_other h.right.before (hT.separate hc hk) hcall'
    rcases hcell with ⟨hown, -, hcell⟩ | ⟨hother, hcell⟩
    · rcases hcell' with ⟨-, -, hcell'⟩ | ⟨hother, -⟩
      · rw [hcell, hcell', hcollects]
        exact (hagree.applyOp (hT.limit k hk) (hT.period k hk) hfits hfits' (Or.inl hvisible)
          c.op).2.sweep (hT.limit k hk) (hT.period k hk)
            ((hfits.fetch (hT.limit k hk)).applyOp (hT.limit k hk) (hT.period k hk) c.op).some
            ((hfits'.fetch (hT.limit k hk)).applyOp (hT.limit k hk) (hT.period k hk) c.op).some _
      · exact absurd hown hother
    · rcases hcell' with ⟨hown, -⟩ | ⟨-, hcell'⟩
      · exact absurd hown hother
      · rw [hcell, hcell', hcollects]
        exact hagree.sweep (hT.limit k hk) (hT.period k hk) hfits hfits' _

/-- An observer changes no verdict to come. -/
theorem Related.observer (hT : Sensible H T) (hc : CallsOn T c) (h : Related H T t st st')
    (ht : t ≤ c.now) (hop : c.op ≠ .isDenied)
    (hharmless : ∀ k, c.tuple = some k → Harmless (st.cell (H.doDigest k)) c) :
    ∃ r st₁, st.call H c = some (r, st₁) ∧ Related H T c.now st₁ st' := by
  have h := h.mono hT ht
  obtain ⟨r, st₁, hcall, hleft⟩ := h.left.step hT hc (le_refl c.now)
  refine ⟨r, st₁, hcall, hleft, h.right, ?_, fun k hk => (h.agree k hk).imp_right fun hagree => ?_⟩
  · funext p
    rw [call_gcCount hcall, if_neg (fun hcounts => hop hcounts.1), h.gcCount]
  · have hlimit := hT.limit k hk
    have hperiod := hT.period k hk
    have hfits := h.left.fits k hk
    have hspared : decide (Collects H st c (H.doDigest k)) = false :=
      decide_eq_false fun hcollects => hop hcollects.1
    rcases own_or_other h.left.before (hT.separate hc hk) hcall with
      ⟨hown, -, hcell⟩ | ⟨-, hcell⟩
    · rw [hcell, hspared]
      have hharmless := hharmless k hown
      have hfetch := hfits.fetch hlimit
      have hfetched := hagree.fetch_left (d := H.doDigest k)
      cases hcop : c.op with
      | isDenied => exact absurd hcop hop
      | remaining =>
          refine hfetched.refill_left hlimit hperiod hfetch ?_
          cases hx : st.cell (H.doDigest k) with
          | none => exact Or.inl (by simp [fetch, tbAlloc, refill, toLong])
          | some b => exact hharmless hcop b hx
      | blocked => exact hfetched
    · rw [hcell, hspared]
      exact hagree

theorem related_loaded {vs : Vsthrottle} (hvs : Loaded vs) (T : Set Tuple) (t : ℚ) :
    Related H T t (abs vs) (abs vs) := by
  have hfit : AllFit H T t (abs vs) :=
    ⟨before_loaded hvs t, fun k _ => (inv_loaded hvs k t).fits⟩
  exact ⟨hfit, hfit, rfl, fun _ _ => Or.inr (Or.inl rfl)⟩

/-- If no call of `remaining` credits a part of a refill, the verdicts of `is_denied` are
those of the run without the observers. -/
theorem run_unobserved (H : Hashing) {vs : Vsthrottle} (hvs : Loaded vs) {cs : List Call}
    (hcs : Monotonic cs) (hH : H.InjectiveOn (tuples cs))
    (hlimit : ∀ k ∈ tuples cs, 0 ≤ k.limit.toInt) (hperiod : ∀ k ∈ tuples cs, 0 < k.period) :
    ∃ es vs' fs vs'', run H cs vs = some (es, vs') ∧
      run H (cs.filter isDenial) vs = some (fs, vs'') ∧
      ((∀ e ∈ es, ∀ k, e.input.tuple = some k → Harmless (bucketOf H e.before k) e.input) →
        Machine.outputs isDenial es = fs.map Machine.Event.output) := by
  obtain ⟨es, vs', hrun, hstore⟩ := run_loaded H hvs hcs
  obtain ⟨fs, vs'', hrun', hstore'⟩ := run_loaded H hvs (hcs.filter isDenial)
  refine ⟨es, vs', fs, vs'', hrun, hrun', fun hharmless => ?_⟩
  have hT : Sensible H (tuples cs) := ⟨hH.doDigest, hlimit, hperiod⟩
  obtain ⟨t, htimed⟩ := Machine.exists_timed (Store.call H) (abs vs) hcs
    (P := CallsOn (tuples cs)) fun c hc k hk => ⟨c, hc, hk⟩
  replace htimed := htimed.and_events
    (fun st c => ∀ k, c.tuple = some k → Harmless (st.cell (H.doDigest k)) c) hstore
    (List.forall_mem_map.mpr hharmless)
  obtain ⟨es', st₁, fs', st₂, hes', hfs', heq⟩ := htimed.project (Related H (tuples cs))
    (Store.call H) isDenial
    (fun t st st' c h ht hc hop => h.denial hT hc.1 ht (of_decide_eq_true hop))
    (fun t st st' c h ht hc hop => h.observer hT hc.1 ht (of_decide_eq_false hop) hc.2)
    (related_loaded hvs _ t)
  obtain ⟨rfl, -⟩ := Prod.mk.inj (Option.some.inj (hes'.symm.trans hstore))
  obtain ⟨rfl, -⟩ := Prod.mk.inj (Option.some.inj (hfs'.symm.trans hstore'))
  simpa [Machine.outputs, List.filter_map, Function.comp_def, Machine.Event.map] using heq

/-- Between two requests the bucket is looked at before a token is due and when it is full. -/
def calmRun : List Call :=
  [tupleA2.call .isDenied 0, tupleA2.call .remaining (1 / 4), tupleA2.call .blocked 1,
    tupleA2.call .remaining 2, tupleA2.call .isDenied 2]

theorem run_unobserved_calmRun :
    ∃ es vs' fs vs'', run table calmRun Vsthrottle.empty = some (es, vs') ∧
      run table [tupleA2.call .isDenied 0, tupleA2.call .isDenied 2] Vsthrottle.empty =
        some (fs, vs'') ∧
      Machine.outputs isDenial es = fs.map Machine.Event.output := by
  have htuples : ∀ k ∈ tuples calmRun, k = tupleA2 := by
    rintro k ⟨c, hc, hk⟩
    simp only [calmRun, List.mem_cons, List.not_mem_nil, or_false] at hc
    rcases hc with rfl | rfl | rfl | rfl | rfl <;> exact (Option.some.inj hk).symm
  have hinj : table.InjectiveOn (tuples calmRun) :=
    (table_injectiveOn_tuples (k := tupleA2) (by decide +kernel) (by decide +kernel)).mono
      (Set.subset_insert _ _)
  obtain ⟨es, vs', fs, vs'', hrun, hrun', heq⟩ := run_unobserved table loaded_empty
    (show Monotonic calmRun by unfold Monotonic; decide +kernel) hinj
    (fun k hk => htuples k hk ▸ by decide) (fun k hk => htuples k hk ▸ by norm_num [tupleA2])
  have hharmless : ∀ q ∈ run table calmRun Vsthrottle.empty, ∀ e ∈ q.1, e.input.op = .remaining →
      ∀ b ∈ bucketOf table e.before tupleA2,
        refill b e.input.now = 0 ∨ b.capacity ≤ b.tokens + refill b e.input.now := by
    decide +kernel
  refine ⟨es, vs', fs, vs'', hrun, hrun', heq fun e he k hk hop b hb => ?_⟩
  have hk' := htuples k ⟨e.input, Machine.input_mem_of_run hrun he, hk⟩
  exact hharmless _ hrun e he hop b (hk' ▸ hb)

/-- Two requests use up a limit of two, and half a period later one more is due. -/
def watchedRun : List Call :=
  [tupleA2.call .isDenied 0, tupleA2.call .isDenied 0, tupleA2.call .remaining 1,
    tupleA2.call .isDenied 1, tupleA2.call .isDenied 1]

/-- Without the call of `remaining` the last request is denied. -/
theorem not_unobserved_watchedRun :
    Monotonic watchedRun ∧ table.InjectiveOn (tuples watchedRun) ∧
      ∃ es vs' fs vs'', run table watchedRun Vsthrottle.empty = some (es, vs') ∧
        run table (watchedRun.filter isDenial) Vsthrottle.empty = some (fs, vs'') ∧
        Machine.outputs isDenial es ≠ fs.map Machine.Event.output := by
  have hmonotonic : Monotonic watchedRun := by
    unfold Monotonic
    decide +kernel
  have hinj : table.InjectiveOn (tuples watchedRun) :=
    (table_injectiveOn_tuples (k := tupleA2) (by decide +kernel) (by decide +kernel)).mono
      (Set.subset_insert _ _)
  have hvs := loaded_empty
  obtain ⟨es, vs', hrun, -⟩ := run_loaded table hvs hmonotonic
  obtain ⟨fs, vs'', hrun', -⟩ := run_loaded table hvs (hmonotonic.filter isDenial)
  have houtputs : (run table watchedRun Vsthrottle.empty).map
      (fun r => Machine.outputs isDenial r.1) =
      some [.denied false, .denied false, .denied false, .denied false] := by
    decide +kernel
  have houtputs' : (run table (watchedRun.filter isDenial) Vsthrottle.empty).map
      (fun r => r.1.map Machine.Event.output) =
      some [.denied false, .denied false, .denied false, .denied true] := by
    decide +kernel
  refine ⟨hmonotonic, hinj, es, vs', fs, vs'', hrun, hrun', ?_⟩
  rw [hrun] at houtputs
  rw [hrun'] at houtputs'
  intro heq
  have hsame := (Option.some.inj houtputs).symm.trans (heq.trans (Option.some.inj houtputs'))
  exact absurd hsame (by decide)

end VarnishModules.VsthrottleObservers
