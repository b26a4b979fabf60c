import VarnishModules.VsthrottleCell

/-!
How long a block lasts.

A collection looks at the time of the last use only, and the deadline of a block
goes with the bucket.
-/

namespace VarnishModules.VsthrottleBlock

open VarnishModules.TokenBucket
open VarnishModules.VsthrottleModel
open VarnishModules.VsthrottleStore
open VarnishModules.VsthrottleCell

/-- `is_denied` finds the bucket of `k` empty, and no block in force. -/
def Exhausts (k : Tuple) (x : Option Tbucket) (c : Call) : Prop :=
  c.op = .isDenied ∧ c.tuple = some k ∧
    ∃ b b', x = some b ∧ calcTokens b c.now = some b' ∧ b'.tokens ≤ 0 ∧ ¬ c.now < b'.block

/-- A call on `k` before the deadline meets the block. -/
def Honours (k : Tuple) (deadline : ℚ) (c : Call) (r : Result) : Prop :=
  c.tuple = some k → c.now < deadline →
    (c.op = .isDenied → r = .denied true) ∧ (c.op = .blocked → r = .blocked (deadline - c.now))

/-- A call on another tuple collects the bucket of `k` with a block in force. -/
def LiftsBlock (H : Hashing) (k : Tuple) (gcCount : Nat) (x : Option Tbucket) (c : Call) : Prop :=
  c.op = .isDenied ∧ c.tuple ≠ some k ∧
    (c.tuple.map fun k' => partOf (H.doDigest k')) = some (partOf (H.doDigest k)) ∧
    gcCount + 1 = gcIntvl ∧
    ∃ b, x = some b ∧ c.now < b.block ∧ expired c.now b = true

/-- The bucket of `k` has the deadline. -/
structure BlockedUntil (H : Hashing) (k : Tuple) (deadline t : ℚ) (st : Store) : Prop where
  inv : Inv H k t st
  cell : t < deadline → ∃ b, st.cell (H.doDigest k) = some b ∧ b.block = deadline

variable {H : Hashing} {k : Tuple} {st st' : Store} {c : Call} {r : Result} {t deadline : ℚ}

theorem applyOp_of_blocked {b : Tbucket} {limit : ℤ} {now : ℚ} (hb : Fits limit k.period t b)
    (hperiod : 0 < k.period) (hblock : 0 < k.block) (hnow : now < b.block) (op : Op) :
    ((op = .isDenied → (applyOp k.block b op now).1 = .denied true) ∧
        (op = .blocked → (applyOp k.block b op now).1 = .blocked (b.block - now))) ∧
      (applyOp k.block b op now).2.block = b.block ∧
      (op = .isDenied → ¬ expired now (applyOp k.block b op now).2 = true) := by
  cases op with
  | isDenied =>
      have hdeny := denyBucket_blocked (b := refilled b now) ⟨hblock, hnow⟩
      simp only [applyOp, hdeny]
      refine ⟨⟨fun _ => trivial, nofun⟩, rfl, fun _ hexpired => ?_⟩
      have hidle : b.period < now - now := of_decide_eq_true hexpired
      rw [hb.period, sub_self] at hidle
      exact absurd hidle (not_lt.mpr hperiod.le)
  | remaining => exact ⟨⟨nofun, nofun⟩, rfl, nofun⟩
  | blocked =>
      refine ⟨⟨nofun, fun _ => ?_⟩, rfl, nofun⟩
      have hpositive : ¬ b.block - now ≤ 0 := by linarith
      simp [applyOp, hpositive]

/-- The denial that starts a block. -/
theorem blockedUntil_of_exhausts (hlimit : 1 ≤ k.limit.toInt) (hperiod : 0 < k.period)
    (hblock : 0 < k.block) (hst : Inv H k c.now st) (hst' : Inv H k c.now st')
    (hsep : Separate H k c) (hcall : st.call H c = some (r, st'))
    (h : Exhausts k (st.cell (H.doDigest k)) c) :
    BlockedUntil H k (c.now + k.block) c.now st' := by
  obtain ⟨hop, hc, b, b', hb, hcalc, hempty, hfree⟩ := h
  have hfits := (hst.fits b hb).toFits
  obtain rfl : refilled b c.now = b' :=
    Option.some.inj ((calcTokens_eq hfits.lastUsed).symm.trans hcalc)
  have hdeny : denyBucket (refilled b c.now) k.block c.now = _ := denyBucket_empty
    (fun hblocked => hfree hblocked.2) (not_lt.mpr hempty)
  rcases own_or_other hst.before hsep hcall with ⟨-, -, hcell⟩ | ⟨hne, -⟩
  · have hfetch : fetch (H.doDigest k) k (st.cell (H.doDigest k)) c.now = b := by
      rw [hb]
      rfl
    rw [hfetch, hop, applyOp, hdeny, if_pos hblock] at hcell
    refine ⟨hst', fun _ => ?_⟩
    rcases sweep_cases (Collects H st c (H.doDigest k)) c.now (some { refilled b c.now with
      block := c.now + k.block }) with heq | ⟨-, -, b₁, hb₁, hexpired⟩
    · exact ⟨_, hcell.trans heq, rfl⟩
    · obtain rfl := Option.some.inj hb₁
      have hgain := hfits.le_refill_of_expired (by omega) hperiod hexpired
      have hnonneg := hfits.nonneg
      have htokens : (refilled b c.now).tokens = min k.limit.toInt (b.tokens + refill b c.now) := by
        rw [refilled, hfits.capacity]
      omega
  · exact absurd hc hne

/-- A block in force is met by the calls on `k` and left alone by the others. -/
theorem BlockedUntil.step (hlimit : 1 ≤ k.limit.toInt) (hperiod : 0 < k.period)
    (hblock : 0 < k.block) (hst : BlockedUntil H k deadline t st) (ht : t ≤ c.now)
    (hsep : Separate H k c)
    (hkept : ¬ LiftsBlock H k (st.gcCount (partOf (H.doDigest k))) (st.cell (H.doDigest k)) c)
    (hcall : st.call H c = some (r, st')) :
    Honours k deadline c r ∧ BlockedUntil H k deadline c.now st' := by
  obtain ⟨r₁, st₁, hcall₁, hinv⟩ := hst.inv.step (by omega) hperiod ht hsep
  obtain ⟨rfl, rfl⟩ := Prod.mk.inj (Option.some.inj (hcall₁.symm.trans hcall))
  by_cases hnow : c.now < deadline
  · obtain ⟨b, hb, hdeadline⟩ := hst.cell (ht.trans_lt hnow)
    have hfetch : fetch (H.doDigest k) k (st.cell (H.doDigest k)) c.now = b := by
      rw [hb]
      rfl
    rcases own_or_other (hst.inv.before.mono ht) hsep hcall with ⟨hc, hr, hcell⟩ | ⟨hc, hcell⟩
    · rw [hfetch] at hr hcell
      obtain ⟨hblocked, hspared⟩ := applyOp_of_blocked (hst.inv.fits b hb).toFits hperiod hblock
        (hdeadline ▸ hnow) c.op
      refine ⟨fun _ _ => hr ▸ hdeadline ▸ hblocked, hinv, fun _ => ?_⟩
      refine ⟨_, ?_, hdeadline ▸ hspared.1⟩
      rcases sweep_cases (Collects H st c (H.doDigest k)) c.now
        (some (applyOp k.block b c.op c.now).2) with heq | ⟨hcollects, -, b₁, hb₁, hexpired⟩
      · exact hcell.trans heq
      · obtain rfl := Option.some.inj hb₁
        have hop : c.op = .isDenied := (of_decide_eq_true hcollects).1
        exact absurd hexpired (hspared.2 hop)
    · rw [hb] at hcell
      refine ⟨fun hc' => absurd hc' hc, hinv, fun _ => ?_⟩
      rcases sweep_cases (Collects H st c (H.doDigest k)) c.now (some b) with
        heq | ⟨hcollects, -, b₁, hb₁, hexpired⟩
      · exact ⟨b, hcell.trans heq, hdeadline⟩
      · obtain rfl := Option.some.inj hb₁
        obtain ⟨hop, hpart, hnext⟩ := of_decide_eq_true hcollects
        exact absurd ⟨hop, hc, hpart, hnext, b, hb, hdeadline ▸ hnow, hexpired⟩ hkept
  · exact ⟨fun _ hlt => absurd hlt hnow, hinv, fun hlt => absurd hlt hnow⟩

/-- If no call lifts a block, every block is honoured until its deadline. -/
theorem run_honours (H : Hashing) {vs : Vsthrottle} (hvs : Loaded vs) {cs : List Call}
    (hcs : Monotonic cs) (k : Tuple) (hH : H.InjectiveOn (insert k (tuples cs)))
    (hlimit : 1 ≤ k.limit.toInt) (hperiod : 0 < k.period) (hblock : 0 < k.block) :
    ∃ es vs', run H cs vs = some (es, vs') ∧
      ((∀ e ∈ es, ¬ LiftsBlock H k (e.before (partOf (H.doDigest k))).gcCount
          (bucketOf H e.before k) e.input) →
        es.Pairwise fun e e' => Exhausts k (bucketOf H e.before k) e.input →
          Honours k (e.input.now + k.block) e'.input e'.output) := by
  obtain ⟨es, vs', hrun, hstore⟩ := run_loaded H hvs hcs
  refine ⟨es, vs', hrun, fun hkept => ?_⟩
  obtain ⟨t, htimed⟩ := Machine.exists_timed (Store.call H) (abs vs) hcs
    (separate_of_injectiveOn hH)
  replace htimed := htimed.and_events
    (fun st c =>
      ¬ LiftsBlock H k (st.gcCount (partOf (H.doDigest k))) (st.cell (H.doDigest k)) c) hstore
    (List.forall_mem_map.mpr hkept)
  have hpairwise := htimed.pairwise_event (Inv H k)
    (fun e t st => Exhausts k (e.before.cell (H.doDigest k)) e.input →
      BlockedUntil H k (e.input.now + k.block) t st)
    (Q := fun e e' => Exhausts k (e.before.cell (H.doDigest k)) e.input →
      Honours k (e.input.now + k.block) e'.input e'.output)
    (fun t st c r st' hst ht hc hcall => by
      obtain ⟨r₁, st₁, hcall₁, hst'⟩ := hst.step (by omega) hperiod ht hc.1
      obtain ⟨rfl, rfl⟩ := Prod.mk.inj (Option.some.inj (hcall₁.symm.trans hcall))
      exact ⟨hst', blockedUntil_of_exhausts hlimit hperiod hblock (hst.mono ht) hst' hc.1 hcall⟩)
    (fun e t st c r st' hst ht hc hcall =>
      ⟨fun he => ((hst he).step hlimit hperiod hblock ht hc.1 hc.2 hcall).1,
        fun he => ((hst he).step hlimit hperiod hblock ht hc.1 hc.2 hcall).2⟩)
    hstore (inv_loaded hvs k t)
  rw [List.pairwise_map] at hpairwise
  exact hpairwise

/-- The block of a tuple that no other call interferes with. -/
theorem run_honours_alone :
    ∃ es vs', run table [tupleA10.call .isDenied 0, tupleA10.call .isDenied 0,
        tupleA10.call .isDenied 6, tupleA10.call .blocked 7] Vsthrottle.empty = some (es, vs') ∧
      es.Pairwise fun e e' => Exhausts tupleA10 (bucketOf table e.before tupleA10) e.input →
        Honours tupleA10 (e.input.now + tupleA10.block) e'.input e'.output := by
  obtain ⟨es, vs', hrun, hhonours⟩ := run_honours table loaded_empty
    (show Monotonic [tupleA10.call .isDenied 0, tupleA10.call .isDenied 0,
      tupleA10.call .isDenied 6, tupleA10.call .blocked 7] by unfold Monotonic; decide +kernel)
    tupleA10
    (table_injectiveOn_tuples (by decide +kernel) (by decide +kernel)) (by decide)
    (by norm_num [tupleA10]) (by norm_num [tupleA10])
  refine ⟨es, vs', hrun, hhonours fun e he hlifts => hlifts.2.1 ?_⟩
  have hinput := Machine.input_mem_of_run hrun he
  simp only [List.mem_cons, List.not_mem_nil, or_false] at hinput
  rcases hinput with heq | heq | heq | heq <;> simp [heq]

/-- After a call that lifts a block, `is_denied` lets the next request through. -/
theorem admitted_of_liftsBlock (hlimit : 1 ≤ k.limit.toInt) (hperiod : 0 < k.period)
    (hst : Inv H k c.now st) (hnow : 0 ≤ c.now) (hsep : Separate H k c)
    (hlift : LiftsBlock H k (st.gcCount (partOf (H.doDigest k))) (st.cell (H.doDigest k)) c)
    (hcall : st.call H c = some (r, st')) :
    ∃ st'', st'.call H (k.call .isDenied c.now) = some (.denied false, st'') := by
  obtain ⟨hop, hother, hpart, hcount, b, hb, -, hexpired⟩ := hlift
  obtain ⟨r₁, st₁, hcall₁, hst'⟩ := hst.step (by omega) hperiod (le_refl c.now) hsep
  obtain ⟨rfl, rfl⟩ := Prod.mk.inj (Option.some.inj (hcall₁.symm.trans hcall))
  have hcollects : Collects H st c (H.doDigest k) := ⟨hop, hpart, hcount⟩
  have hcell : st₁.cell (H.doDigest k) = none := by
    rcases own_or_other hst.before hsep hcall with ⟨hc, -⟩ | ⟨-, hcell⟩
    · exact absurd hc hother
    · rw [hcell, hb]
      simp [sweep, Option.filter_some, hcollects, hexpired]
  have hsep' : Separate H k (k.call .isDenied c.now) :=
    fun k' hk' _ => (Option.some.inj hk').symm
  obtain ⟨r₂, st₂, hnext, -⟩ := hst'.step (by omega) hperiod (le_refl c.now) hsep'
    (c := k.call .isDenied c.now)
  have hbefore : Before st₁ (k.call .isDenied c.now).now := hst'.before
  rcases own_or_other hbefore hsep' hnext with ⟨-, hr, -⟩ | ⟨hne, -⟩
  · have hfetch : fetch (H.doDigest k) k (st₁.cell (H.doDigest k)) c.now =
        tbAlloc (H.doDigest k) k.limit.toInt k.period c.now := by
      rw [hcell]
      rfl
    have hdeny :
        denyBucket (tbAlloc (H.doDigest k) k.limit.toInt k.period c.now) k.block c.now = _ :=
      denyBucket_admitted (fun h => absurd h.2 (not_lt.mpr hnow))
      (show (0 : ℤ) < k.limit.toInt by omega)
    have happly : (applyOp k.block (tbAlloc (H.doDigest k) k.limit.toInt k.period c.now)
        .isDenied c.now).1 = .denied false := by
      rw [applyOp, refilled_tbAlloc, hdeny]
    refine ⟨st₂, ?_⟩
    rw [hnext, hr]
    change some ((applyOp k.block (fetch (H.doDigest k) k (st₁.cell (H.doDigest k)) c.now)
      .isDenied c.now).1, st₂) = _
    rw [hfetch, happly]
  · exact absurd rfl hne

/-! A run in which the thousandth call of a partition lifts a block. -/

/-- The buckets of two tuples of one partition, and its count of calls. -/
structure Shows (H : Hashing) (k j : Tuple) (x y : Option Tbucket) (n : Nat) (t : ℚ)
    (st : Store) : Prop where
  before : Before st t
  part : partOf (H.doDigest j) = partOf (H.doDigest k)
  own : st.cell (H.doDigest k) = x
  other : st.cell (H.doDigest j) = y
  gcCount : st.gcCount (partOf (H.doDigest k)) = n

variable {j : Tuple} {x y : Option Tbucket} {n : Nat} {now : ℚ}

theorem Shows.symm (hst : Shows H k j x y n t st) : Shows H j k y x n t st :=
  ⟨hst.before, hst.part.symm, hst.other, hst.own, hst.part ▸ hst.gcCount⟩

theorem Shows.deny (hst : Shows H k j x y n t st) (ht : t ≤ now)
    (hne : H.doDigest k ≠ H.doDigest j) :
    ∃ st', st.call H (k.call .isDenied now) =
        some ((applyOp k.block (fetch (H.doDigest k) k x now) .isDenied now).1, st') ∧
      Shows H k j
        (sweep (n + 1 = gcIntvl) now
          (some (applyOp k.block (fetch (H.doDigest k) k x now) .isDenied now).2))
        (sweep (n + 1 = gcIntvl) now y) (if n + 1 = gcIntvl then 0 else n + 1) now st' := by
  obtain ⟨r, st', hcall, hbefore⟩ := hst.before.call H (k.call .isDenied now) ht
  have hcollects : ∀ d, partOf d = partOf (H.doDigest k) →
      decide (Collects H st (k.call .isDenied now) d) = decide (n + 1 = gcIntvl) := by
    intro d hd
    refine decide_eq_decide.mpr ?_
    simp [Collects, Tuple.call, Call.tuple, hd, Store.CollectsNext, hst.gcCount]
  have hcount := call_gcCount hcall (partOf (H.doDigest k))
  rw [hst.gcCount] at hcount
  rcases call_cell hcall (H.doDigest k) with ⟨k', b, hk', -, hown, hcell⟩ | ⟨hk', -⟩
  · obtain rfl : k = k' := Option.some.inj hk'
    have hnow : Before st (k.call .isDenied now).now := hst.before.mono ht
    rw [bucketCall_eq (hnow.fetch _ _), hst.own] at hown
    obtain ⟨rfl, rfl⟩ := Prod.mk.inj (Option.some.inj hown)
    refine ⟨st', hcall, hbefore, hst.part, ?_, ?_, ?_⟩
    · rw [hcell, hcollects _ rfl]
      rfl
    · rcases call_cell hcall (H.doDigest j) with ⟨k', b, hk', hd, -⟩ | ⟨-, hother⟩
      · obtain rfl : k = k' := Option.some.inj hk'
        exact absurd hd hne
      · rw [hother, hcollects _ hst.part, hst.other]
        rfl
    · simpa [Tuple.call, Call.tuple] using hcount
  · exact absurd rfl (hk' k rfl)

/-- A call that does not collect. -/
theorem Shows.deny_counts (hst : Shows H k j x y n t st) (ht : t ≤ now)
    (hne : H.doDigest k ≠ H.doDigest j) (hn : n + 1 < gcIntvl) {b : Tbucket}
    (hop : applyOp k.block (fetch (H.doDigest k) k x now) .isDenied now = (r, b)) :
    ∃ st', st.call H (k.call .isDenied now) = some (r, st') ∧
      Shows H k j (some b) y (n + 1) now st' := by
  obtain ⟨st', hcall, hst'⟩ := hst.deny ht hne
  rw [hop] at hcall hst'
  simp only [hn.ne, decide_false, sweep, if_false, Bool.false_eq_true] at hst'
  exact ⟨st', hcall, hst'⟩

theorem Shows.deny_replicate {b : Tbucket}
    (hb : applyOp k.block b .isDenied now = (.denied true, b))
    (hne : H.doDigest k ≠ H.doDigest j) (m : Nat) (hst : Shows H k j (some b) y n now st)
    (hm : n + m < gcIntvl) :
    ∃ es st', st.run H (List.replicate m (k.call .isDenied now)) = some (es, st') ∧
      Shows H k j (some b) y (n + m) now st' := by
  induction m generalizing n st with
  | zero => exact ⟨[], st, rfl, hst⟩
  | succ m ih =>
      obtain ⟨st₁, hcall, hst₁⟩ := hst.deny_counts (le_refl now) hne (by omega) hb
      obtain ⟨es, st', hrun, hst'⟩ := ih hst₁ (by omega)
      refine ⟨_, st', Machine.run_cons hcall hrun, ?_⟩
      rwa [show n + (m + 1) = n + 1 + m by omega]

/-- Two calls on one tuple, `m + 2` calls on another one, and a call on the first again. -/
def crowdedRun (m : Nat) : List Call :=
  [tupleA10.call .isDenied 0, tupleA10.call .isDenied 0, tupleG.call .isDenied 5] ++
    (List.replicate m (tupleG.call .isDenied 5) ++
      [tupleG.call .isDenied 5, tupleA10.call .isDenied 6])

theorem monotonic_crowdedRun (m : Nat) : Monotonic (crowdedRun m) := by
  have htimes : (crowdedRun m).map Call.now = [0, 0, 5] ++ (List.replicate m 5 ++ [5, 6]) := by
    simp [crowdedRun, Tuple.call]
  refine List.pairwise_map.mp ?_
  rw [htimes, List.pairwise_append, List.pairwise_append]
  refine ⟨by norm_num, ⟨by simp, by norm_num, ?_⟩, ?_⟩
  · intro x hx y hy
    obtain rfl := List.eq_of_mem_replicate hx
    rcases List.mem_pair.mp hy with rfl | rfl <;> norm_num
  · intro x hx y hy
    have hle : x ≤ 5 := by
      fin_cases hx <;> norm_num
    have hge : 5 ≤ y := by
      rcases List.mem_append.mp hy with hy | hy
      · exact (List.eq_of_mem_replicate hy).ge
      · fin_cases hy <;> norm_num
    exact hle.trans hge

theorem tuple_crowdedRun (m : Nat) : ∀ c ∈ crowdedRun m,
    c.tuple ∈ [some tupleA, some tupleA2, some tupleA10, some tupleG] := by
  have hmem : ∀ c ∈ crowdedRun m, c.tuple = some tupleA10 ∨ c.tuple = some tupleG := by
    intro c hc
    simp only [crowdedRun, List.mem_append, List.mem_replicate, List.mem_cons,
      List.not_mem_nil, or_false] at hc
    rcases hc with (rfl | rfl | rfl) | ⟨-, rfl⟩ | rfl | rfl <;> simp
  intro c hc
  rcases hmem c hc with heq | heq <;> simp [heq]

/-- The bucket of `a` is collected at the time 5, with a block until the time 10. -/
theorem not_honours_crowdedRun :
    Monotonic (crowdedRun 996) ∧ table.InjectiveOn (insert tupleA10 (tuples (crowdedRun 996))) ∧
      ∃ es vs', run table (crowdedRun 996) Vsthrottle.empty = some (es, vs') ∧
        ¬ es.Pairwise fun e e' => Exhausts tupleA10 (bucketOf table e.before tupleA10) e.input →
          Honours tupleA10 (e.input.now + tupleA10.block) e'.input e'.output := by
  refine ⟨monotonic_crowdedRun _,
    table_injectiveOn_tuples (by decide +kernel) (tuple_crowdedRun _), ?_⟩
  let d := table.doDigest tupleA10
  let g := table.doDigest tupleG
  have hne : d ≠ g := by decide +kernel
  have hvs := loaded_empty
  have h₀ : Shows table tupleA10 tupleG none none 0 0 (abs Vsthrottle.empty) :=
    ⟨before_loaded hvs 0, by decide +kernel, abs_loaded hvs d, abs_loaded hvs g, rfl⟩
  -- an admission, and a denial that blocks until the time 10
  obtain ⟨st₁, hcall₁, h₁⟩ := h₀.deny_counts (le_refl 0) hne (by decide)
    (show _ = (.denied false, ⟨d, 0, 1, 0, 0, 1⟩) by decide +kernel)
  obtain ⟨st₂, hcall₂, h₂⟩ := h₁.deny_counts (le_refl 0) hne (by decide)
    (show _ = (.denied true, ⟨d, 0, 1, 10, 0, 1⟩) by decide +kernel)
  -- 998 calls on the other tuple, the last of which collects
  obtain ⟨st₃, hcall₃, h₃⟩ := h₂.symm.deny_counts (by norm_num : (0 : ℚ) ≤ 5) hne.symm (by decide)
    (show _ = (.denied false, ⟨g, 5, 1, 0, 0, 1⟩) by decide +kernel)
  obtain ⟨es, st₄, hrun₄, h₄⟩ := h₃.deny_replicate (by decide +kernel) hne.symm 996 (by decide)
  obtain ⟨st₅, hcall₅, h₅⟩ := h₄.deny (le_refl 5) hne.symm
  have hcollected :
      sweep (0 + 1 + 1 + 1 + 996 + 1 = gcIntvl) 5 (some ⟨d, 0, 1, 10, 0, 1⟩) = none := by
    decide +kernel
  rw [hcollected] at h₅
  obtain ⟨st₆, hcall₆, -⟩ := h₅.symm.deny_counts (by norm_num : (5 : ℚ) ≤ 6) hne (by decide)
    (show _ = (.denied false, ⟨d, 6, 1, 0, 0, 1⟩) by decide +kernel)
  have hrun := Machine.run_append (Machine.run_cons hcall₁ (Machine.run_cons hcall₂
    (Machine.run_cons hcall₃ Machine.run_nil))) (Machine.run_append hrun₄
      (Machine.run_cons hcall₅ (Machine.run_cons hcall₆ Machine.run_nil)))
  obtain ⟨fs, vs', hfs, hstore⟩ := run_loaded table hvs (monotonic_crowdedRun 996)
  rw [Store.run, crowdedRun, hrun] at hstore
  have hstore := (Prod.mk.inj (Option.some.inj hstore)).1
  refine ⟨fs, vs', hfs, fun hpairwise => ?_⟩
  have hmapped : (fs.map (Machine.Event.map abs)).Pairwise fun e e' =>
      Exhausts tupleA10 (e.before.cell d) e.input →
        Honours tupleA10 (e.input.now + tupleA10.block) e'.input e'.output :=
    List.pairwise_map.mpr hpairwise
  have hempty : Exhausts tupleA10 (st₁.cell d) (tupleA10.call .isDenied 0) :=
    ⟨rfl, rfl, _, ⟨d, 0, 1, 0, 0, 1⟩, h₁.own, by decide +kernel, le_refl 0, lt_irrefl (0 : ℚ)⟩
  rw [← hstore, List.pairwise_append] at hmapped
  have hhonours := hmapped.2.2 ⟨st₁, tupleA10.call .isDenied 0, .denied true⟩ (by simp)
    ⟨st₅, tupleA10.call .isDenied 6, .denied false⟩ (by simp)
    hempty rfl (show (6 : ℚ) < 0 + 10 by norm_num)
  exact absurd (hhonours.1 rfl) (by simp)

end VarnishModules.VsthrottleBlock
