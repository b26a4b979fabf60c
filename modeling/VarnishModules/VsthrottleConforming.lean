import VarnishModules.VsthrottleCell

/-!
The bucket of one tuple and the ideal token bucket, which also keeps fractions of a token.
-/

namespace VarnishModules.VsthrottleConforming

open VarnishModules.TokenBucket
open VarnishModules.VsthrottleModel
open VarnishModules.VsthrottleStore
open VarnishModules.VsthrottleCell

/-- The level at the last request. -/
structure Ideal where
  level : ℚ
  last : ℚ

/-- The level at a request. -/
def Ideal.levelAt (limit : ℤ) (period : ℚ) (s : Ideal) (now : ℚ) : ℚ :=
  min limit (s.level + (now - s.last) / period * limit)

/-- Whether each of the requests is admitted. -/
def idealRun (limit : ℤ) (period : ℚ) : List ℚ → Ideal → List Bool
  | [], _ => []
  | now :: times, s =>
      let level := s.levelAt limit period now
      if 1 ≤ level then true :: idealRun limit period times ⟨level - 1, now⟩
      else false :: idealRun limit period times ⟨level, now⟩

/-- A request that the ideal bucket admits is admitted, as long as all earlier ones were
admitted by both. -/
def NeverDenies (ps : List (Result × Bool)) : Prop :=
  ∀ pre p post, ps = pre ++ p :: post → (∀ q ∈ pre, q = (.denied false, true)) →
    p.2 = true → p.1 = .denied false

/-- The time since the last use is worth a whole number of tokens, or it fills the bucket. -/
def Lossless (x : Option Tbucket) (c : Call) : Prop :=
  ∀ b ∈ x, (refill b c.now : ℚ) = (c.now - b.lastUsed) / b.period * b.capacity ∨
    b.capacity ≤ b.tokens + refill b c.now

instance (x : Option Tbucket) (c : Call) : Decidable (Lossless x c) :=
  inferInstanceAs (Decidable (∀ b ∈ x, _ ∨ _))

theorem neverDenies_nil : NeverDenies [] := by
  intro pre p post h
  simp at h

theorem neverDenies_cons {p : Result × Bool} {ps : List (Result × Bool)}
    (hp : p.2 = true → p.1 = .denied false)
    (hps : p = (.denied false, true) → NeverDenies ps) : NeverDenies (p :: ps) := by
  intro pre q post h hpre
  cases pre with
  | nil =>
      obtain ⟨rfl, -⟩ := List.cons.inj h
      exact hp
  | cons p' pre =>
      obtain ⟨rfl, rfl⟩ := List.cons.inj h
      rw [List.forall_mem_cons] at hpre
      exact hps hpre.1 pre q post rfl hpre.2

/-- The bucket and the ideal one, after requests that both have admitted. -/
structure Related (H : Hashing) (k : Tuple) (t : ℚ) (st : Store) (s : Ideal) : Prop where
  inv : Inv H k t st
  level : ∀ now, t ≤ now → s.levelAt k.limit.toInt k.period now =
    (st.cell (H.doDigest k)).elim (k.limit.toInt : ℚ) fun b =>
      min k.limit.toInt (b.tokens + (now - b.lastUsed) / k.period * k.limit.toInt)

variable {H : Hashing} {k : Tuple} {st st' : Store} {c : Call} {r : Result} {t : ℚ} {s : Ideal}

/-- Both levels are the same at a request that loses nothing. -/
theorem Related.tokens (hlimit : 1 ≤ k.limit.toInt) (hperiod : 0 < k.period)
    (h : Related H k c.now st s) (hlossless : Lossless (st.cell (H.doDigest k)) c) :
    ((refilled (fetch (H.doDigest k) k (st.cell (H.doDigest k)) c.now) c.now).tokens : ℚ) =
      s.levelAt k.limit.toInt k.period c.now := by
  rw [h.level c.now (le_refl _)]
  cases hcell : st.cell (H.doDigest k) with
  | none =>
      change ((refilled (tbAlloc (H.doDigest k) k.limit.toInt k.period c.now) c.now).tokens : ℚ) = _
      rw [refilled_tbAlloc]
      rfl
  | some b =>
      have hb := h.inv.fits b hcell
      have hgain := (hb.refill_eq (by omega) hperiod (le_refl c.now)).1
      have hfloor := Int.floor_le ((c.now - b.lastUsed) / k.period * (k.limit.toInt : ℚ))
      change (((min b.capacity (b.tokens + refill b c.now) : ℤ)) : ℚ) = min _ _
      rw [hb.capacity, Int.cast_min, Int.cast_add]
      rcases hlossless b hcell with heq | hfull
      · rw [heq, hb.period, hb.capacity]
      · rw [hb.capacity] at hfull
        have hfull' : (k.limit.toInt : ℚ) ≤ b.tokens + refill b c.now := by exact_mod_cast hfull
        rw [← hgain] at hfloor
        rw [min_eq_left hfull', min_eq_left (by linarith)]

theorem Related.admitted (hlimit : 1 ≤ k.limit.toInt) (hperiod : 0 < k.period)
    (hblock : k.block ≤ 0) (h : Related H k t st s) (ht : t ≤ c.now) (hop : c.op = .isDenied)
    (hc : c.tuple = some k) (hlossless : Lossless (st.cell (H.doDigest k)) c)
    (hcall : st.call H c = some (r, st')) (hlevel' : 1 ≤ s.levelAt k.limit.toInt k.period c.now) :
    r = .denied false ∧
      Related H k c.now st' ⟨s.levelAt k.limit.toInt k.period c.now - 1, c.now⟩ := by
  have h : Related H k c.now st s := ⟨h.inv.mono ht, fun now hnow => h.level now (ht.trans hnow)⟩
  have hsep : Separate H k c := fun k' hk' _ => Option.some.inj (hk'.symm.trans hc)
  obtain ⟨r₁, st₁, hcall₁, hinv⟩ := h.inv.step (by omega) hperiod (le_refl c.now) hsep
  obtain ⟨rfl, rfl⟩ := Prod.mk.inj (Option.some.inj (hcall₁.symm.trans hcall))
  have hfetch := h.inv.fetch (show 0 ≤ k.limit.toInt by omega)
  have htokens := h.tokens hlimit hperiod hlossless
  generalize hb : fetch (H.doDigest k) k (st.cell (H.doDigest k)) c.now = b at *
  have hpositive : 0 < (refilled b c.now).tokens := by
    have hone : (1 : ℚ) ≤ (refilled b c.now).tokens := htokens ▸ hlevel'
    have hone' : 1 ≤ (refilled b c.now).tokens := by exact_mod_cast hone
    omega
  have hdeny : denyBucket (refilled b c.now) k.block c.now = _ := denyBucket_admitted
    (fun hblocked => absurd hblocked.1 (not_lt.mpr hblock)) hpositive
  rcases own_or_other h.inv.before hsep hcall with ⟨-, hr, hcell⟩ | ⟨hne, -⟩
  · rw [hb, hop, applyOp, hdeny] at hr hcell
    refine ⟨hr, hinv, fun now hnow => ?_⟩
    rw [if_neg (not_lt.mpr hblock)] at hcell
    rcases sweep_cases (Collects H st c (H.doDigest k)) c.now (some { refilled b c.now with
      lastUsed := c.now, tokens := (refilled b c.now).tokens - 1,
      block := (refilled b c.now).block })
      with heq | ⟨-, -, b', hb', hexpired⟩
    · rw [hcell, heq, ← htokens]
      simp [Ideal.levelAt]
    · obtain rfl := Option.some.inj hb'
      have hidle : b.period < c.now - c.now := of_decide_eq_true hexpired
      rw [hfetch.period, sub_self] at hidle
      exact absurd hidle (not_lt.mpr hperiod.le)
  · exact absurd hc hne

theorem neverDenies_run (hlimit : 1 ≤ k.limit.toInt) (hperiod : 0 < k.period)
    (hblock : k.block ≤ 0) {cs : List Call} {es : List (Machine.Event Store Call Result)}
    (hcs : Machine.Timed (Store.call H) Call.now
      (fun st c => (c.op = .isDenied ∧ c.tuple = some k) ∧ Lossless (st.cell (H.doDigest k)) c)
      cs t st)
    (hrun : st.run H cs = some (es, st')) (h : Related H k t st s) :
    NeverDenies ((es.map Machine.Event.output).zip
      (idealRun k.limit.toInt k.period (cs.map Call.now) s)) := by
  induction cs generalizing t st es s with
  | nil =>
      rw [List.map_nil, idealRun, List.zip_nil_right]
      exact neverDenies_nil
  | cons c cs ih =>
      obtain ⟨ht, ⟨⟨hop, hc⟩, hlossless⟩, htail⟩ := hcs
      obtain ⟨r, st₁, fs, hcall, hrest, rfl⟩ := Machine.run_cons_inv hrun
      by_cases hlevel' : 1 ≤ s.levelAt k.limit.toInt k.period c.now
      · obtain ⟨hr, hrelated⟩ := h.admitted hlimit hperiod hblock ht hop hc hlossless hcall hlevel'
        simp only [List.map_cons, idealRun, hlevel', if_true, List.zip_cons_cons]
        exact neverDenies_cons (fun _ => hr) fun _ => ih (htail r st₁ hcall) hrest hrelated
      · simp only [List.map_cons, idealRun, hlevel', if_false, List.zip_cons_cons]
        exact neverDenies_cons (fun h => nomatch h) fun h => nomatch h

theorem related_loaded {vs : Vsthrottle} (hvs : Loaded vs) (hlimit : 1 ≤ k.limit.toInt)
    (hperiod : 0 < k.period) : Related H k t (abs vs) ⟨k.limit.toInt, t⟩ := by
  refine ⟨inv_loaded hvs k t, fun now hnow => ?_⟩
  have hnonneg : (0 : ℚ) ≤ k.limit.toInt := by exact_mod_cast (by omega : 0 ≤ k.limit.toInt)
  have hgain := mul_nonneg (div_nonneg (sub_nonneg.mpr hnow) hperiod.le) hnonneg
  rw [abs_loaded hvs]
  exact min_eq_left (by linarith)

/-- If no refill is rounded, no request that the ideal bucket admits is denied. -/
theorem run_neverDenies (H : Hashing) {vs : Vsthrottle} (hvs : Loaded vs) {cs : List Call}
    (hcs : Monotonic cs) (k : Tuple) (hlimit : 1 ≤ k.limit.toInt) (hperiod : 0 < k.period)
    (hblock : k.block ≤ 0) (hk : ∀ c ∈ cs, c.op = .isDenied ∧ c.tuple = some k) {t : ℚ}
    (ht : ∀ c ∈ cs, t ≤ c.now) :
    ∃ es vs', run H cs vs = some (es, vs') ∧
      ((∀ e ∈ es, Lossless (bucketOf H e.before k) e.input) →
        NeverDenies ((es.map Machine.Event.output).zip
          (idealRun k.limit.toInt k.period (cs.map Call.now) ⟨k.limit.toInt, t⟩))) := by
  obtain ⟨es, vs', hrun, hstore⟩ := run_loaded H hvs hcs
  refine ⟨es, vs', hrun, fun hlossless => ?_⟩
  have htimed := (Machine.timed_of_forall (Store.call H) (abs vs) hcs ht hk).and_events
    (fun st c => Lossless (st.cell (H.doDigest k)) c) hstore
    (List.forall_mem_map.mpr hlossless)
  have hnever := neverDenies_run hlimit hperiod hblock htimed hstore
    (related_loaded hvs hlimit hperiod)
  rw [List.map_map] at hnever
  exact hnever

/-- Requests a period apart. -/
theorem run_neverDenies_two :
    ∃ es vs', run table [tupleA2.call .isDenied 0, tupleA2.call .isDenied 2] Vsthrottle.empty =
        some (es, vs') ∧
      NeverDenies ((es.map Machine.Event.output).zip (idealRun 2 2 [0, 2] ⟨2, 0⟩)) := by
  obtain ⟨es, vs', hrun, hnever⟩ := run_neverDenies table loaded_empty
    (show Monotonic [tupleA2.call .isDenied 0, tupleA2.call .isDenied 2] by
      unfold Monotonic; decide +kernel) tupleA2 (by decide) (by norm_num [tupleA2])
    (by norm_num [tupleA2]) (by decide +kernel) (t := 0) (by decide +kernel)
  refine ⟨es, vs', hrun, hnever ?_⟩
  have hall : (run table [tupleA2.call .isDenied 0, tupleA2.call .isDenied 2]
      Vsthrottle.empty).map (fun r => r.1.all fun e =>
        Lossless (bucketOf table e.before tupleA2) e.input) = some true := by
    decide +kernel
  rw [hrun] at hall
  intro e he
  exact of_decide_eq_true (List.all_eq_true.mp (Option.some.inj hall) e he)

/-- Two requests, each half a token after the one before, in place of one a token later. -/
def spacedRun : List Call :=
  [tupleA2.call .isDenied 0, tupleA2.call .isDenied (1 / 2), tupleA2.call .isDenied 1]

/-- The halves add up in the ideal bucket and are lost in the other one. -/
theorem not_neverDenies_spacedRun :
    Monotonic spacedRun ∧ ∃ es vs', run table spacedRun Vsthrottle.empty = some (es, vs') ∧
      ¬ NeverDenies ((es.map Machine.Event.output).zip
        (idealRun 2 2 (spacedRun.map Call.now) ⟨2, 0⟩)) := by
  have hmonotonic : Monotonic spacedRun := by
    unfold Monotonic
    decide +kernel
  obtain ⟨es, vs', hrun, -⟩ := run_loaded table loaded_empty hmonotonic
  have houtputs : (run table spacedRun Vsthrottle.empty).map
      (fun r => r.1.map Machine.Event.output) =
      some [.denied false, .denied false, .denied true] := by
    decide +kernel
  rw [hrun] at houtputs
  have hideal : idealRun 2 2 (spacedRun.map Call.now) ⟨2, 0⟩ = [true, true, true] := by
    decide +kernel
  refine ⟨hmonotonic, es, vs', hrun, fun hnever => ?_⟩
  have hzip : (es.map Machine.Event.output).zip (idealRun 2 2 (spacedRun.map Call.now) ⟨2, 0⟩) =
      [(.denied false, true), (.denied false, true)] ++ [(.denied true, true)] := by
    rw [hideal, show es.map Machine.Event.output = _ from Option.some.inj houtputs]
    rfl
  exact nomatch hnever _ _ [] hzip (by simp) rfl

end VarnishModules.VsthrottleConforming
