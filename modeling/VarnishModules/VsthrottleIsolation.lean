import VarnishModules.VsthrottleAgree

/-!
The calls on one tuple, as if it had a bucket of its own.
-/

namespace VarnishModules.VsthrottleIsolation

open VarnishModules.TokenBucket
open VarnishModules.VsthrottleModel
open VarnishModules.VsthrottleStore
open VarnishModules.VsthrottleCell
open VarnishModules.VsthrottleAgree

/-- A private bucket, allocated by the first call and never collected. -/
def privateCall (d : Digest) (k : Tuple) (x : Option Tbucket) (c : Call) :
    Option (Result × Option Tbucket) :=
  (bucketCall d k x c.op c.now).map fun r => (r.1, some r.2)

def onTuple (k : Tuple) (c : Call) : Bool :=
  c.tuple = some k

/-- The bucket of `k` in the store and the private one. -/
structure Related (H : Hashing) (k : Tuple) (t : ℚ) (st : Store) (x : Option Tbucket) : Prop where
  inv : Inv H k t st
  fits : CellFits (H.doDigest k) k t x
  agree : Agree k t (st.cell (H.doDigest k)) x
  block : blockOf (st.cell (H.doDigest k)) = 0

variable {H : Hashing} {k : Tuple} {st : Store} {x : Option Tbucket} {c : Call} {t now : ℚ}

theorem Related.mono (hlimit : 0 ≤ k.limit.toInt) (hperiod : 0 < k.period)
    (h : Related H k t st x) (ht : t ≤ now) : Related H k now st x :=
  ⟨h.inv.mono ht, h.fits.mono ht, h.agree.mono hlimit hperiod h.inv.fits h.fits ht, h.block⟩

theorem applyOp_block {b : Tbucket} {block : ℚ} (hblock : block ≤ 0) (op : Op) :
    (applyOp block b op now).2.block = b.block := by
  have hnever : ¬ 0 < block := not_lt.mpr hblock
  cases op with
  | isDenied =>
      by_cases htokens : 0 < (refilled b now).tokens
      · simp only [applyOp, denyBucket_admitted (fun h => hnever h.1) htokens, if_neg hnever]
        rfl
      · simp only [applyOp, denyBucket_empty (fun h => hnever h.1) htokens, if_neg hnever]
        rfl
  | remaining => rfl
  | blocked => rfl

theorem blockOf_sweep {collects : Bool} (hx : blockOf x = 0) :
    blockOf (sweep collects now x) = 0 := by
  rcases sweep_cases collects now x with heq | ⟨-, hnone, -⟩
  · rwa [heq]
  · rw [hnone]
    rfl

/-- A call on `k` has the same result on the private bucket. -/
theorem Related.own (hlimit : 0 ≤ k.limit.toInt) (hperiod : 0 < k.period) (hblock : k.block ≤ 0)
    (h : Related H k t st x) (ht : t ≤ c.now) (hsep : Separate H k c) (hc : c.tuple = some k) :
    ∃ r st' x', st.call H c = some (r, st') ∧ privateCall (H.doDigest k) k x c = some (r, x') ∧
      Related H k c.now st' x' := by
  have h := h.mono hlimit hperiod ht
  obtain ⟨r, st', hcall, hinv⟩ := h.inv.step hlimit hperiod (le_refl c.now) hsep
  have hfetch := h.fits.fetch hlimit
  have hprivate : bucketCall (H.doDigest k) k x c.op c.now = _ := bucketCall_eq hfetch.lastUsed
  have hx := (hfetch.applyOp hlimit hperiod c.op).some
  obtain ⟨hresult, hagree⟩ :=
    h.agree.applyOp hlimit hperiod h.inv.fits h.fits (Or.inr hblock) c.op
  have hzero : (fetch (H.doDigest k) k (st.cell (H.doDigest k)) c.now).block = 0 := by
    have hcell := h.block
    cases hst : st.cell (H.doDigest k) with
    | none => rfl
    | some b =>
        rw [hst] at hcell
        exact hcell
  have hzero' : blockOf (some (applyOp k.block
      (fetch (H.doDigest k) k (st.cell (H.doDigest k)) c.now) c.op c.now).2) = 0 :=
    (applyOp_block hblock c.op).trans hzero
  rcases own_or_other h.inv.before hsep hcall with ⟨-, hr, hcell⟩ | ⟨hne, -⟩
  · refine ⟨r, st', _, hcall, ?_, ⟨hinv, hx, ?_, ?_⟩⟩
    · rw [privateCall, hprivate, hr, hresult]
      rfl
    · rw [hcell]
      exact hagree.sweep_left hlimit hperiod
        ((h.inv.fetch hlimit).applyOp hlimit hperiod c.op).some hzero' _
    · rw [hcell]
      exact blockOf_sweep hzero'
  · exact absurd hc hne

/-- A call on another tuple is not seen by the private bucket. -/
theorem Related.other (hlimit : 0 ≤ k.limit.toInt) (hperiod : 0 < k.period)
    (h : Related H k t st x) (ht : t ≤ c.now) (hsep : Separate H k c) (hc : c.tuple ≠ some k) :
    ∃ r st', st.call H c = some (r, st') ∧ Related H k c.now st' x := by
  have h := h.mono hlimit hperiod ht
  obtain ⟨r, st', hcall, hinv⟩ := h.inv.step hlimit hperiod (le_refl c.now) hsep
  rcases own_or_other h.inv.before hsep hcall with ⟨hown, -⟩ | ⟨-, hcell⟩
  · exact absurd hown hc
  · refine ⟨r, st', hcall, hinv, h.fits, ?_, ?_⟩
    · rw [hcell]
      exact h.agree.sweep_left hlimit hperiod h.inv.fits h.block _
    · rw [hcell]
      exact blockOf_sweep h.block

/-- The calls on `k` cannot tell the other tuples and the collections. -/
theorem run_isolated (H : Hashing) {vs : Vsthrottle} (hvs : Loaded vs) {cs : List Call}
    (hcs : Monotonic cs) (k : Tuple) (hH : H.InjectiveOn (insert k (tuples cs)))
    (hlimit : 0 ≤ k.limit.toInt) (hperiod : 0 < k.period) (hblock : k.block ≤ 0) :
    ∃ es vs' fs x, run H cs vs = some (es, vs') ∧
      Machine.run (privateCall (H.doDigest k) k) (cs.filter (onTuple k)) none = some (fs, x) ∧
      Machine.outputs (onTuple k) es = fs.map Machine.Event.output := by
  obtain ⟨es, vs', hrun, hstore⟩ := run_loaded H hvs hcs
  obtain ⟨t, htimed⟩ := Machine.exists_timed (Store.call H) (abs vs) hcs
    (separate_of_injectiveOn hH)
  have hstart : Related H k t (abs vs) none := by
    refine ⟨inv_loaded hvs k t, cellFits_none, ?_, ?_⟩
    · exact Or.inl (abs_loaded hvs _)
    · rw [abs_loaded hvs]
      rfl
  obtain ⟨es', st', fs, x, hrun', hprivate, heq⟩ := htimed.project (Related H k)
    (privateCall (H.doDigest k) k) (onTuple k)
    (fun t st x c h ht hsep hc => h.own hlimit hperiod hblock ht hsep (of_decide_eq_true hc))
    (fun t st x c h ht hsep hc => h.other hlimit hperiod ht hsep (of_decide_eq_false hc)) hstart
  obtain ⟨rfl, -⟩ := Prod.mk.inj (Option.some.inj (hrun'.symm.trans hstore))
  refine ⟨es, vs', fs, x, hrun, hprivate, ?_⟩
  rw [← heq]
  simp [Machine.outputs, List.filter_map, Function.comp_def, Machine.Event.map]

/-- The calls on another tuple take no token. -/
theorem run_isolated_two :
    ∃ es vs', run table [tupleA.call .isDenied 0, tupleG.call .isDenied 0, tupleA.call .isDenied 0,
        tupleG.call .isDenied 1, tupleA.call .remaining 1] Vsthrottle.empty = some (es, vs') ∧
      Machine.outputs (onTuple tupleA) es = [.denied false, .denied true, .remaining 1] := by
  obtain ⟨es, vs', fs, x, hrun, hprivate, heq⟩ := run_isolated table loaded_empty
    (show Monotonic [tupleA.call .isDenied 0, tupleG.call .isDenied 0, tupleA.call .isDenied 0,
      tupleG.call .isDenied 1, tupleA.call .remaining 1] by unfold Monotonic; decide +kernel) tupleA
    (table_injectiveOn_tuples (by decide +kernel) (by decide +kernel)) (by decide)
    (by norm_num [tupleA]) (by norm_num [tupleA])
  refine ⟨es, vs', hrun, heq.trans ?_⟩
  have houtputs : (Machine.run (privateCall (table.doDigest tupleA) tupleA)
      [tupleA.call .isDenied 0, tupleA.call .isDenied 0, tupleA.call .remaining 1] none).map
      (fun r => r.1.map Machine.Event.output) =
      some [.denied false, .denied true, .remaining 1] := by
    decide +kernel
  have hfs : Machine.run (privateCall (table.doDigest tupleA) tupleA)
      [tupleA.call .isDenied 0, tupleA.call .isDenied 0, tupleA.call .remaining 1] none =
      some (fs, x) := hprivate
  rw [hfs] at houtputs
  exact Option.some.inj houtputs

end VarnishModules.VsthrottleIsolation
