import VarnishModules.VsthrottleStore

/-!
What one call does to one bucket of the store.
-/

namespace VarnishModules.VsthrottleCell

open VarnishModules.TokenBucket
open VarnishModules.VsthrottleModel
open VarnishModules.VsthrottleStore

/-- A call on a bucket that is there. -/
def applyOp (block : ℚ) (b : Tbucket) (op : Op) (now : ℚ) : Result × Tbucket :=
  match op with
  | .isDenied =>
      (.denied (denyBucket (refilled b now) block now).1, (denyBucket (refilled b now) block now).2)
  | .remaining => (.remaining ((refilled b now).tokens % 2 ^ 32), refilled b now)
  | .blocked => (.blocked (if b.block - now ≤ 0 then 0 else b.block - now), b)

/-- The bucket a call finds or allocates. -/
def fetch (d : Digest) (k : Tuple) (x : Option Tbucket) (now : ℚ) : Tbucket :=
  x.getD (tbAlloc d k.limit.toInt k.period now)

/-- A bucket after a collection, if there is one. -/
def sweep (collects : Bool) (now : ℚ) (x : Option Tbucket) : Option Tbucket :=
  if collects then x.filter fun b => !expired now b else x

/-- The call collects the partition of `d`. -/
def Collects (H : Hashing) (st : Store) (c : Call) (d : Digest) : Prop :=
  c.op = .isDenied ∧ (c.tuple.map fun k => partOf (H.doDigest k)) = some (partOf d) ∧
    st.CollectsNext (partOf d)

instance (H : Hashing) (st : Store) (c : Call) (d : Digest) : Decidable (Collects H st c d) :=
  inferInstanceAs (Decidable (_ ∧ _ ∧ _))

variable {d : Digest} {k : Tuple} {x : Option Tbucket} {op : Op} {now t : ℚ}

theorem bucketCall_eq (h : (fetch d k x now).lastUsed ≤ now) :
    bucketCall d k x op now = some (applyOp k.block (fetch d k x now) op now) := by
  change (match op with | .isDenied => _ | .remaining => _ | .blocked => _) = _
  cases op with
  | isDenied => exact congrArg (Option.map _) (calcTokens_eq h)
  | remaining => exact congrArg (Option.map _) (calcTokens_eq h)
  | blocked => rfl

theorem applyOp_lastUsed {b : Tbucket} (h : b.lastUsed ≤ now) (block : ℚ) (op : Op) :
    (applyOp block b op now).2.lastUsed ≤ now := by
  cases op with
  | isDenied => exact denyBucket_lastUsed (b := refilled b now) h block
  | remaining => exact h
  | blocked => exact h

theorem fits_applyOp {b : Tbucket} {limit : ℤ} {period : ℚ} (hlimit : 0 ≤ limit)
    (hperiod : 0 < period) (hb : Fits limit period now b) (block : ℚ) (op : Op) :
    Fits limit period now (applyOp block b op now).2 := by
  cases op with
  | isDenied => exact (hb.refilled hlimit hperiod).denyBucket block
  | remaining => exact hb.refilled hlimit hperiod
  | blocked => exact hb

theorem sweep_cases (collects : Bool) (now : ℚ) (x : Option Tbucket) :
    sweep collects now x = x ∨
      collects = true ∧ sweep collects now x = none ∧ ∃ b, x = some b ∧ expired now b = true := by
  cases collects with
  | false => exact Or.inl rfl
  | true =>
      cases x with
      | none => exact Or.inl rfl
      | some b =>
          by_cases hb : expired now b = true
          · exact Or.inr ⟨rfl, by simp [sweep, Option.filter_some, hb], b, rfl, hb⟩
          · exact Or.inl (by simp [sweep, Option.filter_some, hb])

theorem mem_sweep {collects : Bool} {b : Tbucket} (h : sweep collects now x = some b) :
    x = some b := by
  rcases sweep_cases collects now x with heq | ⟨-, hnone, -⟩
  · exact heq.symm.trans h
  · exact absurd (hnone.symm.trans h) (by simp)

theorem count_cell (st : Store) (op : Op) (part : UInt8) (now : ℚ) (d : Digest) :
    (st.count op part now).cell d =
      sweep (op = .isDenied ∧ part = partOf d ∧ st.CollectsNext (partOf d)) now (st.cell d) := by
  cases op with
  | isDenied =>
      by_cases hpart : part = partOf d
      · subst hpart
        by_cases hnext : st.CollectsNext (partOf d)
        · simp [Store.count, Store.countCall, sweep, hnext]
        · simp [Store.count, Store.countCall, sweep, hnext]
      · by_cases hnext : st.CollectsNext part
        · simp [Store.count, Store.countCall, sweep, hnext, hpart, Ne.symm hpart]
        · simp [Store.count, Store.countCall, sweep, hnext, hpart]
  | remaining => rfl
  | blocked => rfl

/-- A call either is on the bucket, or it at most collects it. -/
theorem call_cell {H : Hashing} {st st' : Store} {c : Call} {r : Result}
    (h : st.call H c = some (r, st')) (d : Digest) :
    (∃ k b, c.tuple = some k ∧ H.doDigest k = d ∧
        bucketCall d k (st.cell d) c.op c.now = some (r, b) ∧
        st'.cell d = sweep (Collects H st c d) c.now (some b)) ∨
      (∀ k, c.tuple = some k → H.doDigest k ≠ d) ∧
        st'.cell d = sweep (Collects H st c d) c.now (st.cell d) := by
  cases hc : c.tuple with
  | none =>
      simp only [Store.call, hc, Option.some.injEq, Prod.mk.injEq] at h
      refine Or.inr ⟨by simp, ?_⟩
      simp [sweep, Collects, hc, h.2]
  | some k =>
      simp only [Store.call, hc] at h
      cases hcall : bucketCall (H.doDigest k) k (st.cell (H.doDigest k)) c.op c.now with
      | none => simp [hcall] at h
      | some q =>
          simp only [hcall, Option.map_some, Option.some.injEq, Prod.mk.injEq] at h
          obtain ⟨rfl, rfl⟩ := h
          have hcell := count_cell (st.setCell (H.doDigest k) q.2) c.op (partOf (H.doDigest k))
            c.now d
          have hcollects : decide (c.op = .isDenied ∧ partOf (H.doDigest k) = partOf d ∧
              (st.setCell (H.doDigest k) q.2).CollectsNext (partOf d)) =
              decide (Collects H st c d) :=
            decide_eq_decide.mpr (by simp [Collects, hc, Store.CollectsNext, Store.setCell])
          rw [hcollects] at hcell
          by_cases hd : H.doDigest k = d
          · subst hd
            refine Or.inl ⟨k, q.2, rfl, rfl, hcall, ?_⟩
            simpa [Store.setCell] using hcell
          · refine Or.inr ⟨fun k' hk' => by cases hk'; exact hd, ?_⟩
            simpa [Store.setCell, Ne.symm hd] using hcell

theorem countCall_gcCount (st : Store) (part : UInt8) (now : ℚ) (p : UInt8) :
    (st.countCall part now).gcCount p =
      if part = p then if st.gcCount p + 1 = gcIntvl then 0 else st.gcCount p + 1
      else st.gcCount p := by
  by_cases hnext : st.CollectsNext part
  · have hcount : st.gcCount part + 1 = gcIntvl := hnext
    rw [Store.countCall, if_pos hnext]
    by_cases hp : part = p
    · subst hp
      simp [hcount]
    · simp [hp, Ne.symm hp]
  · have hcount : ¬ st.gcCount part + 1 = gcIntvl := hnext
    rw [Store.countCall, if_neg hnext]
    by_cases hp : part = p
    · subst hp
      simp [hcount]
    · simp [hp, Ne.symm hp]

/-- `is_denied` counts in the partition of its bucket, from a collection on again. -/
theorem call_gcCount {H : Hashing} {st st' : Store} {c : Call} {r : Result}
    (h : st.call H c = some (r, st')) (p : UInt8) :
    st'.gcCount p =
      if c.op = .isDenied ∧ (c.tuple.map fun k => partOf (H.doDigest k)) = some p then
        if st.gcCount p + 1 = gcIntvl then 0 else st.gcCount p + 1
      else st.gcCount p := by
  cases hc : c.tuple with
  | none =>
      simp only [Store.call, hc, Option.some.injEq, Prod.mk.injEq] at h
      simp [h.2]
  | some k =>
      simp only [Store.call, hc, Option.map_eq_some_iff, Prod.mk.injEq] at h
      obtain ⟨q, -, -, rfl⟩ := h
      cases c.op with
      | isDenied =>
          exact (countCall_gcCount (st.setCell (H.doDigest k) q.2) _ c.now p).trans
            (if_congr (by simp) rfl rfl)
      | remaining => simp [Store.count, Store.setCell]
      | blocked => simp [Store.count, Store.setCell]

/-- No bucket was used after `t`. -/
def Before (st : Store) (t : ℚ) : Prop :=
  ∀ d b, st.cell d = some b → b.lastUsed ≤ t

theorem Before.mono {st : Store} (hst : Before st t) (ht : t ≤ now) : Before st now :=
  fun d b hb => (hst d b hb).trans ht

theorem Before.fetch {st : Store} (hst : Before st now) (d : Digest) (k : Tuple) :
    (fetch d k (st.cell d) now).lastUsed ≤ now := by
  cases hcell : st.cell d with
  | none => exact le_refl now
  | some b => exact hst d b hcell

/-- The assertion of `calc_tokens` holds. -/
theorem Before.call {st : Store} (hst : Before st t) (H : Hashing) (c : Call) (ht : t ≤ c.now) :
    ∃ r st', st.call H c = some (r, st') ∧ Before st' c.now := by
  have hst := hst.mono ht
  have hcall : ∃ r st', st.call H c = some (r, st') := by
    cases hc : c.tuple with
    | none =>
        simp only [Store.call, hc]
        exact ⟨_, _, rfl⟩
    | some k =>
        simp only [Store.call, hc, bucketCall_eq (hst.fetch (H.doDigest k) k)]
        exact ⟨_, _, rfl⟩
  obtain ⟨r, st', hcall⟩ := hcall
  refine ⟨r, st', hcall, fun d b hb => ?_⟩
  rcases call_cell hcall d with ⟨k, b', -, -, hown, hcell⟩ | ⟨-, hcell⟩
  · rw [hcell] at hb
    obtain rfl := Option.some.inj (mem_sweep hb)
    rw [bucketCall_eq (hst.fetch d k)] at hown
    obtain ⟨-, rfl⟩ := Prod.mk.inj (Option.some.inj hown)
    exact applyOp_lastUsed (hst.fetch d k) _ _
  · rw [hcell] at hb
    exact hst d b (mem_sweep hb)

structure Holds (d : Digest) (k : Tuple) (t : ℚ) (b : Tbucket) : Prop
    extends Fits k.limit.toInt k.period t b where
  digest : b.digest = d

/-- The bucket of `k`, if it is there, is one of its digest, limit and period. -/
def CellFits (d : Digest) (k : Tuple) (t : ℚ) (x : Option Tbucket) : Prop :=
  ∀ b, x = some b → Holds d k t b

theorem applyOp_digest (block : ℚ) (b : Tbucket) (op : Op) (now : ℚ) :
    (applyOp block b op now).2.digest = b.digest := by
  cases op with
  | isDenied => exact denyBucket_digest (refilled b now) block now
  | remaining => rfl
  | blocked => rfl

theorem Holds.applyOp {b : Tbucket} (hlimit : 0 ≤ k.limit.toInt) (hperiod : 0 < k.period)
    (hb : Holds d k now b) (op : Op) : Holds d k now (applyOp k.block b op now).2 :=
  ⟨fits_applyOp hlimit hperiod hb.toFits k.block op, (applyOp_digest _ _ _ _).trans hb.digest⟩

theorem cellFits_none : CellFits d k t none := nofun

theorem Holds.some {b : Tbucket} (hb : Holds d k t b) : CellFits d k t (some b) :=
  fun _ heq => Option.some.inj heq ▸ hb

theorem CellFits.mono (hx : CellFits d k t x) (ht : t ≤ now) : CellFits d k now x :=
  fun b hb => ⟨(hx b hb).toFits.mono ht, (hx b hb).digest⟩

theorem CellFits.sweep (hx : CellFits d k t x) (collects : Bool) (now : ℚ) :
    CellFits d k t (sweep collects now x) :=
  fun b hb => hx b (mem_sweep hb)

theorem CellFits.fetch (hlimit : 0 ≤ k.limit.toInt) (hx : CellFits d k now x) :
    Holds d k now (fetch d k x now) := by
  cases x with
  | none => exact ⟨fits_tbAlloc hlimit d, rfl⟩
  | some b => exact hx b rfl

/-- No other tuple of the call has the digest of `k`. -/
def Separate (H : Hashing) (k : Tuple) (c : Call) : Prop :=
  ∀ k', c.tuple = some k' → H.doDigest k' = H.doDigest k → k' = k

/-- What holds of the bucket of `k` at any time. -/
structure Inv (H : Hashing) (k : Tuple) (t : ℚ) (st : Store) : Prop where
  before : Before st t
  fits : CellFits (H.doDigest k) k t (st.cell (H.doDigest k))

section Step

variable {H : Hashing} {st st' : Store} {c : Call} {r : Result}

theorem Inv.mono (hst : Inv H k t st) (ht : t ≤ now) : Inv H k now st :=
  ⟨hst.before.mono ht, hst.fits.mono ht⟩

theorem Inv.fetch (hlimit : 0 ≤ k.limit.toInt) (hst : Inv H k now st) :
    Holds (H.doDigest k) k now (fetch (H.doDigest k) k (st.cell (H.doDigest k)) now) :=
  hst.fits.fetch hlimit

theorem own_or_other (hst : Before st c.now) (hsep : Separate H k c)
    (h : st.call H c = some (r, st')) :
    (c.tuple = some k ∧
        r = (applyOp k.block (fetch (H.doDigest k) k (st.cell (H.doDigest k)) c.now)
          c.op c.now).1 ∧
        st'.cell (H.doDigest k) = sweep (Collects H st c (H.doDigest k)) c.now
          (some (applyOp k.block (fetch (H.doDigest k) k (st.cell (H.doDigest k)) c.now)
            c.op c.now).2)) ∨
      c.tuple ≠ some k ∧ st'.cell (H.doDigest k) =
        sweep (Collects H st c (H.doDigest k)) c.now (st.cell (H.doDigest k)) := by
  rcases call_cell h (H.doDigest k) with ⟨k', b, hc, hd, hcall, hcell⟩ | ⟨hc, hcell⟩
  · obtain rfl := hsep k' hc hd
    rw [bucketCall_eq (hst.fetch _ _)] at hcall
    obtain ⟨rfl, rfl⟩ := Prod.mk.inj (Option.some.inj hcall)
    exact Or.inl ⟨hc, rfl, hcell⟩
  · exact Or.inr ⟨fun hk => hc k hk rfl, hcell⟩

theorem Inv.step (hlimit : 0 ≤ k.limit.toInt) (hperiod : 0 < k.period) (hst : Inv H k t st)
    (ht : t ≤ c.now) (hsep : Separate H k c) :
    ∃ r st', st.call H c = some (r, st') ∧ Inv H k c.now st' := by
  obtain ⟨r, st', hcall, hbefore⟩ := hst.before.call H c ht
  have hst := hst.mono ht
  refine ⟨r, st', hcall, hbefore, ?_⟩
  rcases own_or_other hst.before hsep hcall with ⟨-, -, hcell⟩ | ⟨-, hcell⟩
  · rw [hcell]
    exact ((hst.fetch hlimit).applyOp hlimit hperiod c.op).some.sweep _ _
  · rw [hcell]
    exact hst.fits.sweep _ _

end Step

/-! Runs from the moment the module is loaded. -/

def tuples (cs : List Call) : Set Tuple :=
  {k | ∃ c ∈ cs, c.tuple = some k}

section Loaded

variable {H : Hashing} {vs : Vsthrottle} {cs : List Call}

theorem before_loaded (hvs : Loaded vs) (t : ℚ) : Before (abs vs) t := by
  intro d b hb
  rw [abs_loaded hvs d] at hb
  exact absurd hb (by simp)

theorem inv_loaded (hvs : Loaded vs) (k : Tuple) (t : ℚ) : Inv H k t (abs vs) := by
  refine ⟨before_loaded hvs t, fun b hb => ?_⟩
  rw [abs_loaded hvs] at hb
  exact absurd hb (by simp)

/-- Every run from there completes, on the partitions and on the store. -/
theorem run_loaded (H : Hashing) (hvs : Loaded vs) (hcs : Monotonic cs) :
    ∃ es vs', run H cs vs = some (es, vs') ∧
      (abs vs).run H cs = some (es.map (Machine.Event.map abs), abs vs') := by
  obtain ⟨t, htimed⟩ := Machine.exists_timed (Store.call H) (abs vs) hcs
    (P := fun _ => True) fun _ _ => trivial
  obtain ⟨fs, st', hfs⟩ := htimed.run_total (fun t st => Before st t)
    (fun t st c hst ht _ => hst.call H c ht) (before_loaded hvs t)
  have hrefines := run_refines H cs (wellFormed_loaded hvs)
  rw [Store.run, hfs] at hrefines
  obtain ⟨⟨es, vs'⟩, hrun, heq⟩ := Option.map_eq_some_iff.mp hrefines
  exact ⟨es, vs', hrun, by rw [Store.run, hfs, ← heq]⟩

theorem separate_of_injectiveOn {k : Tuple} (hH : H.InjectiveOn (insert k (tuples cs))) :
    ∀ c ∈ cs, Separate H k c :=
  fun c hc _ hk' heq =>
    hH.doDigest (Set.mem_insert_of_mem k ⟨c, hc, hk'⟩) (Set.mem_insert k _) heq

end Loaded

theorem table_injectiveOn_tuples {k : Tuple} {cs : List Call}
    (hk : k ∈ [tupleA, tupleA2, tupleA10, tupleG])
    (hcs : ∀ c ∈ cs, c.tuple ∈ [some tupleA, some tupleA2, some tupleA10, some tupleG]) :
    table.InjectiveOn (insert k (tuples cs)) := by
  refine table_injectiveOn.mono ?_
  rintro k' (rfl | ⟨c, hc, hk'⟩)
  · simpa using hk
  · have hmem := hcs c hc
    rw [hk'] at hmem
    simpa using hmem

end VarnishModules.VsthrottleCell
