import VarnishModules.VsthrottleModel

/-!
The partitions as one map from digests to buckets.

`Store` forgets the trees; the functions on partitions give the same results as
the functions on the store they stand for.
-/

namespace VarnishModules.VsthrottleStore

open VarnishModules.TokenBucket
open VarnishModules.VsthrottleModel

/-- One call on one bucket, which is allocated if it is not there. -/
def bucketCall (d : Digest) (k : Tuple) (x : Option Tbucket) (op : Op) (now : ℚ) :
    Option (Result × Tbucket) :=
  let b := x.getD (tbAlloc d k.limit.toInt k.period now)
  match op with
  | .isDenied => (calcTokens b now).map fun b =>
      (.denied (denyBucket b k.block now).1, (denyBucket b k.block now).2)
  | .remaining => (calcTokens b now).map fun b => (.remaining (b.tokens % 2 ^ 32), b)
  | .blocked => some (.blocked (if b.block - now ≤ 0 then 0 else b.block - now), b)

/-- The result of a call without a key. -/
def nullResult : Op → Result
  | .isDenied => .denied true
  | .remaining => .remaining (-1)
  | .blocked => .blocked (-1)

@[ext]
structure Store where
  cell : Digest → Option Tbucket
  gcCount : UInt8 → Nat

def abs (vs : Vsthrottle) : Store where
  cell d := OrderedTree.find Tbucket.digest d (vs (partOf d)).buckets
  gcCount p := (vs p).gcCount

namespace Store

def setCell (st : Store) (d : Digest) (b : Tbucket) : Store :=
  { st with cell := Function.update st.cell d (some b) }

/-- The next counted call of the partition collects. -/
def CollectsNext (st : Store) (part : UInt8) : Prop :=
  st.gcCount part + 1 = gcIntvl

instance (st : Store) (part : UInt8) : Decidable (st.CollectsNext part) :=
  inferInstanceAs (Decidable (_ = _))

def countCall (st : Store) (part : UInt8) (now : ℚ) : Store :=
  if st.CollectsNext part then
    { cell := fun d =>
        if partOf d = part then (st.cell d).filter fun b => !expired now b else st.cell d
      gcCount := Function.update st.gcCount part 0 }
  else
    { st with gcCount := Function.update st.gcCount part (st.gcCount part + 1) }

/-- Only `is_denied` counts towards a collection. -/
def count (st : Store) (op : Op) (part : UInt8) (now : ℚ) : Store :=
  match op with
  | .isDenied => st.countCall part now
  | _ => st

def call (H : Hashing) (st : Store) (c : Call) : Option (Result × Store) :=
  match c.tuple with
  | none => some (nullResult c.op, st)
  | some k =>
      let d := H.doDigest k
      (bucketCall d k (st.cell d) c.op c.now).map fun r =>
        (r.1, (st.setCell d r.2).count c.op (partOf d) c.now)

def run (H : Hashing) :
    List Call → Store → Option (List (Machine.Event Store Call Result) × Store) :=
  Machine.run (Store.call H)

end Store

/-- A partition holds its own digests, in order. -/
structure IsPart (p : UInt8) (v : Partition) : Prop where
  tree : OrderedTree.IsTree Tbucket.digest v.buckets
  part : ∀ b ∈ v.buckets, partOf b.digest = p

def WellFormed (vs : Vsthrottle) : Prop :=
  ∀ p, IsPart p (vs p)

variable {p : UInt8} {v : Partition}

theorem getBucket_spec (hv : IsPart p v) {d : Digest} (hd : partOf d = p) (limit : ℤ)
    (period now : ℚ) :
    ∃ b v', getBucket v d limit period now = some (b, v') ∧
      b = (OrderedTree.find Tbucket.digest d v.buckets).getD (tbAlloc d limit period now) ∧
      b.digest = d ∧ IsPart p v' ∧ v'.gcCount = v.gcCount ∧
      ∀ d', OrderedTree.find Tbucket.digest d' v'.buckets =
        if d' = d then some b else OrderedTree.find Tbucket.digest d' v.buckets := by
  cases hfind : OrderedTree.find Tbucket.digest d v.buckets with
  | some b =>
      have hb := (OrderedTree.find_eq_some_iff hv.tree).mp hfind
      refine ⟨b, v, by simp [getBucket, hfind], rfl, hb.2, hv, rfl, fun d' => ?_⟩
      split
      · next h => rw [h, hfind]
      · rfl
  | none =>
      let b := tbAlloc d limit period now
      have habsent : ∀ x ∈ v.buckets, x.digest ≠ b.digest := OrderedTree.find_eq_none_iff.mp hfind
      let buckets := v.buckets.orderedInsert (fun x y => x.digest ≤ y.digest) b
      refine ⟨b, { v with buckets }, ?_, rfl, rfl, ⟨hv.tree.orderedInsert habsent, ?_⟩, rfl,
        fun d' => (OrderedTree.find_orderedInsert hv.tree habsent d').trans (by congr)⟩
      · simp only [getBucket, hfind]
        rw [OrderedTree.insert_of_absent habsent]
      · intro x hx
        rcases OrderedTree.mem_orderedInsert.mp hx with rfl | hx
        · exact hd
        · exact hv.part x hx

theorem setBucket_spec (hv : IsPart p v) {b b' : Tbucket}
    (hfind : OrderedTree.find Tbucket.digest b.digest v.buckets = some b') :
    IsPart p (setBucket v b) ∧ (setBucket v b).gcCount = v.gcCount ∧
      ∀ d, OrderedTree.find Tbucket.digest d (setBucket v b).buckets =
        if d = b.digest then some b else OrderedTree.find Tbucket.digest d v.buckets := by
  let f : Tbucket → Tbucket := fun x => if x.digest = b.digest then b else x
  have hf : ∀ x, (f x).digest = x.digest := by
    intro x
    simp only [f]
    split
    · next h => exact h.symm
    · rfl
  refine ⟨⟨hv.tree.map hf, ?_⟩, rfl, fun d => ?_⟩
  · intro x hx
    obtain ⟨y, hy, rfl⟩ := List.mem_map.mp hx
    exact (congrArg partOf (hf y)).trans (hv.part y hy)
  · change OrderedTree.find Tbucket.digest d (v.buckets.map f) = _
    rw [OrderedTree.find_map hf]
    split
    · next h =>
        have hb' := (OrderedTree.find_eq_some_iff hv.tree).mp hfind
        rw [h, hfind]
        simp [f, hb'.2]
    · next h =>
        cases hd : OrderedTree.find Tbucket.digest d v.buckets with
        | none => rfl
        | some x =>
            have hx := (OrderedTree.find_eq_some_iff hv.tree).mp hd
            simp [f, hx.2, h]

theorem countCall_spec (hv : IsPart p v) (now : ℚ) :
    IsPart p (countCall now v) ∧
      (countCall now v).gcCount = (if v.gcCount + 1 = gcIntvl then 0 else v.gcCount + 1) ∧
      ∀ d, OrderedTree.find Tbucket.digest d (countCall now v).buckets =
        if v.gcCount + 1 = gcIntvl then
          (OrderedTree.find Tbucket.digest d v.buckets).filter fun b => !expired now b
        else OrderedTree.find Tbucket.digest d v.buckets := by
  by_cases hcount : v.gcCount + 1 = gcIntvl
  · have hcall : countCall now v = { runGc now v with gcCount := 0 } := if_pos hcount
    rw [hcall, if_pos hcount]
    refine ⟨⟨hv.tree.filter _, fun b hb => hv.part b (List.mem_filter.mp hb).1⟩, rfl,
      fun d => ?_⟩
    rw [if_pos hcount]
    exact OrderedTree.find_filter hv.tree _ d
  · have hcall : countCall now v = { v with gcCount := v.gcCount + 1 } := if_neg hcount
    rw [hcall, if_neg hcount]
    refine ⟨⟨hv.tree, hv.part⟩, rfl, fun d => ?_⟩
    rw [if_neg hcount]

theorem abs_update {vs : Vsthrottle} {st : Store} {part : UInt8} {v : Partition}
    (hcell : ∀ d, st.cell d = if partOf d = part then
      OrderedTree.find Tbucket.digest d v.buckets else (abs vs).cell d)
    (hcount : ∀ q, st.gcCount q = if q = part then v.gcCount else (abs vs).gcCount q) :
    abs (Function.update vs part v) = st := by
  apply Store.ext
  · funext d
    rw [hcell]
    by_cases hd : partOf d = part
    · simp [abs, hd]
    · simp [abs, hd]
  · funext q
    rw [hcount]
    by_cases hq : q = part
    · simp [abs, hq]
    · simp [abs, hq]

theorem WellFormed.update {vs : Vsthrottle} (hvs : WellFormed vs) {part : UInt8} {v : Partition}
    (hv : IsPart part v) : WellFormed (Function.update vs part v) := by
  intro q
  by_cases hq : q = part
  · subst hq
    simpa using hv
  · simpa [hq] using hvs q

theorem abs_update_of_part {vs : Vsthrottle} {st : Store} {part : UInt8} {v : Partition}
    (hcell : ∀ d, partOf d = part → OrderedTree.find Tbucket.digest d v.buckets = st.cell d)
    (hcell' : ∀ d, partOf d ≠ part → st.cell d = (abs vs).cell d)
    (hcount : v.gcCount = st.gcCount part)
    (hcount' : ∀ q, q ≠ part → st.gcCount q = (abs vs).gcCount q) :
    abs (Function.update vs part v) = st := by
  refine abs_update (fun d => ?_) fun q => ?_
  · by_cases hd : partOf d = part
    · rw [if_pos hd, hcell d hd]
    · rw [if_neg hd, hcell' d hd]
  · by_cases hq : q = part
    · rw [if_pos hq, hq, hcount]
    · rw [if_neg hq, hcount' q hq]

/-- The partition of `d` after a bucket of the store is set. -/
structure IsSet (vs : Vsthrottle) (d : Digest) (b : Tbucket) (v : Partition) : Prop where
  part : IsPart (partOf d) v
  gcCount : v.gcCount = (abs vs).gcCount (partOf d)
  find : ∀ d', partOf d' = partOf d →
    OrderedTree.find Tbucket.digest d' v.buckets = ((abs vs).setCell d b).cell d'

variable {vs : Vsthrottle} {d : Digest} {b : Tbucket}

theorem IsSet.abs_setCell (hv : IsSet vs d b v) :
    abs (Function.update vs (partOf d) v) = (abs vs).setCell d b := by
  refine abs_update_of_part hv.find (fun d' hd' => ?_) hv.gcCount fun _ _ => rfl
  have hne : d' ≠ d := fun heq => hd' (congrArg partOf heq)
  simp [Store.setCell, hne]

theorem IsSet.abs_countCall (hv : IsSet vs d b v) (now : ℚ) :
    abs (Function.update vs (partOf d) (countCall now v)) =
      ((abs vs).setCell d b).countCall (partOf d) now := by
  obtain ⟨-, hcount, hfind'⟩ := countCall_spec hv.part now
  have hcell' : ∀ d', partOf d' ≠ partOf d →
      ((abs vs).setCell d b).cell d' = (abs vs).cell d' := by
    intro d' hd'
    have hne : d' ≠ d := fun heq => hd' (congrArg partOf heq)
    simp [Store.setCell, hne]
  have hiff : v.gcCount + 1 = gcIntvl ↔ ((abs vs).setCell d b).CollectsNext (partOf d) := by
    rw [hv.gcCount]
    rfl
  by_cases hnext : ((abs vs).setCell d b).CollectsNext (partOf d)
  · rw [Store.countCall, if_pos hnext]
    rw [if_pos (hiff.mpr hnext)] at hcount
    refine abs_update_of_part (fun d' hd' => ?_) (fun d' hd' => ?_) ?_ fun q hq => ?_
    · rw [hfind', if_pos (hiff.mpr hnext), hv.find d' hd']
      exact (if_pos hd').symm
    · exact (if_neg hd').trans (hcell' d' hd')
    · simp [hcount]
    · simp [hq, Store.setCell]
  · rw [Store.countCall, if_neg hnext]
    rw [if_neg (mt hiff.mp hnext)] at hcount
    refine abs_update_of_part (fun d' hd' => ?_) hcell' ?_ fun q hq => ?_
    · rw [hfind', if_neg (mt hiff.mp hnext), hv.find d' hd']
    · rw [hcount, hv.gcCount]
      simp [Store.setCell]
    · simp [hq, Store.setCell]

theorem refines_of_run {c : Call} {r : Result} {vs vs' : Vsthrottle}
    (hrun : c.run H vs = some (r, vs')) (hcall : (abs vs).call H c = some (r, abs vs'))
    (hvs' : WellFormed vs') :
    (c.run H vs).map (fun r => (r.1, abs r.2)) = (abs vs).call H c ∧
      ∀ r vs', c.run H vs = some (r, vs') → WellFormed vs' := by
  rw [hrun]
  refine ⟨hcall.symm, ?_⟩
  rintro r₁ vs₁ h
  obtain ⟨-, rfl⟩ := Prod.mk.inj (Option.some.inj h)
  exact hvs'

theorem call_refines (H : Hashing) {vs : Vsthrottle} (hvs : WellFormed vs) (c : Call) :
    (c.run H vs).map (fun r => (r.1, abs r.2)) = (abs vs).call H c ∧
      ∀ r vs', c.run H vs = some (r, vs') → WellFormed vs' := by
  obtain ⟨op, key, limit, period, block, now⟩ := c
  cases key with
  | none =>
      cases op <;> exact refines_of_run rfl rfl hvs
  | some key =>
      let k : Tuple := ⟨key, limit, period, block⟩
      let d := H.doDigest k
      obtain ⟨b, v, hget, hb, hbd, hv, hgc, hfind⟩ :=
        getBucket_spec (hvs (partOf d)) rfl limit.toInt period now
      have hfetch : ((abs vs).cell d).getD (tbAlloc d limit.toInt period now) = b := hb.symm
      have hset : ∀ b' : Tbucket, b'.digest = d → IsSet vs d b' (setBucket v b') := by
        intro b' hb'
        have hsome : OrderedTree.find Tbucket.digest b'.digest v.buckets = some b := by
          rw [hb', hfind, if_pos rfl]
        obtain ⟨hpart, hcount, hcell⟩ := setBucket_spec hv hsome
        refine ⟨hpart, hcount.trans hgc, fun d' hd' => ?_⟩
        rw [hcell, hfind, hb']
        by_cases hdd : d' = d
        · simp [hdd, Store.setCell]
        · simp [hdd, Store.setCell, abs, hd']
      cases op with
      | isDenied =>
          cases hcalc : calcTokens b now with
          | none =>
              simp [Call.run_eq, vmodIsDenied_some, Store.call, Call.tuple, bucketCall, hget,
                hfetch, hcalc, d, k]
          | some b₁ =>
              have hv' := hset (denyBucket b₁ block now).2
                ((denyBucket_digest b₁ block now).trans ((calcTokens_digest hcalc).trans hbd))
              have hrun : Call.run H vs ⟨.isDenied, some key, limit, period, block, now⟩ =
                  some (.denied (denyBucket b₁ block now).1, Function.update vs (partOf d)
                    (countCall now (setBucket v (denyBucket b₁ block now).2))) := by
                simp [Call.run_eq, vmodIsDenied_some, hget, hcalc, d, k]
              refine refines_of_run hrun ?_ (hvs.update (countCall_spec hv'.part now).1)
              rw [hv'.abs_countCall now]
              simp [Store.call, Store.count, Call.tuple, bucketCall, hfetch, hcalc, d, k]
      | remaining =>
          cases hcalc : calcTokens b now with
          | none =>
              simp [Call.run_eq, vmodRemaining_some, Store.call, Call.tuple, bucketCall, hget,
                hfetch, hcalc, d, k]
          | some b₁ =>
              have hv' := hset b₁ ((calcTokens_digest hcalc).trans hbd)
              have hrun : Call.run H vs ⟨.remaining, some key, limit, period, block, now⟩ =
                  some (.remaining (b₁.tokens % 2 ^ 32),
                    Function.update vs (partOf d) (setBucket v b₁)) := by
                simp [Call.run_eq, vmodRemaining_some, hget, hcalc, d, k]
              refine refines_of_run hrun ?_ (hvs.update hv'.part)
              rw [hv'.abs_setCell]
              simp [Store.call, Store.count, Call.tuple, bucketCall, hfetch, hcalc, d, k]
      | blocked =>
          have hv' : IsSet vs d b v := by
            refine ⟨hv, hgc, fun d' hd' => ?_⟩
            rw [hfind]
            by_cases hdd : d' = d
            · simp [hdd, Store.setCell]
            · simp [hdd, Store.setCell, abs, hd']
          have hrun : Call.run H vs ⟨.blocked, some key, limit, period, block, now⟩ =
              some (.blocked (if b.block - now ≤ 0 then 0 else b.block - now),
                Function.update vs (partOf d) v) := by
            simp [Call.run_eq, vmodBlocked_some, hget, d, k]
          refine refines_of_run hrun ?_ (hvs.update hv'.part)
          rw [hv'.abs_setCell]
          simp [Store.call, Store.count, Call.tuple, bucketCall, hfetch, d, k]

/-- A run on the partitions is the run on the store they stand for. -/
theorem run_refines (H : Hashing) (cs : List Call) {vs : Vsthrottle} (hvs : WellFormed vs) :
    (run H cs vs).map (fun r => (r.1.map (Machine.Event.map abs), abs r.2)) =
      (abs vs).run H cs :=
  Machine.run_map (fun _ c hvs => (call_refines H hvs c).1)
    (fun _ c r vs' hvs => (call_refines H hvs c).2 r vs') cs hvs

theorem wellFormed_loaded (hvs : Loaded vs) : WellFormed vs := by
  refine fun p => ⟨?_, ?_⟩
  · rw [hvs p]
    exact OrderedTree.isTree_nil
  · simp [hvs p]

theorem abs_loaded (hvs : Loaded vs) (d : Digest) : (abs vs).cell d = none := by
  simp [abs, hvs (partOf d), OrderedTree.find]

end VarnishModules.VsthrottleStore
