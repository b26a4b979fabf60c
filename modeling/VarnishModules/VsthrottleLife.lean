import VarnishModules.VsthrottleHeap

/-!
The memory of the module holds the partitions, from the first load of a VCL to
the end of the last one.
-/

namespace VarnishModules.VsthrottleLife

open VarnishModules.TailQueue (Fault length_le_of_lt)
open VarnishModules.TokenBucket
open VarnishModules.VtreeModel
open VarnishModules.VtreeMemory
open VarnishModules.VtreeInsert
open VarnishModules.VtreeWalk
open VarnishModules.VtreeSystem (Forest Refines refines_empty)
open VarnishModules.VsthrottleModel (Hashing Call Op Result Vsthrottle Partition partOf gcIntvl)
open VarnishModules.VsthrottleHeap
open VarnishModules.VsthrottleHeap.Memory

theorem compares_keycmp (bucket : TbucketPtr → Tbucket) (k : Tbucket) (bs : List TbucketPtr) :
    Compares (fun b => (bucket b).digest) k.digest bs fun b => keycmp k (bucket b) :=
  fun b _ => Digest.memcmp_spec k.digest (bucket b).digest

/-- The trees in memory consist of the buckets of the partitions, and of nothing
else that is allocated; `n` VCLs are loaded. -/
structure Simulates (M : Memory) (n : ℕ) (vs : Vsthrottle) (ptrs : UInt8 → List TbucketPtr) :
    Prop where
  forest : Refines (fun b => (M.bucket b).digest) M.tree ⟨ptrs, {b | ∃ p, b ∈ ptrs p}⟩
  buckets : ∀ p, (ptrs p).map M.bucket = (vs p).buckets
  bound : ∀ p, ∀ b ∈ ptrs p, b < M.fresh
  gcCount : ∀ p, M.gcCount p = (vs p).gcCount
  nInit : M.nInit = n
  parts : ∀ p, p ∉ partitions → ptrs p = []

variable {H : Hashing} {M M' : Memory} {n : ℕ} {vs vs' : Vsthrottle} {v : Partition}
  {ptrs : UInt8 → List TbucketPtr} {p part : UInt8} {b : TbucketPtr} {t : Tbucket} {now : ℚ}

theorem simulates_initial :
    Simulates Memory.initial 0 VsthrottleModel.Vsthrottle.empty fun _ => [] where
  forest := ⟨fun _ => represents_nil rfl, fun _ _ _ _ hb => absurd hb List.not_mem_nil,
    fun b => by simp [Memory.initial]⟩
  buckets _ := rfl
  bound _ _ hb := absurd hb List.not_mem_nil
  gcCount _ := rfl
  nInit := rfl
  parts _ _ := rfl

theorem partOf_mem (d : Digest) : partOf d ∈ partitions := by
  have h : ∀ x : UInt8, x &&& 15 ∈ partitions := by decide +kernel
  exact h d.head

section Steps

variable (hs : Simulates M n vs ptrs)
include hs

theorem Simulates.length_le (p : UInt8) : (ptrs p).length ≤ M.fresh :=
  length_le_of_lt (hs.forest.trees p).sorted.nodup (hs.bound p)

theorem Simulates.turns_le (p : UInt8) : turns (ptrs p).length ≤ M.fuel := by
  have := hs.length_le p
  exact (VtreeSystem.turns_le _).trans (by simp only [fuel]; omega)

theorem Simulates.load (hb : b ∈ ptrs p) : M.load b = .ok (M.bucket b) := by
  obtain ⟨e, he⟩ := Option.isSome_iff_exists.mp ((hs.forest.trees p).isSome hb)
  simp [Memory.load, bind, Except.bind, deref_eq he, pure, Except.pure]

/-- A bucket is written through its pointer. -/
theorem Simulates.store (hb : b ∈ ptrs p) (hdigest : t.digest = (M.bucket b).digest) :
    ∃ M', M.store b t = .ok M' ∧ M'.bucket b = t ∧
      Simulates M' n (Function.update vs p (VsthrottleModel.setBucket (vs p) t)) ptrs := by
  obtain ⟨e, he⟩ := Option.isSome_iff_exists.mp ((hs.forest.trees p).isSome hb)
  have hdigests : ∀ x, (Function.update M.bucket b t x).digest = (M.bucket x).digest := by
    intro x
    by_cases hx : x = b
    · subst hx
      rw [Function.update_self, hdigest]
    · rw [Function.update_of_ne hx]
  refine ⟨{ M with bucket := Function.update M.bucket b t }, ?_, Function.update_self _ _ _, ?_⟩
  · simp [Memory.store, bind, Except.bind, deref_eq he, pure, Except.pure]
  · refine ⟨hs.forest.congr_key fun q x _ => hdigests x, ?_, hs.bound, ?_, hs.nInit, hs.parts⟩
    · intro q
      by_cases hq : q = p
      · subst hq
        rw [Function.update_self, VsthrottleModel.setBucket, ← hs.buckets q, List.map_map]
        refine List.map_congr_left fun x hx => ?_
        by_cases hxb : x = b
        · subst hxb
          simp [hdigest]
        · have hne : (M.bucket x).digest ≠ t.digest := by
            intro heq
            exact hxb ((hs.forest.trees q).sorted.key_injOn hx hb (heq.trans hdigest))
          simp [Function.update_of_ne hxb, hne]
      · rw [Function.update_of_ne hq, ← hs.buckets q]
        refine List.map_congr_left fun x hx => Function.update_of_ne ?_ _ _
        rintro rfl
        exact hs.forest.disjoint q p hq x hx hb
    · intro q
      by_cases hq : q = p
      · subst hq
        rw [Function.update_self]
        exact hs.gcCount q
      · rw [Function.update_of_ne hq]
        exact hs.gcCount q

theorem Simulates.find (d : Digest) (p : UInt8) :
    M.tree.vrbFind M.fuel (fun k b => keycmp k (M.bucket b)) p (keyBucket d) =
      .ok (OrderedTree.find (fun b => (M.bucket b).digest) d (ptrs p)) :=
  vrbFind_spec (hs.forest.trees p) (compares_keycmp M.bucket (keyBucket d) _) (hs.turns_le p)

theorem Simulates.find_buckets (d : Digest) (p : UInt8) :
    OrderedTree.find Tbucket.digest d (vs p).buckets =
      (OrderedTree.find (fun b => (M.bucket b).digest) d (ptrs p)).map M.bucket := by
  rw [← hs.buckets p, OrderedTree.find, OrderedTree.find, List.find?_map]
  rfl

/-- A new bucket, outside of the trees. -/
theorem Simulates.fresh_notMem (p : UInt8) : M.fresh ∉ ptrs p := fun hmem =>
  lt_irrefl _ (hs.bound p _ hmem)

theorem Simulates.map_update (p : UInt8) (t : Tbucket) :
    (ptrs p).map (Function.update M.bucket M.fresh t) = (ptrs p).map M.bucket := by
  refine List.map_congr_left fun x hx => Function.update_of_ne ?_ _ _
  rintro rfl
  exact hs.fresh_notMem p hx

omit hs in
theorem setOf_update_insert {xs : List TbucketPtr} (hmem : ∀ x, x ∈ xs ↔ x = b ∨ x ∈ ptrs p) :
    {x | ∃ q, x ∈ Function.update ptrs p xs q} = insert b {x | ∃ q, x ∈ ptrs q} := by
  ext x
  constructor
  · rintro ⟨q, hq⟩
    by_cases hqp : q = p
    · subst hqp
      rw [Function.update_self, hmem] at hq
      exact hq.imp id fun hq => ⟨q, hq⟩
    · rw [Function.update_of_ne hqp] at hq
      exact Or.inr ⟨q, hq⟩
  · rintro (rfl | ⟨q, hq⟩)
    · exact ⟨p, by simp [hmem]⟩
    · by_cases hqp : q = p
      · subst hqp
        exact ⟨q, by simp [hmem, hq]⟩
      · exact ⟨q, by rwa [Function.update_of_ne hqp]⟩

/-- A new bucket goes into a tree that has none with its digest. -/
theorem Simulates.insert (hp : p ∈ partitions)
    (hkeys : ∀ x ∈ ptrs p, (M.bucket x).digest ≠ t.digest) :
    ∃ tree ptrs', M.fresh ∈ ptrs' p ∧
      (M.tree.put M.fresh ⟨none, none, none, .black⟩).vrbInsert (M.fuel + 1)
        (fun b1 b2 => keycmp (Function.update M.bucket M.fresh t b1)
          (Function.update M.bucket M.fresh t b2)) p M.fresh = .ok (none, tree) ∧
      Simulates { M with
          tree, bucket := Function.update M.bucket M.fresh t, fresh := M.fresh + 1 } n
        (Function.update vs p { vs p with
          buckets := (vs p).buckets.orderedInsert (fun a b => a.digest ≤ b.digest) t }) ptrs' := by
  generalize hbucket : Function.update M.bucket M.fresh t = bucket
  have hfresh : bucket M.fresh = t := by rw [← hbucket, Function.update_self]
  have hsame : ∀ q, ∀ x ∈ ptrs q, bucket x = M.bucket x := by
    intro q x hx
    rw [← hbucket]
    exact Function.update_of_ne (ne_of_mem_of_not_mem hx (hs.fresh_notMem q)) _ _
  -- the bucket is allocated
  have hlive : M.fresh ∉ {b | ∃ p, b ∈ ptrs p} := by
    rintro ⟨q, hq⟩
    exact hs.fresh_notMem q hq
  have hforest : Refines (fun b => (bucket b).digest) M.tree ⟨ptrs, {b | ∃ p, b ∈ ptrs p}⟩ :=
    hs.forest.congr_key fun q x hx => by rw [hsame q x hx]
  have hforest := hforest.malloc hlive ⟨none, none, none, .black⟩
  -- and inserted
  have habsent : ∀ x ∈ ptrs p, (bucket x).digest ≠ (bucket M.fresh).digest := by
    intro x hx
    rw [hsame p x hx, hfresh]
    exact hkeys x hx
  obtain ⟨tree, hinsert, hforest⟩ := hforest.insert (h := p)
    (fun b1 b2 => keycmp (bucket b1) (bucket b2)) (Set.mem_insert _ _)
    (fun q _ => hs.fresh_notMem q) (compares_keycmp bucket (bucket M.fresh) _)
    (show _ ≤ M.fuel + 1 from (hs.turns_le p).trans (Nat.le_succ _))
  rw [OrderedTree.insert_of_absent habsent] at hinsert hforest
  generalize hxs : (ptrs p).orderedInsert
    (fun a b => (bucket a).digest ≤ (bucket b).digest) M.fresh = xs at hforest
  have hmem : ∀ x, x ∈ xs ↔ x = M.fresh ∨ x ∈ ptrs p := by
    intro x
    rw [← hxs]
    exact OrderedTree.mem_orderedInsert
  have hmap : xs.map bucket =
      (vs p).buckets.orderedInsert (fun a b => a.digest ≤ b.digest) t := by
    rw [← hxs, OrderedTree.map_orderedInsert, hfresh, ← hbucket, hs.map_update, hs.buckets]
  refine ⟨tree, Function.update ptrs p xs, ?_, hinsert, ?_, ?_, ?_, ?_, hs.nInit, ?_⟩
  · rw [Function.update_self]
    exact (hmem _).mpr (Or.inl rfl)
  · rw [setOf_update_insert hmem]
    exact hforest
  · rw [← hmap]
    intro q
    by_cases hqp : q = p
    · subst hqp
      simp
    · rw [Function.update_of_ne hqp, Function.update_of_ne hqp, ← hbucket, hs.map_update,
        hs.buckets]
  · refine (Function.forall_update_iff ptrs fun _ xs => ∀ x ∈ xs, x < M.fresh + 1).mpr
      ⟨fun x hx => ?_, fun q _ x hx => (hs.bound q x hx).trans (Nat.lt_succ_self _)⟩
    rcases (hmem x).mp hx with rfl | hx
    · exact Nat.lt_succ_self _
    · exact (hs.bound p x hx).trans (Nat.lt_succ_self _)
  · exact (Function.forall_update_iff vs fun q v => M.gcCount q = v.gcCount).mpr
      ⟨hs.gcCount p, fun q _ => hs.gcCount q⟩
  · intro q hq
    rw [Function.update_of_ne (ne_of_mem_of_not_mem hp hq).symm]
    exact hs.parts q hq

/-- The bucket of a digest, which is allocated if there is none. -/
theorem Simulates.getBucket (d : Digest) (limit : ℤ) (period now : ℚ) :
    ∃ t v b M' ptrs', VsthrottleModel.getBucket (vs (partOf d)) d limit period now = some (t, v) ∧
      M.getBucket d limit period now = .ok (b, M') ∧ M'.bucket b = t ∧ b ∈ ptrs' (partOf d) ∧
      Simulates M' n (Function.update vs (partOf d) v) ptrs' := by
  have hfind := hs.find d (partOf d)
  have hbuckets := hs.find_buckets d (partOf d)
  cases hptr : OrderedTree.find (fun b => (M.bucket b).digest) d (ptrs (partOf d)) with
  | some b =>
      obtain ⟨hb, hdigest⟩ :=
        (OrderedTree.find_eq_some_iff (hs.forest.trees _).sorted).mp hptr
      rw [hptr] at hfind hbuckets
      refine ⟨M.bucket b, vs (partOf d), b, M, ptrs, ?_, ?_, rfl, hb, ?_⟩
      · simp [VsthrottleModel.getBucket, hbuckets]
      · simp [Memory.getBucket, bind, Except.bind, hfind, pure, Except.pure]
      · rwa [Function.update_eq_self]
  | none =>
      rw [hptr] at hfind hbuckets
      have hkeys : ∀ x ∈ ptrs (partOf d), (M.bucket x).digest ≠ d :=
        OrderedTree.find_eq_none_iff.mp hptr
      generalize ht : TokenBucket.tbAlloc d limit period now = t
      have htd : t.digest = d := by rw [← ht]; rfl
      obtain ⟨tree, ptrs', hmem, hinsert, hs'⟩ :=
        hs.insert (t := t) (partOf_mem d) (by rwa [htd])
      refine ⟨t, _, M.fresh, _, ptrs', ?_, ?_, Function.update_self _ _ _, hmem, hs'⟩
      · have habsent : ∀ y ∈ (vs (partOf d)).buckets, y.digest ≠ t.digest := by
          rw [← hs.buckets, htd]
          simpa using hkeys
        simp [VsthrottleModel.getBucket, hbuckets, ht, OrderedTree.insert_of_absent habsent]
      · simp only [fuel] at hinsert hfind
        simp [Memory.getBucket, bind, Except.bind, hfind, Memory.tbAlloc, ht, fuel, hinsert, pure,
          Except.pure]

/-- `VRB_FOREACH_SAFE` releases the buckets of a partition that `q` is true of. -/
theorem Simulates.removeIf (hp : p ∈ partitions) (q : TbucketPtr → Bool) :
    ∃ tree, M.tree.vrbForeachSafe M.fuel p (removeIf M.fuel p q) = .ok tree ∧
      Simulates { M with tree } n
        (Function.update vs p { vs p with
          buckets := ((ptrs p).filter fun x => !q x).map M.bucket })
        (Function.update ptrs p ((ptrs p).filter fun x => !q x)) := by
  have hlen := hs.length_le p
  obtain ⟨tree, hloop, hforest⟩ := hs.forest.removeIf (h := p) (q := q)
    (show _ < M.fuel by simp only [fuel]; omega) (hs.turns_le p)
  have hsub : ∀ r, ∀ x ∈ Function.update ptrs p ((ptrs p).filter fun x => !q x) r, x ∈ ptrs r := by
    intro r x hx
    by_cases hr : r = p
    · subst hr
      rw [Function.update_self] at hx
      exact List.mem_of_mem_filter hx
    · rwa [Function.update_of_ne hr] at hx
  have hlive : {b | ∃ r, b ∈ ptrs r} \ {x | x ∈ ptrs p ∧ q x} =
      {b | ∃ r, b ∈ Function.update ptrs p ((ptrs p).filter fun x => !q x) r} := by
    ext x
    constructor
    · rintro ⟨⟨r, hr⟩, hnot⟩
      by_cases hrp : r = p
      · subst hrp
        have hq : q x = false := by
          cases hq : q x with
          | false => rfl
          | true => exact absurd ⟨hr, hq⟩ hnot
        exact ⟨r, by simp [hr, hq]⟩
      · exact ⟨r, by simpa [hrp] using hr⟩
    · rintro ⟨r, hr⟩
      refine ⟨⟨r, hsub r x hr⟩, ?_⟩
      rintro ⟨hx, hqx⟩
      by_cases hrp : r = p
      · subst hrp
        simp [hqx] at hr
      · exact hs.forest.disjoint r p hrp x (hsub r x hr) hx
  refine ⟨tree, hloop, ?_, ?_, ?_, ?_, hs.nInit, ?_⟩
  · rw [← hlive]
    exact hforest
  · intro r
    by_cases hr : r = p
    · subst hr
      simp
    · rw [Function.update_of_ne hr, Function.update_of_ne hr]
      exact hs.buckets r
  · exact fun r x hx => hs.bound r x (hsub r x hx)
  · intro r
    by_cases hr : r = p
    · subst hr
      rw [Function.update_self]
      exact hs.gcCount r
    · rw [Function.update_of_ne hr]
      exact hs.gcCount r
  · exact fun r hr => List.eq_nil_iff_forall_not_mem.mpr fun x hx => by
      have := hsub r x hx
      rw [hs.parts r hr] at this
      exact absurd this List.not_mem_nil

theorem Simulates.runGc (hp : p ∈ partitions) (now : ℚ) :
    ∃ M' ptrs', M.runGc now p = .ok M' ∧
      Simulates M' n (Function.update vs p (VsthrottleModel.runGc now (vs p))) ptrs' := by
  obtain ⟨tree, hloop, hs'⟩ := hs.removeIf hp fun x => expired now (M.bucket x)
  have hgc : M.runGc now p = .ok { M with tree } := by
    simp [Memory.runGc, bind, Except.bind, hloop, pure, Except.pure]
  have hmodel : VsthrottleModel.runGc now (vs p) = { vs p with
      buckets := ((ptrs p).filter fun x => !expired now (M.bucket x)).map M.bucket } := by
    rw [VsthrottleModel.runGc_eq, ← hs.buckets p, List.filter_map]
    rfl
  rw [hmodel]
  exact ⟨_, _, hgc, hs'⟩

/-- The counter of a partition is written. -/
theorem Simulates.setCount (k : ℕ) :
    Simulates { M with gcCount := Function.update M.gcCount p k } n
      (Function.update vs p { vs p with gcCount := k }) ptrs where
  forest := hs.forest
  buckets q := by
    by_cases hq : q = p
    · subst hq
      rw [Function.update_self]
      exact hs.buckets q
    · rw [Function.update_of_ne hq]
      exact hs.buckets q
  bound := hs.bound
  gcCount q := by
    by_cases hq : q = p
    · subst hq
      simp
    · simpa [hq] using hs.gcCount q
  nInit := hs.nInit
  parts := hs.parts

theorem Simulates.countCall (hp : p ∈ partitions) (now : ℚ) :
    ∃ M' ptrs', M.countCall now p = .ok M' ∧
      Simulates M' n (Function.update vs p (VsthrottleModel.countCall now (vs p))) ptrs' := by
  have hs₁ := hs.setCount (p := p) (M.gcCount p + 1)
  rw [hs.gcCount p] at hs₁
  by_cases hcount : (vs p).gcCount + 1 = gcIntvl
  · obtain ⟨M₂, ptrs', hgc, hs₂⟩ := hs₁.runGc hp now
    have hs₃ := hs₂.setCount (p := p) 0
    rw [Function.update_idem, Function.update_self, Function.update_idem,
      Function.update_self] at hs₃
    have hcall : M.countCall now p =
        .ok { M₂ with gcCount := Function.update M₂.gcCount p 0 } := by
      simp only [Memory.countCall, hs.gcCount p, Function.update_self, hcount, ↓reduceIte, bind,
        Except.bind]
      rw [← hcount, hgc]
      rfl
    have hmodel : VsthrottleModel.countCall now (vs p) = { VsthrottleModel.runGc now
        { vs p with gcCount := (vs p).gcCount + 1 } with gcCount := 0 } := by
      rw [VsthrottleModel.countCall_eq]
      exact if_pos hcount
    rw [hmodel]
    exact ⟨_, ptrs', hcall, hs₃⟩
  · have hcall : M.countCall now p =
        .ok { M with gcCount := Function.update M.gcCount p ((vs p).gcCount + 1) } := by
      simp only [Memory.countCall, hs.gcCount p, Function.update_self, hcount, ↓reduceIte]
      rfl
    have hmodel : VsthrottleModel.countCall now (vs p) =
        { vs p with gcCount := (vs p).gcCount + 1 } := by
      rw [VsthrottleModel.countCall_eq]
      exact if_neg hcount
    rw [hmodel]
    exact ⟨_, ptrs, hcall, hs₁⟩

theorem Simulates.calcTokens_none (hb : b ∈ ptrs p)
    (hcalc : TokenBucket.calcTokens (M.bucket b) now = none) :
    M.calcTokens b now = .error .assertion := by
  simp [Memory.calcTokens, bind, Except.bind, hs.load hb, hcalc]

theorem Simulates.calcTokens (hb : b ∈ ptrs p)
    (hcalc : TokenBucket.calcTokens (M.bucket b) now = some t) :
    ∃ M', M.calcTokens b now = .ok M' ∧ M'.bucket b = t ∧
      Simulates M' n (Function.update vs p (VsthrottleModel.setBucket (vs p) t)) ptrs := by
  obtain ⟨M', hstore, hbucket, hs'⟩ := hs.store hb (calcTokens_digest hcalc)
  refine ⟨M', ?_, hbucket, hs'⟩
  simp [Memory.calcTokens, bind, Except.bind, hs.load hb, hcalc, hstore]

end Steps

theorem setBucket_setBucket {t t' : Tbucket} (hdigest : t'.digest = t.digest) :
    VsthrottleModel.setBucket (VsthrottleModel.setBucket v t) t' =
      VsthrottleModel.setBucket v t' := by
  simp only [VsthrottleModel.setBucket, List.map_map]
  refine congrArg (fun bs => { v with buckets := bs }) (List.map_congr_left fun x _ => ?_)
  by_cases hx : x.digest = t.digest
  · simp [hx, hdigest]
  · simp [hx, hdigest]

/-- What happens in memory follows the partitions, and fails with an assertion
where they have no next state. -/
def Follows {α : Type} (n : ℕ) (x : Option (α × Vsthrottle)) (y : Except Fault (α × Memory)) :
    Prop :=
  match x with
  | none => y = .error .assertion
  | some (a, vs') => ∃ M' ptrs', y = .ok (a, M') ∧ Simulates M' n vs' ptrs'

section Calls

variable (hs : Simulates M n vs ptrs) (key : Option CStrings.CString) (limit : Int64)
  (period block now : ℚ)
include hs

theorem isDenied_follows :
    Follows n (VsthrottleModel.vmodIsDenied H vs key limit period block now)
      (M.vmodIsDenied H key limit period block now) := by
  cases key with
  | none => exact ⟨M, ptrs, rfl, hs⟩
  | some key =>
      generalize hd : H.doDigest ⟨key, limit, period, block⟩ = d
      obtain ⟨t, v, b, M₁, ptrs₁, hmodel, hget, rfl, hb, hs₁⟩ :=
        hs.getBucket d limit.toInt period now
      cases hcalc : TokenBucket.calcTokens (M₁.bucket b) now with
      | none =>
          have hstuck := hs₁.calcTokens_none hb hcalc
          simp [Follows, VsthrottleModel.vmodIsDenied_some, Memory.vmodIsDenied, hd, hmodel, bind,
            Except.bind, hget, hcalc, hstuck]
      | some t₁ =>
          obtain ⟨M₂, htokens, rfl, hs₂⟩ := hs₁.calcTokens hb hcalc
          have hload := hs₂.load hb
          have hdigest : (denyBucket (M₂.bucket b) block now).2.digest = (M₂.bucket b).digest :=
            denyBucket_digest ..
          obtain ⟨M₃, hstore, -, hs₃⟩ := hs₂.store hb hdigest
          obtain ⟨M₄, ptrs₄, hcount, hs₄⟩ := hs₃.countCall (partOf_mem d) now
          simp only [Function.update_idem, Function.update_self, setBucket_setBucket hdigest]
            at hs₄
          have hret : M.vmodIsDenied H (some key) limit period block now =
              .ok ((denyBucket (M₂.bucket b) block now).1, M₄) := by
            simp [Memory.vmodIsDenied, hd, bind, Except.bind, hget, htokens, hload, hstore, hcount,
              pure, Except.pure]
          have hres : VsthrottleModel.vmodIsDenied H vs (some key) limit period block now =
              some ((denyBucket (M₂.bucket b) block now).1, Function.update vs (partOf d)
                (VsthrottleModel.countCall now
                  (VsthrottleModel.setBucket v (denyBucket (M₂.bucket b) block now).2))) := by
            simp [VsthrottleModel.vmodIsDenied_some, hd, hmodel, hcalc]
          rw [hret, hres]
          exact ⟨M₄, ptrs₄, rfl, hs₄⟩

theorem remaining_follows :
    Follows n (VsthrottleModel.vmodRemaining H vs key limit period block now)
      (M.vmodRemaining H key limit period block now) := by
  cases key with
  | none => exact ⟨M, ptrs, rfl, hs⟩
  | some key =>
      generalize hd : H.doDigest ⟨key, limit, period, block⟩ = d
      obtain ⟨t, v, b, M₁, ptrs₁, hmodel, hget, rfl, hb, hs₁⟩ :=
        hs.getBucket d limit.toInt period now
      cases hcalc : TokenBucket.calcTokens (M₁.bucket b) now with
      | none =>
          have hstuck := hs₁.calcTokens_none hb hcalc
          simp [Follows, VsthrottleModel.vmodRemaining_some, Memory.vmodRemaining, hd, hmodel, bind,
            Except.bind, hget, hcalc, hstuck]
      | some t₁ =>
          obtain ⟨M₂, htokens, rfl, hs₂⟩ := hs₁.calcTokens hb hcalc
          have hload := hs₂.load hb
          simp only [Function.update_idem, Function.update_self] at hs₂
          have hret : M.vmodRemaining H (some key) limit period block now =
              .ok ((M₂.bucket b).tokens % 2 ^ 32, M₂) := by
            simp [Memory.vmodRemaining, hd, bind, Except.bind, hget, htokens, hload, pure,
              Except.pure]
          have hres : VsthrottleModel.vmodRemaining H vs (some key) limit period block now =
              some ((M₂.bucket b).tokens % 2 ^ 32,
                Function.update vs (partOf d) (VsthrottleModel.setBucket v (M₂.bucket b))) := by
            simp [VsthrottleModel.vmodRemaining_some, hd, hmodel, hcalc]
          rw [hret, hres]
          exact ⟨M₂, ptrs₁, rfl, hs₂⟩

theorem blocked_follows :
    Follows n (VsthrottleModel.vmodBlocked H vs key limit period block now)
      (M.vmodBlocked H key limit period block now) := by
  cases key with
  | none => exact ⟨M, ptrs, rfl, hs⟩
  | some key =>
      generalize hd : H.doDigest ⟨key, limit, period, block⟩ = d
      obtain ⟨t, v, b, M₁, ptrs₁, hmodel, hget, rfl, hb, hs₁⟩ :=
        hs.getBucket d limit.toInt period now
      have hload := hs₁.load hb
      have hret : M.vmodBlocked H (some key) limit period block now =
          .ok (if (M₁.bucket b).block - now ≤ 0 then 0 else (M₁.bucket b).block - now, M₁) := by
        simp [Memory.vmodBlocked, hd, bind, Except.bind, hget, hload, pure, Except.pure]
      have hres : VsthrottleModel.vmodBlocked H vs (some key) limit period block now =
          some (if (M₁.bucket b).block - now ≤ 0 then 0 else (M₁.bucket b).block - now,
            Function.update vs (partOf d) v) := by
        simp [VsthrottleModel.vmodBlocked_some, hd, hmodel]
      rw [hret, hres]
      exact ⟨M₁, ptrs₁, rfl, hs₁⟩

theorem call_follows (c : Call) : Follows n (c.run H vs) (M.call H c) := by
  have hmap : ∀ {α : Type} (f : α → Result) {x : Option (α × Vsthrottle)}
      {y : Except Fault (α × Memory)}, Follows n x y →
      Follows n (x.map fun r => (f r.1, r.2)) (y.map fun r => (f r.1, r.2)) := by
    intro α f x y h
    cases x with
    | none =>
        rw [show y = .error .assertion from h]
        rfl
    | some r =>
        obtain ⟨M', ptrs', hy, hs'⟩ := h
        rw [hy]
        exact ⟨M', ptrs', rfl, hs'⟩
  obtain ⟨op, key, limit, period, block, now⟩ := c
  cases op with
  | isDenied => exact hmap Result.denied (isDenied_follows hs key limit period block now)
  | remaining => exact hmap Result.remaining (remaining_follows hs key limit period block now)
  | blocked => exact hmap Result.blocked (blocked_follows hs key limit period block now)

end Calls

section Loads

variable (hs : Simulates M n vs ptrs)
include hs

theorem Simulates.setInit (k : ℕ) : Simulates { M with nInit := k } k vs ptrs :=
  ⟨hs.forest, hs.buckets, hs.bound, hs.gcCount, rfl, hs.parts⟩

/-- `VRB_INIT` of trees that are empty. -/
theorem Simulates.init (hempty : ∀ p, ptrs p = []) (ps : List UInt8) :
    Simulates { M with tree := ps.foldl (fun tree p => tree.vrbInit p) M.tree } n vs ptrs := by
  refine ⟨?_, hs.buckets, hs.bound, hs.gcCount, hs.nInit, hs.parts⟩
  have hforest := hs.forest
  generalize M.tree = tree at hforest ⊢
  induction ps generalizing tree with
  | nil => exact hforest
  | cons p ps ih =>
      refine ih (tree.vrbInit p) ?_
      have hinit := hforest.init p
      rwa [Forest.setTree, ← hempty p, Function.update_eq_self] at hinit

/-- `fini` empties the partitions one after the other. -/
theorem Simulates.dropPartitions {ps : List UInt8} (hps : ∀ p ∈ ps, p ∈ partitions) :
    ∃ M' vs' ptrs', M.dropPartitions ps = .ok M' ∧ Simulates M' n vs' ptrs' ∧
      (∀ p, ptrs' p = if p ∈ ps then [] else ptrs p) ∧ ∀ p, (vs' p).gcCount = (vs p).gcCount := by
  induction ps generalizing M vs ptrs with
  | nil => exact ⟨M, vs, ptrs, rfl, hs, by simp, fun _ => rfl⟩
  | cons p ps ih =>
      obtain ⟨tree, hloop, hs₁⟩ := hs.removeIf (hps p (by simp)) fun _ => true
      obtain ⟨M', vs', ptrs', hdrop, hs', hptrs, hcount⟩ :=
        ih hs₁ fun q hq => hps q (by simp [hq])
      refine ⟨M', vs', ptrs', ?_, hs', ?_, ?_⟩
      · simp [Memory.dropPartitions, Memory.dropBuckets, bind, Except.bind, hloop, pure,
          Except.pure, hdrop]
      · intro q
        rw [hptrs q]
        by_cases hq : q = p
        · subst hq
          simp
        · simp [hq]
      · intro q
        rw [hcount q]
        by_cases hq : q = p
        · subst hq
          simp
        · simp [hq]

end Loads

/-- The module between two acts: without a loaded VCL it has no buckets. -/
def Rests (M : Memory) (L : ℕ × Vsthrottle) : Prop :=
  ∃ ptrs, Simulates M L.1 L.2 ptrs ∧ (L.1 = 0 → ∀ p, ptrs p = [])

theorem partition_ext {v v' : Partition} (hb : v.buckets = v'.buckets)
    (hc : v.gcCount = v'.gcCount) : v = v' := by
  cases v
  cases v'
  simp_all

/-- Only the first load of a VCL initialises the trees. -/
theorem event_follows {L : ℕ × Vsthrottle} (hM : Rests M L) (e : VclEvent) :
    Rests (M.eventFunction e) (if e = .load then L.1 + 1 else L.1, L.2) := by
  obtain ⟨ptrs, hs, hempty⟩ := hM
  by_cases he : e = .load
  · subst he
    have hn := hs.nInit
    by_cases hzero : L.1 = 0
    · refine ⟨ptrs, ?_, fun h => absurd h (by simp)⟩
      have hinit := (hs.init (hempty hzero) partitions).setInit (L.1 + 1)
      simpa [eventFunction, hn, hzero] using hinit
    · refine ⟨ptrs, ?_, fun h => absurd h (by simp)⟩
      have hinit := hs.setInit (L.1 + 1)
      simpa [eventFunction, hn, hzero] using hinit
  · rw [if_neg he]
    have hsame : M.eventFunction e = M := by simp [eventFunction, he]
    rw [hsame]
    exact ⟨ptrs, hs, hempty⟩

/-- The end of the last VCL releases every bucket. -/
theorem fini_follows (hM : Rests M (n + 1, vs)) : ∃ M', M.fini = .ok M' ∧
    Rests M' (n, if n = 0 then fun p => { vs p with buckets := [] } else vs) := by
  obtain ⟨ptrs, hs, -⟩ := hM
  have hn : M.nInit = n + 1 := hs.nInit
  have hs₁ := hs.setInit n
  cases n with
  | zero =>
      obtain ⟨M', vs', ptrs', hdrop, hs', hptrs, hcount⟩ :=
        hs₁.dropPartitions (show ∀ p ∈ partitions, p ∈ partitions from fun _ hp => hp)
      have hnil : ∀ p, ptrs' p = [] := by
        intro p
        rw [hptrs p]
        split
        · rfl
        · next hp => exact hs.parts p hp
      have hvs : vs' = fun p => { vs p with buckets := [] } := by
        funext p
        refine partition_ext ?_ (hcount p)
        rw [← hs'.buckets p, hnil p]
        rfl
      refine ⟨M', ?_, ptrs', ?_, fun _ => hnil⟩
      · simp [Memory.fini, hn, hdrop]
      · rw [if_pos rfl, ← hvs]
        exact hs'
  | succ n =>
      refine ⟨{ M with nInit := n + 1 }, ?_, ptrs, ?_, fun h => absurd h (by simp)⟩
      · simp [Memory.fini, hn]
      · rw [if_neg (Nat.succ_ne_zero n)]
        exact hs₁

/-- The state after an act, unless an assertion fails. -/
theorem act_follows {L : ℕ × Vsthrottle} {a : Act} (hM : Rests M L)
    (hcall : ∀ c, a = .call c → 0 < L.1) :
    (life H L a = none → M.act H a = .error .assertion) ∧
      ∀ r L', life H L a = some (r, L') → ∃ M', M.act H a = .ok (r, M') ∧ Rests M' L' := by
  obtain ⟨n, vs⟩ := L
  cases a with
  | event e =>
      refine ⟨by simp [life], ?_⟩
      rintro r L' heq
      obtain ⟨rfl, rfl⟩ := Prod.mk.inj (Option.some.inj heq)
      exact ⟨_, rfl, event_follows hM e⟩
  | fini =>
      cases n with
      | zero =>
          obtain ⟨ptrs, hs, -⟩ := hM
          have hn : M.nInit = 0 := hs.nInit
          refine ⟨fun _ => ?_, by simp [life]⟩
          simp [Memory.act, Memory.fini, hn, bind, Except.bind]
      | succ n =>
          obtain ⟨M', hfini, hM'⟩ := fini_follows hM
          have hact : M.act H .fini = .ok (none, M') := by
            simp [Memory.act, hfini, bind, Except.bind, pure, Except.pure]
          have hlife : life H (n + 1, vs) .fini =
              some (none, n, if n = 0 then fun p => { vs p with buckets := [] } else vs) := by
            cases n <;> simp [life]
          rw [hlife]
          refine ⟨by simp, ?_⟩
          rintro r L' heq
          obtain ⟨rfl, rfl⟩ := Prod.mk.inj (Option.some.inj heq)
          exact ⟨M', hact, hM'⟩
  | call c =>
      have hn : 0 < n := hcall c rfl
      obtain ⟨ptrs, hs, -⟩ := hM
      have hfollows := call_follows (H := H) hs c
      simp only [life, Memory.act]
      cases hc : c.run H vs with
      | none =>
          rw [hc] at hfollows
          have herr : M.call H c = .error .assertion := hfollows
          simp [herr, bind, Except.bind]
      | some r =>
          rw [hc] at hfollows
          obtain ⟨M', ptrs', hret, hs'⟩ := hfollows
          refine ⟨by simp, ?_⟩
          rintro r' L' heq
          obtain ⟨rfl, rfl⟩ := Prod.mk.inj (Option.some.inj heq)
          refine ⟨M', by simp [hret, bind, Except.bind, pure, Except.pure], ptrs', hs', ?_⟩
          exact fun h => absurd h hn.ne'

theorem callsLoaded_cons {a : Act} {as : List Act} {L L' : ℕ × Vsthrottle} {r : Option Result}
    (h : CallsLoaded L.1 (a :: as)) (hlife : life H L a = some (r, L')) :
    (∀ c, a = .call c → 0 < L.1) ∧ CallsLoaded L'.1 as := by
  obtain ⟨n, vs⟩ := L
  cases a with
  | event e =>
      obtain ⟨rfl, rfl⟩ := Prod.mk.inj (Option.some.inj hlife)
      exact ⟨by simp, h⟩
  | fini =>
      refine ⟨by simp, ?_⟩
      cases n with
      | zero => simp [life] at hlife
      | succ n =>
          cases n with
          | zero =>
              obtain ⟨rfl, rfl⟩ := by simpa [life] using hlife
              exact h
          | succ n =>
              obtain ⟨rfl, rfl⟩ := by simpa [life] using hlife
              exact h
  | call c =>
      obtain ⟨hn, has⟩ := h
      cases hc : c.run H vs with
      | none => simp [life, hc] at hlife
      | some q =>
          obtain ⟨rfl, rfl⟩ := by simpa [life, hc] using hlife
          exact ⟨fun _ _ => hn, has⟩

/-- Every run in memory is the run on the partitions, with the same results and
the same failing assertion. -/
theorem run_follows {as : List Act} {L : ℕ × Vsthrottle} (hM : Rests M L)
    (has : CallsLoaded L.1 as) :
    (Machine.run (life H) as L = none → Memory.run H as M = .error .assertion) ∧
      ∀ es L', Machine.run (life H) as L = some (es, L') →
        ∃ M', Memory.run H as M = .ok (es.map Machine.Event.output, M') ∧ Rests M' L' := by
  induction as generalizing M L with
  | nil =>
      refine ⟨by simp [Machine.run], ?_⟩
      intro es L' heq
      obtain ⟨rfl, rfl⟩ := Prod.mk.inj (Option.some.inj heq)
      exact ⟨M, rfl, hM⟩
  | cons a as ih =>
      cases hlife : life H L a with
      | none =>
          have hcall : ∀ c, a = .call c → 0 < L.1 := by
            rintro c rfl
            exact has.1
          have hact := (act_follows hM hcall).1 hlife
          simp [Machine.run, Memory.run, hlife, hact, bind, Except.bind]
      | some q =>
          obtain ⟨r, L₁⟩ := q
          obtain ⟨hcall, has₁⟩ := callsLoaded_cons has hlife
          obtain ⟨M₁, hact, hM₁⟩ := (act_follows hM hcall).2 r L₁ hlife
          obtain ⟨hnone, hsome⟩ := ih hM₁ has₁
          cases hrun : Machine.run (life H) as L₁ with
          | none =>
              have hrest := hnone hrun
              simp [Machine.run, Memory.run, hlife, hrun, hact, hrest, bind, Except.bind]
          | some q =>
              obtain ⟨es, L₂⟩ := q
              obtain ⟨M₂, hrest, hM₂⟩ := hsome es L₂ hrun
              refine ⟨by simp [Machine.run, hlife, hrun], ?_⟩
              intro fs L' heq
              rw [Machine.run_cons hlife hrun] at heq
              obtain ⟨rfl, rfl⟩ := Prod.mk.inj (Option.some.inj heq)
              refine ⟨M₂, ?_, hM₂⟩
              simp [Memory.run, hact, hrest, bind, Except.bind, pure, Except.pure]

theorem rests_initial : Rests Memory.initial (0, VsthrottleModel.Vsthrottle.empty) :=
  ⟨_, simulates_initial, fun _ _ => rfl⟩

/-- The linked trees give every call the result that ordered lists of buckets
give it, however the VCLs come and go, and fail in no other way. -/
theorem memory_refines (H : Hashing) {as : List Act} (has : CallsLoaded 0 as) :
    (Memory.run H as Memory.initial).map Prod.fst =
      ((Machine.run (life H) as (0, VsthrottleModel.Vsthrottle.empty)).map fun r =>
        r.1.map Machine.Event.output).elim (.error .assertion) .ok := by
  obtain ⟨hnone, hsome⟩ := run_follows (H := H) rests_initial has
  cases hrun : Machine.run (life H) as (0, VsthrottleModel.Vsthrottle.empty) with
  | none =>
      rw [hnone hrun]
      rfl
  | some r =>
      obtain ⟨M, hM, -⟩ := hsome r.1 r.2 hrun
      rw [hM]
      rfl

/-- Two VCLs, of which the first one calls the module. -/
def sampleActs : List Act :=
  [.event .load, .call (VsthrottleModel.tupleA.call .isDenied 0), .event .warm, .event .load,
    .call (VsthrottleModel.tupleA.call .remaining 0), .fini, .event .discard, .fini]

theorem sampleActs_callsLoaded : CallsLoaded 0 sampleActs := by
  simp [sampleActs, CallsLoaded]

theorem memory_refines_sample :
    (Memory.run VsthrottleModel.table sampleActs Memory.initial).map Prod.fst =
      .ok [none, some (.denied false), none, none, some (.remaining 0), none, none, none] :=
  (memory_refines VsthrottleModel.table sampleActs_callsLoaded).trans (by decide +kernel)

/-- Every bucket that is allocated is visited by the loop over its partition, and
none is left when no VCL is loaded. -/
theorem memory_no_leak (H : Hashing) {as : List Act} (has : CallsLoaded 0 as)
    {rs : List (Option Result)} {M : Memory}
    (hrun : Memory.run H as Memory.initial = .ok (rs, M)) :
    (∀ b, (M.tree.entry b).isSome ↔
      ∃ p ∈ partitions, ∃ bs, M.tree.vrbForeach M.fuel p = .ok bs ∧ b ∈ bs) ∧
    (M.nInit = 0 → ∀ b, M.tree.entry b = none) := by
  obtain ⟨hnone, hsome⟩ := run_follows (H := H) rests_initial has
  cases hlife : Machine.run (life H) as (0, VsthrottleModel.Vsthrottle.empty) with
  | none =>
      rw [hnone hlife] at hrun
      cases hrun
  | some r =>
      obtain ⟨M', hM', ptrs, hs, hempty⟩ := hsome r.1 r.2 hlife
      obtain ⟨rfl, rfl⟩ : _ ∧ M' = M := Prod.mk.inj (Except.ok.inj (hM'.symm.trans hrun))
      have hvisit : ∀ p, M'.tree.vrbForeach M'.fuel p = .ok (ptrs p) := by
        intro p
        have hlen := hs.length_le p
        exact (vrbForeach_spec (hs.forest.trees p) (show _ < M'.fuel by simp only [fuel]; omega)
          (hs.turns_le p)).1
      constructor
      · intro b
        rw [hs.forest.live b]
        constructor
        · rintro ⟨p, hp⟩
          refine ⟨p, ?_, ptrs p, hvisit p, hp⟩
          by_contra hnot
          rw [hs.parts p hnot] at hp
          exact absurd hp List.not_mem_nil
        · rintro ⟨p, -, bs, hbs, hb⟩
          obtain rfl := Except.ok.inj ((hvisit p).symm.trans hbs)
          exact ⟨p, hb⟩
      · intro hn b
        have hzero : r.2.1 = 0 := hs.nInit.symm.trans hn
        refine Option.not_isSome_iff_eq_none.mp fun hb => ?_
        obtain ⟨p, hp⟩ := (hs.forest.live b).mp hb
        rw [hempty hzero p] at hp
        exact absurd hp List.not_mem_nil

theorem memory_no_leak_sample : ∃ rs M,
    Memory.run VsthrottleModel.table sampleActs Memory.initial = .ok (rs, M) ∧
      ∀ b, M.tree.entry b = none := by
  obtain ⟨-, hsome⟩ := run_follows (H := VsthrottleModel.table) rests_initial
    sampleActs_callsLoaded
  have hlife : ((Machine.run (life VsthrottleModel.table) sampleActs
      (0, VsthrottleModel.Vsthrottle.empty)).map fun r => r.2.1) = some 0 := by
    decide +kernel
  obtain ⟨r, hr, hzero⟩ := Option.map_eq_some_iff.mp hlife
  obtain ⟨M, hM, ptrs, hs, -⟩ := hsome r.1 r.2 hr
  exact ⟨_, M, hM, (memory_no_leak VsthrottleModel.table sampleActs_callsLoaded hM).2
    (hs.nInit.trans hzero)⟩

end VarnishModules.VsthrottleLife
