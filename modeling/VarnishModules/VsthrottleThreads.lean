import VarnishModules.VsthrottleCell

/-!
Threads in the critical sections of `vmod_vsthrottle.c`.

A thread locks the partition of its digest, reads the clock there and does the rest of its call.
A call without a key returns before it locks.
-/

namespace VarnishModules.VsthrottleThreads

open VarnishModules.TokenBucket
open VarnishModules.VsthrottleModel
open VarnishModules.VsthrottleStore
open VarnishModules.VsthrottleCell

inductive Thread
  | outside
  | locked (op : Op) (k : Tuple)
  | timed (op : Op) (k : Tuple) (now : ℚ)

/-- The thread holds the mutex of the partition. -/
def Thread.Holds (H : Hashing) : Thread → UInt8 → Prop
  | outside, _ => False
  | locked _ k, p => partOf (H.doDigest k) = p
  | timed _ k _, p => partOf (H.doDigest k) = p

structure System (ι : Type*) where
  clock : ℚ
  vs : Vsthrottle
  thread : ι → Thread

/-- No bucket is there and no call has begun. -/
structure Initial {ι : Type*} (σ : System ι) : Prop where
  loaded : Loaded σ.vs
  outside : ∀ i, σ.thread i = .outside

section

variable {ι : Type*} [DecidableEq ι]

/-- The steps of the threads and of the clock, for calls on the tuples in `T`. -/
inductive Step (H : Hashing) (T : Set Tuple) (σ : System ι) : System ι → Prop
  | tick (t : ℚ) (ht : σ.clock ≤ t) : Step H T σ { σ with clock := t }
  | lock (i : ι) (op : Op) (k : Tuple) (hk : k ∈ T) (h : σ.thread i = .outside)
      (hfree : ∀ j, ¬ (σ.thread j).Holds H (partOf (H.doDigest k))) :
      Step H T σ { σ with thread := Function.update σ.thread i (.locked op k) }
  | readClock (i : ι) (op : Op) (k : Tuple) (h : σ.thread i = .locked op k) :
      Step H T σ { σ with thread := Function.update σ.thread i (.timed op k σ.clock) }
  | finish (i : ι) (op : Op) (k : Tuple) (now : ℚ) (r : Result) (vs : Vsthrottle)
      (h : σ.thread i = .timed op k now) (hrun : (k.call op now).run H σ.vs = some (r, vs)) :
      Step H T σ { σ with vs := vs, thread := Function.update σ.thread i .outside }

def Reachable (H : Hashing) (T : Set Tuple) (σ₀ σ : System ι) : Prop :=
  Relation.ReflTransGen (Step H T) σ₀ σ

end

/-- Every bucket is one of the limit and the period of a tuple in `T`. -/
def Known (H : Hashing) (T : Set Tuple) (t : ℚ) (st : Store) : Prop :=
  ∀ d b, st.cell d = some b → ∃ k ∈ T, H.doDigest k = d ∧ Fits k.limit.toInt k.period t b

/-- No bucket of the partition was used after `t`. -/
def UsedBefore (st : Store) (p : UInt8) (t : ℚ) : Prop :=
  ∀ d b, partOf d = p → st.cell d = some b → b.lastUsed ≤ t

/-- What a thread in its critical section relies on. -/
def Thread.Relies (H : Hashing) (T : Set Tuple) (clock : ℚ) (st : Store) : Thread → Prop
  | outside => True
  | locked _ k => k ∈ T
  | timed _ k now => k ∈ T ∧ now ≤ clock ∧ UsedBefore st (partOf (H.doDigest k)) now

structure Inv {ι : Type*} (H : Hashing) (T : Set Tuple) (σ : System ι) : Prop where
  wellFormed : WellFormed σ.vs
  known : Known H T σ.clock (abs σ.vs)
  exclusive : ∀ i j p, (σ.thread i).Holds H p → (σ.thread j).Holds H p → i = j
  relies : ∀ i, (σ.thread i).Relies H T σ.clock (abs σ.vs)

variable {H : Hashing} {T : Set Tuple} {clock t : ℚ} {vs : Vsthrottle} {st st' : Store}
variable {op : Op} {k : Tuple} {now : ℚ}

theorem Known.mono (hst : Known H T t st) (ht : t ≤ now) : Known H T now st := by
  intro d b hb
  obtain ⟨k, hk, hd, hfits⟩ := hst d b hb
  exact ⟨k, hk, hd, hfits.mono ht⟩

theorem Known.before (hst : Known H T t st) : Before st t := by
  intro d b hb
  obtain ⟨k, -, -, hfits⟩ := hst d b hb
  exact hfits.lastUsed

/-- The bucket a call finds or allocates, if none of its partition was used after it read the
clock. -/
theorem exists_fits_fetch (hlimit : ∀ k ∈ T, 0 ≤ k.limit.toInt) (hst : Known H T clock st)
    (hk : k ∈ T) (hused : UsedBefore st (partOf (H.doDigest k)) now) :
    ∃ k' ∈ T, H.doDigest k' = H.doDigest k ∧ Fits k'.limit.toInt k'.period now
      (fetch (H.doDigest k) k (st.cell (H.doDigest k)) now) := by
  cases hcell : st.cell (H.doDigest k) with
  | none => exact ⟨k, hk, rfl, fits_tbAlloc (hlimit k hk) _⟩
  | some b =>
      obtain ⟨k', hk', hd, hfits⟩ := hst _ b hcell
      exact ⟨k', hk', hd, { hfits with lastUsed := hused _ b rfl hcell }⟩

/-- The assertions of a call hold if no bucket of its partition was used after it read the clock. -/
theorem exists_run (op : Op) (hvs : WellFormed vs)
    (hfetch : (fetch (H.doDigest k) k ((abs vs).cell (H.doDigest k)) now).lastUsed ≤ now) :
    ∃ r vs', (k.call op now).run H vs = some (r, vs') ∧
      (abs vs).call H (k.call op now) = some (r, abs vs') ∧ WellFormed vs' := by
  have hcall : (abs vs).call H (k.call op now) =
      some ((applyOp k.block (fetch (H.doDigest k) k ((abs vs).cell (H.doDigest k)) now) op now).1,
        _) :=
    congrArg (Option.map _) (bucketCall_eq hfetch)
  obtain ⟨hrefines, hwellFormed⟩ := call_refines H hvs (k.call op now)
  obtain ⟨⟨r, vs'⟩, hrun, -⟩ := Option.map_eq_some_iff.mp (hrefines.trans hcall)
  refine ⟨r, vs', hrun, ?_, hwellFormed r vs' hrun⟩
  rw [← hrefines, hrun]
  rfl

/-- A call on a tuple does to the buckets of its partition what is in order, and nothing to the
others. -/
theorem Known.call (hT : ∀ k ∈ T, 0 ≤ k.limit.toInt ∧ 0 < k.period) {r : Result}
    (hst : Known H T clock st) (hk : k ∈ T) (hnow : now ≤ clock)
    (hused : UsedBefore st (partOf (H.doDigest k)) now)
    (hcall : st.call H (k.call op now) = some (r, st')) :
    Known H T clock st' ∧
      ∀ d b, partOf d ≠ partOf (H.doDigest k) → st'.cell d = some b → st.cell d = some b := by
  obtain ⟨k', hk', hd, hfits⟩ := exists_fits_fetch (fun k hk => (hT k hk).1) hst hk hused
  constructor
  · intro d b hb
    rcases call_cell hcall d with ⟨k₁, b₁, hk₁, hd₁, hown, hcell⟩ | ⟨-, hcell⟩
    · obtain rfl : k = k₁ := Option.some.inj hk₁
      subst hd₁
      rw [hcell] at hb
      obtain rfl := Option.some.inj (mem_sweep hb)
      obtain ⟨-, rfl⟩ := Prod.mk.inj (Option.some.inj
        ((bucketCall_eq hfits.lastUsed).symm.trans hown))
      exact ⟨k', hk', hd, (fits_applyOp (hT k' hk').1 (hT k' hk').2 hfits k.block op).mono hnow⟩
    · rw [hcell] at hb
      exact hst d b (mem_sweep hb)
  · intro d b hpart hb
    rcases call_cell hcall d with ⟨k₁, b₁, hk₁, hd₁, -, -⟩ | ⟨-, hcell⟩
    · obtain rfl : k = k₁ := Option.some.inj hk₁
      exact absurd (congrArg partOf hd₁.symm) hpart
    · rw [hcell] at hb
      exact mem_sweep hb

theorem Initial.inv {ι : Type*} {σ₀ : System ι} (hσ₀ : Initial σ₀) : Inv H T σ₀ where
  wellFormed := wellFormed_loaded hσ₀.loaded
  known d b hb := by
    rw [abs_loaded hσ₀.loaded d] at hb
    exact absurd hb (by simp)
  exclusive i j p hi := by
    rw [hσ₀.outside i] at hi
    exact absurd hi id
  relies i := by
    rw [hσ₀.outside i]
    trivial

section Threads

variable {ι : Type*} [DecidableEq ι] {σ σ' σ₀ : System ι}

theorem Thread.Relies.mono {w : Thread} (h : w.Relies H T clock st) (ht : clock ≤ t)
    (hst : ∀ p, w.Holds H p → ∀ d b, partOf d = p → st'.cell d = some b → st.cell d = some b) :
    w.Relies H T t st' := by
  cases w with
  | outside => trivial
  | locked op k => exact h
  | timed op k now =>
      obtain ⟨hk, hnow, hused⟩ := h
      exact ⟨hk, hnow.trans ht, fun d b hd hb => hused d b hd (hst _ rfl d b hd hb)⟩

theorem exclusive_update {f : ι → Thread} {i : ι} {w : Thread}
    (hf : ∀ i j p, (f i).Holds H p → (f j).Holds H p → i = j)
    (hw : ∀ j p, w.Holds H p → (f j).Holds H p → i = j) :
    ∀ j j' p, (Function.update f i w j).Holds H p → (Function.update f i w j').Holds H p →
      j = j' := by
  intro j j' p hj hj'
  rcases eq_or_ne j i with rfl | hne
  · rcases eq_or_ne j' j with rfl | hne'
    · rfl
    · rw [Function.update_self] at hj
      rw [Function.update_of_ne hne'] at hj'
      exact hw j' p hj hj'
  · rw [Function.update_of_ne hne] at hj
    rcases eq_or_ne j' i with rfl | hne'
    · rw [Function.update_self] at hj'
      exact (hw j p hj' hj).symm
    · rw [Function.update_of_ne hne'] at hj'
      exact hf j j' p hj hj'

theorem relies_update {f : ι → Thread} {i : ι} {w : Thread} (hw : w.Relies H T clock st)
    (hf : ∀ j ≠ i, (f j).Relies H T clock st) :
    ∀ j, (Function.update f i w j).Relies H T clock st :=
  (Function.forall_update_iff f fun _ (w : Thread) => w.Relies H T clock st).mpr ⟨hw, hf⟩

theorem Inv.step (hT : ∀ k ∈ T, 0 ≤ k.limit.toInt ∧ 0 < k.period) (hσ : Inv H T σ)
    (h : Step H T σ σ') : Inv H T σ' := by
  cases h with
  | tick t ht =>
      exact ⟨hσ.wellFormed, hσ.known.mono ht, hσ.exclusive,
        fun i => (hσ.relies i).mono ht fun _ _ _ _ _ hb => hb⟩
  | lock i op k hk h hfree =>
      refine ⟨hσ.wellFormed, hσ.known, exclusive_update hσ.exclusive ?_,
        relies_update hk fun j _ => hσ.relies j⟩
      rintro j p rfl hj
      exact absurd hj (hfree j)
  | readClock i op k h =>
      have hk := hσ.relies i
      rw [h] at hk
      refine ⟨hσ.wellFormed, hσ.known, exclusive_update hσ.exclusive ?_,
        relies_update ⟨hk, le_refl _, ?_⟩ fun j _ => hσ.relies j⟩
      · intro j p hw hj
        exact hσ.exclusive i j p (h ▸ hw) hj
      · exact fun d b _ hb => hσ.known.before d b hb
  | finish i op k now r vs h hrun =>
      have hrelies := hσ.relies i
      rw [h] at hrelies
      obtain ⟨hk, hnow, hused⟩ := hrelies
      obtain ⟨hrefines, hwellFormed⟩ := call_refines H hσ.wellFormed (k.call op now)
      have hcall : (abs σ.vs).call H (k.call op now) = some (r, abs vs) := by
        rw [← hrefines, hrun]
        rfl
      obtain ⟨hknown, hothers⟩ := Known.call hT hσ.known hk hnow hused hcall
      refine ⟨hwellFormed r vs hrun, hknown, exclusive_update hσ.exclusive ?_,
        relies_update trivial fun j hj => ?_⟩
      · intro j p hw
        exact absurd hw id
      · refine (hσ.relies j).mono (le_refl _) fun p hp d b hd hb => ?_
        -- the mutex keeps the others out of the partition
        refine hothers d b (fun heq => hj ?_) hb
        refine hσ.exclusive j i p hp ?_
        rw [h]
        exact heq.symm.trans hd

theorem inv_of_reachable (hT : ∀ k ∈ T, 0 ≤ k.limit.toInt ∧ 0 < k.period) (hσ₀ : Initial σ₀)
    (h : Reachable H T σ₀ σ) : Inv H T σ := by
  induction h with
  | refl => exact hσ₀.inv
  | tail _ hstep ih => exact ih.step hT hstep

end Threads

/-- What holds of a bucket in a partition. -/
structure Sound (H : Hashing) (T : Set Tuple) (clock : ℚ) (p : UInt8) (b : Tbucket) : Prop where
  part : partOf b.digest = p
  tuple : ∃ k ∈ T, H.doDigest k = b.digest
  own : ∀ k ∈ T, H.doDigest k = b.digest → b.capacity = k.limit.toInt ∧ b.period = k.period
  nonneg : 0 ≤ b.tokens
  le : b.tokens ≤ b.capacity
  lastUsed : b.lastUsed ≤ clock

theorem Inv.sound {ι : Type*} {σ : System ι} (hH : H.InjectiveOn T) (hσ : Inv H T σ) {p : UInt8}
    {b : Tbucket} (hb : b ∈ (σ.vs p).buckets) : Sound H T σ.clock p b := by
  have hpart : partOf b.digest = p := (hσ.wellFormed p).part b hb
  have hcell : (abs σ.vs).cell b.digest = some b := by
    change OrderedTree.find Tbucket.digest b.digest (σ.vs (partOf b.digest)).buckets = some b
    rw [hpart]
    exact (OrderedTree.find_eq_some_iff (hσ.wellFormed p).tree).mpr ⟨hb, rfl⟩
  obtain ⟨k, hk, hd, hfits⟩ := hσ.known _ _ hcell
  refine ⟨hpart, ⟨k, hk, hd⟩, fun k' hk' hd' => ?_, hfits.nonneg, ?_, hfits.lastUsed⟩
  · obtain rfl := hH.doDigest hk' hk (hd'.trans hd.symm)
    exact ⟨hfits.capacity, hfits.period⟩
  · rw [hfits.capacity]
    exact hfits.le

/-- At any time each bucket is in order and in its place, and no assertion of a call fails. -/
theorem buckets_sound (H : Hashing) {T : Set Tuple}
    (hT : ∀ k ∈ T, 0 ≤ k.limit.toInt ∧ 0 < k.period) (hH : H.InjectiveOn T) {ι : Type*}
    [DecidableEq ι] {σ₀ σ : System ι} (hσ₀ : Initial σ₀) (h : Reachable H T σ₀ σ) :
    (∀ p, (∀ b ∈ (σ.vs p).buckets, Sound H T σ.clock p b) ∧
        ((σ.vs p).buckets.map Tbucket.digest).Nodup) ∧
      ∀ i op k now, σ.thread i = .timed op k now →
        ∃ r vs', (k.call op now).run H σ.vs = some (r, vs') := by
  have hσ := inv_of_reachable hT hσ₀ h
  refine ⟨fun p => ⟨fun b hb => hσ.sound hH hb, ?_⟩, fun i op k now hi => ?_⟩
  · exact List.pairwise_map.mpr ((hσ.wellFormed p).tree.imp ne_of_lt)
  · have hrelies := hσ.relies i
    rw [hi] at hrelies
    obtain ⟨hk, -, hused⟩ := hrelies
    obtain ⟨_, -, -, hfits⟩ := exists_fits_fetch (fun k hk => (hT k hk).1) hσ.known hk hused
    obtain ⟨r, vs', hrun, -, -⟩ := exists_run op hσ.wellFormed hfits.lastUsed
    exact ⟨r, vs', hrun⟩

/-- A thread is in `remaining`, a second after another one read the clock in `is_denied`. -/
theorem buckets_sound_tupleA :
    ∃ σ : System Bool,
      Reachable table {tupleA} ⟨0, Vsthrottle.empty, fun _ => .outside⟩ σ ∧
      σ.thread true = .timed .remaining tupleA 1 ∧
      (∀ p, (∀ b ∈ (σ.vs p).buckets, Sound table {tupleA} σ.clock p b) ∧
          ((σ.vs p).buckets.map Tbucket.digest).Nodup) ∧
        ∀ i op k now, σ.thread i = .timed op k now →
          ∃ r vs', (k.call op now).run table σ.vs = some (r, vs') := by
  have hsome : ((tupleA.call .isDenied 0).run table Vsthrottle.empty).isSome = true := by
    decide +kernel
  obtain ⟨⟨r, vs⟩, hrun⟩ := Option.isSome_iff_exists.mp hsome
  let σ₀ : System Bool := ⟨0, Vsthrottle.empty, fun _ => .outside⟩
  have hsteps := Relation.ReflTransGen.refl (r := Step table {tupleA}) (a := σ₀)
    |>.tail (.lock false .isDenied tupleA rfl rfl fun _ => id)
    |>.tail (.readClock false .isDenied tupleA rfl)
    |>.tail (.tick 1 (by decide))
    |>.tail (.finish false .isDenied tupleA 0 r vs rfl hrun)
    |>.tail (.lock true .remaining tupleA rfl rfl fun j => by cases j <;> exact id)
    |>.tail (.readClock true .remaining tupleA rfl)
  refine ⟨_, hsteps, rfl, ?_⟩
  refine buckets_sound table (T := {tupleA}) ?_ ?_ ⟨loaded_empty, fun _ => rfl⟩ hsteps
  · rintro k rfl
    decide +kernel
  · exact table_injectiveOn.mono (Set.singleton_subset_iff.mpr (Set.mem_insert _ _))

end VarnishModules.VsthrottleThreads
