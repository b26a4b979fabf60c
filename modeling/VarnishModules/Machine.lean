import Mathlib

/-!
Machines that read inputs, give outputs and may get stuck, and their timed runs.
-/

namespace VarnishModules.Machine

variable {σ τ ι ο : Type*}

/-- One step of a run, with the state before it. -/
structure Event (σ ι ο : Type*) where
  before : σ
  input : ι
  output : ο

def Event.map (f : σ → τ) (e : Event σ ι ο) : Event τ ι ο :=
  ⟨f e.before, e.input, e.output⟩

/-- The outputs to the inputs that are kept. -/
def outputs (keep : ι → Bool) (es : List (Event σ ι ο)) : List ο :=
  (es.filter fun e => keep e.input).map Event.output

def run (step : σ → ι → Option (ο × σ)) : List ι → σ → Option (List (Event σ ι ο) × σ)
  | [], s => some ([], s)
  | i :: is, s => (step s i).bind fun r =>
      (run step is r.2).map fun q => (⟨s, i, r.1⟩ :: q.1, q.2)

section Runs

variable {step : σ → ι → Option (ο × σ)} {s s' t : σ} {i : ι} {is js : List ι} {o : ο}
variable {es fs : List (Event σ ι ο)}

theorem run_nil : run step [] s = some ([], s) := rfl

theorem run_cons (hstep : step s i = some (o, s')) (hrun : run step is s' = some (es, t)) :
    run step (i :: is) s = some (⟨s, i, o⟩ :: es, t) := by
  simp [run, hstep, hrun]

theorem run_cons_inv (hrun : run step (i :: is) s = some (es, s')) :
    ∃ o t fs, step s i = some (o, t) ∧ run step is t = some (fs, s') ∧ es = ⟨s, i, o⟩ :: fs := by
  cases hi : step s i with
  | none => simp [run, hi] at hrun
  | some r =>
      cases hrest : run step is r.2 with
      | none => simp [run, hi, hrest] at hrun
      | some q =>
          simp only [run, hi, hrest, Option.bind_some, Option.map_some, Option.some.injEq,
            Prod.mk.injEq] at hrun
          exact ⟨r.1, r.2, q.1, rfl, by rw [hrest, ← hrun.2], hrun.1.symm⟩

theorem map_input_run (hrun : run step is s = some (es, s')) : es.map Event.input = is := by
  induction is generalizing s es with
  | nil =>
      obtain ⟨rfl, -⟩ := Prod.mk.inj (Option.some.inj hrun)
      rfl
  | cons i is ih =>
      obtain ⟨o, s₁, fs, -, hrest, rfl⟩ := run_cons_inv hrun
      exact congrArg (i :: ·) (ih hrest)

theorem input_mem_of_run (hrun : run step is s = some (es, s')) {e : Event σ ι ο}
    (he : e ∈ es) : e.input ∈ is := by
  rw [← map_input_run hrun]
  exact List.mem_map_of_mem he

theorem run_append (hfirst : run step is s = some (es, s'))
    (hsecond : run step js s' = some (fs, t)) :
    run step (is ++ js) s = some (es ++ fs, t) := by
  induction is generalizing s es with
  | nil =>
      obtain ⟨rfl, rfl⟩ := Prod.mk.inj (Option.some.inj hfirst)
      exact hsecond
  | cons i is ih =>
      obtain ⟨o, s₁, es, hi, hrest, rfl⟩ := run_cons_inv hfirst
      exact run_cons hi (ih hrest)

theorem run_invariant (I : σ → Prop) (hstep : ∀ s i o s', I s → step s i = some (o, s') → I s')
    (hrun : run step is s = some (es, s')) (hs : I s) : I s' := by
  induction is generalizing s es with
  | nil =>
      obtain ⟨-, rfl⟩ := Prod.mk.inj (Option.some.inj hrun)
      exact hs
  | cons i is ih =>
      obtain ⟨o, s₁, fs, hi, hrest, -⟩ := run_cons_inv hrun
      exact ih hrest (hstep s i o s₁ hs hi)

theorem run_split {e : Event σ ι ο} (hrun : run step is s = some (es ++ e :: fs, s')) :
    ∃ js t, run step js s = some (es, e.before) ∧
      step e.before e.input = some (e.output, t) := by
  induction es generalizing is s with
  | nil =>
      cases is with
      | nil => simp [run] at hrun
      | cons i is =>
          obtain ⟨o, s₁, gs, hi, -, heq⟩ := run_cons_inv hrun
          obtain ⟨rfl, -⟩ := List.cons.inj heq
          exact ⟨[], s₁, rfl, hi⟩
  | cons e' es ih =>
      cases is with
      | nil => simp [run] at hrun
      | cons i is =>
          obtain ⟨o, s₁, gs, hi, hrest, heq⟩ := run_cons_inv hrun
          obtain ⟨rfl, rfl⟩ := List.cons.inj heq
          obtain ⟨js, t, hjs, ht⟩ := ih hrest
          exact ⟨i :: js, t, run_cons hi hjs, ht⟩

theorem run_append_inv (hrun : run step is s = some (es ++ fs, s')) :
    ∃ js ks t, is = js ++ ks ∧ run step js s = some (es, t) ∧ run step ks t = some (fs, s') := by
  induction es generalizing is s with
  | nil => exact ⟨[], is, s, rfl, rfl, hrun⟩
  | cons e es ih =>
      cases is with
      | nil => simp [run] at hrun
      | cons i is =>
          obtain ⟨o, s₁, gs, hi, hrest, heq⟩ := run_cons_inv hrun
          obtain ⟨rfl, rfl⟩ := List.cons.inj heq
          obtain ⟨js, ks, t, rfl, hjs, hks⟩ := ih hrest
          exact ⟨i :: js, ks, t, rfl, run_cons hi hjs, hks⟩

theorem run_of_imp {step' : σ → ι → Option (ο × σ)}
    (h : ∀ s i r, step' s i = some r → step s i = some r) (hrun : run step' is s = some (es, s')) :
    run step is s = some (es, s') := by
  induction is generalizing s es with
  | nil => exact hrun
  | cons i is ih =>
      obtain ⟨o, s₁, fs, hi, hrest, rfl⟩ := run_cons_inv hrun
      exact run_cons (h s i _ hi) (ih hrest)

/-- A machine that moves as another one through a map of its states. -/
theorem run_map {stepτ : τ → ι → Option (ο × τ)} {f : σ → τ} {Inv : σ → Prop}
    (hmap : ∀ s i, Inv s → (step s i).map (fun r => (r.1, f r.2)) = stepτ (f s) i)
    (hinv : ∀ s i o s', Inv s → step s i = some (o, s') → Inv s') (is : List ι) (hs : Inv s) :
    (run step is s).map (fun r => (r.1.map (Event.map f), f r.2)) = run stepτ is (f s) := by
  induction is generalizing s with
  | nil => rfl
  | cons i is ih =>
      have hi := hmap s i hs
      cases hstep : step s i with
      | none =>
          rw [hstep] at hi
          simp [run, hstep, ← hi]
      | some r =>
          rw [hstep] at hi
          have hrest := ih (hinv s i r.1 r.2 hs hstep)
          cases hrun : run step is r.2 with
          | none =>
              rw [hrun] at hrest
              simp [run, hstep, ← hi, hrun, ← hrest]
          | some q =>
              rw [hrun] at hrest
              simp [run, hstep, ← hi, hrun, ← hrest, Event.map]

end Runs

/-- No step of the run goes back in time, the first one not before `t`, and each one is
allowed in the state it starts from. -/
def Timed {𝕜 : Type*} [LinearOrder 𝕜] (step : σ → ι → Option (ο × σ)) (clock : ι → 𝕜)
    (allowed : σ → ι → Prop) : List ι → 𝕜 → σ → Prop
  | [], _, _ => True
  | i :: is, t, s => t ≤ clock i ∧ allowed s i ∧
      ∀ o s', step s i = some (o, s') → Timed step clock allowed is (clock i) s'

section TimedRuns

variable {𝕜 : Type*} [LinearOrder 𝕜]
variable {step : σ → ι → Option (ο × σ)} {clock : ι → 𝕜} {allowed : σ → ι → Prop}
variable {is : List ι} {t : 𝕜} {s s' : σ} {es : List (Event σ ι ο)}

theorem exists_le_clock [Nonempty 𝕜] (hclock : is.Pairwise fun i j => clock i ≤ clock j) :
    ∃ t, ∀ i ∈ is, t ≤ clock i := by
  cases is with
  | nil => exact ⟨Classical.arbitrary 𝕜, by simp⟩
  | cons i is =>
      rw [List.pairwise_cons] at hclock
      exact ⟨clock i, List.forall_mem_cons.mpr ⟨le_refl _, hclock.1⟩⟩

theorem exists_le_clock_le (hclock : is.Pairwise fun i j => clock i ≤ clock j)
    (ht : ∀ i ∈ is, clock i ≤ t) : ∃ t' ≤ t, ∀ i ∈ is, t' ≤ clock i := by
  cases is with
  | nil => exact ⟨t, le_refl t, by simp⟩
  | cons i is =>
      rw [List.pairwise_cons] at hclock
      exact ⟨clock i, ht i List.mem_cons_self, List.forall_mem_cons.mpr ⟨le_refl _, hclock.1⟩⟩

theorem timed_of_forall {P : ι → Prop} (step : σ → ι → Option (ο × σ)) (s : σ)
    (hclock : is.Pairwise fun i j => clock i ≤ clock j)
    (ht : ∀ i ∈ is, t ≤ clock i) (hP : ∀ i ∈ is, P i) :
    Timed step clock (fun _ => P) is t s := by
  induction is generalizing t s with
  | nil => trivial
  | cons i is ih =>
      rw [List.pairwise_cons] at hclock
      exact ⟨ht i List.mem_cons_self, hP i List.mem_cons_self, fun _ s' _ =>
        ih s' hclock.2 hclock.1 fun j hj => hP j (List.mem_cons_of_mem i hj)⟩

theorem exists_timed [Nonempty 𝕜] {P : ι → Prop} (step : σ → ι → Option (ο × σ)) (s : σ)
    (hclock : is.Pairwise fun i j => clock i ≤ clock j) (hP : ∀ i ∈ is, P i) :
    ∃ t, Timed step clock (fun _ => P) is t s := by
  obtain ⟨t, ht⟩ := exists_le_clock hclock
  exact ⟨t, timed_of_forall step s hclock ht hP⟩

theorem Timed.and_events (A : σ → ι → Prop) (h : Timed step clock allowed is t s)
    (hrun : run step is s = some (es, s')) (hes : ∀ e ∈ es, A e.before e.input) :
    Timed step clock (fun s i => allowed s i ∧ A s i) is t s := by
  induction is generalizing t s es with
  | nil => trivial
  | cons i is ih =>
      obtain ⟨o, s₁, fs, hi, hrest, rfl⟩ := run_cons_inv hrun
      obtain ⟨ht, hallowed, htail⟩ := h
      rw [List.forall_mem_cons] at hes
      refine ⟨ht, ⟨hallowed, hes.1⟩, fun o' s₂ hi' => ?_⟩
      obtain ⟨rfl, rfl⟩ := Prod.mk.inj (Option.some.inj (hi'.symm.trans hi))
      exact ih (htail _ _ hi) hrest hes.2

/-- A machine that can always step completes its runs. -/
theorem Timed.run_total (I : 𝕜 → σ → Prop)
    (hstep : ∀ t s i, I t s → t ≤ clock i → allowed s i →
      ∃ o s', step s i = some (o, s') ∧ I (clock i) s')
    (h : Timed step clock allowed is t s) (hs : I t s) :
    ∃ es s', run step is s = some (es, s') := by
  induction is generalizing t s with
  | nil => exact ⟨[], s, rfl⟩
  | cons i is ih =>
      obtain ⟨ht, hallowed, htail⟩ := h
      obtain ⟨o, s₁, hi, hs₁⟩ := hstep t s i hs ht hallowed
      obtain ⟨es, s', hrest⟩ := ih (htail o s₁ hi) hs₁
      exact ⟨_, s', run_cons hi hrest⟩

theorem Timed.forall_event (I : 𝕜 → σ → Prop) {Q : Event σ ι ο → Prop}
    (hstep : ∀ t s i o s', I t s → t ≤ clock i → allowed s i → step s i = some (o, s') →
      Q ⟨s, i, o⟩ ∧ I (clock i) s')
    (h : Timed step clock allowed is t s) (hrun : run step is s = some (es, s')) (hs : I t s) :
    ∀ e ∈ es, Q e := by
  induction is generalizing t s es with
  | nil =>
      obtain ⟨rfl, -⟩ := Prod.mk.inj (Option.some.inj hrun)
      simp
  | cons i is ih =>
      obtain ⟨o, s₁, fs, hi, hrest, rfl⟩ := run_cons_inv hrun
      obtain ⟨hQ, hs₁⟩ := hstep t s i o s₁ hs h.1 h.2.1 hi
      exact List.forall_mem_cons.mpr ⟨hQ, ih (h.2.2 o s₁ hi) hrest hs₁⟩

/-- What every step keeps, at any time after the run. -/
theorem Timed.run_inv (I : 𝕜 → σ → Prop)
    (hstep : ∀ t s i o s', I t s → t ≤ clock i → allowed s i → step s i = some (o, s') →
      I (clock i) s')
    (hmono : ∀ t t' s, I t s → t ≤ t' → I t' s)
    (h : Timed step clock allowed is t s) (hrun : run step is s = some (es, s')) (hs : I t s)
    {t' : 𝕜} (ht : t ≤ t') (his : ∀ i ∈ is, clock i ≤ t') : I t' s' := by
  induction is generalizing t s es with
  | nil =>
      obtain ⟨-, rfl⟩ := Prod.mk.inj (Option.some.inj hrun)
      exact hmono t t' s hs ht
  | cons i is ih =>
      obtain ⟨o, s₁, fs, hi, hrest, rfl⟩ := run_cons_inv hrun
      rw [List.forall_mem_cons] at his
      exact ih (h.2.2 o s₁ hi) hrest (hstep t s i o s₁ hs h.1 h.2.1 hi) his.1 his.2

theorem Timed.le_clock (h : Timed step clock allowed is t s)
    (hrun : run step is s = some (es, s')) : ∀ e ∈ es, t ≤ clock e.input := by
  refine Timed.forall_event (fun t' _ => t ≤ t') (fun t' s i o s' ht ht' _ _ => ?_) h hrun
    (le_refl t)
  exact ⟨ht.trans ht', ht.trans ht'⟩

/-- What each step starts and all later steps keep. -/
theorem Timed.pairwise_event (I : 𝕜 → σ → Prop) (J : Event σ ι ο → 𝕜 → σ → Prop)
    {Q : Event σ ι ο → Event σ ι ο → Prop}
    (hstart : ∀ t s i o s', I t s → t ≤ clock i → allowed s i → step s i = some (o, s') →
      I (clock i) s' ∧ J ⟨s, i, o⟩ (clock i) s')
    (hkeep : ∀ e t s i o s', J e t s → t ≤ clock i → allowed s i → step s i = some (o, s') →
      Q e ⟨s, i, o⟩ ∧ J e (clock i) s')
    (h : Timed step clock allowed is t s) (hrun : run step is s = some (es, s')) (hs : I t s) :
    es.Pairwise Q := by
  induction is generalizing t s es with
  | nil =>
      obtain ⟨rfl, -⟩ := Prod.mk.inj (Option.some.inj hrun)
      exact List.Pairwise.nil
  | cons i is ih =>
      obtain ⟨o, s₁, fs, hi, hrest, rfl⟩ := run_cons_inv hrun
      obtain ⟨hs₁, hJ⟩ := hstart t s i o s₁ hs h.1 h.2.1 hi
      have htail := h.2.2 o s₁ hi
      exact List.pairwise_cons.mpr
        ⟨Timed.forall_event (J _) (hkeep _) htail hrest hJ, ih htail hrest hs₁⟩

/-- Two machines in step on the inputs that are kept; the other inputs only move the first. -/
theorem Timed.project (R : 𝕜 → σ → τ → Prop) (f : τ → ι → Option (ο × τ)) (keep : ι → Bool)
    (hkeep : ∀ t s u i, R t s u → t ≤ clock i → allowed s i → keep i = true →
      ∃ o s' u', step s i = some (o, s') ∧ f u i = some (o, u') ∧ R (clock i) s' u')
    (hskip : ∀ t s u i, R t s u → t ≤ clock i → allowed s i → keep i = false →
      ∃ o s', step s i = some (o, s') ∧ R (clock i) s' u)
    (h : Timed step clock allowed is t s) {u : τ} (hR : R t s u) :
    ∃ es s' fs u', run step is s = some (es, s') ∧ run f (is.filter keep) u = some (fs, u') ∧
      outputs keep es = fs.map Event.output := by
  induction is generalizing t s u with
  | nil => exact ⟨[], s, [], u, rfl, rfl, rfl⟩
  | cons i is ih =>
      obtain ⟨ht, hallowed, htail⟩ := h
      cases hi : keep i with
      | true =>
          obtain ⟨o, s₁, u₁, hs₁, hu₁, hR₁⟩ := hkeep t s u i hR ht hallowed hi
          obtain ⟨es, s', fs, u', hes, hfs, heq⟩ := ih (htail o s₁ hs₁) hR₁
          refine ⟨_, s', ⟨u, i, o⟩ :: fs, u', run_cons hs₁ hes, ?_, ?_⟩
          · rw [List.filter_cons_of_pos hi]
            exact run_cons hu₁ hfs
          · simpa [outputs, hi] using heq
      | false =>
          obtain ⟨o, s₁, hs₁, hR₁⟩ := hskip t s u i hR ht hallowed hi
          obtain ⟨es, s', fs, u', hes, hfs, heq⟩ := ih (htail o s₁ hs₁) hR₁
          refine ⟨_, s', fs, u', run_cons hs₁ hes, ?_, ?_⟩
          · rw [List.filter_cons_of_neg (by simp [hi])]
            exact hfs
          · simpa [outputs, hi] using heq

end TimedRuns

section Potential

variable {𝕜 : Type*} [Field 𝕜] [LinearOrder 𝕜] [IsStrictOrderedRing 𝕜]

/-- A level that fills up to `cap` at the given rate, and from which some steps take one. -/
structure IsPotential (step : σ → ι → Option (ο × σ)) (clock : ι → 𝕜) (allowed : σ → ι → Prop)
    (Inv : 𝕜 → σ → Prop) (takes : Event σ ι ο → Prop) [DecidablePred takes]
    (level : 𝕜 → σ → 𝕜) (cap rate : 𝕜) : Prop where
  idle : ∀ t t' s, Inv t s → t ≤ t' → Inv t' s ∧ level t' s ≤ level t s + rate * (t' - t)
  step : ∀ s i o s', Inv (clock i) s → allowed s i → step s i = some (o, s') →
    Inv (clock i) s' ∧
      level (clock i) s' + (if takes ⟨s, i, o⟩ then 1 else 0) ≤ level (clock i) s
  nonneg : ∀ t s, Inv t s → 0 ≤ level t s
  le_cap : ∀ t s, Inv t s → level t s ≤ cap
  rate_nonneg : 0 ≤ rate

variable {step : σ → ι → Option (ο × σ)} {clock : ι → 𝕜} {allowed : σ → ι → Prop}
variable {Inv : 𝕜 → σ → Prop} {takes : Event σ ι ο → Prop} [DecidablePred takes]
variable {level : 𝕜 → σ → 𝕜} {cap rate : 𝕜}
variable {is : List ι} {t t₁ t₂ : 𝕜} {s s' : σ} {es : List (Event σ ι ο)}

/-- What is taken until `t₂` was there at `t` or came in since. -/
theorem IsPotential.countP_le (hlevel : IsPotential step clock allowed Inv takes level cap rate)
    (h : Timed step clock allowed is t s) (hrun : run step is s = some (es, s')) (hs : Inv t s)
    (ht : t ≤ t₂) :
    (es.countP fun e => takes e ∧ clock e.input ≤ t₂ : 𝕜) ≤ level t s + rate * (t₂ - t) := by
  induction is generalizing t s es with
  | nil =>
      obtain ⟨rfl, -⟩ := Prod.mk.inj (Option.some.inj hrun)
      have h₁ := hlevel.nonneg t s hs
      have h₂ := mul_nonneg hlevel.rate_nonneg (sub_nonneg.mpr ht)
      simpa using add_nonneg h₁ h₂
  | cons i is ih =>
      obtain ⟨hs', hidle⟩ := hlevel.idle t (clock i) s hs h.1
      obtain ⟨o, s₁, fs, hi, hrest, rfl⟩ := run_cons_inv hrun
      by_cases hclock : clock i ≤ t₂
      · obtain ⟨hs₁, hpay⟩ := hlevel.step s i o s₁ hs' h.2.1 hi
        have htail := ih (h.2.2 o s₁ hi) hrest hs₁ hclock
        have hcount : (((⟨s, i, o⟩ :: fs).countP fun e => takes e ∧ clock e.input ≤ t₂ : ℕ) : 𝕜) =
            (fs.countP fun e => takes e ∧ clock e.input ≤ t₂ : ℕ) +
              (if takes ⟨s, i, o⟩ then 1 else 0) := by
          rw [List.countP_cons]
          simp [hclock]
        rw [hcount]
        linarith
      · have hzero : ((⟨s, i, o⟩ :: fs).countP fun e => takes e ∧ clock e.input ≤ t₂) = 0 := by
          refine List.countP_eq_zero.mpr fun e he => ?_
          have hnow : Timed step clock allowed (i :: is) (clock i) s := ⟨le_refl _, h.2⟩
          have hlate := hnow.le_clock hrun e he
          simp [(not_le.mp hclock).trans_le hlate]
        have h₁ := hlevel.nonneg t s hs
        have h₂ := mul_nonneg hlevel.rate_nonneg (sub_nonneg.mpr ht)
        rw [hzero]
        simpa using add_nonneg h₁ h₂

/-- Between two instants no more is taken than a full level and what comes in. -/
theorem IsPotential.countP_between_le
    (hlevel : IsPotential step clock allowed Inv takes level cap rate)
    (h : Timed step clock allowed is t s) (hrun : run step is s = some (es, s')) (hs : Inv t s)
    (ht : t₁ ≤ t₂) :
    (es.countP fun e => takes e ∧ t₁ ≤ clock e.input ∧ clock e.input ≤ t₂ : 𝕜) ≤
      cap + rate * (t₂ - t₁) := by
  have hcap := (hlevel.nonneg t s hs).trans (hlevel.le_cap t s hs)
  have hpositive := add_nonneg hcap (mul_nonneg hlevel.rate_nonneg (sub_nonneg.mpr ht))
  induction is generalizing t s es with
  | nil =>
      obtain ⟨rfl, -⟩ := Prod.mk.inj (Option.some.inj hrun)
      simpa using hpositive
  | cons i is ih =>
      obtain ⟨hs', -⟩ := hlevel.idle t (clock i) s hs h.1
      obtain ⟨o, s₁, fs, hi, hrest, rfl⟩ := run_cons_inv hrun
      by_cases hbefore : clock i < t₁
      · obtain ⟨hs₁, -⟩ := hlevel.step s i o s₁ hs' h.2.1 hi
        have hskip : ((⟨s, i, o⟩ :: fs).countP fun e =>
            takes e ∧ t₁ ≤ clock e.input ∧ clock e.input ≤ t₂) =
            fs.countP fun e => takes e ∧ t₁ ≤ clock e.input ∧ clock e.input ≤ t₂ :=
          List.countP_cons_of_neg (by simp [hbefore])
        rw [hskip]
        exact ih (h.2.2 o s₁ hi) hrest hs₁
      · have hnow : Timed step clock allowed (i :: is) (clock i) s := ⟨le_refl _, h.2⟩
        by_cases hafter : clock i ≤ t₂
        · have hcount := hlevel.countP_le hnow hrun hs' hafter
          have hmono : ((⟨s, i, o⟩ :: fs).countP fun e =>
              takes e ∧ t₁ ≤ clock e.input ∧ clock e.input ≤ t₂) ≤
              (⟨s, i, o⟩ :: fs).countP fun e => takes e ∧ clock e.input ≤ t₂ :=
            List.countP_mono_left fun e _ he => by
              simp only [decide_eq_true_eq] at he ⊢
              exact ⟨he.1, he.2.2⟩
          have hrate := mul_le_mul_of_nonneg_left (sub_le_sub_left (not_lt.mp hbefore) t₂)
            hlevel.rate_nonneg
          have hle : (((⟨s, i, o⟩ :: fs).countP fun e =>
              takes e ∧ t₁ ≤ clock e.input ∧ clock e.input ≤ t₂ : ℕ) : 𝕜) ≤
              ((⟨s, i, o⟩ :: fs).countP fun e => takes e ∧ clock e.input ≤ t₂ : ℕ) := by
            exact_mod_cast hmono
          linarith [hlevel.le_cap (clock i) s hs']
        · have hzero : ((⟨s, i, o⟩ :: fs).countP fun e =>
              takes e ∧ t₁ ≤ clock e.input ∧ clock e.input ≤ t₂) = 0 := by
            refine List.countP_eq_zero.mpr fun e he => ?_
            have hlate := hnow.le_clock hrun e he
            simp [(not_le.mp hafter).trans_le hlate]
          rw [hzero]
          simpa using hpositive

end Potential

end VarnishModules.Machine
