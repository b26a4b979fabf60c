import VarnishModules.HeaderInit

/-!
Whole runs of `HeaderInit`: what is used was compiled, and is compiled once.
-/

namespace VarnishModules.HeaderOnce

open VarnishModules.CStrings
open VarnishModules.HeaderInit

/-- The events of a run that the server keeps to. -/
def Orderly (es : List Event) : Prop :=
  ∀ e ∈ es, Unused e ∧ Unlocked e

/-- What an action of a thread is that has been called, and has not come back. -/
def goesOn (thread : ℕ) (a : Action) : Prop :=
  a = .lock thread ∨ a = .recheck thread ∨ a = .reInit thread ∨ a = .setFree thread ∨
    a = .unlock thread ∨ a = .use thread

/-- Two calls at one place use one expression, unless the VCL goes in between. -/
def Agree (es : List Event) : Prop :=
  ∀ (pre : List Event) (e : Event) (mid : List Event) (e' : Event) (post : List Event)
    (u u' : Use), es = (pre ++ e :: mid) ++ e' :: post → e.output = some u →
    e'.output = some u' → u'.site = u.site → (∀ f ∈ mid, f.input ≠ .fini u.site) → u'.re = u.re

variable {σ σ' : State} {as : List Action} {es : List Event} {site r : ℕ}
  {P : ℕ → CString → Prop}

theorem sound_start (P : ℕ → CString → Prop) : Sound P start := by
  refine ⟨?_, ?_, ?_, ?_, ?_⟩
  · exact fun _ _ hsite => absurd hsite (by simp [start, Thread.site])
  · exact fun _ _ _ hs => absurd hs (by simp [start, Thread.string])
  · exact fun _ _ hr => absurd hr (by simp [start])
  · exact fun r hr => absurd hr (Nat.not_lt_zero r)
  · exact fun r hr => absurd hr List.not_mem_nil

theorem exclusive_start : Exclusive start := by
  refine ⟨?_, ?_, ?_, ?_, List.nodup_nil⟩
  · exact fun _ => iff_of_false id (by simp [start])
  · exact fun _ _ _ ht => absurd ht (by simp [start])
  · exact fun _ _ hr => absurd hr (by simp [start])
  · exact fun r hr => absurd hr (Nat.not_lt_zero r)

theorem run_sound (h : Sound P σ) (hrun : Machine.run step as σ = some (es, σ'))
    (hcall : ∀ thread site s, .call thread site s ∈ as → P site s)
    (hunused : ∀ e ∈ es, Unused e) : (∀ e ∈ es, Sound P e.before) ∧ Sound P σ' := by
  induction as generalizing σ es with
  | nil =>
      obtain ⟨rfl, rfl⟩ := Prod.mk.inj (Option.some.inj hrun)
      exact ⟨fun e he => absurd he List.not_mem_nil, h⟩
  | cons a as ih =>
      obtain ⟨o, σ₁, es, hstep, hrest, rfl⟩ := Machine.run_cons_inv hrun
      rw [List.forall_mem_cons] at hunused
      have h₁ : Sound P σ₁ := h.step hstep
        (fun thread site s ha => hcall thread site s (ha ▸ List.mem_cons_self)) hunused.1
      obtain ⟨hes, h'⟩ := ih h₁ hrest
        (fun thread site s hmem => hcall thread site s (List.mem_cons_of_mem a hmem)) hunused.2
      exact ⟨List.forall_mem_cons.mpr ⟨h, hes⟩, h'⟩

theorem run_exclusive (h : Sound P σ) (hx : Exclusive σ)
    (hrun : Machine.run step as σ = some (es, σ'))
    (hcall : ∀ thread site s, .call thread site s ∈ as → P site s) (hes : Orderly es) :
    Sound P σ' ∧ Exclusive σ' := by
  induction as generalizing σ es with
  | nil =>
      obtain ⟨rfl, rfl⟩ := Prod.mk.inj (Option.some.inj hrun)
      exact ⟨h, hx⟩
  | cons a as ih =>
      obtain ⟨o, σ₁, es, hstep, hrest, rfl⟩ := Machine.run_cons_inv hrun
      obtain ⟨⟨hunused, hunlocked⟩, hes⟩ := List.forall_mem_cons.mp hes
      have h₁ : Sound P σ₁ := h.step hstep
        (fun thread site s ha => hcall thread site s (ha ▸ List.mem_cons_self)) hunused
      exact ih h₁ (hx.step h hstep hunused hunlocked) hrest
        (fun thread site s hmem => hcall thread site s (List.mem_cons_of_mem a hmem)) hes

/-- An expression that is there is there to the end of a run in which its VCL does not go. -/
theorem run_stays (h : Sound P σ) (hx : Exclusive σ)
    (hrun : Machine.run step as σ = some (es, σ'))
    (hcall : ∀ thread site s, .call thread site s ∈ as → P site s) (hes : Orderly es)
    (hfini : ∀ e ∈ es, e.input ≠ .fini site) (hpriv : (σ.privs site).priv = some r) :
    (σ'.privs site).priv = some r := by
  induction as generalizing σ es with
  | nil =>
      obtain ⟨rfl, rfl⟩ := Prod.mk.inj (Option.some.inj hrun)
      exact hpriv
  | cons a as ih =>
      obtain ⟨o, σ₁, es, hstep, hrest, rfl⟩ := Machine.run_cons_inv hrun
      obtain ⟨⟨hunused, hunlocked⟩, hes⟩ := List.forall_mem_cons.mp hes
      obtain ⟨ha, hfini⟩ := List.forall_mem_cons.mp hfini
      have h₁ : Sound P σ₁ := h.step hstep
        (fun thread site s ha => hcall thread site s (ha ▸ List.mem_cons_self)) hunused
      exact ih h₁ (hx.step h hstep hunused hunlocked) hrest
        (fun thread site s hmem => hcall thread site s (List.mem_cons_of_mem a hmem)) hes hfini
        (priv_stays hx hstep hpriv ha)

theorem use_of_output {e : Event} {t : State} (hstep : step e.before e.input = some (e.output, t))
    {u : Use} (hu : e.output = some u) :
    ∃ thread, e.input = .use thread ∧ e.before.threads thread = .use u.site ∧
      u.re = (e.before.privs u.site).priv ∧ t = e.before.setThread thread .idle := by
  obtain ⟨σ, a, o⟩ := e
  have hmoves : Moves σ a o t := step_moves hstep
  clear hstep
  cases hmoves with
  | use ht =>
      obtain rfl := Option.some.inj hu
      exact ⟨_, rfl, ht, rfl, rfl⟩
  | _ => exact absurd hu (by simp)

theorem orderly_of_forall (hrun : Machine.run step as σ = some (es, σ'))
    (has : ∀ a ∈ as, a ≠ .load ∧ ∀ site, a ≠ .fini site) : Orderly es := by
  intro e he
  obtain ⟨hload, hfini⟩ := has e.input (Machine.input_mem_of_run hrun he)
  exact ⟨fun site heq => absurd heq (hfini site), fun heq => absurd heq hload⟩

/-- Whenever `event_function` comes to initialise the mutex again, `get` and `remove` have an
expression, which was compiled at this very place, from the string of a call there, and has
not been freed. -/
theorem uses_sound (hrun : run as = some (es, σ)) (hunused : ∀ e ∈ es, Unused e) :
    ∀ e ∈ es, ∀ u, e.output = some u →
      ∃ r, u.re = some r ∧ r ∉ e.before.freed ∧ (e.before.compiled r).1 = u.site ∧
        ∃ thread, .call thread u.site (e.before.compiled r).2 ∈ as := by
  intro e he u hu
  let P : ℕ → CString → Prop := fun site s => ∃ thread, .call thread site s ∈ as
  obtain ⟨hsound, -⟩ := run_sound (sound_start P) hrun
    (fun thread site s hmem => ⟨thread, hmem⟩) hunused
  have h : Sound P e.before := hsound e he
  obtain ⟨pre, post, rfl⟩ := List.append_of_mem he
  obtain ⟨-, t, -, hstep⟩ := Machine.run_split hrun
  obtain ⟨thread, -, ht, hre, -⟩ := use_of_output hstep hu
  have hpriv : (e.before.privs u.site).priv ≠ none :=
    h.trusts thread u.site (by rw [ht]; rfl) (by rw [ht]; trivial)
  obtain ⟨r, hr⟩ := Option.ne_none_iff_exists'.mp hpriv
  obtain ⟨hlt, hsite, hfreed⟩ := h.priv u.site r hr
  refine ⟨r, hre.trans hr, hfreed, hsite, ?_⟩
  rw [← hsite]
  exact h.compiled r hlt

/-- A call at one place, and two threads that come to another one before there is an
expression. -/
def beforeLoad : List Action :=
  [.call 0 1 (str "id="), .lock 0, .recheck 0, .reInit 0, .setFree 0, .unlock 0, .use 0,
    .call 0 0 (str "user="), .call 1 0 (str "user=")]

def beforeFini : List Action :=
  [.lock 1, .recheck 1, .reInit 1, .setFree 1, .unlock 1, .lock 0, .use 1]

/-- A VCL is loaded while the mutex is free, and the VCL of the first call goes when the call is
over. -/
def sampleActions : List Action :=
  beforeLoad ++ .load :: (beforeFini ++ .fini 1 :: [.recheck 0, .unlock 0, .use 0])

theorem orderly_quiet (hrun : Machine.run step as σ = some (es, σ'))
    (has : ∀ a ∈ as, a ≠ .load ∧ ∀ site, a ≠ .fini site) :
    ∃ fs τ, Machine.run step as σ = some (fs, τ) ∧ Orderly fs :=
  ⟨es, σ', hrun, orderly_of_forall hrun has⟩

/-- The run can begin with actions that are neither a load nor the end of a VCL. -/
theorem orderly_append {bs : List Action} (hrun : Machine.run step as σ = some (es, σ'))
    (has : ∀ a ∈ as, a ≠ .load ∧ ∀ site, a ≠ .fini site)
    (hrest : ∃ fs τ, Machine.run step bs σ' = some (fs, τ) ∧ Orderly fs) :
    ∃ fs τ, Machine.run step (as ++ bs) σ = some (fs, τ) ∧ Orderly fs := by
  obtain ⟨fs, τ, hbs, hfs⟩ := hrest
  refine ⟨es ++ fs, τ, Machine.run_append hrun hbs, fun e he => ?_⟩
  rcases List.mem_append.mp he with he | he
  · exact orderly_of_forall hrun has e he
  · exact hfs e he

theorem orderly_cons {a : Action} {o : Option Use} (hstep : step σ a = some (o, σ'))
    (hunused : Unused ⟨σ, a, o⟩) (hunlocked : Unlocked ⟨σ, a, o⟩)
    (hrest : ∃ fs τ, Machine.run step as σ' = some (fs, τ) ∧ Orderly fs) :
    ∃ fs τ, Machine.run step (a :: as) σ = some (fs, τ) ∧ Orderly fs := by
  obtain ⟨fs, τ, has, hfs⟩ := hrest
  exact ⟨_, τ, Machine.run_cons hstep has, List.forall_mem_cons.mpr ⟨⟨hunused, hunlocked⟩, hfs⟩⟩

theorem orderly_sample : ∃ es σ, run sampleActions = some (es, σ) ∧ Orderly es := by
  refine orderly_append rfl (by simp [beforeLoad]) (orderly_cons rfl ?_ (fun _ => rfl)
    (orderly_append rfl (by simp [beforeFini]) (orderly_cons rfl ?_ ?_
      (orderly_quiet rfl (by simp)))))
  · exact fun site heq => absurd heq (by simp)
  · intro site heq t
    obtain rfl := Action.fini.inj heq
    by_cases h₀ : t = 0
    · subst h₀
      simp [State.setThread, State.vrtReInit, State.setPriv, Thread.site]
    by_cases h₁ : t = 1
    · subst h₁
      simp [State.setThread, State.vrtReInit, State.setPriv, Thread.site]
    simp [State.setThread, State.vrtReInit, State.setPriv, h₀, h₁, start, Thread.site]
  · exact fun heq => absurd heq (by simp)

theorem uses_sound_sample : ∃ es σ, run sampleActions = some (es, σ) ∧
    ∀ e ∈ es, ∀ u, e.output = some u →
      ∃ r, u.re = some r ∧ r ∉ e.before.freed ∧ (e.before.compiled r).1 = u.site ∧
        ∃ thread, .call thread u.site (e.before.compiled r).2 ∈ sampleActions := by
  obtain ⟨es, σ, hrun, hes⟩ := orderly_sample
  exact ⟨es, σ, hrun, uses_sound hrun fun e he => (hes e he).1⟩

theorem agree_of_run (hrun : run as = some (es, σ)) (hes : Orderly es) : Agree es := by
  intro pre e mid e' post u u' heq hu hu' hsite hmid
  subst heq
  obtain ⟨js, t', hjs, hstep'⟩ := Machine.run_split hrun
  obtain ⟨js, ks, t, rfl, hpre, hks⟩ := Machine.run_append_inv hjs
  cases ks with
  | nil => simp [Machine.run] at hks
  | cons a ks =>
      obtain ⟨o, t₁, fs, hstep, hmidrun, heq⟩ := Machine.run_cons_inv hks
      obtain ⟨rfl, rfl⟩ := List.cons.inj heq
      have hcall : ∀ (thread site : ℕ) (s : CString), .call thread site s ∈ js → True :=
        fun _ _ _ _ => trivial
      obtain ⟨h, hx⟩ := run_exclusive (sound_start fun _ _ => True) exclusive_start hpre hcall
        fun f hf => hes f (by simp [hf])
      obtain ⟨hunused, hunlocked⟩ := hes ⟨t, a, o⟩ (by simp)
      have h₁ : Sound (fun _ _ => True) t₁ := h.step hstep (fun _ _ _ _ => trivial) hunused
      have hx₁ : Exclusive t₁ := hx.step h hstep hunused hunlocked
      obtain ⟨thread, -, ht, hre, ht₁⟩ := use_of_output (e := ⟨t, a, o⟩) hstep hu
      obtain ⟨thread', -, -, hre', -⟩ := use_of_output hstep' hu'
      have hpriv : (t.privs u.site).priv ≠ none :=
        h.trusts thread u.site (by rw [ht]; rfl) (by rw [ht]; trivial)
      obtain ⟨r, hr⟩ := Option.ne_none_iff_exists'.mp hpriv
      have hr₁ : (t₁.privs u.site).priv = some r := by
        rw [ht₁]
        exact hr
      have hr' : (e'.before.privs u.site).priv = some r :=
        run_stays h₁ hx₁ hmidrun (fun _ _ _ _ => trivial) (fun f hf => hes f (by simp [hf])) hmid
          hr₁
      rw [hre', hsite, hr', hre]
      exact hr.symm

/-- A thread that holds the mutex, or finds it free, can go on. -/
theorem goes_on (hx : Exclusive σ) {t : ℕ} (ht : σ.threads t ≠ .idle) :
    ∃ t' a, goesOn t' a ∧ (step σ a).isSome := by
  have hinside : ∀ t', (σ.threads t').Inside → ∃ a, goesOn t' a ∧ (step σ a).isSome := by
    intro t' ht'
    cases hpc : σ.threads t' with
    | recheck site s =>
        refine ⟨.recheck t', by simp [goesOn], ?_⟩
        simp only [step, hpc]
        split_ifs <;> rfl
    | reInit site s => exact ⟨.reInit t', by simp [goesOn], by simp [step, hpc]⟩
    | setFree site => exact ⟨.setFree t', by simp [goesOn], by simp [step, hpc]⟩
    | unlock site => exact ⟨.unlock t', by simp [goesOn], by simp [step, hpc]⟩
    | idle =>
        rw [hpc] at ht'
        exact False.elim ht'
    | lock site s =>
        rw [hpc] at ht'
        exact False.elim ht'
    | use site =>
        rw [hpc] at ht'
        exact False.elim ht'
  cases hpc : σ.threads t with
  | idle => exact absurd hpc ht
  | use site => exact ⟨t, .use t, by simp [goesOn], by simp [step, hpc]⟩
  | lock site s =>
      cases hmutex : σ.headerMutex with
      | none => exact ⟨t, .lock t, by simp [goesOn], by simp [step, hpc, hmutex]⟩
      | some t' => exact ⟨t', hinside t' ((hx.inside t').mpr hmutex)⟩
  | recheck site s => exact ⟨t, hinside t (by rw [hpc]; trivial)⟩
  | reInit site s => exact ⟨t, hinside t (by rw [hpc]; trivial)⟩
  | setFree site => exact ⟨t, hinside t (by rw [hpc]; trivial)⟩
  | unlock site => exact ⟨t, hinside t (by rw [hpc]; trivial)⟩

/-- As long as no mutex is initialised that is locked, all calls at a place use one expression,
one thread at a time is between the lock and its end, some thread can always go on, and each
expression that was compiled is at one place or has been freed, once. -/
theorem compiled_once (hrun : run as = some (es, σ)) (hes : Orderly es) :
    Agree es ∧ (∀ t t', (σ.threads t).Inside → (σ.threads t').Inside → t = t') ∧
      (∀ t, σ.threads t ≠ .idle → ∃ t' a, goesOn t' a ∧ (step σ a).isSome) ∧
      (∀ r, r < σ.fresh ↔ ((∃! site, (σ.privs site).priv = some r) ↔ r ∉ σ.freed)) ∧
      σ.freed.Nodup := by
  obtain ⟨h, hx⟩ := run_exclusive (sound_start fun _ _ => True) exclusive_start hrun
    (fun _ _ _ _ => trivial) hes
  refine ⟨agree_of_run hrun hes, fun t t' => hx.eq, fun t => goes_on hx,
    fun r => ⟨fun hr => ⟨?_, ?_⟩, fun hiff => ?_⟩, hx.nodup⟩
  · rintro ⟨site, hsite, -⟩
    exact (h.priv site r hsite).2.2
  · intro hfreed
    obtain ⟨site, hsite⟩ := hx.ledger r hr hfreed
    refine ⟨site, hsite, fun site' hsite' => ?_⟩
    exact (h.priv site' r hsite').2.1.symm.trans (h.priv site r hsite).2.1
  · by_contra hr
    obtain ⟨site, hsite, -⟩ := hiff.mpr fun hmem => hr (h.freed r hmem)
    exact hr (h.priv site r hsite).1

theorem compiled_once_sample : ∃ es σ, run sampleActions = some (es, σ) ∧ Agree es ∧
    (∀ t t', (σ.threads t).Inside → (σ.threads t').Inside → t = t') ∧
      (∀ t, σ.threads t ≠ .idle → ∃ t' a, goesOn t' a ∧ (step σ a).isSome) ∧
      (∀ r, r < σ.fresh ↔ ((∃! site, (σ.privs site).priv = some r) ↔ r ∉ σ.freed)) ∧
      σ.freed.Nodup := by
  obtain ⟨es, σ, hrun, hes⟩ := orderly_sample
  exact ⟨es, σ, hrun, compiled_once hrun hes⟩

/-- Another VCL is loaded while a thread compiles, and a second thread compiles too. -/
example : (run [.call 0 0 [], .call 1 0 [], .lock 0, .recheck 0, .load, .lock 1, .recheck 1,
    .reInit 0, .reInit 1]).map (fun r => (r.2.fresh, (r.2.privs 0).priv)) = some (2, some 1) :=
  rfl

end VarnishModules.HeaderOnce
