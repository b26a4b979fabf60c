import VarnishModules.CStrings
import VarnishModules.Machine

/-!
The regular expressions of `vmod_header.c` under calls from any threads.

Each place in a VCL where `get` or `remove` is called has a `priv` of its own, and the first
call there compiles the expression. `header_init_re` looks at the `priv` before it takes the
mutex, and again with the mutex held; a thread can be interrupted anywhere.

Two functions of the server are part of the model, as they are documented. `vrtReInit` is
`VRT_re_init`: it compiles the string and lets the `priv` point at the new expression. `fini` is
what happens to a `priv` when its VCL goes: `priv->free` is called on what it points at, if it is
set, and the `priv` is no more.
-/

namespace VarnishModules.HeaderInit

open VarnishModules.CStrings

/-- The `priv` of a place, with a name for the expression it points at. -/
structure Priv where
  priv : Option ℕ
  free : Bool

/-- Where a thread is, with the place it calls from. -/
inductive Thread
  | idle
  | lock (site : ℕ) (s : CString)
  | recheck (site : ℕ) (s : CString)
  | reInit (site : ℕ) (s : CString)
  | setFree (site : ℕ)
  | unlock (site : ℕ)
  | use (site : ℕ)

def Thread.site : Thread → Option ℕ
  | idle => none
  | lock site _ => some site
  | recheck site _ => some site
  | reInit site _ => some site
  | setFree site => some site
  | unlock site => some site
  | use site => some site

/-- The thread has locked the mutex, and has not unlocked it. -/
def Thread.Inside : Thread → Prop
  | idle => False
  | lock _ _ => False
  | recheck _ _ => True
  | reInit _ _ => True
  | setFree _ => True
  | unlock _ => True
  | use _ => False

/-- The thread counts on the expression being there. -/
def Thread.Trusts : Thread → Prop
  | idle => False
  | lock _ _ => False
  | recheck _ _ => False
  | reInit _ _ => False
  | setFree _ => True
  | unlock _ => True
  | use _ => True

structure State where
  /-- Who has locked `header_mutex`. -/
  headerMutex : Option ℕ
  privs : ℕ → Priv
  /-- For which place an expression was compiled, and from which string. -/
  compiled : ℕ → ℕ × CString
  fresh : ℕ
  freed : List ℕ
  threads : ℕ → Thread

namespace State

variable (σ : State)

def setThread (thread : ℕ) (t : Thread) : State :=
  { σ with threads := Function.update σ.threads thread t }

def setPriv (site : ℕ) (p : Priv) : State :=
  { σ with privs := Function.update σ.privs site p }

/-- `VRT_re_init(&priv->priv, s)`. -/
def vrtReInit (site : ℕ) (s : CString) : State :=
  { σ with
    privs := Function.update σ.privs site { σ.privs site with priv := some σ.fresh }
    compiled := Function.update σ.compiled σ.fresh (site, s)
    fresh := σ.fresh + 1 }

/-- What the server does to a `priv` when the VCL goes. -/
def fini (site : ℕ) : State :=
  { σ with
    freed := if (σ.privs site).free then σ.freed ++ (σ.privs site).priv.toList else σ.freed
    privs := Function.update σ.privs site ⟨none, false⟩ }

end State

inductive Action
  /-- `event_function` with `VCL_EVENT_LOAD`. -/
  | load
  | call (thread site : ℕ) (s : CString)
  | lock (thread : ℕ)
  | recheck (thread : ℕ)
  | reInit (thread : ℕ)
  | setFree (thread : ℕ)
  | unlock (thread : ℕ)
  | use (thread : ℕ)
  | fini (site : ℕ)

/-- The expression that goes to `header_http_findhdr` or `header_http_Unset`. -/
structure Use where
  site : ℕ
  re : Option ℕ

def step (σ : State) : Action → Option (Option Use × State)
  | .load => some (none, { σ with headerMutex := none })
  | .call thread site s =>
      match σ.threads thread with
      | .idle =>
          if (σ.privs site).priv = none then some (none, σ.setThread thread (.lock site s))
          else some (none, σ.setThread thread (.use site))
      | _ => none
  | .lock thread =>
      match σ.threads thread, σ.headerMutex with
      | .lock site s, none =>
          some (none, { σ.setThread thread (.recheck site s) with headerMutex := some thread })
      | _, _ => none
  | .recheck thread =>
      match σ.threads thread with
      | .recheck site s =>
          if (σ.privs site).priv = none then some (none, σ.setThread thread (.reInit site s))
          else some (none, σ.setThread thread (.unlock site))
      | _ => none
  | .reInit thread =>
      match σ.threads thread with
      | .reInit site s => some (none, (σ.vrtReInit site s).setThread thread (.setFree site))
      | _ => none
  | .setFree thread =>
      match σ.threads thread with
      | .setFree site =>
          some (none, (σ.setPriv site { σ.privs site with free := true }).setThread thread
            (.unlock site))
      | _ => none
  | .unlock thread =>
      match σ.threads thread with
      | .unlock site => some (none, { σ.setThread thread (.use site) with headerMutex := none })
      | _ => none
  | .use thread =>
      match σ.threads thread with
      | .use site => some (some ⟨site, (σ.privs site).priv⟩, σ.setThread thread .idle)
      | _ => none
  | .fini site => some (none, σ.fini site)

abbrev Event := Machine.Event State Action (Option Use)

/-- The module has been loaded, and the mutex initialised. -/
def start : State :=
  ⟨none, fun _ => ⟨none, false⟩, fun _ => (0, []), 0, [], fun _ => .idle⟩

def run (as : List Action) : Option (List Event × State) :=
  Machine.run step as start

/-- The server lets no VCL go that is in use. -/
def Unused (e : Event) : Prop :=
  ∀ site, e.input = .fini site → ∀ t, (e.before.threads t).site ≠ some site

/-- No mutex is initialised that is locked. -/
def Unlocked (e : Event) : Prop :=
  e.input = .load → e.before.headerMutex = none

variable {σ σ' : State} {a : Action} {as : List Action} {es : List Event} {o : Option Use}
  {thread site r : ℕ} {s : CString} {P : ℕ → CString → Prop}

/-- What a step does. -/
inductive Moves (σ : State) : Action → Option Use → State → Prop
  | load : Moves σ .load none { σ with headerMutex := none }
  | callNull {thread site : ℕ} {s : CString} (ht : σ.threads thread = .idle)
      (hpriv : (σ.privs site).priv = none) :
      Moves σ (.call thread site s) none (σ.setThread thread (.lock site s))
  | callThere {thread site : ℕ} {s : CString} (ht : σ.threads thread = .idle)
      (hpriv : (σ.privs site).priv ≠ none) :
      Moves σ (.call thread site s) none (σ.setThread thread (.use site))
  | lock {thread site : ℕ} {s : CString} (ht : σ.threads thread = .lock site s)
      (hmutex : σ.headerMutex = none) :
      Moves σ (.lock thread) none
        { σ.setThread thread (.recheck site s) with headerMutex := some thread }
  | recheckNull {thread site : ℕ} {s : CString} (ht : σ.threads thread = .recheck site s)
      (hpriv : (σ.privs site).priv = none) :
      Moves σ (.recheck thread) none (σ.setThread thread (.reInit site s))
  | recheckThere {thread site : ℕ} {s : CString} (ht : σ.threads thread = .recheck site s)
      (hpriv : (σ.privs site).priv ≠ none) :
      Moves σ (.recheck thread) none (σ.setThread thread (.unlock site))
  | reInit {thread site : ℕ} {s : CString} (ht : σ.threads thread = .reInit site s) :
      Moves σ (.reInit thread) none ((σ.vrtReInit site s).setThread thread (.setFree site))
  | setFree {thread site : ℕ} (ht : σ.threads thread = .setFree site) :
      Moves σ (.setFree thread) none
        ((σ.setPriv site { σ.privs site with free := true }).setThread thread (.unlock site))
  | unlock {thread site : ℕ} (ht : σ.threads thread = .unlock site) :
      Moves σ (.unlock thread) none
        { σ.setThread thread (.use site) with headerMutex := none }
  | use {thread site : ℕ} (ht : σ.threads thread = .use site) :
      Moves σ (.use thread) (some ⟨site, (σ.privs site).priv⟩) (σ.setThread thread .idle)
  | fini (site : ℕ) : Moves σ (.fini site) none (σ.fini site)

theorem step_moves (h : step σ a = some (o, σ')) : Moves σ a o σ' := by
  cases a with
  | load =>
      obtain ⟨rfl, rfl⟩ := Prod.mk.inj (Option.some.inj h)
      exact .load
  | call thread site s =>
      cases ht : σ.threads thread with
      | idle =>
          simp only [step, ht] at h
          split_ifs at h with hpriv
          · obtain ⟨rfl, rfl⟩ := Prod.mk.inj (Option.some.inj h)
            exact .callNull ht hpriv
          · obtain ⟨rfl, rfl⟩ := Prod.mk.inj (Option.some.inj h)
            exact .callThere ht hpriv
      | _ => simp [step, ht] at h
  | lock thread =>
      cases ht : σ.threads thread with
      | lock site s =>
          cases hmutex : σ.headerMutex with
          | none =>
              simp only [step, ht, hmutex] at h
              obtain ⟨rfl, rfl⟩ := Prod.mk.inj (Option.some.inj h)
              exact .lock ht hmutex
          | some t => simp [step, ht, hmutex] at h
      | _ => simp [step, ht] at h
  | recheck thread =>
      cases ht : σ.threads thread with
      | recheck site s =>
          simp only [step, ht] at h
          split_ifs at h with hpriv
          · obtain ⟨rfl, rfl⟩ := Prod.mk.inj (Option.some.inj h)
            exact .recheckNull ht hpriv
          · obtain ⟨rfl, rfl⟩ := Prod.mk.inj (Option.some.inj h)
            exact .recheckThere ht hpriv
      | _ => simp [step, ht] at h
  | reInit thread =>
      cases ht : σ.threads thread with
      | reInit site s =>
          simp only [step, ht] at h
          obtain ⟨rfl, rfl⟩ := Prod.mk.inj (Option.some.inj h)
          exact .reInit ht
      | _ => simp [step, ht] at h
  | setFree thread =>
      cases ht : σ.threads thread with
      | setFree site =>
          simp only [step, ht] at h
          obtain ⟨rfl, rfl⟩ := Prod.mk.inj (Option.some.inj h)
          exact .setFree ht
      | _ => simp [step, ht] at h
  | unlock thread =>
      cases ht : σ.threads thread with
      | unlock site =>
          simp only [step, ht] at h
          obtain ⟨rfl, rfl⟩ := Prod.mk.inj (Option.some.inj h)
          exact .unlock ht
      | _ => simp [step, ht] at h
  | use thread =>
      cases ht : σ.threads thread with
      | use site =>
          simp only [step, ht] at h
          obtain ⟨rfl, rfl⟩ := Prod.mk.inj (Option.some.inj h)
          exact .use ht
      | _ => simp [step, ht] at h
  | fini site =>
      obtain ⟨rfl, rfl⟩ := Prod.mk.inj (Option.some.inj h)
      exact .fini site

/-! What holds whatever the server loads. -/

/-- A thread has the string of its call until the expression is compiled. -/
def Thread.string : Thread → Option (ℕ × CString)
  | idle => none
  | lock site s => some (site, s)
  | recheck site s => some (site, s)
  | reInit site s => some (site, s)
  | setFree _ => none
  | unlock _ => none
  | use _ => none

/-- `P` holds of the strings that come from a place. -/
structure Sound (P : ℕ → CString → Prop) (σ : State) : Prop where
  trusts : ∀ t site, (σ.threads t).site = some site → (σ.threads t).Trusts →
    (σ.privs site).priv ≠ none
  string : ∀ t site s, (σ.threads t).string = some (site, s) → P site s
  priv : ∀ site r, (σ.privs site).priv = some r →
    r < σ.fresh ∧ (σ.compiled r).1 = site ∧ r ∉ σ.freed
  compiled : ∀ r, r < σ.fresh → P (σ.compiled r).1 (σ.compiled r).2
  freed : ∀ r ∈ σ.freed, r < σ.fresh

theorem Sound.setThread (h : Sound P σ) (thread : ℕ) {t : Thread}
    (htrusts : ∀ site, t.site = some site → t.Trusts → (σ.privs site).priv ≠ none)
    (hstring : ∀ site s, t.string = some (site, s) → P site s) :
    Sound P (σ.setThread thread t) := by
  refine ⟨fun t' site hsite ht' => ?_, fun t' site s hs => ?_, h.priv, h.compiled, h.freed⟩
  · simp only [State.setThread, Function.update_apply] at hsite ht'
    split_ifs at hsite ht' with heq
    · exact htrusts site hsite ht'
    · exact h.trusts t' site hsite ht'
  · simp only [State.setThread, Function.update_apply] at hs
    split_ifs at hs with heq
    · exact hstring site s hs
    · exact h.string t' site s hs

theorem Sound.setMutex (h : Sound P σ) (m : Option ℕ) : Sound P { σ with headerMutex := m } :=
  ⟨h.trusts, h.string, h.priv, h.compiled, h.freed⟩

theorem Sound.vrtReInit (h : Sound P σ) (hs : P site s) : Sound P (σ.vrtReInit site s) := by
  have hne : ∀ {r}, r < σ.fresh → r ≠ σ.fresh := fun hr => hr.ne
  refine ⟨?_, h.string, ?_, ?_, ?_⟩
  · intro t site' hsite ht
    simp only [State.vrtReInit, Function.update_apply]
    split_ifs with heq
    · simp
    · exact h.trusts t site' hsite ht
  · intro site' r hr
    simp only [State.vrtReInit, Function.update_apply] at hr ⊢
    split_ifs at hr with heq
    · obtain rfl : σ.fresh = r := by simpa using hr
      exact ⟨Nat.lt_succ_self _, by simp [heq], fun hmem => lt_irrefl _ (h.freed _ hmem)⟩
    · obtain ⟨hlt, hsite, hfreed⟩ := h.priv site' r hr
      exact ⟨Nat.lt_succ_of_lt hlt, by rwa [if_neg (hne hlt)], hfreed⟩
  · intro r hr
    simp only [State.vrtReInit, Function.update_apply]
    split_ifs with heq
    · exact hs
    · exact h.compiled r (lt_of_le_of_ne (Nat.lt_succ_iff.mp hr) heq)
  · exact fun r hr => Nat.lt_succ_of_lt (h.freed r hr)

theorem Sound.setFree (h : Sound P σ) (site : ℕ) (b : Bool) :
    Sound P (σ.setPriv site { σ.privs site with free := b }) := by
  have hpriv : ∀ site', ((σ.setPriv site { σ.privs site with free := b }).privs site').priv =
      (σ.privs site').priv := by
    intro site'
    simp only [State.setPriv, Function.update_apply]
    split_ifs with heq
    · rw [heq]
    · rfl
  refine ⟨fun t site' hsite ht => ?_, h.string, fun site' r hr => ?_, h.compiled, h.freed⟩
  · rw [hpriv]
    exact h.trusts t site' hsite ht
  · rw [hpriv] at hr
    exact h.priv site' r hr

theorem Sound.fini (h : Sound P σ) (hunused : ∀ t, (σ.threads t).site ≠ some site) :
    Sound P (σ.fini site) := by
  have hfreed : ∀ r ∈ (σ.fini site).freed, r ∈ σ.freed ∨ (σ.privs site).priv = some r := by
    intro r hr
    simp only [State.fini] at hr
    split_ifs at hr with hfree
    · exact (List.mem_append.mp hr).imp_right Option.mem_toList.mp
    · exact Or.inl hr
  refine ⟨?_, h.string, ?_, h.compiled, ?_⟩
  · intro t site' hsite ht
    have hne : site' ≠ site := fun heq => hunused t (heq ▸ hsite)
    simp only [State.fini, Function.update_of_ne hne]
    exact h.trusts t site' hsite ht
  · intro site' r hr
    simp only [State.fini, Function.update_apply] at hr
    split_ifs at hr with heq
    obtain ⟨hlt, hsite, hnot⟩ := h.priv site' r hr
    refine ⟨hlt, hsite, fun hmem => ?_⟩
    rcases hfreed r hmem with hmem | hmem
    · exact hnot hmem
    · exact heq (hsite.symm.trans (h.priv site r hmem).2.1)
  · intro r hr
    rcases hfreed r hr with hr | hr
    · exact h.freed r hr
    · exact (h.priv site r hr).1

theorem Sound.step (h : Sound P σ) (hstep : step σ a = some (o, σ'))
    (hcall : ∀ thread site s, a = .call thread site s → P site s)
    (hunused : Unused ⟨σ, a, o⟩) : Sound P σ' := by
  cases step_moves hstep with
  | load => exact h.setMutex none
  | callNull ht hpriv =>
      refine h.setThread _ (fun _ _ htrusts => False.elim htrusts) fun site s hs => ?_
      obtain ⟨rfl, rfl⟩ := Prod.mk.inj (Option.some.inj hs)
      exact hcall _ _ _ rfl
  | callThere ht hpriv =>
      refine h.setThread _ (fun site hsite _ => ?_)
        fun _ _ hs => absurd hs (by simp [Thread.string])
      obtain rfl := Option.some.inj hsite
      exact hpriv
  | lock ht hmutex =>
      refine Sound.setMutex (h.setThread _ ?_ ?_) _
      · exact fun _ _ htrusts => False.elim htrusts
      · exact fun site s hs => h.string _ site s (by rw [ht]; exact hs)
  | recheckNull ht hpriv =>
      refine h.setThread _ (fun _ _ htrusts => False.elim htrusts) fun site s hs => ?_
      exact h.string _ site s (by rw [ht]; exact hs)
  | recheckThere ht hpriv =>
      refine h.setThread _ (fun site hsite _ => ?_)
        fun _ _ hs => absurd hs (by simp [Thread.string])
      obtain rfl := Option.some.inj hsite
      exact hpriv
  | @reInit thread site s ht =>
      have hs : P site s := h.string thread site s (by rw [ht]; rfl)
      refine (h.vrtReInit hs).setThread _ (fun site' hsite _ => ?_)
        fun _ _ hs => absurd hs (by simp [Thread.string])
      obtain rfl := Option.some.inj hsite
      simp [State.vrtReInit]
  | @setFree thread site ht =>
      refine (h.setFree site true).setThread _ (fun site' hsite _ => ?_)
        fun _ _ hs => absurd hs (by simp [Thread.string])
      obtain rfl := Option.some.inj hsite
      simp only [State.setPriv, Function.update_self]
      exact h.trusts thread site (by rw [ht]; rfl) (by rw [ht]; trivial)
  | @unlock thread site ht =>
      refine Sound.setMutex (h.setThread _ ?_ ?_) _
      · intro site' hsite _
        obtain rfl := Option.some.inj hsite
        exact h.trusts thread site (by rw [ht]; rfl) (by rw [ht]; trivial)
      · exact fun _ _ hs => absurd hs (by simp [Thread.string])
  | use ht =>
      exact h.setThread _ (fun _ _ htrusts => False.elim htrusts)
        fun _ _ hs => absurd hs (by simp [Thread.string])
  | fini site => exact h.fini (hunused site rfl)

/-! What holds as long as no mutex is initialised that is locked. -/

structure Exclusive (σ : State) : Prop where
  inside : ∀ t, (σ.threads t).Inside ↔ σ.headerMutex = some t
  reInit : ∀ t site s, σ.threads t = .reInit site s → (σ.privs site).priv = none
  free : ∀ site r, (σ.privs site).priv = some r → (σ.privs site).free = false →
    ∃ t, σ.threads t = .setFree site
  ledger : ∀ r, r < σ.fresh → r ∉ σ.freed → ∃ site, (σ.privs site).priv = some r
  nodup : σ.freed.Nodup

theorem Exclusive.eq {t t' : ℕ} (h : Exclusive σ) (ht : (σ.threads t).Inside)
    (ht' : (σ.threads t').Inside) : t = t' :=
  Option.some.inj (((h.inside t).mp ht).symm.trans ((h.inside t').mp ht'))

theorem Exclusive.setThread (h : Exclusive σ) {t : Thread}
    (hinside : t.Inside ↔ (σ.threads thread).Inside)
    (hreInit : ∀ site s, t = .reInit site s → (σ.privs site).priv = none)
    (hfree : ∀ site, σ.threads thread = .setFree site → (σ.privs site).free = true) :
    Exclusive (σ.setThread thread t) := by
  constructor
  · intro t'
    simp only [State.setThread, Function.update_apply]
    split_ifs with heq
    · rw [heq, hinside]
      exact h.inside thread
    · exact h.inside t'
  · intro t' site s ht'
    simp only [State.setThread, Function.update_apply] at ht'
    split_ifs at ht' with heq
    · exact hreInit site s ht'
    · exact h.reInit t' site s ht'
  · intro site r hr hno
    obtain ⟨t', ht'⟩ := h.free site r hr hno
    refine ⟨t', ?_⟩
    have hne : t' ≠ thread := by
      rintro rfl
      exact absurd ((hfree site ht').symm.trans hno) (by simp)
    simp only [State.setThread, Function.update_of_ne hne, ht']
  · exact h.ledger
  · exact h.nodup

theorem Exclusive.lock (h : Exclusive σ) (ht : σ.threads thread = .lock site s)
    (hmutex : σ.headerMutex = none) :
    Exclusive { σ.setThread thread (.recheck site s) with headerMutex := some thread } := by
  constructor
  · intro t
    simp only [State.setThread, Function.update_apply]
    split_ifs with heq
    · exact iff_of_true trivial (by rw [heq])
    · rw [h.inside t, hmutex]
      exact iff_of_false (by simp) (by simpa using Ne.symm heq)
  · intro t site' s' ht'
    simp only [State.setThread, Function.update_apply] at ht'
    split_ifs at ht' with heq
    exact h.reInit t site' s' ht'
  · intro site' r hr hno
    obtain ⟨t, ht'⟩ := h.free site' r hr hno
    refine ⟨t, ?_⟩
    have hne : t ≠ thread := by
      rintro rfl
      exact absurd (ht.symm.trans ht') (by simp)
    simp only [State.setThread, Function.update_of_ne hne, ht']
  · exact h.ledger
  · exact h.nodup

theorem Exclusive.unlock (h : Exclusive σ) (ht : σ.threads thread = .unlock site) :
    Exclusive { σ.setThread thread (.use site) with headerMutex := none } := by
  have hinside : (σ.threads thread).Inside := by
    rw [ht]
    trivial
  constructor
  · intro t
    simp only [State.setThread, Function.update_apply]
    split_ifs with heq
    · exact iff_of_false id (by simp)
    · exact iff_of_false (fun ht' => heq (h.eq ht' hinside)) (by simp)
  · intro t site' s' ht'
    simp only [State.setThread, Function.update_apply] at ht'
    split_ifs at ht' with heq
    exact h.reInit t site' s' ht'
  · intro site' r hr hno
    obtain ⟨t, ht'⟩ := h.free site' r hr hno
    refine ⟨t, ?_⟩
    have hne : t ≠ thread := by
      rintro rfl
      exact absurd (ht.symm.trans ht') (by simp)
    simp only [State.setThread, Function.update_of_ne hne, ht']
  · exact h.ledger
  · exact h.nodup

/-- The thread that compiles is the only one that can, and there was no expression. -/
theorem Exclusive.vrtReInit (h : Exclusive σ) (ht : σ.threads thread = .reInit site s) :
    Exclusive ((σ.vrtReInit site s).setThread thread (.setFree site)) := by
  have hnone : (σ.privs site).priv = none := h.reInit thread site s ht
  have hinside : (σ.threads thread).Inside := by
    rw [ht]
    trivial
  have hthreads : ∀ t, t ≠ thread →
      ((σ.vrtReInit site s).setThread thread (.setFree site)).threads t = σ.threads t :=
    fun t hne => Function.update_of_ne hne _ _
  have hpriv : ∀ site', site' ≠ site →
      ((σ.vrtReInit site s).setThread thread (.setFree site)).privs site' = σ.privs site' :=
    fun site' hne => Function.update_of_ne hne _ _
  have hself : (((σ.vrtReInit site s).setThread thread (.setFree site)).privs site).priv =
      some σ.fresh := by
    simp [State.setThread, State.vrtReInit]
  constructor
  · intro t
    by_cases heq : t = thread
    · subst heq
      simp only [State.setThread, Function.update_self]
      exact iff_of_true trivial ((h.inside t).mp hinside)
    · rw [hthreads t heq]
      exact h.inside t
  · intro t site' s' ht'
    by_cases heq : t = thread
    · subst heq
      simp [State.setThread] at ht'
    · rw [hthreads t heq] at ht'
      refine absurd (h.eq ?_ hinside) heq
      rw [ht']
      trivial
  · intro site' r hr hno
    by_cases heq : site' = site
    · exact ⟨thread, by simp [State.setThread, heq]⟩
    · rw [hpriv site' heq] at hr hno
      obtain ⟨t, ht'⟩ := h.free site' r hr hno
      have hne : t ≠ thread := by
        rintro rfl
        exact absurd (ht.symm.trans ht') (by simp)
      exact ⟨t, by rw [hthreads t hne, ht']⟩
  · intro r hr hfreed
    rcases Nat.lt_succ_iff_lt_or_eq.mp hr with hr | rfl
    · obtain ⟨site', hsite'⟩ := h.ledger r hr hfreed
      have hne : site' ≠ site := fun heq =>
        absurd (hnone.symm.trans (heq ▸ hsite')) (by simp)
      exact ⟨site', by rw [hpriv site' hne, hsite']⟩
    · exact ⟨site, hself⟩
  · exact h.nodup

theorem Exclusive.setFree (h : Exclusive σ) (ht : σ.threads thread = .setFree site) :
    Exclusive ((σ.setPriv site { σ.privs site with free := true }).setThread thread
      (.unlock site)) := by
  have hpriv : ∀ site', ((σ.setPriv site { σ.privs site with free := true }).privs site').priv =
      (σ.privs site').priv := by
    intro site'
    simp only [State.setPriv, Function.update_apply]
    split_ifs with heq
    · rw [heq]
    · rfl
  have hfree : ∀ site',
      ((σ.setPriv site { σ.privs site with free := true }).privs site').free = false →
      (σ.privs site').free = false := by
    intro site' hno
    simp only [State.setPriv, Function.update_apply] at hno
    split_ifs at hno with heq
    exact hno
  have hset : Exclusive (σ.setPriv site { σ.privs site with free := true }) := by
    refine ⟨h.inside, fun t site' s' ht' => ?_, fun site' r hr hno => ?_, fun r hr hfreed => ?_,
      h.nodup⟩
    · rw [hpriv]
      exact h.reInit t site' s' ht'
    · rw [hpriv] at hr
      exact h.free site' r hr (hfree site' hno)
    · obtain ⟨site', hr⟩ := h.ledger r hr hfreed
      exact ⟨site', by rw [hpriv, hr]⟩
  refine hset.setThread ?_ (fun _ _ heq => absurd heq (by simp)) fun site' ht' => ?_
  · rw [show (σ.setPriv site { σ.privs site with free := true }).threads = σ.threads from rfl, ht]
    rfl
  · obtain rfl : site = site' := Thread.setFree.inj (ht.symm.trans ht')
    simp [State.setPriv]

theorem Exclusive.fini (h : Exclusive σ) (hsound : Sound P σ)
    (hunused : ∀ t, (σ.threads t).site ≠ some site) : Exclusive (σ.fini site) := by
  have hfree : ∀ r, (σ.privs site).priv = some r → (σ.privs site).free = true := by
    intro r hr
    cases hfree : (σ.privs site).free with
    | true => rfl
    | false =>
        obtain ⟨t, ht⟩ := h.free site r hr hfree
        exact absurd (by rw [ht]; rfl) (hunused t)
  refine ⟨h.inside, fun t site' s ht => ?_, fun site' r hr hno => ?_, fun r hr hfreed => ?_, ?_⟩
  · simp only [State.fini, Function.update_apply]
    split_ifs with heq
    · rfl
    · exact h.reInit t site' s ht
  · simp only [State.fini, Function.update_apply] at hr hno
    split_ifs at hr hno with heq
    exact h.free site' r hr hno
  · have hfreed' : r ∉ σ.freed := by
      refine fun hmem => hfreed ?_
      simp only [State.fini]
      split_ifs with hf
      · exact List.mem_append_left _ hmem
      · exact hmem
    obtain ⟨site', hr'⟩ := h.ledger r hr hfreed'
    have hne : site' ≠ site := by
      rintro rfl
      exact hfreed (by simp [State.fini, hfree r hr', hr'])
    exact ⟨site', by simp only [State.fini, Function.update_of_ne hne, hr']⟩
  · simp only [State.fini]
    split_ifs with hf
    · refine List.nodup_append.mpr ⟨h.nodup, ?_, fun r hr r' hr' heq => ?_⟩
      · cases (σ.privs site).priv with
        | none => exact List.nodup_nil
        | some r => exact List.nodup_singleton r
      · exact (hsound.priv site r' (Option.mem_toList.mp hr')).2.2 (heq ▸ hr)
    · exact h.nodup

theorem Exclusive.step (h : Exclusive σ) (hsound : Sound P σ)
    (hstep : step σ a = some (o, σ')) (hunused : Unused ⟨σ, a, o⟩)
    (hunlocked : Unlocked ⟨σ, a, o⟩) : Exclusive σ' := by
  cases step_moves hstep with
  | load =>
      have hnone : σ.headerMutex = none := hunlocked rfl
      rw [← hnone]
      exact h
  | callNull ht hpriv =>
      refine h.setThread ?_ (fun _ _ heq => absurd heq (by simp))
        fun _ heq => absurd (ht.symm.trans heq) (by simp)
      rw [ht]
      rfl
  | callThere ht hpriv =>
      refine h.setThread ?_ (fun _ _ heq => absurd heq (by simp))
        fun _ heq => absurd (ht.symm.trans heq) (by simp)
      rw [ht]
      rfl
  | lock ht hmutex => exact h.lock ht hmutex
  | recheckNull ht hpriv =>
      refine h.setThread ?_ (fun site s heq => ?_)
        fun _ heq => absurd (ht.symm.trans heq) (by simp)
      · rw [ht]
        rfl
      · obtain ⟨rfl, rfl⟩ := Thread.reInit.inj heq
        exact hpriv
  | recheckThere ht hpriv =>
      refine h.setThread ?_ (fun _ _ heq => absurd heq (by simp))
        fun _ heq => absurd (ht.symm.trans heq) (by simp)
      rw [ht]
      rfl
  | reInit ht => exact h.vrtReInit ht
  | setFree ht => exact h.setFree ht
  | unlock ht => exact h.unlock ht
  | use ht =>
      refine h.setThread ?_ (fun _ _ heq => absurd heq (by simp))
        fun _ heq => absurd (ht.symm.trans heq) (by simp)
      rw [ht]
      rfl
  | fini site => exact h.fini hsound (hunused site rfl)

/-- An expression stays until the VCL goes. -/
theorem priv_stays (h : Exclusive σ) (hstep : step σ a = some (o, σ'))
    (hpriv : (σ.privs site).priv = some r) (hfini : a ≠ .fini site) :
    (σ'.privs site).priv = some r := by
  cases step_moves hstep with
  | @reInit thread site' s ht =>
      have hne : site ≠ site' := by
        rintro rfl
        exact absurd ((h.reInit thread site s ht).symm.trans hpriv) (by simp)
      simp only [State.setThread, State.vrtReInit, Function.update_of_ne hne]
      exact hpriv
  | @setFree thread site' ht =>
      simp only [State.setThread, State.setPriv, Function.update_apply]
      split_ifs with heq
      · rwa [← heq]
      · exact hpriv
  | fini site' =>
      have hne : site ≠ site' := fun heq => hfini (by rw [heq])
      simp only [State.fini, Function.update_of_ne hne]
      exact hpriv
  | _ => exact hpriv

end VarnishModules.HeaderInit
