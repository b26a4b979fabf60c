import VarnishModules.SaintmodeTrouble

/-!
Which directors refuse a digest that is blacklisted for their backend.
-/

namespace VarnishModules.SaintmodeBlacklist

open VarnishModules.SaintmodeModel
open VarnishModules.SaintmodeTrouble

/-- If the step is a check of object `i` for the digest, up to the given time, it fails. -/
def Refuses (i : Nat) (digest : Digest) (timeout : ℚ)
    (e : Machine.Event SaintmodeObjs Call Output) : Prop :=
  match e.input with
  | .healthy j (some bo) _ _ =>
      j = i → bo.digest = digest → bo.tPrev ≤ timeout → e.output.1 = .bool false
  | .resolve j (some bo) _ _ =>
      j = i → bo.digest = digest → bo.tPrev ≤ timeout → e.output.1 = .backend none
  | _ => True

/-- No list is so long that its length does not fit an `unsigned`. -/
def Fits (smObjs : SaintmodeObjs) : Prop :=
  ∀ sm ∈ smObjs, sm.troublelist.length < 2 ^ 32

def thresholdOf (b : Backend × Int64) : UInt32 :=
  (vmodSaintmodeInit b.1 b.2).threshold

/-- After any calls and a `blacklist`, every director of the backend with a threshold refuses
the digest until the entry expires. -/
def Effective (config : Config) : Prop :=
  ∀ pre es₀ smObjs bo expires o smObjs₁ calls es smObjs₂,
    run config pre = some (es₀, smObjs) →
    step smObjs (.blacklist .backendResponse bo expires) = some (o, smObjs₁) →
    Machine.run step calls smObjs₁ = some (es, smObjs₂) →
    (calls.filterMap Call.checkTime).Pairwise (· ≤ ·) →
    (∀ e ∈ es, Fits e.before) →
    ∀ i b, config[i]? = some b → b.1 = bo.directorResp → thresholdOf b ≠ 0 →
      ∀ e ∈ es, Refuses i bo.digest (bo.tPrev + expires) e

variable {sm : Saintmode} {smObjs smObjs' : SaintmodeObjs} {c : Call} {o : Output} {i : Nat}
  {tr : Trouble} {calls : List Call} {es : List (Machine.Event SaintmodeObjs Call Output)}
  {config : Config}

/-! The object that holds the entry. -/

theorem healthy_of_mem (hcounted : Counted sm) (hfits : sm.troublelist.length < 2 ^ 32)
    (hthreshold : sm.threshold ≠ 0) (htr : tr ∈ sm.troublelist) {bo : Busyobj}
    (hdigest : bo.digest = tr.digest) (htime : bo.tPrev ≤ tr.timeout) (real : ℚ) (up : Bool) :
    (healthy sm (some bo) real up).1 = false := by
  have hne : sm.nTrouble ≠ 0 := fun hzero => by
    rw [hcounted.eq_zero_iff hfits] at hzero
    rw [hzero] at htr
    exact List.not_mem_nil htr
  have hrefused : (isDigestHealthy sm (some bo.digest) bo.tPrev).1 = false :=
    isDigestHealthy_fst.mpr (Or.inl ⟨tr, mem_live.mpr ⟨htr, htime⟩, congrArg some hdigest⟩)
  simp [healthy, hthreshold, hne, hrefused]

theorem resolve_of_false {bo : Option Busyobj} {real : ℚ} {up : Bool}
    (h : (healthy sm bo real up).1 = false) : (resolve sm bo real up).1 = none := by
  simp [resolve, h]

/-- Only checks of the object for a fetch are asked to refuse. -/
theorem refuses_of_checks {digest : Digest} {timeout : ℚ}
    (hhealthy : ∀ bo real up, c = .healthy i (some bo) real up → bo.digest = digest →
      bo.tPrev ≤ timeout → o.1 = .bool false)
    (hresolve : ∀ bo real up, c = .resolve i (some bo) real up → bo.digest = digest →
      bo.tPrev ≤ timeout → o.1 = .backend none) :
    Refuses i digest timeout ⟨smObjs, c, o⟩ := by
  cases c with
  | blacklist method bo expires => trivial
  | blacklistCount j => trivial
  | isHealthy j method req bo real up => trivial
  | healthy j bo real up =>
      cases bo with
      | none => trivial
      | some bo =>
          rintro rfl
          exact hhealthy bo real up rfl
  | resolve j bo real up =>
      cases bo with
      | none => trivial
      | some bo =>
          rintro rfl
          exact hresolve bo real up rfl

theorem refuses_of_mem (hstep : step smObjs c = some (o, smObjs')) (hsm : smObjs[i]? = some sm)
    (hcounted : Counted sm) (hfits : sm.troublelist.length < 2 ^ 32)
    (hthreshold : sm.threshold ≠ 0) (htr : tr ∈ sm.troublelist) :
    Refuses i tr.digest tr.timeout ⟨smObjs, c, o⟩ := by
  apply refuses_of_checks
  · rintro bo real up rfl hdigest htime
    have hfalse := healthy_of_mem hcounted hfits hthreshold htr hdigest htime real up
    rw [step, hsm] at hstep
    obtain ⟨rfl, -⟩ := Prod.mk.inj (Option.some.inj hstep)
    exact congrArg Result.bool hfalse
  · rintro bo real up rfl hdigest htime
    have hfalse := healthy_of_mem hcounted hfits hthreshold htr hdigest htime real up
    rw [step, hsm] at hstep
    obtain ⟨rfl, -⟩ := Prod.mk.inj (Option.some.inj hstep)
    exact congrArg Result.backend (resolve_of_false hfalse)

/-- Nothing is asked of a check after the entry has expired. -/
theorem refuses_of_late {e : Machine.Event SaintmodeObjs Call Output} {digest : Digest}
    {timeout : ℚ} (hlate : ∀ now ∈ e.input.checkTime, timeout < now) :
    Refuses i digest timeout e := by
  obtain ⟨before, input, output⟩ := e
  apply refuses_of_checks
  · rintro bo real up rfl - htime
    exact absurd (hlate _ rfl) (not_lt.mpr htime)
  · rintro bo real up rfl - htime
    exact absurd (hlate _ rfl) (not_lt.mpr htime)

theorem run_refuses (hrun : Machine.run step calls smObjs = some (es, smObjs'))
    (hclock : (calls.filterMap Call.checkTime).Pairwise (· ≤ ·)) (hfits : ∀ e ∈ es, Fits e.before)
    (hsm : smObjs[i]? = some sm) (hcounted : Counted sm) (hthreshold : sm.threshold ≠ 0)
    (htr : tr ∈ sm.troublelist) : ∀ e ∈ es, Refuses i tr.digest tr.timeout e := by
  induction calls generalizing smObjs es sm with
  | nil =>
      obtain ⟨rfl, -⟩ := Prod.mk.inj (Option.some.inj hrun)
      simp
  | cons c calls ih =>
      obtain ⟨o, smObjs₁, fs, hstep, hrest, rfl⟩ := Machine.run_cons_inv hrun
      obtain ⟨hfits₀, hfits⟩ := List.forall_mem_cons.mp hfits
      refine List.forall_mem_cons.mpr ⟨?_, ?_⟩
      · have hfits₁ := hfits₀ sm (List.mem_of_getElem? hsm)
        exact refuses_of_mem hstep hsm hcounted hfits₁ hthreshold htr
      · by_cases hlate : ∃ now ∈ c.checkTime, tr.timeout < now
        · obtain ⟨now, hnow, hlate⟩ := hlate
          rw [List.filterMap_cons_some hnow, List.pairwise_cons] at hclock
          intro e he
          have hinput := Machine.input_mem_of_run hrest he
          refine refuses_of_late fun now' hnow' => hlate.trans_le ?_
          exact hclock.1 now' (List.mem_filterMap.mpr ⟨e.input, hinput, hnow'⟩)
        · push Not at hlate
          obtain ⟨sm₁, hsm₁, hmoves⟩ := step_moves hstep hsm
          refine ih hrest (hclock.sublist ?_) hfits hsm₁ (hmoves.counted hcounted)
            (hmoves.threshold ▸ hthreshold) (hmoves.mem htr hlate)
          exact (List.sublist_cons_self c calls).filterMap _

theorem be_of_run (hrun : run config calls = some (es, smObjs)) :
    smObjs.map Saintmode.be = config.map Prod.fst := by
  refine List.ext_getElem? fun i => ?_
  rw [List.getElem?_map, List.getElem?_map]
  cases hsm : smObjs[i]? with
  | none =>
      have hlength := length_run hrun
      rw [List.getElem?_eq_none_iff, hlength, init, List.length_map] at hsm
      rw [List.getElem?_eq_none_iff.mpr hsm]
      rfl
  | some sm =>
      obtain ⟨b, hb, hfollows⟩ := run_follows_init hrun hsm
      rw [hb]
      exact congrArg some hfollows.be

theorem findSm_of_run (hrun : run config calls = some (es, smObjs)) (be : Backend) :
    findSm smObjs be = config.findIdx? fun b => b.1 = be := by
  have hbe := congrArg (List.findIdx? (· = be)) (be_of_run hrun)
  rwa [List.findIdx?_map, List.findIdx?_map] at hbe

theorem effective_of_pairwise (hconfig : config.Pairwise fun a b => thresholdOf b ≠ 0 → a.1 ≠ b.1) :
    Effective config := by
  intro pre es₀ smObjs bo expires o smObjs₁ calls es smObjs₂ hpre hstep hrun hclock hfits i b hb
    hbe hthreshold
  have hfind : findSm smObjs bo.directorResp = some i := by
    obtain ⟨hi, rfl⟩ := List.getElem?_eq_some_iff.mp hb
    rw [findSm_of_run hpre, List.findIdx?_eq_some_iff_getElem]
    refine ⟨hi, by simpa using hbe, fun j hj hsame => ?_⟩
    have hne := List.pairwise_iff_getElem.mp hconfig j i (hj.trans hi) hi hj hthreshold
    exact hne (by simpa [hbe] using hsame)
  have hinit : (init config)[i]? = some (vmodSaintmodeInit b.1 b.2) := by
    rw [getElem?_init, hb]
    rfl
  obtain ⟨sm, hsm, hfollows⟩ := run_follows hpre hinit
  obtain ⟨sm₁, hsm₁, hmoves⟩ := step_moves hstep hsm
  have htr : (⟨bo.digest, bo.tPrev + expires⟩ : Trouble) ∈ sm₁.troublelist := by
    have hlive := hmoves.live_eq (t := bo.tPrev + expires) (by simp [Call.checkTime])
    have hmem : (⟨bo.digest, bo.tPrev + expires⟩ : Trouble) ∈ live (bo.tPrev + expires)
        ((entryOn i smObjs (.blacklist .backendResponse bo expires)).toList ++ sm.troublelist) :=
      mem_live.mpr ⟨by simp [entryOn, hfind], le_refl _⟩
    rw [← hlive] at hmem
    exact (mem_live.mp hmem).1
  have hcounted := hfollows.counted (counted_init _)
  refine run_refuses hrun hclock hfits hsm₁ (hmoves.counted hcounted) ?_ htr
  rw [hmoves.threshold, hfollows.threshold]
  exact hthreshold

/-! Another object of the same backend. -/

/-- After one `blacklist`, an object is as it was made or has one entry. -/
theorem blacklist_init (method : Method) (bo : Busyobj) (expires : ℚ) {b : Backend × Int64}
    (hb : config[i]? = some b) :
    ∃ sm, (vmodBlacklist (init config) method bo expires).2[i]? = some sm ∧
      sm.troublelist.length ≤ 1 ∧
      (findSm (init config) bo.directorResp ≠ some i → sm = vmodSaintmodeInit b.1 b.2) := by
  have hinit : (init config)[i]? = some (vmodSaintmodeInit b.1 b.2) := by
    rw [getElem?_init, hb]
    rfl
  obtain ⟨sm, hsm, hmoves⟩ := moves_blacklist method bo expires hinit
  refine ⟨sm, hsm, ?_⟩
  cases hmoves with
  | kept _ => exact ⟨Nat.zero_le 1, fun _ => rfl⟩
  | inserted tr hentry _ =>
      refine ⟨le_refl 1, fun hfind => ?_⟩
      cases method <;> simp [entryOn, hfind] at hentry
  | pruned digest now _ hnow => exact absurd hnow (by simp [Call.checkTime])

theorem fits_blacklist_init (config : Config) (method : Method) (bo : Busyobj) (expires : ℚ) :
    Fits (vmodBlacklist (init config) method bo expires).2 := by
  intro sm hsm
  obtain ⟨i, hi⟩ := List.mem_iff_getElem?.mp hsm
  have hlt : i < config.length := by
    have hlt := (List.getElem?_eq_some_iff.mp hi).1
    rwa [length_vmodBlacklist, init, List.length_map] at hlt
  obtain ⟨sm', hsm', hlength, -⟩ :=
    blacklist_init method bo expires (List.getElem?_eq_getElem hlt)
  obtain rfl : sm = sm' := Option.some.inj (hi.symm.trans hsm')
  omega

/-- A later object of the backend lets the digest through. -/
theorem not_effective_of_same {i j : Nat} {a b : Backend × Int64} (ha : config[i]? = some a)
    (hb : config[j]? = some b) (hlt : i < j) (hbe : a.1 = b.1) (hthreshold : thresholdOf b ≠ 0) :
    ¬ Effective config := by
  intro heffective
  let bo : Busyobj := ⟨Digest.zero, 0, b.1⟩
  let smObjs₁ := (vmodBlacklist (init config) .backendResponse bo 0).2
  have hfind : findSm (init config) bo.directorResp ≠ some j := by
    intro hfind
    obtain ⟨hi, rfl⟩ := List.getElem?_eq_some_iff.mp ha
    have hstart : run config [] = some ([], init config) := rfl
    rw [findSm_of_run hstart, List.findIdx?_eq_some_iff_getElem] at hfind
    obtain ⟨hj, -, hfirst⟩ := hfind
    exact hfirst i hlt (by simpa [bo] using hbe)
  obtain ⟨sm, hsm, -, hkept⟩ := blacklist_init .backendResponse bo 0 hb
  obtain rfl := hkept hfind
  have hpasses : step smObjs₁ (.healthy j (some bo) 0 true) =
      some ((.bool true, none), smObjs₁.set j (vmodSaintmodeInit b.1 b.2)) := by
    have hup : healthy (vmodSaintmodeInit b.1 b.2) (some bo) 0 true =
        (true, none, vmodSaintmodeInit b.1 b.2) := if_pos (Or.inr rfl)
    rw [step, hsm, Option.map_some, hup]
  have hrefuses := heffective [] [] (init config) bo 0 _ smObjs₁ [.healthy j (some bo) 0 true]
    [⟨smObjs₁, .healthy j (some bo) 0 true, (.bool true, none)⟩]
    (smObjs₁.set j (vmodSaintmodeInit b.1 b.2)) rfl rfl (Machine.run_cons hpasses Machine.run_nil)
    (by simp [Call.checkTime]) (by simpa using fits_blacklist_init config _ bo 0) j b hb rfl
    hthreshold _ List.mem_cons_self
  have hfalse : Result.bool true = .bool false := hrefuses rfl rfl (by simp [bo])
  exact absurd hfalse (by decide)

/-- A blacklisting holds for its backend just when no second object with a threshold wraps it. -/
theorem effective_iff (config : Config) :
    Effective config ↔ config.Pairwise fun a b => thresholdOf b ≠ 0 → a.1 ≠ b.1 := by
  refine ⟨fun heffective => ?_, effective_of_pairwise⟩
  refine List.pairwise_iff_getElem.mpr fun i j hi hj hlt hthreshold hbe => ?_
  exact not_effective_of_same (List.getElem?_eq_getElem hi) (List.getElem?_eq_getElem hj) hlt hbe
    hthreshold heffective

/-- Two objects for one backend. -/
theorem not_effective_twice : ¬ Effective [(0, 1), (0, 1)] :=
  not_effective_of_same (i := 0) (j := 1) rfl rfl (by decide) rfl (by decide)

end VarnishModules.SaintmodeBlacklist
