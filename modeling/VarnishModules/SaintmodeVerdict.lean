import VarnishModules.SaintmodeCount

/-!
Threads that blacklist objects and ask for the health of a director.

`healthy` looks at the threshold and at `n_trouble` without the lock, and takes the
lock afterwards; other threads may come in between.
-/

namespace VarnishModules.SaintmodeVerdict

open VarnishModules.SaintmodeModel
open VarnishModules.SaintmodeTrouble
open VarnishModules.SaintmodeCount

/-- Who asks for the health. -/
inductive Asker
  | client
  | healthy
  | resolve
  deriving DecidableEq

/-- A thread in `healthy` that has not taken the lock yet. -/
structure Check where
  sm : Nat
  asker : Asker
  bo : Option Busyobj

structure Threads where
  smObjs : SaintmodeObjs
  checks : Nat → Option Check

/-- What happens between two points at which a thread can be interrupted. `up` is what the
wrapped backend says, `real` what `VTIM_real` says. -/
inductive Action
  | blacklist (method : Method) (bo : Busyobj) (expires : ℚ)
  | isHealthy (sm : Nat) (method : Method) (req : Req)
  | enter (thread sm : Nat) (asker : Asker) (bo : Option Busyobj) (real : ℚ) (up : Bool)
  | check (thread : Nat) (real : ℚ) (up : Bool)

/-- A verdict on a digest at a time. -/
structure Answer where
  sm : Nat
  asker : Asker
  digest : Option Digest
  time : ℚ
  up : Bool
  result : Result

def Asker.result (asker : Asker) (be : Backend) (retval : Bool) : Result :=
  match asker with
  | .client => .bool retval
  | .healthy => .bool retval
  | .resolve => .backend (if !retval then none else some be)

def step (σ : Threads) : Action → Option (Option Answer × Threads)
  | .blacklist method bo expires =>
      some (none, { σ with smObjs := (vmodBlacklist σ.smObjs method bo expires).2 })
  | .isHealthy i method req =>
      σ.smObjs[i]?.map fun sm =>
        let digest := if method = .recv ∨ method = .hash then none else some req.digest
        let (retval, _, sm') := isDigestHealthy sm digest req.tPrev
        (some ⟨i, .client, digest, req.tPrev, true, .bool retval⟩,
          { σ with smObjs := σ.smObjs.set i sm' })
  | .enter thread i asker bo real up =>
      if (σ.checks thread).isSome then none
      else
        σ.smObjs[i]?.map fun sm =>
          if sm.threshold = 0 ∨ sm.nTrouble = 0 then
            (some ⟨i, asker, bo.map Busyobj.digest, bo.elim real Busyobj.tPrev, up,
              asker.result sm.be up⟩, σ)
          else (none, { σ with checks := Function.update σ.checks thread (some ⟨i, asker, bo⟩) })
  | .check thread real up => do
      let c ← σ.checks thread
      let sm ← σ.smObjs[c.sm]?
      let digest := c.bo.map Busyobj.digest
      let now := c.bo.elim real Busyobj.tPrev
      let (retval, _, sm') := isDigestHealthy sm digest now
      return (some ⟨c.sm, c.asker, digest, now, up, c.asker.result sm.be (retval && up)⟩,
        { smObjs := σ.smObjs.set c.sm sm', checks := Function.update σ.checks thread none })

abbrev Event := Machine.Event Threads Action (Option Answer)

def start (config : Config) : Threads := ⟨init config, fun _ => none⟩

def run (config : Config) (as : List Action) : Option (List Event × Threads) :=
  Machine.run step as (start config)

/-- The times of the checks, in the order they are made. -/
def checkTimes (es : List Event) : List ℚ :=
  es.filterMap fun e => e.output.map Answer.time

/-- The call that has the effect of an action, if it has one. -/
def Action.call (σ : Threads) : Action → Option Call
  | .blacklist method bo expires => some (.blacklist method bo expires)
  | .isHealthy i method req => some (.isHealthy i method (some req) none 0 true)
  | .enter _ _ _ _ _ _ => none
  | .check thread real _ => (σ.checks thread).map fun c =>
      match c.bo with
      | none => .isHealthy c.sm .recv (some ⟨Digest.zero, real⟩) none 0 true
      | some bo => .isHealthy c.sm .other (some ⟨bo.digest, bo.tPrev⟩) none 0 true

/-- The entries put on the list of object `i`, the last one first. -/
def entries (i : Nat) (es : List Event) : List Trouble :=
  (es.filterMap fun e => (e.input.call e.before).bind (entryOn i e.before.smObjs)).reverse

/-- What a health check is to say, given all the entries there have been. -/
def verdict (threshold : Nat) (troubles : List Trouble) (digest : Option Digest) (t : ℚ)
    (up : Bool) : Bool :=
  if threshold = 0 then up
  else if (∃ tr ∈ live t troubles, digest = some tr.digest) ∨
      threshold ≤ (live t troubles).length then false
  else up

variable {σ σ' : Threads} {a : Action} {o : Option Answer} {as : List Action} {es : List Event}
  {config : Config} {sm : Saintmode} {i : Nat} {t : ℚ} {ans : Answer}

/-- A director that is asked answers without the lock, or goes on to check. -/
theorem enter_inv {thread : Nat} {asker : Asker} {bo : Option Busyobj} {real : ℚ} {up : Bool}
    (h : step σ (.enter thread i asker bo real up) = some (o, σ')) :
    ∃ sm, σ.smObjs[i]? = some sm ∧
      ((sm.threshold = 0 ∨ sm.nTrouble = 0) ∧ σ' = σ ∧
          o = some ⟨i, asker, bo.map Busyobj.digest, bo.elim real Busyobj.tPrev, up,
            asker.result sm.be up⟩ ∨
        ¬ (sm.threshold = 0 ∨ sm.nTrouble = 0) ∧ o = none ∧
          σ' = { σ with checks := Function.update σ.checks thread (some ⟨i, asker, bo⟩) }) := by
  simp only [step] at h
  split_ifs at h
  obtain ⟨sm, hsm, heq⟩ := Option.map_eq_some_iff.mp h
  refine ⟨sm, hsm, ?_⟩
  split_ifs at heq with hfast
  · obtain ⟨rfl, rfl⟩ := Prod.mk.inj heq
    exact Or.inl ⟨hfast, rfl, rfl⟩
  · obtain ⟨rfl, rfl⟩ := Prod.mk.inj heq
    exact Or.inr ⟨hfast, rfl, rfl⟩

theorem check_inv {thread : Nat} {real : ℚ} {up : Bool}
    (h : step σ (.check thread real up) = some (o, σ')) :
    ∃ c sm, σ.checks thread = some c ∧ σ.smObjs[c.sm]? = some sm ∧
      let r := isDigestHealthy sm (c.bo.map Busyobj.digest) (c.bo.elim real Busyobj.tPrev)
      o = some ⟨c.sm, c.asker, c.bo.map Busyobj.digest, c.bo.elim real Busyobj.tPrev, up,
          c.asker.result sm.be (r.1 && up)⟩ ∧
        σ' = { smObjs := σ.smObjs.set c.sm r.2.2,
               checks := Function.update σ.checks thread none } := by
  simp only [step, Option.bind_eq_bind, Option.bind_eq_some_iff, Option.pure_def,
    Option.some.injEq, Prod.mk.injEq] at h
  obtain ⟨c, hc, sm, hsm, ho, hσ'⟩ := h
  exact ⟨c, sm, hc, hsm, ho.symm, hσ'.symm⟩

theorem step_of_call_none (h : step σ a = some (o, σ')) (hcall : a.call σ = none) :
    σ'.smObjs = σ.smObjs := by
  cases a with
  | blacklist method bo expires => simp [Action.call] at hcall
  | isHealthy i method req => simp [Action.call] at hcall
  | enter thread i asker bo real up =>
      obtain ⟨sm, -, ⟨-, rfl, -⟩ | ⟨-, -, rfl⟩⟩ := enter_inv h
      · rfl
      · rfl
  | check thread real up =>
      have hidle : σ.checks thread = none := by simpa [Action.call] using hcall
      simp [step, hidle] at h

theorem step_of_call_some {c : Call} (h : step σ a = some (o, σ')) (hcall : a.call σ = some c) :
    (∃ r, SaintmodeModel.step σ.smObjs c = some (r, σ'.smObjs)) ∧
      ∀ now ∈ c.checkTime, now ∈ o.map Answer.time := by
  cases a with
  | blacklist method bo expires =>
      obtain rfl := Option.some.inj hcall
      obtain ⟨-, rfl⟩ := Prod.mk.inj (Option.some.inj h)
      exact ⟨⟨_, rfl⟩, by simp [Call.checkTime]⟩
  | isHealthy i method req =>
      obtain rfl := Option.some.inj hcall
      obtain ⟨sm, hsm, heq⟩ := Option.map_eq_some_iff.mp h
      obtain ⟨rfl, rfl⟩ := Prod.mk.inj heq
      exact ⟨⟨_, Option.map_eq_some_iff.mpr ⟨sm, hsm, rfl⟩⟩, by simp [Call.checkTime]⟩
  | enter thread i asker bo real up => simp [Action.call] at hcall
  | check thread real up =>
      obtain ⟨c', sm, hc', hsm, rfl, rfl⟩ := check_inv h
      obtain rfl : _ = c := Option.some.inj ((congrArg (Option.map _) hc').symm.trans hcall)
      cases hbo : c'.bo with
      | none =>
          exact ⟨⟨_, Option.map_eq_some_iff.mpr ⟨sm, hsm, rfl⟩⟩, by simp [Call.checkTime]⟩
      | some bo =>
          exact ⟨⟨_, Option.map_eq_some_iff.mpr ⟨sm, hsm, rfl⟩⟩, by simp [Call.checkTime]⟩

/-- The calls a run amounts to. -/
def calls (es : List Event) : List Call :=
  es.filterMap fun e => e.input.call e.before

theorem run_calls (hrun : Machine.run step as σ = some (es, σ')) :
    ∃ fs, Machine.run SaintmodeModel.step (calls es) σ.smObjs = some (fs, σ'.smObjs) ∧
      ∀ i, history i fs = entries i es := by
  induction as generalizing σ es with
  | nil =>
      obtain ⟨rfl, rfl⟩ := Prod.mk.inj (Option.some.inj hrun)
      exact ⟨[], rfl, fun _ => rfl⟩
  | cons a as ih =>
      obtain ⟨o, σ₁, es, hstep, hrest, rfl⟩ := Machine.run_cons_inv hrun
      obtain ⟨fs, hfs, hentries⟩ := ih hrest
      have hcons : ∀ i, entries i (⟨σ, a, o⟩ :: es) =
          entries i es ++ ((a.call σ).bind (entryOn i σ.smObjs)).toList := by
        intro i
        simp only [entries, List.filterMap_cons]
        cases (a.call σ).bind (entryOn i σ.smObjs) with
        | none => simp
        | some tr => simp
      cases hcall : a.call σ with
      | none =>
          have hcalls : calls (⟨σ, a, o⟩ :: es) = calls es := List.filterMap_cons_none hcall
          rw [step_of_call_none hstep hcall] at hfs
          refine ⟨fs, hcalls ▸ hfs, fun i => ?_⟩
          rw [hcons, hcall, hentries]
          simp
      | some c =>
          have hcalls : calls (⟨σ, a, o⟩ :: es) = c :: calls es := List.filterMap_cons_some hcall
          obtain ⟨⟨r, hr⟩, -⟩ := step_of_call_some hstep hcall
          refine ⟨_, hcalls ▸ Machine.run_cons hr hfs, fun i => ?_⟩
          rw [hcons, hcall, history_cons, hentries]
          rfl

theorem checksUntil_calls (hrun : Machine.run step as σ = some (es, σ'))
    (ht : ∀ now ∈ checkTimes es, now ≤ t) : ChecksUntil t (calls es) := by
  induction as generalizing σ es with
  | nil =>
      obtain ⟨rfl, rfl⟩ := Prod.mk.inj (Option.some.inj hrun)
      exact fun c hc => absurd hc (by simp [calls])
  | cons a as ih =>
      obtain ⟨o, σ₁, es, hstep, hrest, rfl⟩ := Machine.run_cons_inv hrun
      have htail : ∀ now ∈ checkTimes es, now ≤ t := fun now hnow => ht now <| by
        simp only [checkTimes, List.filterMap_cons]
        split
        · exact hnow
        · exact List.mem_cons_of_mem _ hnow
      intro c hc now hnow
      rcases List.mem_filterMap.mp hc with ⟨e, he, hcall⟩
      rcases List.mem_cons.mp he with rfl | he
      · obtain ⟨-, htime⟩ := step_of_call_some hstep hcall
        exact ht now (List.mem_filterMap.mpr ⟨_, List.mem_cons_self, htime now hnow⟩)
      · exact ih hrest htail c (List.mem_filterMap.mpr ⟨e, he, hcall⟩) now hnow

theorem counted_of_threads (hrun : run config as = some (es, σ)) (hsm : σ.smObjs[i]? = some sm) :
    Counted sm := by
  obtain ⟨fs, hfs, -⟩ := run_calls hrun
  exact counted_of_run hfs hsm

/-- Nothing is lost of what a check at `t` looks for. -/
theorem live_of_threads (hrun : run config as = some (es, σ)) (hsm : σ.smObjs[i]? = some sm)
    (ht : ∀ now ∈ checkTimes es, now ≤ t) : live t sm.troublelist = live t (entries i es) := by
  obtain ⟨fs, hfs, hentries⟩ := run_calls hrun
  rw [live_of_run hfs hsm (checksUntil_calls hrun ht), hentries]

/-- No thread is waiting for the lock of an object without a threshold. -/
def Guarded (σ : Threads) : Prop :=
  ∀ thread c, σ.checks thread = some c → ∃ sm, σ.smObjs[c.sm]? = some sm ∧ sm.threshold ≠ 0

theorem exists_smObjs_of_step (h : step σ a = some (o, σ')) (hsm : σ.smObjs[i]? = some sm) :
    ∃ sm', σ'.smObjs[i]? = some sm' ∧ sm'.threshold = sm.threshold := by
  cases hcall : a.call σ with
  | none => exact ⟨sm, by rw [step_of_call_none h hcall, hsm], rfl⟩
  | some c =>
      obtain ⟨⟨r, hr⟩, -⟩ := step_of_call_some h hcall
      obtain ⟨sm', hsm', hmoves⟩ := step_moves hr hsm
      exact ⟨sm', hsm', hmoves.threshold⟩

theorem checks_of_step {thread : Nat} {c : Check} (h : step σ a = some (o, σ'))
    (hc : σ'.checks thread = some c) :
    σ.checks thread = some c ∨ ∃ sm, σ.smObjs[c.sm]? = some sm ∧ sm.threshold ≠ 0 := by
  cases a with
  | blacklist method bo expires =>
      obtain ⟨-, rfl⟩ := Prod.mk.inj (Option.some.inj h)
      exact .inl hc
  | isHealthy i method req =>
      obtain ⟨sm, -, heq⟩ := Option.map_eq_some_iff.mp h
      obtain ⟨-, rfl⟩ := Prod.mk.inj heq
      exact .inl hc
  | enter th i asker bo real up =>
      obtain ⟨sm, hsm, ⟨-, rfl, -⟩ | ⟨hslow, -, rfl⟩⟩ := enter_inv h
      · exact .inl hc
      · rcases eq_or_ne thread th with rfl | hne
        · obtain rfl : (⟨i, asker, bo⟩ : Check) = c := by simpa using hc
          exact .inr ⟨sm, hsm, fun hzero => hslow (.inl hzero)⟩
        · exact .inl ((Function.update_of_ne hne ..).symm.trans hc)
  | check th real up =>
      obtain ⟨c', sm, -, -, -, rfl⟩ := check_inv h
      rcases eq_or_ne thread th with rfl | hne
      · exact absurd hc (by simp)
      · exact .inl ((Function.update_of_ne hne ..).symm.trans hc)

theorem Guarded.step (hσ : Guarded σ) (h : step σ a = some (o, σ')) : Guarded σ' := by
  intro thread c hc
  have hsm : ∃ sm, σ.smObjs[c.sm]? = some sm ∧ sm.threshold ≠ 0 :=
    (checks_of_step h hc).elim (hσ thread c) id
  obtain ⟨sm, hsm, hthreshold⟩ := hsm
  obtain ⟨sm', hsm', heq⟩ := exists_smObjs_of_step h hsm
  exact ⟨sm', hsm', heq ▸ hthreshold⟩

theorem guarded_of_run (hrun : run config as = some (es, σ)) : Guarded σ :=
  Machine.run_invariant Guarded (fun _ _ _ _ hσ h => hσ.step h) hrun
    fun _ _ hc => absurd hc (by simp [start])

/-! The verdicts. -/

variable {digest : Option Digest} {up : Bool} {l : List Trouble}

theorem verdict_congr {threshold : Nat} {l' : List Trouble} (h : live t l = live t l') :
    verdict threshold l digest t up = verdict threshold l' digest t up := by
  simp only [verdict, h]

theorem isDigestHealthy_eq_verdict (hcounted : Counted sm)
    (hfits : sm.troublelist.length < 2 ^ 32) (hthreshold : sm.threshold ≠ 0) :
    ((isDigestHealthy sm digest t).1 && up) =
      verdict sm.threshold.toNat sm.troublelist digest t up := by
  have hpositive : sm.threshold.toNat ≠ 0 := fun h => hthreshold (UInt32.toNat_inj.mp h)
  have hiff : (isDigestHealthy sm digest t).1 = false ↔ _ :=
    hcounted.isDigestHealthy_fst hfits
  rw [verdict, if_neg hpositive]
  split
  · next h => rw [hiff.mpr h, Bool.false_and]
  · next h => rw [Bool.eq_true_of_not_eq_false (mt hiff.mp h), Bool.true_and]

/-- Neither check without the lock changes the verdict. -/
theorem up_eq_verdict (hcounted : Counted sm) (hfits : sm.troublelist.length < 2 ^ 32)
    (hfast : sm.threshold = 0 ∨ sm.nTrouble = 0) :
    up = verdict sm.threshold.toNat sm.troublelist digest t up := by
  rw [verdict]
  split_ifs with hzero hrefused
  · rfl
  · rcases hfast with hthreshold | hempty
    · exact absurd (by rw [hthreshold]; rfl) hzero
    · rw [(hcounted.eq_zero_iff hfits).mp hempty] at hrefused
      refine absurd hrefused ?_
      simpa [live] using hzero
  · rfl

theorem answer_eq_verdict (hrun : run config as = some (es, σ)) (h : step σ a = some (some ans, σ'))
    (htime : ∀ now ∈ checkTimes es, now ≤ ans.time) (hasker : ans.asker ≠ .client) :
    ∃ sm, σ.smObjs[ans.sm]? = some sm ∧ (sm.troublelist.length < 2 ^ 32 →
      ans.result = ans.asker.result sm.be (verdict sm.threshold.toNat (entries ans.sm es)
        ans.digest ans.time ans.up)) := by
  cases a with
  | blacklist method bo expires => simp [step] at h
  | isHealthy i method req =>
      obtain ⟨sm, -, heq⟩ := Option.map_eq_some_iff.mp h
      obtain ⟨hans, -⟩ := Prod.mk.inj heq
      obtain rfl := Option.some.inj hans
      exact absurd rfl hasker
  | enter th i asker bo real up =>
      obtain ⟨sm, hsm, ⟨hfast, -, hans⟩ | ⟨-, hnone, -⟩⟩ := enter_inv h
      · obtain rfl := Option.some.inj hans
        refine ⟨sm, hsm, fun hfits => congrArg (asker.result sm.be) ?_⟩
        rw [← verdict_congr (live_of_threads hrun hsm htime)]
        exact up_eq_verdict (counted_of_threads hrun hsm) hfits hfast
      · exact absurd hnone (Option.some_ne_none ans)
  | check th real up =>
      obtain ⟨c, sm, hc, hsm, hans, -⟩ := check_inv h
      obtain rfl := Option.some.inj hans
      refine ⟨sm, hsm, fun hfits => congrArg (c.asker.result sm.be) ?_⟩
      obtain ⟨sm', hsm', hthreshold⟩ := guarded_of_run hrun th c hc
      obtain rfl : sm = sm' := Option.some.inj (hsm.symm.trans hsm')
      rw [← verdict_congr (live_of_threads hrun hsm htime)]
      exact isDigestHealthy_eq_verdict (counted_of_threads hrun hsm) hfits hthreshold

/-- With non-decreasing check times `n_trouble` is the length of the list as long as that fits
an `unsigned`, and then every answer of `healthy` and `resolve` is the verdict on all the entries
there have been. -/
theorem run_verdicts (hrun : run config as = some (es, σ))
    (htimes : (checkTimes es).Pairwise (· ≤ ·)) :
    (∀ (i : Nat) (sm : Saintmode), σ.smObjs[i]? = some sm →
      (sm.nTrouble.toNat = sm.troublelist.length ↔ sm.troublelist.length < 2 ^ 32)) ∧
    ∀ (fs : List Event) (e : Event) (gs : List Event) (ans : Answer), es = fs ++ e :: gs →
      e.output = some ans → ans.asker ≠ .client →
      ∃ sm, e.before.smObjs[ans.sm]? = some sm ∧ (sm.troublelist.length < 2 ^ 32 →
        ans.result = ans.asker.result sm.be (verdict sm.threshold.toNat (entries ans.sm fs)
          ans.digest ans.time ans.up)) := by
  constructor
  · intro i sm hsm
    rw [counted_of_threads hrun hsm, UInt32.toNat_ofNat']
    omega
  · rintro fs e gs ans rfl hans hasker
    obtain ⟨js, σ', hfs, hstep⟩ := Machine.run_split hrun
    rw [hans] at hstep
    refine answer_eq_verdict hfs hstep (fun now hnow => ?_) hasker
    have hsplit : checkTimes (fs ++ e :: gs) = checkTimes fs ++ ans.time :: checkTimes gs := by
      simp [checkTimes, hans]
    rw [hsplit, List.pairwise_append] at htimes
    exact htimes.2.2 now hnow ans.time List.mem_cons_self

/-- An object is blacklisted, and a fetch of it checks before and after another thread does. -/
theorem run_verdicts_two : ∃ (es : List Event) (σ : Threads),
    run tile [.blacklist .backendResponse (fetchAt 0) 10,
        .enter 0 0 .healthy (some (fetchAt 1)) 1 true, .check 0 1 true] = some (es, σ) ∧
      (∀ (i : Nat) (sm : Saintmode), σ.smObjs[i]? = some sm →
        (sm.nTrouble.toNat = sm.troublelist.length ↔ sm.troublelist.length < 2 ^ 32)) ∧
      ∀ (fs : List Event) (e : Event) (gs : List Event) (ans : Answer), es = fs ++ e :: gs →
        e.output = some ans → ans.asker ≠ .client →
        ∃ sm, e.before.smObjs[ans.sm]? = some sm ∧ (sm.troublelist.length < 2 ^ 32 →
          ans.result = ans.asker.result sm.be (verdict sm.threshold.toNat (entries ans.sm fs)
            ans.digest ans.time ans.up)) := by
  have hrun : run tile [.blacklist .backendResponse (fetchAt 0) 10,
      .enter 0 0 .healthy (some (fetchAt 1)) 1 true, .check 0 1 true] = some (_, _) := rfl
  exact ⟨_, _, hrun, run_verdicts hrun (by decide +kernel)⟩

/-! A list of one entry over and over. -/

def fill : Action := .blacklist .backendResponse (fetchAt 0) 10

def filled (n : Nat) : Saintmode := ⟨0, 2, UInt32.ofNat n, List.replicate n ⟨Digest.zero, 0 + 10⟩⟩

theorem step_fill (n : Nat) :
    step ⟨[filled n], fun _ => none⟩ fill = some (none, ⟨[filled (n + 1)], fun _ => none⟩) := by
  simp [step, fill, vmodBlacklist, findSm, filled, fetchAt, insertTrouble, UInt32.ofNat_add,
    List.replicate_succ]

theorem run_fill (n m : Nat) : ∃ es, Machine.run step (List.replicate n fill)
    ⟨[filled m], fun _ => none⟩ = some (es, ⟨[filled (m + n)], fun _ => none⟩) := by
  induction n generalizing m with
  | zero => exact ⟨[], rfl⟩
  | succ n ih =>
      obtain ⟨es, hes⟩ := ih (m + 1)
      rw [Nat.add_right_comm] at hes
      exact ⟨_, Machine.run_cons (step_fill m) hes⟩

/-- After `2 ^ 32` entries `n_trouble` is 0, and a digest that is on the list is healthy. -/
theorem not_verdict_filled :
    ∃ (es : List Event) (σ : Threads) (sm : Saintmode) (ans : Answer),
    run tile (List.replicate (2 ^ 32) fill) = some (es, σ) ∧ σ.smObjs[0]? = some sm ∧
      sm.nTrouble.toNat ≠ sm.troublelist.length ∧
      step σ (.enter 0 0 .healthy (some (fetchAt 0)) 0 true) = some (some ans, σ) ∧
      ans.result = .bool true ∧
      verdict sm.threshold.toNat sm.troublelist (some Digest.zero) 0 true = false := by
  obtain ⟨es, hes⟩ := run_fill (2 ^ 32) 0
  rw [Nat.zero_add] at hes
  have hzero : (filled (2 ^ 32)).nTrouble = 0 := by
    change UInt32.ofNat (2 ^ 32) = 0
    decide
  refine ⟨es, _, filled (2 ^ 32), ⟨0, .healthy, some Digest.zero, 0, true, .bool true⟩, hes, rfl,
    ?_, ?_, rfl, ?_⟩
  · rw [hzero, filled, List.length_replicate]
    decide
  · simp only [step, List.getElem?_cons_zero, Option.map_some, hzero, or_true, if_true]
    rfl
  · refine (if_neg (by decide)).trans (if_pos (.inl ⟨⟨Digest.zero, 0 + 10⟩, ?_, rfl⟩))
    refine mem_live.mpr ⟨List.mem_replicate.mpr ⟨by decide, rfl⟩, by norm_num⟩

end VarnishModules.SaintmodeVerdict
