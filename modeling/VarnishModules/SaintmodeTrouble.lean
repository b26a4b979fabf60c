import VarnishModules.SaintmodeModel

/-!
What the calls do to the blacklist of one object.
-/

namespace VarnishModules.SaintmodeTrouble

open VarnishModules.SaintmodeModel

/-- The entries that have not expired. -/
def live (t : ℚ) (troublelist : List Trouble) : List Trouble :=
  troublelist.filter fun tr => t ≤ tr.timeout

/-- `n_trouble` is the length of the list, as far as an `unsigned` goes. -/
def Counted (sm : Saintmode) : Prop :=
  sm.nTrouble = UInt32.ofNat sm.troublelist.length

/-- The entry a call puts on the list of object `i`. -/
def entryOn (i : Nat) (smObjs : SaintmodeObjs) : Call → Option Trouble
  | .blacklist .backendResponse bo expires =>
      if findSm smObjs bo.directorResp = some i then some ⟨bo.digest, bo.tPrev + expires⟩
      else none
  | _ => none

/-- The entries put on the list of object `i` in a run, the last one first. -/
def history (i : Nat) (es : List (Machine.Event SaintmodeObjs Call Output)) : List Trouble :=
  (es.filterMap fun e => entryOn i e.before e.input).reverse

/-- No check of the calls is later than `t`. -/
def ChecksUntil (t : ℚ) (calls : List Call) : Prop :=
  ∀ c ∈ calls, ∀ now ∈ c.checkTime, now ≤ t

variable {sm sm' : Saintmode} {l : List Trouble} {n : UInt32} {digest : Option Digest}
  {now t : ℚ} {tr : Trouble}

/-! The loop over the list. -/

theorem mem_live : tr ∈ live t l ↔ tr ∈ l ∧ t ≤ tr.timeout := by
  simp [live]

theorem live_append (l l' : List Trouble) : live t (l ++ l') = live t l ++ live t l' :=
  List.filter_append l l'

theorem live_eq_self (hl : ∀ tr ∈ l, t ≤ tr.timeout) : live t l = l :=
  List.filter_eq_self.mpr fun tr htr => by simpa using hl tr htr

theorem live_cons_of_lt (htr : tr.timeout < t) : live t (tr :: l) = live t l :=
  List.filter_cons_of_neg (by simpa using htr)

theorem pruneLoop_fst : (pruneLoop digest now l n).1 = false ↔
    ∃ tr ∈ live now l, digest = some tr.digest := by
  fun_induction pruneLoop digest now l n with
  | case1 => simp [live]
  | case2 tr l n hexpired ih => rw [ih, live_cons_of_lt hexpired]
  | case3 tr l n hlive hdigest =>
      exact iff_of_true rfl ⟨tr, by simp [live, not_lt.mp hlive], hdigest⟩
  | case4 tr l n hlive hdigest retval l' n' heq ih =>
      rw [heq] at ih
      rw [ih]
      simp [live, not_lt.mp hlive, hdigest]

theorem live_pruneLoop (ht : now ≤ t) :
    live t (pruneLoop digest now l n).2.1 = live t l := by
  fun_induction pruneLoop digest now l n with
  | case1 => rfl
  | case2 tr l n hexpired ih => rw [ih, live_cons_of_lt (hexpired.trans_le ht)]
  | case3 tr l n hlive => rfl
  | case4 tr l n hlive hdigest retval l' n' heq ih =>
      rw [heq] at ih
      have hrest : live t l' = live t l := ih
      change live t ([tr] ++ l') = live t ([tr] ++ l)
      rw [live_append, live_append, hrest]

/-- A digest that has no live entry has everything that has expired taken off the list. -/
theorem pruneLoop_of_true (h : (pruneLoop digest now l n).1 = true) :
    (pruneLoop digest now l n).2.1 = live now l := by
  fun_induction pruneLoop digest now l n with
  | case1 => rfl
  | case2 tr l n hexpired ih => rw [ih h, live_cons_of_lt hexpired]
  | case3 tr l n hlive => exact absurd h (by simp)
  | case4 tr l n hlive hdigest retval l' n' heq ih =>
      rw [heq] at ih
      have hrest : l' = live now l := ih h
      simp [live, not_lt.mp hlive, hrest]

theorem pruneLoop_count {k : Nat} (hn : n = UInt32.ofNat (l.length + k)) :
    (pruneLoop digest now l n).2.2 =
      UInt32.ofNat ((pruneLoop digest now l n).2.1.length + k) := by
  fun_induction pruneLoop digest now l n generalizing k with
  | case1 => exact hn
  | case2 tr l n hexpired ih =>
      refine ih ?_
      have hlength : (tr :: l).length + k = l.length + k + 1 := by
        rw [List.length_cons]
        omega
      rw [hn, hlength, UInt32.ofNat_add]
      exact UInt32.add_sub_cancel _ _
  | case3 tr l n hlive => exact hn
  | case4 tr l n hlive hdigest retval l' n' heq ih =>
      rw [heq] at ih
      have hlength : ∀ l : List Trouble, (tr :: l).length + k = l.length + (k + 1) := by
        intro l
        rw [List.length_cons]
        omega
      rw [hlength] at hn ⊢
      exact ih hn

/-! The object after a check. -/

def prune (sm : Saintmode) (digest : Option Digest) (now : ℚ) : Saintmode :=
  (isDigestHealthy sm digest now).2.2

theorem live_prune (ht : now ≤ t) :
    live t (prune sm digest now).troublelist = live t sm.troublelist :=
  live_pruneLoop ht

theorem Counted.prune (h : Counted sm) : Counted (prune sm digest now) :=
  pruneLoop_count (k := 0) h

theorem Counted.insertTrouble (h : Counted sm) (tr : Trouble) : Counted (insertTrouble sm tr) := by
  unfold Counted SaintmodeModel.insertTrouble
  rw [List.length_cons, UInt32.ofNat_add, ← h]
  rfl

theorem Counted.eq_zero_iff (h : Counted sm) (hfits : sm.troublelist.length < 2 ^ 32) :
    sm.nTrouble = 0 ↔ sm.troublelist = [] := by
  rw [← List.length_eq_zero_iff, ← UInt32.toNat_inj, h, UInt32.toNat_ofNat_of_lt' hfits]
  rfl

theorem isDigestHealthy_fst : (isDigestHealthy sm digest now).1 = false ↔
    (∃ tr ∈ live now sm.troublelist, digest = some tr.digest) ∨
      sm.threshold ≤ (prune sm digest now).nTrouble := by
  rw [← pruneLoop_fst (n := sm.nTrouble)]
  cases hfst : (pruneLoop digest now sm.troublelist sm.nTrouble).1 with
  | true => simp [isDigestHealthy, prune, hfst]
  | false => simp [isDigestHealthy, hfst]

/-- A check compares the number of live entries, unless it has found the digest before. -/
theorem Counted.isDigestHealthy_fst (h : Counted sm) (hfits : sm.troublelist.length < 2 ^ 32) :
    (isDigestHealthy sm digest now).1 = false ↔
      (∃ tr ∈ live now sm.troublelist, digest = some tr.digest) ∨
        sm.threshold.toNat ≤ (live now sm.troublelist).length := by
  rw [SaintmodeTrouble.isDigestHealthy_fst]
  refine or_congr_right' fun habsent => ?_
  have hlist : (SaintmodeTrouble.prune sm digest now).troublelist = live now sm.troublelist :=
    pruneLoop_of_true (by simpa using mt pruneLoop_fst.mp habsent)
  have hlength : (live now sm.troublelist).length < 2 ^ 32 :=
    (List.length_filter_le _ _).trans_lt hfits
  rw [UInt32.le_iff_toNat_le, h.prune, hlist, UInt32.toNat_ofNat_of_lt' hlength]

theorem healthy_snd (sm : Saintmode) (bo : Option Busyobj) (real : ℚ) (up : Bool) :
    (healthy sm bo real up).2.2 = sm ∨
      ∃ digest, (healthy sm bo real up).2.2 = prune sm digest (bo.elim real Busyobj.tPrev) := by
  unfold healthy
  split
  · exact Or.inl rfl
  · cases bo with
    | none => exact Or.inr ⟨none, rfl⟩
    | some bo => exact Or.inr ⟨some bo.digest, rfl⟩

theorem vmodSaintmodeIsHealthy_snd (sm : Saintmode) (method : Method) (req : Option Req)
    (bo : Option Busyobj) (real : ℚ) (up : Bool) :
    (vmodSaintmodeIsHealthy sm method req bo real up).2.2 = sm ∨
      ∃ digest, (vmodSaintmodeIsHealthy sm method req bo real up).2.2 =
        prune sm digest (req.elim (bo.elim real Busyobj.tPrev) Req.tPrev) := by
  cases req with
  | none => exact healthy_snd sm bo real up
  | some req => exact Or.inr ⟨_, rfl⟩

/-! One call. -/

/-- What becomes of an object in a call. -/
inductive Moves (i : Nat) (smObjs : SaintmodeObjs) (c : Call) (sm : Saintmode) : Saintmode → Prop
  | kept : entryOn i smObjs c = none → Moves i smObjs c sm sm
  | inserted (tr : Trouble) : entryOn i smObjs c = some tr → c.checkTime = none →
      Moves i smObjs c sm (insertTrouble sm tr)
  | pruned (digest : Option Digest) (now : ℚ) : entryOn i smObjs c = none →
      c.checkTime = some now → Moves i smObjs c sm (prune sm digest now)

variable {smObjs smObjs' : SaintmodeObjs} {c : Call} {o : Output} {i : Nat}

theorem Moves.be (h : Moves i smObjs c sm sm') : sm'.be = sm.be := by
  cases h <;> rfl

theorem Moves.threshold (h : Moves i smObjs c sm sm') : sm'.threshold = sm.threshold := by
  cases h <;> rfl

theorem Moves.counted (h : Moves i smObjs c sm sm') (hsm : Counted sm) : Counted sm' := by
  cases h with
  | kept _ => exact hsm
  | inserted tr _ _ => exact hsm.insertTrouble tr
  | pruned digest now _ _ => exact hsm.prune

/-- What is live after the last check. -/
theorem Moves.live_eq (h : Moves i smObjs c sm sm') (ht : ∀ now ∈ c.checkTime, now ≤ t) :
    live t sm'.troublelist =
      live t ((entryOn i smObjs c).toList ++ sm.troublelist) := by
  cases h with
  | kept hnone => rw [hnone]; rfl
  | inserted tr hsome _ => rw [hsome]; rfl
  | pruned digest now hnone hnow =>
      rw [hnone, live_prune (ht now hnow)]
      rfl

theorem Moves.mem (h : Moves i smObjs c sm sm') (htr : tr ∈ sm.troublelist)
    (hlive : ∀ now ∈ c.checkTime, now ≤ tr.timeout) : tr ∈ sm'.troublelist := by
  have hmem : tr ∈ live tr.timeout ((entryOn i smObjs c).toList ++ sm.troublelist) :=
    mem_live.mpr ⟨List.mem_append_right _ htr, le_refl _⟩
  rw [← h.live_eq hlive] at hmem
  exact (mem_live.mp hmem).1

theorem moves_set {j : Nat} {sm₁ sm₁' : Saintmode} (hj : smObjs[j]? = some sm₁)
    (hsm : smObjs[i]? = some sm) (hc : entryOn i smObjs c = none)
    (hmoves : sm₁' = sm₁ ∨ ∃ digest now, c.checkTime = some now ∧ sm₁' = prune sm₁ digest now) :
    ∃ sm', (smObjs.set j sm₁')[i]? = some sm' ∧ Moves i smObjs c sm sm' := by
  by_cases hij : j = i
  · subst hij
    obtain rfl : sm₁ = sm := Option.some.inj (hj.symm.trans hsm)
    refine ⟨sm₁', ?_, ?_⟩
    · rw [List.getElem?_set_self (List.getElem?_eq_some_iff.mp hsm).1]
    · rcases hmoves with rfl | ⟨digest, now, hnow, rfl⟩
      · exact .kept hc
      · exact .pruned digest now hc hnow
  · exact ⟨sm, by rw [List.getElem?_set_ne hij, hsm], .kept hc⟩

theorem moves_blacklist (method : Method) (bo : Busyobj) (expires : ℚ)
    (hsm : smObjs[i]? = some sm) :
    ∃ sm', (vmodBlacklist smObjs method bo expires).2[i]? = some sm' ∧
      Moves i smObjs (.blacklist method bo expires) sm sm' := by
  have hne : smObjs ≠ [] := by
    rintro rfl
    simp at hsm
  unfold vmodBlacklist
  rw [if_neg hne]
  cases method with
  | backendResponse =>
      rw [if_neg (by simp)]
      cases hfind : findSm smObjs bo.directorResp with
      | none => exact ⟨sm, hsm, .kept (by simp [entryOn, hfind])⟩
      | some j =>
          rw [List.getElem?_modify, hsm]
          by_cases hij : j = i
          · subst hij
            refine ⟨insertTrouble sm ⟨bo.digest, bo.tPrev + expires⟩, by simp, ?_⟩
            exact .inserted _ (by simp [entryOn, hfind]) rfl
          · exact ⟨sm, by simp [hij], .kept (by simp [entryOn, hfind, hij])⟩
  | recv => exact ⟨sm, hsm, .kept rfl⟩
  | hash => exact ⟨sm, hsm, .kept rfl⟩
  | other => exact ⟨sm, hsm, .kept rfl⟩

theorem step_moves (hstep : step smObjs c = some (o, smObjs')) (hsm : smObjs[i]? = some sm) :
    ∃ sm', smObjs'[i]? = some sm' ∧ Moves i smObjs c sm sm' := by
  cases c with
  | blacklist method bo expires =>
      obtain ⟨-, rfl⟩ := Prod.mk.inj (Option.some.inj hstep)
      exact moves_blacklist method bo expires hsm
  | blacklistCount j =>
      obtain ⟨sm₁, -, heq⟩ := Option.map_eq_some_iff.mp hstep
      obtain ⟨-, rfl⟩ := Prod.mk.inj heq
      exact ⟨sm, hsm, .kept rfl⟩
  | healthy j bo real up =>
      obtain ⟨sm₁, hj, heq⟩ := Option.map_eq_some_iff.mp hstep
      obtain ⟨-, rfl⟩ := Prod.mk.inj heq
      refine moves_set hj hsm rfl ((healthy_snd sm₁ bo real up).imp_right ?_)
      exact fun ⟨digest, hprune⟩ => ⟨digest, _, rfl, hprune⟩
  | isHealthy j method req bo real up =>
      obtain ⟨sm₁, hj, heq⟩ := Option.map_eq_some_iff.mp hstep
      obtain ⟨-, rfl⟩ := Prod.mk.inj heq
      refine moves_set hj hsm rfl
        ((vmodSaintmodeIsHealthy_snd sm₁ method req bo real up).imp_right ?_)
      exact fun ⟨digest, hprune⟩ => ⟨digest, _, rfl, hprune⟩
  | resolve j bo real up =>
      obtain ⟨sm₁, hj, heq⟩ := Option.map_eq_some_iff.mp hstep
      obtain ⟨-, rfl⟩ := Prod.mk.inj heq
      refine moves_set hj hsm rfl ((healthy_snd sm₁ bo real up).imp_right ?_)
      exact fun ⟨digest, hprune⟩ => ⟨digest, _, rfl, hprune⟩

/-! Any calls. -/

variable {calls : List Call} {es : List (Machine.Event SaintmodeObjs Call Output)}

theorem length_vmodBlacklist (smObjs : SaintmodeObjs) (method : Method) (bo : Busyobj)
    (expires : ℚ) : (vmodBlacklist smObjs method bo expires).2.length = smObjs.length := by
  unfold vmodBlacklist
  split
  · rfl
  · split
    · rfl
    · split
      · rfl
      · exact List.length_modify ..

theorem length_step (hstep : step smObjs c = some (o, smObjs')) :
    smObjs'.length = smObjs.length := by
  cases c with
  | blacklist method bo expires =>
      rw [← (Prod.mk.inj (Option.some.inj hstep)).2]
      exact length_vmodBlacklist smObjs method bo expires
  | blacklistCount j =>
      obtain ⟨sm₁, -, heq⟩ := Option.map_eq_some_iff.mp hstep
      rw [← (Prod.mk.inj heq).2]
  | healthy j bo real up =>
      obtain ⟨sm₁, -, heq⟩ := Option.map_eq_some_iff.mp hstep
      rw [← (Prod.mk.inj heq).2, List.length_set]
  | isHealthy j method req bo real up =>
      obtain ⟨sm₁, -, heq⟩ := Option.map_eq_some_iff.mp hstep
      rw [← (Prod.mk.inj heq).2, List.length_set]
  | resolve j bo real up =>
      obtain ⟨sm₁, -, heq⟩ := Option.map_eq_some_iff.mp hstep
      rw [← (Prod.mk.inj heq).2, List.length_set]

theorem history_cons (e : Machine.Event SaintmodeObjs Call Output) :
    history i (e :: es) = history i es ++ (entryOn i e.before e.input).toList := by
  unfold history
  rw [List.filterMap_cons]
  cases entryOn i e.before e.input with
  | none => simp
  | some tr => simp

/-- What an object still is, and what its list holds, after a run. -/
structure Follows (i : Nat) (calls : List Call)
    (es : List (Machine.Event SaintmodeObjs Call Output)) (sm sm' : Saintmode) : Prop where
  be : sm'.be = sm.be
  threshold : sm'.threshold = sm.threshold
  counted : Counted sm → Counted sm'
  live : ∀ t, ChecksUntil t calls →
    live t sm'.troublelist = live t (history i es ++ sm.troublelist)

theorem run_follows (hrun : Machine.run step calls smObjs = some (es, smObjs'))
    (hsm : smObjs[i]? = some sm) :
    ∃ sm', smObjs'[i]? = some sm' ∧ Follows i calls es sm sm' := by
  induction calls generalizing smObjs es sm with
  | nil =>
      obtain ⟨rfl, rfl⟩ := Prod.mk.inj (Option.some.inj hrun)
      exact ⟨sm, hsm, rfl, rfl, id, fun t _ => rfl⟩
  | cons c calls ih =>
      obtain ⟨o, smObjs₁, fs, hstep, hrest, rfl⟩ := Machine.run_cons_inv hrun
      obtain ⟨sm₁, hsm₁, hmoves⟩ := step_moves hstep hsm
      obtain ⟨sm', hsm', hfollows⟩ := ih hrest hsm₁
      refine ⟨sm', hsm', hfollows.be.trans hmoves.be, hfollows.threshold.trans hmoves.threshold,
        fun h => hfollows.counted (hmoves.counted h), fun t ht => ?_⟩
      obtain ⟨hc, hcalls⟩ := List.forall_mem_cons.mp ht
      rw [hfollows.live t hcalls, live_append, hmoves.live_eq hc, history_cons, ← live_append,
        List.append_assoc]

theorem length_run (hrun : Machine.run step calls smObjs = some (es, smObjs')) :
    smObjs'.length = smObjs.length := by
  induction calls generalizing smObjs es with
  | nil =>
      obtain ⟨-, rfl⟩ := Prod.mk.inj (Option.some.inj hrun)
      rfl
  | cons c calls ih =>
      obtain ⟨o, smObjs₁, fs, hstep, hrest, -⟩ := Machine.run_cons_inv hrun
      exact (ih hrest).trans (length_step hstep)

theorem getElem?_init (config : Config) (i : Nat) :
    (init config)[i]? = config[i]?.map fun b => vmodSaintmodeInit b.1 b.2 :=
  List.getElem?_map

theorem counted_init (b : Backend × Int64) : Counted (vmodSaintmodeInit b.1 b.2) := rfl

/-- An object of a running VCL was made by one of its `new` lines. -/
theorem run_follows_init {config : Config} (hrun : run config calls = some (es, smObjs))
    (hsm : smObjs[i]? = some sm) :
    ∃ b, config[i]? = some b ∧ Follows i calls es (vmodSaintmodeInit b.1 b.2) sm := by
  have hlt : i < (init config).length :=
    length_run hrun ▸ (List.getElem?_eq_some_iff.mp hsm).1
  have hlt' : i < config.length := by simpa [init] using hlt
  have hinit : (init config)[i]? = some (vmodSaintmodeInit config[i].1 config[i].2) := by
    rw [getElem?_init, List.getElem?_eq_getElem hlt']
    rfl
  obtain ⟨sm', hsm', hfollows⟩ := run_follows hrun hinit
  obtain rfl : sm = sm' := Option.some.inj (hsm.symm.trans hsm')
  exact ⟨config[i], List.getElem?_eq_getElem hlt', hfollows⟩

end VarnishModules.SaintmodeTrouble
