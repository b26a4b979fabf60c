import VarnishModules.SaintmodeTrouble

/-!
What `n_trouble` counts, against the digests that are blacklisted.
-/

namespace VarnishModules.SaintmodeCount

open VarnishModules.SaintmodeModel
open VarnishModules.SaintmodeTrouble

/-- The digests with an entry of object `i` that has not expired at `t`. -/
def liveDigests (i : Nat) (es : List (Machine.Event SaintmodeObjs Call Output)) (t : ℚ) :
    Finset Digest :=
  ((live t (history i es)).map Trouble.digest).toFinset

variable {sm : Saintmode} {smObjs : SaintmodeObjs} {i : Nat} {t : ℚ} {l : List Trouble}
  {calls : List Call} {es : List (Machine.Event SaintmodeObjs Call Output)} {config : Config}

theorem live_of_run (hrun : run config calls = some (es, smObjs)) (hsm : smObjs[i]? = some sm)
    (ht : ChecksUntil t calls) : live t sm.troublelist = live t (history i es) := by
  obtain ⟨b, -, hfollows⟩ := run_follows_init hrun hsm
  have hnil : (vmodSaintmodeInit b.1 b.2).troublelist = [] := rfl
  rw [hfollows.live t ht, hnil, List.append_nil]

theorem counted_of_run (hrun : run config calls = some (es, smObjs))
    (hsm : smObjs[i]? = some sm) : Counted sm := by
  obtain ⟨b, -, hfollows⟩ := run_follows_init hrun hsm
  exact hfollows.counted (counted_init b)

/-- A list has as many entries as live digests just when all are live and all differ. -/
theorem length_eq_card_iff : l.length = ((live t l).map Trouble.digest).toFinset.card ↔
    (∀ tr ∈ l, t ≤ tr.timeout) ∧ (l.map Trouble.digest).Nodup := by
  have hcard := List.toFinset_card_le ((live t l).map Trouble.digest)
  rw [List.length_map] at hcard
  have hlive : (live t l).length ≤ l.length := List.length_filter_le _ _
  constructor
  · intro heq
    have hall : ∀ tr ∈ l, t ≤ tr.timeout := by
      have hlength : (live t l).length = l.length := by omega
      simpa using List.length_filter_eq_length_iff.mp hlength
    refine ⟨hall, ?_⟩
    rw [live_eq_self hall] at heq
    refine Multiset.coe_nodup.mp (Multiset.toFinset_card_eq_card_iff_nodup.mp ?_)
    rw [Multiset.coe_card, List.length_map]
    exact heq.symm
  · rintro ⟨hall, hnodup⟩
    rw [live_eq_self hall, List.toFinset_card_of_nodup hnodup, List.length_map]

/-- A digest without a live entry is refused for the number of live entries alone. -/
theorem healthy_eq_false_iff (hcounted : Counted sm) (hfits : sm.troublelist.length < 2 ^ 32)
    (hthreshold : sm.threshold ≠ 0) {bo : Busyobj}
    (habsent : ∀ tr ∈ live bo.tPrev sm.troublelist, tr.digest ≠ bo.digest) (real : ℚ) :
    (healthy sm (some bo) real true).1 = false ↔
      sm.threshold.toNat ≤ (live bo.tPrev sm.troublelist).length := by
  by_cases hzero : sm.nTrouble = 0
  · have hup : healthy sm (some bo) real true = (true, none, sm) := if_pos (Or.inr hzero)
    have hpositive : sm.threshold.toNat ≠ 0 := fun h => hthreshold (UInt32.toNat_inj.mp h)
    rw [hup, (hcounted.eq_zero_iff hfits).mp hzero]
    simpa [live] using hpositive
  · have hpass : ¬ ∃ tr ∈ live bo.tPrev sm.troublelist, some bo.digest = some tr.digest := by
      rintro ⟨tr, htr, heq⟩
      exact habsent tr htr (Option.some.inj heq).symm
    have hcheck : (healthy sm (some bo) real true).1 =
        (isDigestHealthy sm (some bo.digest) bo.tPrev).1 := by
      simp [healthy, hthreshold, hzero]
    rw [hcheck, hcounted.isDigestHealthy_fst hfits, or_iff_right hpass]

/-- The count is that of the live digests just when the list has neither an entry that has
expired nor a digest twice; a digest of its own apart, a check compares that number with the
threshold unless repeated digests alone reach it. -/
theorem counts_iff (hrun : run config calls = some (es, smObjs)) (ht : ChecksUntil t calls)
    (hsm : smObjs[i]? = some sm) (hfits : sm.troublelist.length < 2 ^ 32) :
    ((vmodSaintmodeBlacklistCount sm).toNat = (liveDigests i es t).card ↔
        (∀ tr ∈ sm.troublelist, t ≤ tr.timeout) ∧ (sm.troublelist.map Trouble.digest).Nodup) ∧
      ∀ bo real, bo.tPrev = t → sm.threshold ≠ 0 → bo.digest ∉ liveDigests i es t →
        ((((healthy sm (some bo) real true).1 = false ↔
              sm.threshold.toNat ≤ (liveDigests i es t).card) ∧
            ((resolve sm (some bo) real true).1 = none ↔
              sm.threshold.toNat ≤ (liveDigests i es t).card)) ↔
          ¬ ((liveDigests i es t).card < sm.threshold.toNat ∧
            sm.threshold.toNat ≤ (live t sm.troublelist).length)) := by
  have hcounted := counted_of_run hrun hsm
  have hdigests : liveDigests i es t = ((live t sm.troublelist).map Trouble.digest).toFinset := by
    rw [liveDigests, live_of_run hrun hsm ht]
  refine ⟨?_, fun bo real htime hthreshold habsent => ?_⟩
  · rw [hdigests, ← length_eq_card_iff, vmodSaintmodeBlacklistCount, hcounted,
      UInt32.toNat_ofNat_of_lt' hfits]
  · subst htime
    have hcard : (liveDigests i es bo.tPrev).card ≤ (live bo.tPrev sm.troublelist).length := by
      rw [hdigests, ← List.length_map Trouble.digest]
      exact List.toFinset_card_le _
    rw [hdigests, List.mem_toFinset] at habsent
    have hhealthy := healthy_eq_false_iff hcounted hfits hthreshold
      (fun tr htr heq => habsent (heq ▸ List.mem_map_of_mem htr)) real
    have hresolve : (resolve sm (some bo) real true).1 = none ↔
        (healthy sm (some bo) real true).1 = false := by
      cases hfst : (healthy sm (some bo) real true).1 with
      | true => simp [resolve, hfst]
      | false => simp [resolve, hfst]
    rw [hresolve, hhealthy]
    omega

/-! Runs on one object. -/

def tile : Config := [(0, 2)]

def otherDigest : Digest := ⟨List.replicate 32 1, by simp⟩

def fetchAt (tPrev : ℚ) : Busyobj := ⟨Digest.zero, tPrev, 0⟩

def thirdDigest : Digest := ⟨List.replicate 32 2, by simp⟩

/-- Three digests are blacklisted, one of them for a second, and a check comes after two. -/
def threeDigests : List Call :=
  [.blacklist .backendResponse (fetchAt 0) 1, .blacklist .backendResponse ⟨otherDigest, 0, 0⟩ 10,
    .blacklist .backendResponse ⟨thirdDigest, 0, 0⟩ 10, .healthy 0 (some (fetchAt 2)) 2 true]

theorem counts_iff_threeDigests : ∃ es smObjs sm,
    run tile threeDigests = some (es, smObjs) ∧ smObjs[0]? = some sm ∧
      (vmodSaintmodeBlacklistCount sm).toNat = (liveDigests 0 es 2).card ∧
      (liveDigests 0 es 2).card = 2 ∧
      ∀ bo real, bo.tPrev = 2 → bo.digest ∉ liveDigests 0 es 2 →
        (healthy sm (some bo) real true).1 = false ∧
          (resolve sm (some bo) real true).1 = none := by
  have hrun : run tile threeDigests = some (_, _) := rfl
  have hchecks : ChecksUntil 2 threeDigests := by
    simp [ChecksUntil, threeDigests, fetchAt, Call.checkTime]
  obtain ⟨hcount, hcheck⟩ := counts_iff (i := 0) hrun hchecks rfl (by decide +kernel)
  refine ⟨_, _, _, hrun, rfl, hcount.mpr (by decide +kernel), by decide +kernel,
    fun bo real htime habsent => ?_⟩
  obtain ⟨hhealthy, hresolve⟩ :=
    (hcheck bo real htime (by decide +kernel) habsent).mpr (by decide +kernel)
  exact ⟨hhealthy.mpr (by decide +kernel), hresolve.mpr (by decide +kernel)⟩

/-- One digest put on the list by two fetches: it counts twice, and a director with the
threshold 2 refuses another digest. -/
theorem not_counts_twice : ∃ es smObjs sm,
    run tile [.blacklist .backendResponse (fetchAt 0) 10,
        .blacklist .backendResponse (fetchAt 0) 10] = some (es, smObjs) ∧
      smObjs[0]? = some sm ∧ (liveDigests 0 es 1).card = 1 ∧
      (vmodSaintmodeBlacklistCount sm).toNat = 2 ∧ sm.threshold.toNat = 2 ∧
      otherDigest ∉ liveDigests 0 es 1 ∧ (healthy sm (some ⟨otherDigest, 1, 0⟩) 1 true).1 = false :=
  ⟨_, _, _, rfl, rfl, by decide +kernel, by decide, by decide, by decide +kernel,
    by decide +kernel⟩

end VarnishModules.SaintmodeCount
