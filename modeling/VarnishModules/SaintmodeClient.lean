import VarnishModules.SaintmodeCount

/-!
The health of a director as a client asks for it, and as a fetch does.

Only the fetch looks at the threshold and at `n_trouble` before it walks the list.
-/

namespace VarnishModules.SaintmodeClient

open VarnishModules.SaintmodeModel
open VarnishModules.SaintmodeTrouble
open VarnishModules.SaintmodeCount

def requestDigest (method : Method) (req : Req) : Option Digest :=
  if method = .recv ∨ method = .hash then none else some req.digest

/-- The wrapped backend is healthy in both. -/
def clientVerdict (sm : Saintmode) (method : Method) (req : Req) : Bool :=
  (vmodSaintmodeIsHealthy sm method (some req) none req.tPrev true).1

def fetchVerdict (sm : Saintmode) (method : Method) (req : Req) : Bool :=
  let bo := (requestDigest method req).map fun digest => ⟨digest, req.tPrev, sm.be⟩
  (healthy sm bo req.tPrev true).1

variable {sm : Saintmode} {smObjs : SaintmodeObjs} {method : Method} {req : Req} {i : Nat}
  {config : Config} {calls : List Call} {es : List (Machine.Event SaintmodeObjs Call Output)}

theorem clientVerdict_eq :
    clientVerdict sm method req =
      (isDigestHealthy sm (requestDigest method req) req.tPrev).1 := rfl

theorem fetchVerdict_eq :
    fetchVerdict sm method req =
      if sm.threshold = 0 ∨ sm.nTrouble = 0 then true else clientVerdict sm method req := by
  unfold fetchVerdict healthy
  rw [clientVerdict_eq]
  split_ifs
  · rfl
  · cases requestDigest method req with
    | none => exact Bool.and_true _
    | some digest => exact Bool.and_true _

theorem clientVerdict_of_threshold_zero (h : sm.threshold = 0) :
    clientVerdict sm method req = false := by
  rw [clientVerdict_eq, isDigestHealthy_fst, h]
  exact .inr (UInt32.zero_le)

theorem clientVerdict_of_nil (hthreshold : sm.threshold ≠ 0) (hzero : sm.nTrouble = 0)
    (hnil : sm.troublelist = []) : clientVerdict sm method req = true := by
  have hlt : ¬ sm.threshold ≤ 0 := fun hle => hthreshold (UInt32.le_antisymm hle UInt32.zero_le)
  simp [clientVerdict_eq, isDigestHealthy, hnil, pruneLoop, hzero, hlt]

/-- Both paths agree on every request just when the object has a threshold, and the fetch passes
over no entries. -/
theorem forall_agree_iff :
    (∀ method req, clientVerdict sm method req = fetchVerdict sm method req) ↔
      sm.threshold ≠ 0 ∧ (sm.nTrouble = 0 → sm.troublelist = []) := by
  simp only [fetchVerdict_eq]
  constructor
  · intro hagree
    refine ⟨fun hthreshold => ?_, fun hzero => List.eq_nil_iff_forall_not_mem.mpr fun tr htr => ?_⟩
    · have heq := hagree .other ⟨Digest.zero, 0⟩
      rw [if_pos (.inl hthreshold), clientVerdict_of_threshold_zero hthreshold] at heq
      exact absurd heq (by decide)
    · -- a request for the object of the entry, before the entry expires
      have heq := hagree .other ⟨tr.digest, tr.timeout⟩
      have hfound : clientVerdict sm .other ⟨tr.digest, tr.timeout⟩ = false := by
        rw [clientVerdict_eq, isDigestHealthy_fst]
        exact .inl ⟨tr, mem_live.mpr ⟨htr, le_rfl⟩, rfl⟩
      rw [if_pos (.inr hzero), hfound] at heq
      exact absurd heq (by decide)
  · rintro ⟨hthreshold, hempty⟩ method req
    split_ifs with hfast
    · have hzero := hfast.resolve_left hthreshold
      exact clientVerdict_of_nil hthreshold hzero (hempty hzero)
    · rfl

theorem agree_iff_of_fits (hcounted : Counted sm) (hfits : sm.troublelist.length < 2 ^ 32) :
    clientVerdict sm method req = fetchVerdict sm method req ↔ sm.threshold ≠ 0 := by
  constructor
  · intro hagree hthreshold
    rw [fetchVerdict_eq, if_pos (.inl hthreshold),
      clientVerdict_of_threshold_zero hthreshold] at hagree
    exact absurd hagree (by decide)
  · intro hthreshold
    exact forall_agree_iff.mpr ⟨hthreshold, (hcounted.eq_zero_iff hfits).mp⟩ method req

/-- In every state of a running VCL the client and the fetch agree on all requests just when the
threshold is not 0 and the counter is not 0 for a list with entries; on a list that fits the
counter they agree on a request just when the threshold is not 0. -/
theorem run_agree_iff (hrun : run config calls = some (es, smObjs)) (hsm : smObjs[i]? = some sm) :
    ((∀ method req, clientVerdict sm method req = fetchVerdict sm method req) ↔
      sm.threshold ≠ 0 ∧ (sm.nTrouble = 0 → sm.troublelist = [])) ∧
    (sm.troublelist.length < 2 ^ 32 → ∀ method req,
      (clientVerdict sm method req = fetchVerdict sm method req ↔ sm.threshold ≠ 0)) :=
  ⟨forall_agree_iff, fun hfits _ _ => agree_iff_of_fits (counted_of_run hrun hsm) hfits⟩

theorem run_agree_iff_tile : ∃ es smObjs sm,
    run tile [.blacklist .backendResponse (fetchAt 0) 10] = some (es, smObjs) ∧
      smObjs[0]? = some sm ∧
      ((∀ method req, clientVerdict sm method req = fetchVerdict sm method req) ↔
        sm.threshold ≠ 0 ∧ (sm.nTrouble = 0 → sm.troublelist = [])) ∧
      (sm.troublelist.length < 2 ^ 32 → ∀ method req,
        (clientVerdict sm method req = fetchVerdict sm method req ↔ sm.threshold ≠ 0)) := by
  have hrun : run tile [.blacklist .backendResponse (fetchAt 0) 10] = some (_, _) := rfl
  exact ⟨_, _, _, hrun, rfl, run_agree_iff (i := 0) hrun rfl⟩

/-- With the threshold 0, which is to disable saintmode, a director that nothing was ever
blacklisted on is healthy for a fetch and not for a client. -/
theorem not_agree_disabled : ∃ es smObjs sm, run [(0, 0)] [] = some (es, smObjs) ∧
    smObjs[0]? = some sm ∧ sm.troublelist = [] ∧
    clientVerdict sm .other ⟨Digest.zero, 0⟩ = false ∧
    fetchVerdict sm .other ⟨Digest.zero, 0⟩ = true :=
  ⟨_, _, _, rfl, rfl, rfl, by decide, by decide⟩

end VarnishModules.SaintmodeClient
