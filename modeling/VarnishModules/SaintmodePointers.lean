import VarnishModules.SaintmodeChecked

/-!
The saintmode functions on the pointers they reach.

These are always a list of objects in order, wrapped in pointers; a step on it is one of
`SaintmodeModel`.
-/

namespace VarnishModules.SaintmodePointers

open VarnishModules.SaintmodeModel (Saintmode SaintmodeObjs Backend Message Busyobj Req Trouble)
open VarnishModules.SaintmodeChecked

/-! Lists that are mapped with their places. -/

section

variable {α β : Type*} {l : List α} {i : Nat}

theorem mapIdx_cons_add (f : Nat → α → β) (a : α) (l : List α) (k : Nat) :
    (a :: l).mapIdx (fun i => f (i + k)) = f k a :: l.mapIdx fun i => f (i + (k + 1)) := by
  simp [List.mapIdx_cons, Nat.add_assoc, Nat.add_comm 1]

/-- A list is changed at one place before or after a map over it. -/
theorem mapIdx_modify {f : Nat → α → β} {g : α → α} {h : β → β}
    (hfg : ∀ a, l[i]? = some a → f i (g a) = h (f i a)) :
    (l.modify i g).mapIdx f = (l.mapIdx f).modify i h := by
  apply List.ext_getElem?
  intro j
  rw [List.getElem?_modify, List.getElem?_mapIdx, List.getElem?_mapIdx, List.getElem?_modify]
  cases hj : l[j]? with
  | none => rfl
  | some a =>
      by_cases hij : i = j
      · subst hij
        simp [hfg a hj]
      · simp [hij]

theorem map_modify {f : α → β} {g : α → α} {h : β → β}
    (hfg : ∀ a, l[i]? = some a → f (g a) = h (f a)) :
    (l.modify i g).map f = (l.map f).modify i h := by
  have hmap : ∀ l : List α, l.mapIdx (fun _ => f) = l.map f := fun l =>
    List.mapIdx_eq_iff.mpr fun _ => List.getElem?_map
  rw [← hmap, ← hmap]
  exact mapIdx_modify hfg

end

/-! Objects and pointers. -/

/-- An object with the names of its director and of its backend. -/
structure Named where
  name : Identifier
  beName : Identifier
  sm : Saintmode

def wrapSm (i : Nat) (n : Named) : Obj Sm :=
  ⟨.saintmode,
    { sdir := ⟨.director, ⟨n.name, i⟩⟩
      be := some ⟨.director, ⟨n.sm.be, n.beName⟩⟩
      threshold := n.sm.threshold
      nTrouble := n.sm.nTrouble
      troublelist := n.sm.troublelist.map (Obj.mk .trouble) }⟩

/-- Nothing is allocated before the first object. -/
def wrap (l : List Named) : Vcl :=
  ⟨if l = [] then none else some ⟨.saintmodeObjs, l.mapIdx wrapSm⟩⟩

def setSm (l : List Named) (i : Nat) (sm : Saintmode) : List Named :=
  l.modify i fun n => { n with sm := sm }

def erase (l : List Named) : SaintmodeObjs :=
  l.map Named.sm

variable {l : List Named} {i : Nat} {n : Named}

@[simp] theorem checkObjNotnull_be :
    checkObjNotnull .director (wrapSm i n).val.be = some ⟨n.sm.be, n.beName⟩ := rfl

@[simp] theorem checkObjNotnull_sdir :
    checkObjNotnull .director (some (wrapSm i n).val.sdir) = some ⟨n.name, i⟩ := rfl

@[simp] theorem checkObjNotnull_wrapSm :
    checkObjNotnull .saintmode (some (wrapSm i n)) = some (wrapSm i n).val := rfl

theorem object_wrap (l : List Named) (i : Nat) : (wrap l).object i = l[i]?.map (wrapSm i) := by
  unfold wrap Vcl.object
  split_ifs with hl
  · simp [hl]
  · simp

theorem setSm_eq_nil_iff (sm : Saintmode) : setSm l i sm = [] ↔ l = [] :=
  List.modify_eq_nil_iff

theorem setObject_wrap (sm : Saintmode) (hi : l[i]? = some n) :
    (wrap l).setObject i (wrapSm i { n with sm := sm }).val = wrap (setSm l i sm) := by
  have hl : l ≠ [] := by
    rintro rfl
    exact absurd hi (by simp)
  have hmodify : (l.mapIdx wrapSm).modify i
      (fun o => { o with val := (wrapSm i { n with sm := sm }).val }) =
        (setSm l i sm).mapIdx wrapSm := by
    refine (mapIdx_modify fun n' hn' => ?_).symm
    obtain rfl := Option.some.inj (hi.symm.trans hn')
    rfl
  rw [wrap, wrap, if_neg hl, if_neg (mt (setSm_eq_nil_iff sm).mp hl), ← hmodify]
  rfl

theorem setSm_self (hi : l[i]? = some n) : setSm l i n.sm = l := by
  have hself : (setSm l i n.sm).map id = (l.map id).modify i id := by
    refine map_modify fun n' hn' => ?_
    obtain rfl := Option.some.inj (hi.symm.trans hn')
    rfl
  rwa [List.map_id, List.map_id, List.modify_id] at hself

theorem erase_setSm (l : List Named) (i : Nat) (sm : Saintmode) :
    erase (setSm l i sm) = (erase l).set i sm := by
  rw [List.set_eq_modify]
  exact map_modify fun _ _ => rfl

theorem pruneLoop_wrap (digest : Option Digest) (now : ℚ) (troublelist : List Trouble)
    (nTrouble : UInt32) :
    pruneLoop digest now (troublelist.map (Obj.mk .trouble)) nTrouble =
      let r := SaintmodeModel.pruneLoop digest now troublelist nTrouble
      some (r.1, r.2.1.map (Obj.mk .trouble), r.2.2) := by
  induction troublelist generalizing nTrouble with
  | nil => rfl
  | cons tr troublelist ih =>
      rw [List.map_cons, pruneLoop, SaintmodeModel.pruneLoop, checkObjNotnull_mk,
        Option.bind_eq_bind, Option.bind_some]
      split_ifs
      · exact ih _
      · rfl
      · rw [ih]
        rfl

theorem castPriv_wrap (hi : l[i]? = some n) :
    castPriv (wrap l) (wrapSm i n).val.sdir = some (i, (wrapSm i n).val) := by
  simp [castPriv, object_wrap, hi]

theorem isDigestHealthy_wrap (hi : l[i]? = some n) (digest : Option Digest) (tPrev : ℚ) :
    isDigestHealthy (wrap l) (wrapSm i n).val.sdir digest tPrev =
      let r := SaintmodeModel.isDigestHealthy n.sm digest tPrev
      some (r.1, r.2.1, wrap (setSm l i r.2.2)) := by
  simp only [isDigestHealthy, castPriv_wrap hi, Option.bind_eq_bind, Option.bind_some]
  rw [show (wrapSm i n).val.troublelist = n.sm.troublelist.map (Obj.mk .trouble) from rfl,
    pruneLoop_wrap]
  simp only [Option.bind_some]
  rw [← setObject_wrap _ hi]
  rfl

/-- What the server hands to the director functions. -/
def busyobjOf (bo : Bo) : Busyobj :=
  ⟨bo.digest, bo.tPrev, (bo.directorResp.map fun dir => dir.val.be).getD 0⟩

theorem healthy_wrap (hi : l[i]? = some n) (bo : Option (Obj Bo))
    (hbo : ∀ o ∈ bo, o.magic = .busyobj) (real : ℚ) (up : Bool) :
    healthy (wrap l) (wrapSm i n).val.sdir bo real up =
      let r := SaintmodeModel.healthy n.sm (bo.map fun o => busyobjOf o.val) real up
      some (r.1, r.2.1, wrap (setSm l i r.2.2)) := by
  have hcheck : checkObjOrnull .busyobj bo = some (bo.map Obj.val) := by
    cases bo with
    | none => rfl
    | some o => simp [checkObjOrnull, hbo o rfl]
  simp only [healthy, castPriv_wrap hi, hcheck, checkObjNotnull_be, Option.bind_eq_bind,
    Option.bind_some, isDigestHealthy_wrap hi, SaintmodeModel.healthy]
  by_cases hidle : n.sm.threshold = 0 ∨ n.sm.nTrouble = 0
  · have hidle' : (wrapSm i n).val.threshold = 0 ∨ (wrapSm i n).val.nTrouble = 0 := hidle
    rw [if_pos hidle, if_pos hidle', setSm_self hi]
    rfl
  · have hidle' : ¬ ((wrapSm i n).val.threshold = 0 ∨ (wrapSm i n).val.nTrouble = 0) := hidle
    rw [if_neg hidle, if_neg hidle']
    cases bo with
    | none => rfl
    | some o => rfl

/-- What a `new` line gives an object for good. -/
def created (n : Named) : Identifier × Director × UInt32 :=
  (n.name, ⟨n.sm.be, n.beName⟩, n.sm.threshold)

theorem map_created_modify {g : Named → Named}
    (hg : ∀ n, l[i]? = some n → created (g n) = created n) :
    (l.modify i g).map created = l.map created := by
  rw [map_modify (h := id) hg, List.modify_id]

theorem map_created_setSm {sm : Saintmode} (hi : l[i]? = some n) (hbe : sm.be = n.sm.be)
    (hthreshold : sm.threshold = n.sm.threshold) :
    (setSm l i sm).map created = l.map created := by
  refine map_created_modify fun n' hn' => ?_
  obtain rfl := Option.some.inj (hi.symm.trans hn')
  rw [created, created, hbe, hthreshold]

theorem healthy_keeps (sm : Saintmode) (bo : Option Busyobj) (real : ℚ) (up : Bool) :
    (SaintmodeModel.healthy sm bo real up).2.2.be = sm.be ∧
      (SaintmodeModel.healthy sm bo real up).2.2.threshold = sm.threshold := by
  unfold SaintmodeModel.healthy
  split_ifs
  · exact ⟨rfl, rfl⟩
  · cases bo with
    | none => exact ⟨rfl, rfl⟩
    | some bo => exact ⟨rfl, rfl⟩

theorem findSm_wrap (be : Backend) (l : List Named) :
    findSm be (l.mapIdx wrapSm) = some (SaintmodeModel.findSm (erase l) be) := by
  have hshift : ∀ k, findSm be (l.mapIdx fun i => wrapSm (i + k)) =
      some (SaintmodeModel.findSm (erase l) be) := by
    induction l with
    | nil => exact fun _ => rfl
    | cons n l ih =>
        intro k
        simp only [mapIdx_cons_add, findSm, checkObjNotnull_wrapSm, checkObjNotnull_be,
          Option.bind_eq_bind, Option.bind_some, ih (k + 1), SaintmodeModel.findSm, erase,
          List.map_cons, List.findIdx?_cons, decide_eq_true_eq]
        by_cases hbe : n.sm.be = be
        · rw [if_pos hbe, if_pos hbe]
          rfl
        · rw [if_neg hbe, if_neg hbe]
          rfl
  exact hshift 0

/-! What the calls do. -/

/-- The call without its pointers. -/
def eraseCall : Call → Option SaintmodeModel.Call
  | .blacklist ctx expires => some (.blacklist ctx.val.method
      ((ctx.val.bo.map fun o => busyobjOf o.val).getD ⟨Digest.zero, 0, 0⟩) expires)
  | .status _ => none
  | .blacklistCount _ i => some (.blacklistCount i)
  | .isHealthy ctx i real up => some (.isHealthy i ctx.val.method ctx.val.req
      (ctx.val.bo.map fun o => busyobjOf o.val) real up)
  | .resolve i bo real up => some (.resolve i (bo.map fun o => busyobjOf o.val) real up)

/-- Other calls than `status` do what they do in `SaintmodeModel`, and `status` changes nothing. -/
structure Does (l : List Named) (c : Call) (o : Output) (l' : List Named) : Prop where
  created : l'.map created = l.map created
  erase : ∀ c', eraseCall c = some c' →
    ∃ o', o = .call o' ∧ SaintmodeModel.step (erase l) c' = some (o', erase l')
  status : eraseCall c = none → l' = l ∧ ∃ p, o = .status p

theorem does_of_some {l' : List Named} {c : Call} {c' : SaintmodeModel.Call}
    {o : SaintmodeModel.Output} (hcreated : l'.map created = l.map created)
    (hc : eraseCall c = some c') (hstep : SaintmodeModel.step (erase l) c' = some (o, erase l')) :
    Does l c (.call o) l' where
  created := hcreated
  erase c'' hc'' := by
    obtain rfl := Option.some.inj (hc.symm.trans hc'')
    exact ⟨o, rfl, hstep⟩
  status hnone := absurd (hc.symm.trans hnone) (Option.some_ne_none c')

theorem getElem?_erase (hi : l[i]? = some n) : (erase l)[i]? = some n.sm := by
  rw [erase, List.getElem?_map, hi, Option.map_some]

def insertAt (l : List Named) (i : Nat) (tp : Trouble) : List Named :=
  l.modify i fun n => { n with sm := SaintmodeModel.insertTrouble n.sm tp }

theorem insertAt_wrap (hl : l ≠ []) (i : Nat) (tp : Trouble) :
    (⟨some ⟨.saintmodeObjs, (l.mapIdx wrapSm).modify i fun o =>
      { o with val := { o.val with
        troublelist := ⟨.trouble, tp⟩ :: o.val.troublelist
        nTrouble := o.val.nTrouble + 1 } }⟩⟩ : Vcl) = wrap (insertAt l i tp) := by
  have hne : insertAt l i tp ≠ [] := by simpa [insertAt] using hl
  have hmodify : (insertAt l i tp).mapIdx wrapSm = (l.mapIdx wrapSm).modify i fun o =>
      { o with val := { o.val with
        troublelist := ⟨.trouble, tp⟩ :: o.val.troublelist
        nTrouble := o.val.nTrouble + 1 } } :=
    mapIdx_modify fun _ _ => rfl
  rw [wrap, if_neg hne, hmodify]

theorem step_blacklist {ctx : Ctx} {expires : ℚ}
    (hbo : ctx.method = .backendResponse →
      ∃ bo dir, ctx.bo = some ⟨.busyobj, bo⟩ ∧ bo.directorResp = some ⟨.director, dir⟩) :
    ∃ o l', step (wrap l) (.blacklist ⟨.vrtCtx, ctx⟩ expires) = some (o, wrap l') ∧
      Does l (.blacklist ⟨.vrtCtx, ctx⟩ expires) o l' := by
  by_cases hl : l = []
  · subst hl
    exact ⟨_, [], rfl, does_of_some rfl rfl rfl⟩
  have hpriv : (wrap l).priv = some ⟨.saintmodeObjs, l.mapIdx wrapSm⟩ := if_neg hl
  have herase : erase l ≠ [] := by simpa [erase] using hl
  by_cases hmethod : ctx.method = .backendResponse
  swap
  · refine ⟨.call (.void, some .outsideBackendResponse), l, ?_, does_of_some rfl rfl ?_⟩
    · simp [step, vmodBlacklist, hpriv, hmethod]
    · simp [SaintmodeModel.step, SaintmodeModel.vmodBlacklist, herase, hmethod]
  obtain ⟨bo, dir, hctx, hdir⟩ := hbo hmethod
  cases hfind : SaintmodeModel.findSm (erase l) dir.be with
  | none =>
      refine ⟨.call (.void, some .notConfiguredForBackend), l, ?_, does_of_some rfl rfl ?_⟩
      · simp [step, vmodBlacklist, hpriv, hmethod, hctx, hdir, findSm_wrap, hfind]
      · simp [SaintmodeModel.step, SaintmodeModel.vmodBlacklist, herase, hmethod, hctx, hdir,
          busyobjOf, hfind]
  | some i =>
      refine ⟨.call (.void, some (.putOnBlacklist dir.be expires)),
        insertAt l i ⟨bo.digest, bo.tPrev + expires⟩, ?_,
        does_of_some (map_created_modify fun _ _ => rfl) rfl ?_⟩
      · rw [← insertAt_wrap hl]
        simp [step, vmodBlacklist, hpriv, hmethod, hctx, hdir, findSm_wrap, hfind]
      · have herase' : erase (insertAt l i ⟨bo.digest, bo.tPrev + expires⟩) = (erase l).modify i
            fun sm => SaintmodeModel.insertTrouble sm ⟨bo.digest, bo.tPrev + expires⟩ :=
          map_modify fun _ _ => rfl
        rw [herase']
        simp [SaintmodeModel.step, SaintmodeModel.vmodBlacklist, herase, hmethod, hctx, hdir,
          busyobjOf, hfind]

theorem step_isHealthy {ctx : Ctx} {real : ℚ} {up : Bool} (hi : l[i]? = some n)
    (hbo : ∀ o ∈ ctx.bo, o.magic = .busyobj) :
    ∃ o l', step (wrap l) (.isHealthy ⟨.vrtCtx, ctx⟩ i real up) = some (o, wrap l') ∧
      Does l (.isHealthy ⟨.vrtCtx, ctx⟩ i real up) o l' := by
  cases hreq : ctx.req with
  | some req =>
      let digest := if ctx.method = .recv ∨ ctx.method = .hash then none else some req.digest
      let r := SaintmodeModel.isDigestHealthy n.sm digest req.tPrev
      refine ⟨.call (.bool r.1, r.2.1), setSm l i r.2.2, ?_,
        does_of_some (map_created_setSm hi rfl rfl) rfl ?_⟩
      · simp [r, digest, step, vmodSaintmodeIsHealthy, object_wrap, hi, hreq,
          isDigestHealthy_wrap hi]
      · simp [SaintmodeModel.step, getElem?_erase hi, SaintmodeModel.vmodSaintmodeIsHealthy, hreq,
          erase_setSm, r, digest]
  | none =>
      obtain ⟨hbe, hthreshold⟩ := healthy_keeps n.sm (ctx.bo.map fun o => busyobjOf o.val) real up
      let r := SaintmodeModel.healthy n.sm (ctx.bo.map fun o => busyobjOf o.val) real up
      refine ⟨.call (.bool r.1, r.2.1), setSm l i r.2.2, ?_,
        does_of_some (map_created_setSm hi hbe hthreshold) rfl ?_⟩
      · simp [r, step, vmodSaintmodeIsHealthy, object_wrap, hi, hreq, healthy_wrap hi ctx.bo hbo]
      · simp [SaintmodeModel.step, getElem?_erase hi, SaintmodeModel.vmodSaintmodeIsHealthy, hreq,
          erase_setSm, r]

theorem step_resolve {bo : Option (Obj Bo)} {real : ℚ} {up : Bool} (hi : l[i]? = some n)
    (hbo : ∀ o ∈ bo, o.magic = .busyobj) :
    ∃ o l', step (wrap l) (.resolve i bo real up) = some (o, wrap l') ∧
      Does l (.resolve i bo real up) o l' := by
  let r := SaintmodeModel.resolve n.sm (bo.map fun o => busyobjOf o.val) real up
  obtain ⟨hbe, hthreshold⟩ := healthy_keeps n.sm (bo.map fun o => busyobjOf o.val) real up
  refine ⟨.call (.backend r.1, r.2.1), setSm l i r.2.2, ?_,
    does_of_some (map_created_setSm hi hbe hthreshold) rfl ?_⟩
  · simp only [step, SaintmodeChecked.resolve, object_wrap, hi, Option.map_some,
      Option.bind_eq_bind, Option.bind_some, castPriv_wrap hi, healthy_wrap hi bo hbo]
    simp [r, SaintmodeModel.resolve, hbe, wrapSm]
  · simp [SaintmodeModel.step, getElem?_erase hi, erase_setSm, r]

theorem step_blacklistCount {ctx : Ctx} (hi : l[i]? = some n) :
    ∃ o l', step (wrap l) (.blacklistCount ⟨.vrtCtx, ctx⟩ i) = some (o, wrap l') ∧
      Does l (.blacklistCount ⟨.vrtCtx, ctx⟩ i) o l' := by
  refine ⟨.call (.count n.sm.nTrouble, none), l, ?_, does_of_some rfl rfl ?_⟩
  · simp [step, vmodSaintmodeBlacklistCount, object_wrap, hi]
    rfl
  · simp [SaintmodeModel.step, getElem?_erase hi, SaintmodeModel.vmodSaintmodeBlacklistCount]

end VarnishModules.SaintmodePointers
