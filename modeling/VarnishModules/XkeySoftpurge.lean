import VarnishModules.XkeyPurge

/-!
A soft purge rearms each object once, and a second one finds nothing to do.
-/

namespace VarnishModules.XkeySoftpurge

open VarnishModules.CStrings
open VarnishModules.TailQueue
open VarnishModules.XkeyModel
open VarnishModules.XkeyRepresentation
open VarnishModules.XkeyInsert
open VarnishModules.XkeyRemove
open VarnishModules.XkeyIndex
open VarnishModules.XkeyTokens
open VarnishModules.XkeyPurge

/-- Nothing is left of the time to live at the time `EXP_Rearm` is given. -/
def EndsTtl (rearm : Rearm) : Prop :=
  ∀ e now grace keep,
    (rearm e now 0 grace keep).ttl = now - (rearm e now 0 grace keep).tOrigin

/-- The call of `EXP_Rearm` a soft purge makes when it comes to the objcore. -/
def softCall (now : ℚ) (objects : Objcore → ObjcoreData) (o : Objcore) : Option RearmCall :=
  if (objects o).busy ∨ (objects o).exp.ttl ≤ now - (objects o).exp.tOrigin then none
  else some ⟨o, now, 0, (objects o).exp.grace, (objects o).exp.keep⟩

variable {rearm : Rearm} {now now' : ℚ} {st : Purge} {o o' : Objcore} {c : RearmCall}
variable {os : List Objcore} {objects : Objcore → ObjcoreData}

theorem softCall_eq_none_iff :
    softCall now objects o = none ↔
      (objects o).busy = true ∨ (objects o).exp.ttl ≤ now - (objects o).exp.tOrigin := by
  unfold softCall
  split_ifs with h <;> simp [h]

theorem softCall_eq_some_iff :
    softCall now objects o = some c ↔
      (objects o).busy = false ∧ now - (objects o).exp.tOrigin < (objects o).exp.ttl ∧
        c = ⟨o, now, 0, (objects o).exp.grace, (objects o).exp.keep⟩ := by
  simp only [softCall, ite_eq_iff, reduceCtorEq, and_false, false_or, not_or, not_le,
    Bool.not_eq_true, Option.some.injEq, and_assoc]
  exact and_congr_right' (and_congr_right' eq_comm)

theorem softCall_none_mono (hnow : now ≤ now') (h : softCall now objects o = none) :
    softCall now' objects o = none := by
  rw [softCall_eq_none_iff] at h ⊢
  exact h.imp_right fun httl => httl.trans (by linarith)

theorem purgeOc_of_none (h : softCall now st.objects o = none) :
    purgeOc rearm 1 now st o = st := by
  rcases softCall_eq_none_iff.mp h with hbusy | httl
  · simp [purgeOc, hbusy]
  · simp [purgeOc, httl]

theorem purgeOc_of_some (h : softCall now st.objects o = some c) :
    purgeOc rearm 1 now st o =
      { st with
        objects := Function.update st.objects o { st.objects o with
          exp := rearm (st.objects o).exp now 0 (st.objects o).exp.grace (st.objects o).exp.keep }
        calls := st.calls ++ [c]
        i := st.i.bind incr } := by
  obtain ⟨hbusy, httl, rfl⟩ := softCall_eq_some_iff.mp h
  simp [purgeOc, hbusy, httl]

theorem purgeOc_objects_of_ne (hne : o' ≠ o) :
    (purgeOc rearm 1 now st o).objects o' = st.objects o' := by
  cases hcall : softCall now st.objects o with
  | none => rw [purgeOc_of_none hcall]
  | some c => simp [purgeOc_of_some hcall, hne]

/-- An objcore the purge has come to has nothing left of its time to live. -/
theorem purgeOc_ended (hrearm : EndsTtl rearm) :
    softCall now (purgeOc rearm 1 now st o).objects o = none := by
  cases hcall : softCall now st.objects o with
  | none => rwa [purgeOc_of_none hcall]
  | some c =>
      rw [purgeOc_of_some hcall, softCall_eq_none_iff]
      simpa using .inr (hrearm _ now _ _).le

/-- No soft purge up to some time gives an objcore a time to live beyond it. -/
theorem purgeOc_keeps_ended (hrearm : EndsTtl rearm) (hnow : now ≤ now')
    (h : softCall now' st.objects o' = none) :
    softCall now' (purgeOc rearm 1 now st o).objects o' = none := by
  rcases eq_or_ne o' o with rfl | hne
  · exact softCall_none_mono hnow (purgeOc_ended hrearm)
  · rw [softCall_eq_none_iff, purgeOc_objects_of_ne hne]
    exact softCall_eq_none_iff.mp h

theorem purgeOcs_keeps_ended (os : List Objcore) (hrearm : EndsTtl rearm) (hnow : now ≤ now')
    (h : softCall now' st.objects o' = none) :
    softCall now' (purgeOcs rearm 1 now os st).objects o' = none := by
  induction os generalizing st with
  | nil => exact h
  | cons o os ih => exact ih (purgeOc_keeps_ended hrearm hnow h)

theorem purgeOcs_ended (hrearm : EndsTtl rearm) (ho : o ∈ os) :
    softCall now (purgeOcs rearm 1 now os st).objects o = none := by
  induction os generalizing st with
  | nil => simp at ho
  | cons o' os ih =>
      rcases List.mem_cons.mp ho with rfl | ho
      · exact purgeOcs_keeps_ended os hrearm le_rfl (purgeOc_ended hrearm)
      · exact ih ho

theorem purgeOcs_of_none (h : ∀ o ∈ os, softCall now st.objects o = none) :
    purgeOcs rearm 1 now os st = st := by
  induction os with
  | nil => rfl
  | cons o os ih =>
      rw [purgeOcs, List.foldl_cons, purgeOc_of_none (h o (by simp))]
      exact ih fun o' ho' => h o' (by simp [ho'])

/-- The calls of a soft purge are those the state it starts from calls for. -/
theorem mem_purgeOcs_calls (hrearm : EndsTtl rearm) :
    c ∈ (purgeOcs rearm 1 now os st).calls ↔
      c ∈ st.calls ∨ ∃ o ∈ os, softCall now st.objects o = some c := by
  induction os generalizing st with
  | nil => simp [purgeOcs]
  | cons o os ih =>
      have hstep : c ∈ (purgeOc rearm 1 now st o).calls ↔
          c ∈ st.calls ∨ softCall now st.objects o = some c := by
        cases hcall : softCall now st.objects o with
        | none => simp [purgeOc_of_none hcall]
        | some c' => simp [purgeOc_of_some hcall, eq_comm]
      -- once `o` has been visited it is called for no more, the others as before
      have hrest : ∀ o', softCall now (purgeOc rearm 1 now st o).objects o' = some c ↔
          o' ≠ o ∧ softCall now st.objects o' = some c := by
        intro o'
        rcases eq_or_ne o' o with rfl | hne
        · simp [purgeOc_ended hrearm]
        · simp [softCall, purgeOc_objects_of_ne hne, hne]
      rw [purgeOcs, List.foldl_cons]
      refine ih.trans ?_
      simp only [hstep, hrest, List.exists_mem_cons_iff, or_assoc]
      refine or_congr_right ?_
      constructor
      · rintro (h | ⟨o', ho', -, h⟩)
        · exact .inl h
        · exact .inr ⟨o', ho', h⟩
      · rintro (h | ⟨o', ho', h⟩)
        · exact .inl h
        · rcases eq_or_ne o' o with rfl | hne
          · exact .inl h
          · exact .inr ⟨o', ho', hne, h⟩

/-- A soft purge passes over an objcore it has rearmed. -/
theorem nodup_soft (hrearm : EndsTtl rearm) (hdistinct : (st.calls.map RearmCall.objcore).Nodup)
    (hended : ∀ o ∈ st.calls.map RearmCall.objcore,
      (st.objects o).exp.ttl ≤ now - (st.objects o).exp.tOrigin) :
    ((purgeOcs rearm 1 now os st).calls.map RearmCall.objcore).Nodup := by
  induction os generalizing st with
  | nil => exact hdistinct
  | cons o os ih =>
      by_cases hbusy : (st.objects o).busy = true
      · have hskip : purgeOc rearm 1 now st o = st := by simp [purgeOc, hbusy]
        rw [purgeOcs, List.foldl_cons, hskip]
        exact ih hdistinct hended
      · by_cases httl : (st.objects o).exp.ttl ≤ now - (st.objects o).exp.tOrigin
        · have hskip : purgeOc rearm 1 now st o = st := by simp [purgeOc, hbusy, httl]
          rw [purgeOcs, List.foldl_cons, hskip]
          exact ih hdistinct hended
        · have hnew : o ∉ st.calls.map RearmCall.objcore := fun hmem => httl (hended o hmem)
          have hcalls : (purgeOc rearm 1 now st o).calls.map RearmCall.objcore =
              st.calls.map RearmCall.objcore ++ [o] := by
            simp [purgeOc, hbusy, httl]
          refine ih ?_ fun o' ho' => ?_
          · rw [hcalls, List.nodup_append]
            exact ⟨hdistinct, List.nodup_singleton o, fun x hx y hy heq =>
              hnew (List.mem_singleton.mp hy ▸ heq ▸ hx)⟩
          · by_cases heq : o' = o
            · subst heq
              simpa [purgeOc, hbusy, httl] using (hrearm _ now _ _).le
            · have hold : o' ∈ st.calls.map RearmCall.objcore := by
                simpa [hcalls, heq] using ho'
              simpa [purgeOc, hbusy, httl, heq] using hended o' hold

/-- What may come between two soft purges. -/
inductive Between
  | cbRemove (objcore : Objcore)
  | softpurge (now : ℚ) (key : Option CString)

def Between.run (sha256 : CString → Digest) (rearm : Rearm) (st : Purge) :
    Between → Except Fault Purge
  | .cbRemove o => (xkeyCbRemove st.xkey o).map fun xkey => { st with xkey }
  | .softpurge now key => vmodSoftpurge sha256 rearm now st key

/-- The step is not after the time. -/
def Between.before (now : ℚ) : Between → Prop
  | .cbRemove _ => True
  | .softpurge t _ => t ≤ now

/-- A soft purge of the keys at the time has nothing to do. -/
def Done (sha256 : CString → Digest) (now : ℚ) (key : Option CString) (st : Purge) : Prop :=
  ∃ g ix, Represents st.xkey g ix ∧ Settled st.xkey g ∧
    ∀ o, (∃ t ∈ keyTokens key, sha256 t ∈ ix o) → softCall now st.objects o = none

variable {sha256 : CString → Digest} {key : Option CString}

theorem Done.step (hrearm : EndsTtl rearm) (hst : Done sha256 now key st) {b : Between}
    (hb : b.before now) : ∃ st', b.run sha256 rearm st = .ok st' ∧ Done sha256 now key st' := by
  obtain ⟨g, ix, hs, hset, hended⟩ := hst
  cases b with
  | cbRemove o =>
      obtain ⟨s', g', hstep, hs', hset', -⟩ := xkeyCbRemove_spec hs hset o
      refine ⟨{ st with xkey := s' }, by simp [Between.run, hstep, Except.map],
        g', _, hs', hset', fun o' ho' => hended o' ?_⟩
      obtain ⟨t, ht, hmem⟩ := ho'
      refine ⟨t, ht, ?_⟩
      rcases eq_or_ne o' o with rfl | hne
      · simp at hmem
      · simpa [hne] using hmem
  | softpurge t key' =>
      obtain ⟨os, -, hpurge⟩ := purge_spec sha256 hs key'
      refine ⟨_, hpurge rearm 1 t st rfl, g, ix, ?_, ?_, fun o ho => ?_⟩
      · simpa using hs
      · simpa using hset
      · exact purgeOcs_keeps_ended _ hrearm hb (hended o ho)

theorem Done.run (hrearm : EndsTtl rearm) (hst : Done sha256 now key st) {bs : List Between}
    (hbs : ∀ b ∈ bs, b.before now) :
    ∃ st', bs.foldlM (Between.run sha256 rearm) st = .ok st' ∧ Done sha256 now key st' := by
  induction bs generalizing st with
  | nil => exact ⟨st, rfl, hst⟩
  | cons b bs ih =>
      obtain ⟨st₁, hstep, hst₁⟩ := hst.step hrearm (hbs b (by simp))
      obtain ⟨st₂, hrest, hst₂⟩ := ih hst₁ fun b' hb' => hbs b' (by simp [hb'])
      exact ⟨st₂, (ok_bind hstep).trans hrest, hst₂⟩

theorem Done.softpurge (hst : Done sha256 now key st) :
    vmodSoftpurge sha256 rearm now (.start st.xkey st.objects) key =
      .ok (.start st.xkey st.objects) := by
  obtain ⟨g, ix, hs, -, hended⟩ := hst
  obtain ⟨os, hos, hpurge⟩ := purge_spec sha256 hs key
  refine (hpurge rearm 1 now (.start st.xkey st.objects) rfl).trans ?_
  exact congrArg _ (purgeOcs_of_none fun o ho => hended o ((hos o).mp ho))

/-- After any inserts and removals a soft purge rearms each objcore with one of the keys that is
not busy and whose time to live has not run out, once and with its own grace and keep, and no
other.  Whatever is removed or soft purged after it, a second one rearms nothing. -/
theorem run_softpurge_once (sha256 : CString → Digest) (hrearm : EndsTtl rearm)
    (calls : List Call) (objects : Objcore → ObjcoreData) (key : Option CString) (now : ℚ) :
    ∃ s st, run calls Xkey.initial = .ok s ∧
      vmodSoftpurge sha256 rearm now (.start s objects) key = .ok st ∧
      (st.calls.map RearmCall.objcore).Nodup ∧
      (∀ c, c ∈ st.calls ↔ ∃ o,
        (∃ t ∈ keyTokens key, 0 < insertsSince calls o (sha256 t)) ∧
        (objects o).busy = false ∧ now - (objects o).exp.tOrigin < (objects o).exp.ttl ∧
        c = ⟨o, now, 0, (objects o).exp.grace, (objects o).exp.keep⟩) ∧
      ∀ (bs : List Between) (now' : ℚ), now ≤ now' → (∀ b ∈ bs, b.before now') →
        ∃ st' st'', bs.foldlM (Between.run sha256 rearm) st = .ok st' ∧
          vmodSoftpurge sha256 rearm now' (.start st'.xkey st'.objects) key = .ok st'' ∧
          st''.calls = [] ∧ st''.i = some 0 := by
  obtain ⟨s, g, hrun, hs, hset, -⟩ := run_spec calls represents_initial settled_initial
  obtain ⟨os, hos, hpurge⟩ := purge_spec sha256 hs key
  refine ⟨s, _, hrun, hpurge rearm 1 now (.start s objects) rfl,
    nodup_soft hrearm (by simp [Purge.start]) (by simp [Purge.start]), fun c => ?_,
    fun bs now' hnow hbs => ?_⟩
  · rw [mem_purgeOcs_calls hrearm]
    simp only [Purge.start, List.not_mem_nil, false_or, hos, softCall_eq_some_iff,
      ← count_index, List.count_pos_iff]
  · have hdone : Done sha256 now' key (purgeOcs rearm 1 now os (.start s objects)) := by
      refine ⟨g, index calls fun _ => [], by simpa [Purge.start] using hs,
        by simpa [Purge.start] using hset, fun o ho => ?_⟩
      exact softCall_none_mono hnow (purgeOcs_ended hrearm ((hos o).mpr ho))
    obtain ⟨st', hsteps, hst'⟩ := hdone.run hrearm hbs
    exact ⟨st', _, hsteps, hst'.softpurge, rfl, rfl⟩

/-! One object with two keys. -/

def twoKeys : List Call :=
  [.insert 1 (sha256Table (str "a")), .insert 1 (sha256Table (str "b"))]

theorem endsTtl_setExp : EndsTtl setExp := by
  intro e now grace keep
  simp [setExp]

theorem keyTokens_twoKeys : keyTokens (some (str "a b")) = [str "a", str "b"] := by
  change tokens (str "a b") = _
  rw [tokens_of_some (show xkeyTok (str "a b") = some (str "a", str " b") by decide),
    tokens_of_some (show xkeyTok (str " b") = some (str "b", []) by decide),
    tokens_of_none (by decide)]

theorem insertsSince_twoKeys_of_ne {o : Objcore} (ho : o ≠ 1) (d : Digest) :
    insertsSince twoKeys o d = 0 := by
  refine List.count_eq_zero.mpr fun hmem => ho ?_
  have hinsert := (List.takeWhile_sublist _).subset hmem
  simp only [twoKeys, List.reverse_cons, List.reverse_nil, List.nil_append, List.cons_append,
    List.mem_cons, Call.insert.injEq, List.not_mem_nil, or_false] at hinsert
  exact hinsert.elim And.left And.left

theorem run_softpurge_once_twoKeys :
    ∃ s st, run twoKeys Xkey.initial = .ok s ∧
      vmodSoftpurge sha256Table setExp 5 (.start s fun _ => ⟨false, ⟨10, 0, 7, 8⟩⟩)
        (some (str "a b")) = .ok st ∧
      (st.calls.map RearmCall.objcore).Nodup ∧
      (∀ c, c ∈ st.calls ↔ c = ⟨1, 5, 0, 7, 8⟩) ∧
      ∀ (bs : List Between) (now' : ℚ), 5 ≤ now' → (∀ b ∈ bs, b.before now') →
        ∃ st' st'', bs.foldlM (Between.run sha256Table setExp) st = .ok st' ∧
          vmodSoftpurge sha256Table setExp now' (.start st'.xkey st'.objects)
            (some (str "a b")) = .ok st'' ∧
          st''.calls = [] ∧ st''.i = some 0 := by
  obtain ⟨s, st, hrun, hst, hnodup, hcalls, hsecond⟩ :=
    run_softpurge_once sha256Table endsTtl_setExp twoKeys (fun _ => ⟨false, ⟨10, 0, 7, 8⟩⟩)
      (some (str "a b")) 5
  refine ⟨s, st, hrun, hst, hnodup, fun c => (hcalls c).trans ?_, hsecond⟩
  constructor
  · rintro ⟨o, ⟨t, -, hpos⟩, -, -, rfl⟩
    by_cases ho : o = 1
    · rw [ho]
    · rw [insertsSince_twoKeys_of_ne ho] at hpos
      exact absurd hpos (lt_irrefl 0)
  · rintro rfl
    refine ⟨1, ⟨str "a", ?_, by decide +kernel⟩, rfl, by norm_num, rfl⟩
    rw [keyTokens_twoKeys]
    exact List.mem_cons_self

end VarnishModules.XkeySoftpurge
