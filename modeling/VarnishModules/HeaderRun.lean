import VarnishModules.HeaderCopy
import VarnishModules.Machine

/-!
The headers of the messages under any sequence of calls.
-/

namespace VarnishModules.HeaderRun

open VarnishModules.CStrings
open VarnishModules.HeaderModel
open VarnishModules.HeaderGet
open VarnishModules.HeaderRemove
open VarnishModules.HeaderCopy

inductive Call (M : Type*)
  | append (dst : Gethdr M) (fmt : Option CString)
  | get (hdr : Gethdr M) (re : Regex)
  | copy (src dst : Gethdr M)
  | remove (hdr : Gethdr M) (re : Regex)

abbrev Event (M Ws : Type*) := Machine.Event (Ctx M Ws) (Call M) (Option CString)

section

variable {M Ws : Type*} [DecidableEq M] (hdrFirst : ℕ+)
  (vrtString : Ws → CString → CString → Option (CString × Ws))
  (httpSetHeader : Http → CString → Http)

/-- A copy is given as many rounds as its list can have entries. -/
def step (ctx : Ctx M Ws) : Call M → Option (Option CString × Ctx M Ws)
  | .append dst fmt => some (none, vmodAppend vrtString httpSetHeader dst fmt ctx)
  | .get hdr re => some (vmodGet hdrFirst (ctx.http hdr.place) hdr.what re, ctx)
  | .copy src dst =>
      let hp := ctx.http src.place
      (vmodCopy hdrFirst vrtString httpSetHeader src dst (max hp.nhd hp.shd + 1) ctx).map
        (Prod.mk none)
  | .remove hdr re =>
      let hp := vmodRemove hdrFirst (ctx.http hdr.place) hdr.what re
      some (none, { ctx with http := Function.update ctx.http hdr.place hp })

def run (calls : List (Call M)) (ctx : Ctx M Ws) : Option (List (Event M Ws) × Ctx M Ws) :=
  Machine.run (step hdrFirst vrtString httpSetHeader) calls ctx

end

/-- The first line is there, and there are not more entries than slots. -/
def Formed (hdrFirst : ℕ+) (hp : Http) : Prop :=
  hdrFirst ≤ hp.nhd ∧ hp.nhd ≤ hp.shd

/-- What a call may have added to the message. -/
def Adds {M Ws : Type*} (hdrFirst : ℕ+) (ctx : Ctx M Ws) (c : Call M) (m : M) (b : CString) :
    Prop :=
  match c with
  | .append dst fmt => dst.place = m ∧ ∃ v, fmt = some v ∧ b = line dst.what v
  | .copy src dst => dst.place = m ∧
      ∃ v ∈ values hdrFirst (ctx.http src.place) src.what, b = line dst.what v
  | _ => False

/-- The first line stays, and the entries behind it are, in their order and with their flags, from
those that were there and those added behind them. -/
structure Keeps (hdrFirst : ℕ+) (added : List CString) (hp hp' : Http) : Prop where
  start : ∀ i < (hdrFirst : ℕ), hp'.hd i = hp.hd i ∧ hp'.hdf i = hp.hdf i
  shd : hp'.shd = hp.shd
  formed : Formed hdrFirst hp'
  entries : (entries hdrFirst hp').Sublist
    (entries hdrFirst hp ++ added.map fun b => (some b, 0))

variable {hdrFirst : ℕ+} {added added' : List CString} {hp hp' hp'' : Http}

theorem Keeps.refl (h : Formed hdrFirst hp) : Keeps hdrFirst [] hp hp :=
  ⟨fun _ _ => ⟨rfl, rfl⟩, rfl, h, by simp⟩

theorem Keeps.trans (h : Keeps hdrFirst added hp hp') (h' : Keeps hdrFirst added' hp' hp'') :
    Keeps hdrFirst (added ++ added') hp hp'' := by
  refine ⟨fun i hi => ?_, h'.shd.trans h.shd, h'.formed, ?_⟩
  · have hfirst := h.start i hi
    have hsecond := h'.start i hi
    exact ⟨hsecond.1.trans hfirst.1, hsecond.2.trans hfirst.2⟩
  · refine h'.entries.trans ?_
    rw [List.map_append, ← List.append_assoc]
    exact h.entries.append_right _

section

variable {M : Type*} {src dst : Gethdr M} {http http' : M → Http} {vs : List CString} {u : ℕ}

/-- The lines of the values, in the message they are added to. -/
def linesAt [DecidableEq M] (dst : Gethdr M) (vs : List CString) (m : M) : List CString :=
  if m = dst.place then vs.map (line dst.what) else []

theorem Keeps.of_appends [DecidableEq M] (h : Appends dst vs http http')
    (hvs : vs = [] ∨ (http dst.place).nhd + vs.length ≤ (http dst.place).shd) (m : M)
    (hformed : Formed hdrFirst (http m)) :
    Keeps hdrFirst (linesAt dst vs m) (http m) (http' m) := by
  by_cases hm : m = dst.place
  · subst hm
    obtain ⟨hfirst, hslots⟩ := hformed
    have hnhd := h.nhd
    rw [linesAt, if_pos rfl]
    refine ⟨fun i hi => h.earlier i (by omega), h.shd, ⟨by omega, ?_⟩, ?_⟩
    · rw [h.shd, hnhd]
      rcases hvs with rfl | hvs
      · exact hslots
      · exact hvs
    · have hcount : (http' dst.place).nhd - hdrFirst =
          ((http dst.place).nhd - hdrFirst) + vs.length := by omega
      have hold : entriesFrom (http' dst.place) hdrFirst ((http dst.place).nhd - hdrFirst) =
          entriesFrom (http dst.place) hdrFirst ((http dst.place).nhd - hdrFirst) :=
        entriesFrom_congr fun i _ hi => h.earlier i (by omega)
      rw [HeaderRemove.entries, hcount, entriesFrom_add, hold, Nat.add_sub_cancel' hfirst, h.added,
        List.map_map]
      exact List.Sublist.refl _
  · rw [linesAt, if_neg hm, h.others m hm]
    exact .refl hformed

/-- What is still to be read after an append is what was, and what was added. -/
theorem mem_unread_of_appends (h : Appends dst vs http http')
    (hvs : ∀ v ∈ vs, v.dropWhile isblank = v) (hu : u ≤ (http src.place).nhd) {w : CString}
    (hw : w ∈ unread src http' u) : w ∈ unread src http u ∨ w ∈ vs := by
  by_cases hplace : src.place = dst.place
  · have hadded := h.added
    have hnhd := h.nhd
    have hearlier := h.earlier
    rw [← hplace] at hadded hnhd hearlier
    have hcount : (http' src.place).nhd - u = ((http src.place).nhd - u) + vs.length := by omega
    have hold : entriesFrom (http' src.place) u ((http src.place).nhd - u) =
        entriesFrom (http src.place) u ((http src.place).nhd - u) :=
      entriesFrom_congr fun i _ hi => hearlier i (by omega)
    rw [unread, hcount, entriesFrom_add, hold, Nat.add_sub_cancel' hu, hadded,
      List.filterMap_append, filterMap_valueOf_lines _ _ hvs] at hw
    rcases List.mem_append.mp hw with hw | hw
    · exact Or.inl hw
    · split_ifs at hw
      · exact Or.inr hw
      · exact absurd hw List.not_mem_nil
  · rw [unread, h.others _ hplace] at hw
    exact Or.inl hw

end

section

variable {M Ws : Type*} [DecidableEq M]
  {vrtString : Ws → CString → CString → Option (CString × Ws)}
  {httpSetHeader : Http → CString → Http} {src dst : Gethdr M} {ctx ctx' : Ctx M Ws}
  {fuel u : ℕ} {P : CString → Prop}

/-- An append adds the header it is asked for, or nothing. -/
theorem vmodAppend_cases (hset : SetsHeader httpSetHeader) (hjoin : Joins vrtString)
    (dst : Gethdr M) (fmt : Option CString) (ctx : Ctx M Ws) :
    ∃ vs, (∀ v ∈ vs, fmt = some v) ∧
      (vs = [] ∨ (ctx.http dst.place).nhd + vs.length ≤ (ctx.http dst.place).shd) ∧
      Appends dst vs ctx.http (vmodAppend vrtString httpSetHeader dst fmt ctx).http := by
  rcases Nat.lt_or_ge (ctx.http dst.place).nhd (ctx.http dst.place).shd with hfree | hfull
  · cases fmt with
    | none => exact ⟨[], by simp, .inl rfl, .nil⟩
    | some v =>
        cases h : vrtString ctx.ws dst.what.what v with
        | none => exact ⟨[], by simp, .inl rfl, by rw [vmodAppend_of_eq_none h]; exact .nil⟩
        | some r =>
            rw [vmodAppend_of_eq_some hjoin h]
            exact ⟨[v], by simp, .inr hfree, .set hset hfree⟩
  · exact ⟨[], by simp, .inl rfl, by rw [vmodAppend_http_of_full hset hfull]; exact .nil⟩

/-- The loop adds nothing but values of the source, also when it reads what it has added. -/
theorem appends_of_cphdrLoop (hset : SetsHeader httpSetHeader) (hjoin : Joins vrtString)
    (h : cphdrLoop vrtString httpSetHeader src dst fuel u ctx = some ctx')
    (hP : ∀ v ∈ unread src ctx.http u, v.dropWhile isblank = v ∧ P v) :
    ∃ vs, (∀ v ∈ vs, P v) ∧
      (vs = [] ∨ (ctx.http dst.place).nhd + vs.length ≤ (ctx.http dst.place).shd) ∧
      Appends dst vs ctx.http ctx'.http := by
  induction fuel generalizing u ctx with
  | zero => simp [cphdrLoop] at h
  | succ fuel ih =>
      rw [cphdrLoop_succ] at h
      split_ifs at h with hu
      · rw [unread_of_lt hu, List.forall_mem_append] at hP
        obtain ⟨hhere, hrest⟩ := hP
        obtain ⟨vs, hfmt, hvs, happ⟩ := vmodAppend_cases hset hjoin dst
          (valueOf src.what ((ctx.http src.place).hd u, (ctx.http src.place).hdf u)) ctx
        have hread : ∀ v ∈ vs, v.dropWhile isblank = v ∧ P v := fun v hv =>
          hhere v (by rw [hfmt v hv]; simp)
        obtain ⟨vs', hvs'P, hvs', happ'⟩ := ih h fun v hv =>
          (mem_unread_of_appends happ (fun v hv => (hread v hv).1) hu hv).elim (hrest v) (hread v)
        refine ⟨vs ++ vs', List.forall_mem_append.mpr ⟨fun v hv => (hread v hv).2, hvs'P⟩, ?_,
          happ.trans happ'⟩
        have hnhd := happ.nhd
        have hshd := happ.shd
        rcases hvs' with rfl | hvs'
        · rwa [List.append_nil]
        · right
          rw [List.length_append]
          omega
      · obtain rfl := Option.some.inj h
        exact ⟨[], by simp, .inl rfl, .nil⟩

/-- One call. -/
theorem step_keeps (hset : SetsHeader httpSetHeader) (hjoin : Joins vrtString)
    (hformed : ∀ m, Formed hdrFirst (ctx.http m)) (c : Call M) :
    ∃ (a : Option CString) (ctx' : Ctx M Ws) (lines : M → List CString),
      step hdrFirst vrtString httpSetHeader ctx c = some (a, ctx') ∧
      (∀ m, ∀ b ∈ lines m, Adds hdrFirst ctx c m b) ∧
      ∀ m, Keeps hdrFirst (lines m) (ctx.http m) (ctx'.http m) := by
  cases c with
  | append dst fmt =>
      obtain ⟨vs, hfmt, hvs, happ⟩ := vmodAppend_cases hset hjoin dst fmt ctx
      refine ⟨none, _, linesAt dst vs, rfl, fun m b hb => ?_,
        fun m => .of_appends happ hvs m (hformed m)⟩
      rw [linesAt] at hb
      split_ifs at hb with hm
      · obtain ⟨v, hv, rfl⟩ := List.mem_map.mp hb
        exact ⟨hm.symm, v, hfmt v hv, rfl⟩
      · exact absurd hb List.not_mem_nil
  | get hdr re => exact ⟨_, ctx, fun _ => [], rfl, by simp, fun m => .refl (hformed m)⟩
  | copy src dst =>
      obtain ⟨ctx', hctx'⟩ := exists_cphdrLoop_eq (u := hdrFirst) src dst hset hjoin
        (le_max_left (ctx.http src.place).nhd (ctx.http src.place).shd) (le_max_right _ _)
      have hcopy : vmodCopy hdrFirst vrtString httpSetHeader src dst
          (max (ctx.http src.place).nhd (ctx.http src.place).shd + 1) ctx = some ctx' :=
        hctx' _ (by omega)
      obtain ⟨vs, hmem, hvs, happ⟩ := appends_of_cphdrLoop hset hjoin hcopy
        (P := fun v => v ∈ values hdrFirst (ctx.http src.place) src.what)
        fun v hv => ⟨dropWhile_of_mem_values hv, hv⟩
      refine ⟨none, ctx', linesAt dst vs, ?_, fun m b hb => ?_,
        fun m => .of_appends happ hvs m (hformed m)⟩
      · simp only [step, hcopy, Option.map_some]
      · rw [linesAt] at hb
        split_ifs at hb with hm
        · obtain ⟨v, hv, rfl⟩ := List.mem_map.mp hb
          exact ⟨hm.symm, v, hmem v hv, rfl⟩
        · exact absurd hb List.not_mem_nil
  | remove hdr re =>
      refine ⟨none, _, fun _ => [], rfl, by simp, fun m => ?_⟩
      by_cases hm : m = hdr.place
      · subst hm
        obtain ⟨hfirst, hslots⟩ := hformed hdr.place
        obtain ⟨hnhd, hshd, hbefore, hmoved⟩ := unsetLoop_spec (ctx.http hdr.place) hdr.what
          (some re) ((ctx.http hdr.place).nhd - hdrFirst) (le_refl (hdrFirst : ℕ))
        have hkept : entries hdrFirst (vmodRemove hdrFirst (ctx.http hdr.place) hdr.what re) =
            (entries hdrFirst (ctx.http hdr.place)).filter (kept hdr.what (some re)) := hmoved
        have hsub := List.filter_sublist (p := kept hdr.what (some re))
          (l := entries hdrFirst (ctx.http hdr.place))
        have hlength : (entries hdrFirst (ctx.http hdr.place)).length =
            (ctx.http hdr.place).nhd - hdrFirst := by
          simp [entries, entriesFrom]
        have hle := hsub.length_le
        have hnhd : (vmodRemove hdrFirst (ctx.http hdr.place) hdr.what re).nhd = hdrFirst +
            ((entries hdrFirst (ctx.http hdr.place)).filter (kept hdr.what (some re))).length :=
          hnhd
        have hshd : (vmodRemove hdrFirst (ctx.http hdr.place) hdr.what re).shd =
            (ctx.http hdr.place).shd := hshd
        dsimp only
        rw [Function.update_self]
        refine ⟨hbefore, hshd, ⟨by omega, by omega⟩, ?_⟩
        rw [List.map_nil, List.append_nil, hkept]
        exact hsub
      · dsimp only
        rw [Function.update_of_ne hm]
        exact .refl (hformed m)

end

/-- Over any calls, each message keeps its first line, and its headers are, in their order and with
their flags, from those it had and, behind them, those the calls have added; there are never more
than slots. Each call comes to an end. -/
theorem headers_kept {M Ws : Type*} [DecidableEq M] (hdrFirst : ℕ+)
    (vrtString : Ws → CString → CString → Option (CString × Ws))
    (httpSetHeader : Http → CString → Http) (hjoin : Joins vrtString)
    (hset : SetsHeader httpSetHeader) (calls : List (Call M)) (ctx : Ctx M Ws)
    (hformed : ∀ m, Formed hdrFirst (ctx.http m)) :
    ∃ (es : List (Event M Ws)) (ctx' : Ctx M Ws) (lines : M → List CString),
      run hdrFirst vrtString httpSetHeader calls ctx = some (es, ctx') ∧
        (∀ m, ∀ b ∈ lines m, ∃ e ∈ es, Adds hdrFirst e.before e.input m b) ∧
        ∀ m, Keeps hdrFirst (lines m) (ctx.http m) (ctx'.http m) := by
  induction calls generalizing ctx with
  | nil => exact ⟨[], ctx, fun _ => [], rfl, by simp, fun m => .refl (hformed m)⟩
  | cons c calls ih =>
      obtain ⟨a, ctx₁, lines₁, hstep, hadds₁, hkeeps₁⟩ := step_keeps hset hjoin hformed c
      obtain ⟨es, ctx', lines₂, hrun, hadds₂, hkeeps₂⟩ := ih ctx₁ fun m => (hkeeps₁ m).formed
      refine ⟨⟨ctx, c, a⟩ :: es, ctx', fun m => lines₁ m ++ lines₂ m,
        Machine.run_cons hstep hrun, fun m b hb => ?_, fun m => (hkeeps₁ m).trans (hkeeps₂ m)⟩
      rcases List.mem_append.mp hb with hb | hb
      · exact ⟨_, List.mem_cons_self, hadds₁ m b hb⟩
      · obtain ⟨e, he, hadds⟩ := hadds₂ m b hb
        exact ⟨e, List.mem_cons_of_mem _ he, hadds⟩

/-- A header is copied onto itself until the slots are used up, and then removed. -/
def sampleCalls : List (Call Unit) :=
  [.copy ⟨(), foo⟩ ⟨(), upperFoo⟩, .get ⟨(), foo⟩ startsWithBar, .remove ⟨(), foo⟩ startsWithBar,
    .append ⟨(), foo⟩ (some (str "bar"))]

theorem headers_kept_sample :
    ∃ (es : List (Event Unit ℕ)) (ctx' : Ctx Unit ℕ) (lines : Unit → List CString),
      run 5 bytesString addHeader sampleCalls (oneMessage 8) = some (es, ctx') ∧
        (∀ m, ∀ b ∈ lines m, ∃ e ∈ es, Adds 5 e.before e.input m b) ∧
        ∀ m, Keeps 5 (lines m) ((oneMessage 8).http m) (ctx'.http m) :=
  headers_kept 5 bytesString addHeader bytesString_joins addHeader_sets sampleCalls
    (oneMessage 8) fun _ => ⟨show 5 ≤ 6 by decide, show 6 ≤ 8 by decide⟩

/-- Two copies fill the slots; of all these, what is added last stays. -/
example : (run 5 bytesString addHeader sampleCalls (oneMessage 8)).map
    (fun r => (r.1.map Machine.Event.output, HeaderRemove.entries 5 (r.2.http ()))) =
      some ([none, some (str "bar"), none, none], [(some (str "foo: bar"), 0)]) := by
  decide +kernel

end VarnishModules.HeaderRun
