import VarnishModules.SaintmodePointers

/-!
The text of `status`, and the calls of a VCL in which no assertion fails.
-/

namespace VarnishModules.SaintmodeStatus

open VarnishModules.CStrings
open VarnishModules.SaintmodeChecked
open VarnishModules.SaintmodePointers

variable {l : List Named}

/-! The text of `status`. -/

def element (n : Named) : Json.Value :=
  .object [(str "name", .string n.name.name), (str "backend", .string n.beName.name),
    (str "count", .string (Json.decimal n.sm.nTrouble.toNat)),
    (str "threshold", .string (Json.decimal n.sm.threshold.toNat))]

/-- The text of one object. -/
def elementText (n : Named) : CString :=
  str "\x7b" ++
    (str " " ++ Json.quote (str "name") ++ str ": " ++ Json.quote n.name.name ++ [] ++ str "," ++
    (str " " ++ Json.quote (str "backend") ++ str ": " ++ Json.quote n.beName.name ++ [] ++
      str "," ++
    (str " " ++ Json.quote (str "count") ++ str ": " ++
      Json.quote (Json.decimal n.sm.nTrouble.toNat) ++ [] ++ str "," ++
    (str " " ++ Json.quote (str "threshold") ++ str ": " ++
      Json.quote (Json.decimal n.sm.threshold.toNat) ++ str " ")))) ++ str "\x7d"

/-- The texts of the objects, with commas between them. -/
def linesText : List Named → CString
  | [] => []
  | n :: l => str "\t\t" ++ elementText n ++ (if l ≠ [] then str "," else []) ++ str "\n" ++
      linesText l

theorem isPlain_name (name : Identifier) : Json.IsPlain name.name := by
  intro c hc
  have hall := List.all_eq_true.mp name.all c hc
  simp only [isLetter, Bool.or_eq_true, Bool.and_eq_true, decide_eq_true_eq, beq_iff_eq,
    UInt8.le_iff_toNat_le, ← UInt8.toNat_inj, UInt8.reduceToNat] at hall
  simp only [UInt8.le_iff_toNat_le, UInt8.lt_iff_toNat_lt, ne_eq, ← UInt8.toNat_inj,
    UInt8.reduceToNat]
  omega

theorem denotes_elementText (n : Named) : Json.Denotes (elementText n) (element n) := by
  refine .object (.cons ?_ (.cons ?_ (.cons ?_ (.one ?_))))
  · exact Json.member_string (by decide +kernel) (by decide +kernel) (isPlain_name _)
      Json.isSpace_nil
  · exact Json.member_string (by decide +kernel) (by decide +kernel) (isPlain_name _)
      Json.isSpace_nil
  · exact Json.member_string (by decide +kernel) (by decide +kernel) (Json.isPlain_decimal _)
      Json.isSpace_nil
  · exact Json.member_string (by decide +kernel) (by decide +kernel) (Json.isPlain_decimal _)
      (by decide +kernel)

/-- The text of an object as `vmod_status` prints it. -/
theorem elementText_eq (n : Named) :
    elementText n = str "\x7b " ++ str "\"name\": \"" ++ n.name.name ++ str "\", " ++
      str "\"backend\": \"" ++ n.beName.name ++ str "\", " ++
      str "\"count\": \"" ++ Json.decimal n.sm.nTrouble.toNat ++ str "\", " ++
      str "\"threshold\": \"" ++ Json.decimal n.sm.threshold.toNat ++ str "\" " ++
      str "\x7d" := by
  have hopen : str "\x7b " = str "\x7b" ++ str " " := by decide
  have hnext : str "\", " = str "\"" ++ (str "," ++ str " ") := by decide
  have hlast : str "\" " = str "\"" ++ str " " := by decide
  have hname : str "\"name\": \"" = Json.quote (str "name") ++ (str ": " ++ str "\"") := by
    decide
  have hbackend : str "\"backend\": \"" =
      Json.quote (str "backend") ++ (str ": " ++ str "\"") := by
    decide
  have hcount : str "\"count\": \"" = Json.quote (str "count") ++ (str ": " ++ str "\"") := by
    decide
  have hthreshold : str "\"threshold\": \"" =
      Json.quote (str "threshold") ++ (str ": " ++ str "\"") := by
    decide
  simp only [elementText, hopen, hnext, hlast, hname, hbackend, hcount, hthreshold, Json.quote,
    List.append_assoc, List.nil_append]

theorem statusLoop_wrap (l : List Named) : statusLoop (l.mapIdx wrapSm) = some (linesText l) := by
  have hshift : ∀ k, statusLoop (l.mapIdx fun i => wrapSm (i + k)) = some (linesText l) := by
    induction l with
    | nil => exact fun _ => rfl
    | cons n l ih =>
        intro k
        simp only [mapIdx_cons_add, statusLoop, checkObjNotnull_wrapSm, checkObjNotnull_be,
          Option.bind_eq_bind, Option.bind_some, ih (k + 1), linesText, elementText_eq]
        have htabs : str "\t\t\x7b " = str "\t\t" ++ str "\x7b " := by decide
        have hcomma : (if (l.mapIdx fun i => wrapSm (i + (k + 1))) ≠ [] then str "," else []) =
            if l ≠ [] then str "," else [] := by
          simp
        simp only [htabs, hcomma, List.append_assoc]
        rfl
  exact hshift 0

theorem elements_linesText {w w' : CString} (hl : l ≠ []) (hw : Json.IsSpace w)
    (hw' : Json.IsSpace w') : Json.Elements (w ++ linesText l ++ w') (l.map element) := by
  have htabs : Json.IsSpace (str "\t\t") := by decide +kernel
  have hnewline : Json.IsSpace (str "\n") := by decide +kernel
  induction l generalizing w with
  | nil => exact absurd rfl hl
  | cons n l ih =>
      by_cases hlast : l = []
      · subst hlast
        have hone := Json.Elements.one (Json.Denotes.space (hw.append htabs)
          (denotes_elementText n) (hnewline.append hw'))
        simpa only [linesText, ne_eq, not_true_eq_false, if_false, List.append_assoc,
          List.nil_append, List.map_cons, List.map_nil] using hone
      · have hcons := Json.Elements.cons (Json.Denotes.space (hw.append htabs)
          (denotes_elementText n) Json.isSpace_nil) (ih hlast hnewline)
        simpa only [linesText, if_pos hlast, List.append_assoc, List.nil_append,
          List.map_cons] using hcons

def statusText (l : List Named) : CString :=
  str "\x7b\n\t\"saintmode\": [\n" ++ linesText l ++ str "\t]\n\x7d\n"

theorem denotes_statusText (l : List Named) :
    Json.Denotes (statusText l)
      (.object [(str "saintmode", .array (l.map element))]) := by
  have hnewline : Json.IsSpace (str "\n") := by decide +kernel
  have htab : Json.IsSpace (str "\t") := by decide +kernel
  have harray : Json.Denotes (str "[" ++ (str "\n" ++ linesText l ++ str "\t") ++ str "]")
      (.array (l.map element)) := by
    by_cases hl : l = []
    · subst hl
      exact .emptyArray (hnewline.append htab)
    · exact .array (elements_linesText hl hnewline htab)
  have hmember := Json.Member.mk (show Json.IsSpace (str "\n\t") by decide +kernel)
    (show Json.IsPlain (str "saintmode") by decide +kernel) Json.isSpace_nil
    (.space (show Json.IsSpace (str " ") by decide +kernel) harray hnewline)
  have hobject := Json.Denotes.space Json.isSpace_nil (.object (.one hmember)) hnewline
  have hopen : str "\x7b\n\t\"saintmode\": [\n" = str "\x7b" ++ (str "\n\t" ++
      (Json.quote (str "saintmode") ++ (str ":" ++ (str " " ++ (str "[" ++ str "\n"))))) := by
    decide
  have hclose : str "\t]\n\x7d\n" =
      str "\t" ++ (str "]" ++ (str "\n" ++ (str "\x7d" ++ str "\n"))) := by
    decide
  simpa only [statusText, hopen, hclose, List.append_assoc, List.nil_append] using hobject

/-! What the server promises of the contexts it calls in, and what the calls do. -/

def IsStatus : Call → Prop
  | .status _ => True
  | _ => False

/-- The call is on one of `n` objects, in a context where it is allowed. -/
def Allowed (n : Nat) : Call → Prop
  | .blacklist ctx _ => ctx.magic = .vrtCtx ∧ (ctx.val.method = .backendResponse →
      ∃ bo dir, ctx.val.bo = some ⟨.busyobj, bo⟩ ∧ bo.directorResp = some ⟨.director, dir⟩)
  | .status ctx => ctx.magic = .vrtCtx
  | .blacklistCount ctx i => ctx.magic = .vrtCtx ∧ i < n
  | .isHealthy ctx i _ _ => ctx.magic = .vrtCtx ∧ i < n ∧ ∀ o ∈ ctx.val.bo, o.magic = .busyobj
  | .resolve i bo _ _ => i < n ∧ ∀ o ∈ bo, o.magic = .busyobj

theorem step_status (hl : l ≠ []) (ctx : Ctx) :
    step (wrap l) (.status ⟨.vrtCtx, ctx⟩) =
      some (.status (if ctx.wsRoom ((statusText l).length + 1) then some (statusText l) else none),
        wrap l) := by
  have hpriv : (wrap l).priv = some ⟨.saintmodeObjs, l.mapIdx wrapSm⟩ := if_neg hl
  simp [step, vmodStatus, hpriv, statusLoop_wrap, statusText]

/-- No assertion fails, but for `status` before the first object. -/
theorem step_wrap {c : Call} (hc : Allowed l.length c) (hstatus : IsStatus c → l ≠ []) :
    ∃ o l', step (wrap l) c = some (o, wrap l') ∧ Does l c o l' := by
  cases c with
  | blacklist ctx expires =>
      obtain ⟨magic, ctx⟩ := ctx
      obtain ⟨rfl, hbo⟩ := hc
      exact step_blacklist hbo
  | status ctx =>
      obtain ⟨magic, ctx⟩ := ctx
      obtain rfl : magic = .vrtCtx := hc
      exact ⟨_, l, step_status (hstatus trivial) ctx, rfl,
        fun _ h => absurd h.symm (Option.some_ne_none _), fun _ => ⟨rfl, _, rfl⟩⟩
  | blacklistCount ctx i =>
      obtain ⟨magic, ctx⟩ := ctx
      obtain ⟨rfl, hi⟩ := hc
      exact step_blacklistCount (List.getElem?_eq_getElem hi)
  | isHealthy ctx i real up =>
      obtain ⟨magic, ctx⟩ := ctx
      obtain ⟨rfl, hi, hbo⟩ := hc
      exact step_isHealthy (List.getElem?_eq_getElem hi) hbo
  | resolve i bo real up =>
      obtain ⟨hi, hbo⟩ := hc
      exact step_resolve (List.getElem?_eq_getElem hi) hbo

/-! Runs. -/

def Output.erase : Output → Option SaintmodeModel.Output
  | .call o => some o
  | .status _ => none

/-- The step is taken on objects that were created so, and a `status` prints their text. -/
def Prints (cs : List (Identifier × Director × UInt32)) (e : Machine.Event Vcl Call Output) :
    Prop :=
  ∃ l, e.before = wrap l ∧ l.map created = cs ∧ ∀ ctx, e.input = .status ctx →
    e.output = .status
      (if ctx.val.wsRoom ((statusText l).length + 1) then some (statusText l) else none)

/-- A run of the calls is one of `SaintmodeModel`, with steps of `status` in between. -/
theorem exists_run_wrap {calls : List Call} (hcalls : ∀ c ∈ calls, Allowed l.length c)
    (hstatus : ∀ c ∈ calls, IsStatus c → l ≠ []) :
    ∃ es fs l', Machine.run step calls (wrap l) = some (es, wrap l') ∧
      Machine.run SaintmodeModel.step (calls.filterMap eraseCall) (erase l) = some (fs, erase l') ∧
      es.filterMap (fun e => Output.erase e.output) = fs.map Machine.Event.output ∧
      ∀ e ∈ es, Prints (l.map created) e := by
  induction calls generalizing l with
  | nil => exact ⟨[], [], l, rfl, rfl, rfl, List.forall_mem_nil _⟩
  | cons c calls ih =>
      rw [List.forall_mem_cons] at hcalls hstatus
      obtain ⟨o, l₁, hstep, hdoes⟩ := step_wrap hcalls.1 hstatus.1
      have hlength : l₁.length = l.length := by
        simpa using congrArg List.length hdoes.created
      have hallowed : ∀ c ∈ calls, Allowed l₁.length c := by
        rw [hlength]
        exact hcalls.2
      have hne : l ≠ [] → l₁ ≠ [] := fun hl => by
        rwa [ne_eq, ← List.length_eq_zero_iff, hlength, List.length_eq_zero_iff]
      obtain ⟨es, fs, l', hrun, herase, houtputs, hes⟩ := ih hallowed
        fun c' hc' hs => hne (hstatus.2 c' hc' hs)
      rw [hdoes.created] at hes
      have hprints : Prints (l.map created) ⟨wrap l, c, o⟩ := by
        refine ⟨l, rfl, rfl, ?_⟩
        rintro ⟨magic, ctx⟩ rfl
        obtain rfl : magic = .vrtCtx := hcalls.1
        rw [step_status (hstatus.1 trivial), Option.some.injEq, Prod.mk.injEq] at hstep
        exact hstep.1.symm
      have hes' := List.forall_mem_cons.mpr ⟨hprints, hes⟩
      cases hc : eraseCall c with
      | none =>
          obtain ⟨rfl, p, rfl⟩ := hdoes.status hc
          refine ⟨_, fs, l', Machine.run_cons hstep hrun, ?_, houtputs, hes'⟩
          rwa [List.filterMap_cons_none hc]
      | some c' =>
          obtain ⟨o', rfl, hmodel⟩ := hdoes.erase c' hc
          refine ⟨_, ⟨erase l, c', o'⟩ :: fs, l', Machine.run_cons hstep hrun, ?_, ?_, hes'⟩
          · rw [List.filterMap_cons_some hc]
            exact Machine.run_cons hmodel herase
          · exact congrArg (o' :: ·) houtputs

/-- A `new` line makes an object with an empty trouble list. -/
def fresh (c : Identifier × Director × Int64) : Named :=
  ⟨c.1, c.2.1.vclName, SaintmodeModel.vmodSaintmodeInit c.2.1.be c.2.2⟩

theorem vmodSaintmodeInit_wrap (l : List Named) (c : Identifier × Director × Int64) :
    vmodSaintmodeInit (wrap l) c.1 (some ⟨.director, c.2.1⟩) c.2.2 =
      some (wrap (l ++ [fresh c])) := by
  have hpriv : (wrap l).priv.getD ⟨.saintmodeObjs, []⟩ =
      ⟨.saintmodeObjs, l.mapIdx wrapSm⟩ := by
    unfold wrap
    split_ifs with hl
    · rw [hl]
      rfl
    · rfl
  have hnext : wrap (l ++ [fresh c]) =
      ⟨some ⟨.saintmodeObjs, l.mapIdx wrapSm ++ [wrapSm l.length (fresh c)]⟩⟩ := by
    rw [wrap, if_neg (by simp), List.mapIdx_concat]
  simp only [hnext, vmodSaintmodeInit, hpriv, checkObjNotnull_mk, Option.bind_eq_bind,
    Option.bind_some, List.length_mapIdx]
  rfl

theorem load_eq (config : Config) : load config = some (wrap (config.map fresh)) := by
  have hfold : ∀ l, config.foldlM
      (fun vcl c => vmodSaintmodeInit vcl c.1 (some ⟨.director, c.2.1⟩) c.2.2) (wrap l) =
        some (wrap (l ++ config.map fresh)) := by
    induction config with
    | nil => exact fun l => by simp
    | cons c config ih =>
        intro l
        rw [List.foldlM_cons, vmodSaintmodeInit_wrap, Option.bind_eq_bind, Option.bind_some, ih,
          List.map_cons, List.append_assoc, List.singleton_append]
  exact hfold []

/-- The objects in the order in which they were created. -/
def objects (vcl : Vcl) : List Sm :=
  (vcl.priv.map fun p => p.val.map Obj.val).getD []

/-- The name, the backend and the threshold of an object. -/
def createdAs (sm : Sm) : Identifier × Option Director × UInt32 :=
  (sm.sdir.val.vclName, sm.be.map Obj.val, sm.threshold)

/-- What `status` is to say of an object. -/
def shown (sm : Sm) : Json.Value :=
  .object [(str "name", .string sm.sdir.val.vclName.name),
    (str "backend", .string (sm.be.elim [] fun be => be.val.vclName.name)),
    (str "count", .string (Json.decimal sm.nTrouble.toNat)),
    (str "threshold", .string (Json.decimal sm.threshold.toNat))]

/-- A `status` answers with a JSON text that has an element for each object of the VCL, in
order, with the values of this moment. -/
def Reports (config : Config) (e : Machine.Event Vcl Call Output) : Prop :=
  ∀ ctx, e.input = .status ctx → ∃ text,
    e.output = .status (if ctx.val.wsRoom (text.length + 1) then some text else none) ∧
      Json.Denotes text (.object [(str "saintmode", .array ((objects e.before).map shown))]) ∧
      (objects e.before).map createdAs =
        config.map fun c => (c.1, some c.2.1, c.2.2.toUInt64.toUInt32)

/-- All calls return, and what `status` answers is right. -/
def Survives (config : Config) (calls : List Call) : Prop :=
  ∃ es vcl, run config calls = some (es, vcl) ∧ ∀ e ∈ es, Reports config e

theorem map_objects_wrap {α : Type*} {f : Sm → α} {g : Named → α}
    (hfg : ∀ i n, f (wrapSm i n).val = g n) (l : List Named) :
    (objects (wrap l)).map f = l.map g := by
  have hobjects : objects (wrap l) = (l.mapIdx wrapSm).map Obj.val := by
    unfold objects wrap
    split_ifs with hl
    · rw [hl]
      rfl
    · rfl
  apply List.ext_getElem?
  intro i
  rw [hobjects, List.getElem?_map, List.getElem?_map, List.getElem?_mapIdx, List.getElem?_map]
  cases l[i]? with
  | none => rfl
  | some n => exact congrArg some (hfg i n)

theorem reports_of_prints {config : Config} {e : Machine.Event Vcl Call Output}
    (h : Prints ((config.map fresh).map created) e) : Reports config e := by
  obtain ⟨l, hbefore, hcreated, hstatus⟩ := h
  intro ctx hinput
  refine ⟨statusText l, hstatus ctx hinput, ?_, ?_⟩
  · have hshown : (objects (wrap l)).map shown = l.map element :=
      map_objects_wrap (fun _ _ => rfl) l
    rw [hbefore, hshown]
    exact denotes_statusText l
  · have hobjects : (objects (wrap l)).map createdAs =
        (l.map created).map fun c => (c.1, some c.2.1, c.2.2) := by
      rw [List.map_map]
      exact map_objects_wrap (fun _ _ => rfl) l
    rw [hbefore, hobjects, hcreated, List.map_map, List.map_map]
    rfl

/-- Without an object `status` has no step, and no other step makes one. -/
theorem step_none {c : Call} {o : Output} {vcl : Vcl} (h : step ⟨none⟩ c = some (o, vcl)) :
    vcl = ⟨none⟩ ∧ ¬ IsStatus c := by
  cases c with
  | blacklist ctx expires =>
      simp only [step, vmodBlacklist, Option.bind_eq_bind, Option.bind_some] at h
      exact ⟨(congrArg Prod.snd (Option.some.inj h)).symm, not_false⟩
  | status ctx => simp [step, vmodStatus, checkObjNotnull] at h
  | blacklistCount ctx i =>
      simp [step, vmodSaintmodeBlacklistCount, checkObjNotnull, Vcl.object] at h
  | isHealthy ctx i real up =>
      simp [step, vmodSaintmodeIsHealthy, checkObjNotnull, Vcl.object] at h
  | resolve i bo real up => simp [step, Vcl.object] at h

theorem not_isStatus_of_run {calls : List Call} {es : List (Machine.Event Vcl Call Output)}
    {vcl : Vcl} (hrun : Machine.run step calls ⟨none⟩ = some (es, vcl)) :
    ∀ c ∈ calls, ¬ IsStatus c := by
  induction calls generalizing es with
  | nil => exact List.forall_mem_nil _
  | cons c calls ih =>
      obtain ⟨o, vcl₁, fs, hstep, hrest, -⟩ := Machine.run_cons_inv hrun
      obtain ⟨rfl, hc⟩ := step_none hstep
      exact List.forall_mem_cons.mpr ⟨hc, ih hrest⟩

/-- The calls of a VCL are a run of `SaintmodeModel`, with right answers of `status` in between. -/
theorem exists_run {config : Config} {calls : List Call}
    (hcalls : ∀ c ∈ calls, Allowed config.length c)
    (hstatus : ∀ c ∈ calls, IsStatus c → config ≠ []) :
    ∃ es vcl fs smObjs, run config calls = some (es, vcl) ∧
      SaintmodeModel.run (config.map fun c => (c.2.1.be, c.2.2)) (calls.filterMap eraseCall) =
        some (fs, smObjs) ∧
      es.filterMap (fun e => Output.erase e.output) = fs.map Machine.Event.output ∧
      ∀ e ∈ es, Reports config e := by
  have hallowed : ∀ c ∈ calls, Allowed (config.map fresh).length c := by
    rwa [List.length_map]
  obtain ⟨es, fs, l', hrun, herase, houtputs, hes⟩ := exists_run_wrap hallowed
    fun c hc hs => mt List.map_eq_nil_iff.mp (hstatus c hc hs)
  have hinit : erase (config.map fresh) =
      SaintmodeModel.init (config.map fun c => (c.2.1.be, c.2.2)) := by
    rw [erase, SaintmodeModel.init, List.map_map, List.map_map]
    rfl
  refine ⟨es, wrap l', fs, erase l', ?_, ?_, houtputs, fun e he => reports_of_prints (hes e he)⟩
  · rw [run, load_eq, Option.bind_some, hrun]
  · rw [SaintmodeModel.run, ← hinit, herase]

end VarnishModules.SaintmodeStatus
