import VarnishModules.VarTaskHeap

/-!
The variables of a task in memory are those of `VarModel`, and no member of a union is read that
was not written last.
-/

namespace VarnishModules.VarTaskLedger

open VarnishModules.CStrings
open VarnishModules.TailQueue
open VarnishModules.QueueFind
open VarnishModules.VarModel (Suckaddr Value Var Task)
open VarnishModules.VarHeap (VarType)
open VarnishModules.VarTaskHeap

/-- What a variable in memory stands for, once it is assigned. -/
def IsVar (M : Memory) (v : ℕ) (x : Var) : Prop :=
  ∃ value, x.value = some value ∧ M.var v = ⟨some x.name, typeOf value, some value⟩

/-- A head of zeros does for an empty list. -/
def IsList (vars : Queues Unit Unit ℕ) (ptrs : List ℕ) : Prop :=
  IsQueue vars () () ptrs ∨ ptrs = [] ∧ vars.first () = none

structure Holds (M : Memory) (t : Task) (ptrs : List ℕ) : Prop where
  list : IsList M.vars ptrs
  vars : List.Forall₂ (IsVar M) ptrs (VarModel.getVh t)
  live : ∀ v, M.vars.live v = true ↔ v < M.fresh
  priv : M.priv = t.priv.isSome
  ws : M.ws = t.ws

variable {M M' : Memory} {t : Task} {ptrs ys zs : List ℕ} {l ys' zs' : List Var} {v : ℕ} {x : Var}
  {name : CString} {q : Queues Unit Unit ℕ}

theorem vars_congr (h : List.Forall₂ (IsVar M) ptrs l) (hvar : ∀ v ∈ ptrs, M'.var v = M.var v) :
    List.Forall₂ (IsVar M') ptrs l := by
  induction h with
  | nil => exact .nil
  | @cons v x ptrs l hx _ ih =>
      obtain ⟨hv, hptrs⟩ := List.forall_mem_cons.mp hvar
      obtain ⟨value, hvalue, hcell⟩ := hx
      exact .cons ⟨value, hvalue, hv.trans hcell⟩ (ih hptrs)

/-! The list. -/

theorem IsList.first_eq (h : IsList q ptrs) : q.first () = ptrs.head? := by
  rcases h with hq | ⟨rfl, hfirst⟩
  · exact hq.first_eq
  · exact hfirst

theorem IsList.isQueue (h : IsList q ptrs) (hv : v ∈ ptrs) : IsQueue q () () ptrs := by
  rcases h with hq | ⟨rfl, -⟩
  · exact hq
  · exact absurd hv List.not_mem_nil

/-- The first insertion makes a queue of the head of zeros. -/
theorem IsList.insertHead (h : IsList q ptrs) (alive : Unit → Bool) (ha : alive () = true)
    (hlive : q.live v = true) (hv : v ∉ ptrs) :
    ∃ q', q.insertHead alive () () v = .ok q' ∧ IsQueue q' () () (v :: ptrs) ∧
      q'.live = q.live := by
  rcases h with hq | ⟨rfl, hfirst⟩
  · obtain ⟨q', hinsert, hq', hm'⟩ := insertHead_spec hq ha hlive hv
    exact ⟨q', hinsert, hq', hm'.live⟩
  · refine ⟨(((q.write (.next () v) none).setLast () (some (.next () v))).write (.first ())
      (some v)).setPrev () v (some (.first ())), ?_, ?_, by simp⟩
    · simp [Queues.insertHead, Queues.touchHead, ha, touchElem_ok hlive, hfirst, bind, Except.bind,
        pure, Except.pure]
    · refine ⟨?_, ?_, ?_, List.nodup_singleton v⟩
      · simp [Segment, hlive]
      · simp [endSlot]
      · simp [endSlot]

theorem IsList.alloc (h : IsList q ptrs) (hv : q.live v = false) : IsList (q.alloc v) ptrs :=
  h.imp (fun hq => hq.alloc hv) id

theorem Holds.lt_fresh (h : Holds M t ptrs) (hv : v ∈ ptrs) : v < M.fresh :=
  (h.live v).mp ((h.list.isQueue hv).live hv)

theorem Holds.nodup (h : Holds M t ptrs) : ptrs.Nodup := by
  rcases h.list with hq | ⟨rfl, -⟩
  · exact hq.nodup
  · exact List.nodup_nil

theorem Holds.length_le (h : Holds M t ptrs) : ptrs.length ≤ M.fuel := by
  have hlength := length_le_of_lt h.nodup fun _ hv => h.lt_fresh hv
  exact hlength.trans (Nat.le_succ _)

/-- The task with its head. -/
def withHead (t : Task) : Task :=
  { t with priv := some (VarModel.getVh t) }

theorem Holds.getVh (h : Holds M t ptrs) :
    Holds M.getVh (withHead t) ptrs ∧ M.getVh.priv = true := by
  rw [Memory.getVh]
  cases hpriv : M.priv with
  | true =>
      rw [if_pos rfl]
      exact ⟨⟨h.list, h.vars, h.live, hpriv, h.ws⟩, hpriv⟩
  | false =>
      have hnone : t.priv = none := by
        rw [← Option.isNone_iff_eq_none, ← Option.not_isSome, ← h.priv, hpriv]
        rfl
      have hnil : VarModel.getVh t = [] := by rw [VarModel.getVh, hnone]; rfl
      have hvars := h.vars
      rw [hnil, List.forall₂_nil_right_iff] at hvars
      subst hvars
      rw [if_neg Bool.false_ne_true]
      refine ⟨⟨Or.inr ⟨rfl, rfl⟩, ?_, h.live, rfl, h.ws⟩, rfl⟩
      rw [show VarModel.getVh (withHead t) = VarModel.getVh t from rfl, hnil]
      exact .nil

theorem Holds.vhGetVar (h : Holds M t ptrs) (name : CString) :
    (M.vhGetVar name = .ok none ∧ ∀ x ∈ VarModel.getVh t, x.name ≠ name) ∨
      ∃ ys v zs ys' x zs',
        Splits (IsVar M) (fun x => x.name = name) ptrs (VarModel.getVh t) ys v zs ys' x zs' ∧
          M.vhGetVar name = .ok (some v) := by
  rw [Memory.vhGetVar, h.list.first_eq]
  rcases h.list with hq | ⟨rfl, -⟩
  · refine findFirst_spec h.vars (fun v x hx => ?_)
      (show IsQueue M.vars () () ([] ++ ptrs) from hq) h.length_le
    obtain ⟨value, -, hcell⟩ := hx
    rw [hcell]
  · have hnil : VarModel.getVh t = [] := List.forall₂_nil_left_iff.mp h.vars
    rw [hnil]
    exact Or.inl ⟨by cases M.fuel <;> rfl, by simp⟩

theorem vhGetVar_of_forall (hne : ∀ x ∈ l, x.name ≠ name) : VarModel.vhGetVar l name = none :=
  List.find?_eq_none.mpr fun x hx => by simpa using hne x hx

theorem assign_of_first (hne : ∀ x' ∈ ys', x'.name ≠ name) (hname : x.name = name)
    (value : Value) : VarModel.assign name value (ys' ++ x :: zs') =
      ys' ++ { x with value := some value } :: zs' := by
  induction ys' with
  | nil => rw [List.nil_append, VarModel.assign, if_pos hname, List.nil_append]
  | cons x' ys' ih =>
      obtain ⟨hx', hys⟩ := List.forall_mem_cons.mp hne
      rw [List.cons_append, VarModel.assign, if_neg hx', ih hys, List.cons_append]

/-! The setters. -/

/-- A setter has a variable in its hands, whose value need not be there yet. -/
structure Ready (M : Memory) (t : Task) (name : CString) (ptrs : List ℕ) (v : ℕ) : Prop where
  queue : IsQueue M.vars () () ptrs
  split : ∃ ys zs ys' x zs', ptrs = ys ++ v :: zs ∧ t.priv = some (ys' ++ x :: zs') ∧
    List.Forall₂ (IsVar M) ys ys' ∧ List.Forall₂ (IsVar M) zs zs' ∧
    (∀ x' ∈ ys', x'.name ≠ name) ∧ x.name = name
  name : (M.var v).name = some name
  live : ∀ v, M.vars.live v = true ↔ v < M.fresh
  priv : M.priv = true
  ws : M.ws = t.ws

theorem Ready.alloc (h : Ready M t name ptrs v) :
    M.alloc.1 = t.alloc.1 ∧ Ready M.alloc.2 t.alloc.2 name ptrs v :=
  ⟨congrFun h.ws 0, h.queue, h.split, h.name, h.live, h.priv,
    congrArg (fun ws n => ws (n + 1)) h.ws⟩

theorem Ready.assign (h : Ready M t name ptrs v) (value : Value) :
    Holds (M.assign v value) (t.assign name value) ptrs := by
  obtain ⟨ys, zs, ys', x, zs', rfl, hpriv, hys, hzs, hne, hname⟩ := h.split
  have hv : v ∉ ys ++ zs := (List.nodup_middle.mp h.queue.nodup).notMem
  have hother : ∀ w ∈ ys ++ zs, (M.assign v value).var w = M.var w := fun w hw =>
    Function.update_of_ne (ne_of_mem_of_not_mem hw hv) _ _
  have hself : (M.assign v value).var v = ⟨(M.var v).name, typeOf value, some value⟩ :=
    Function.update_self _ _ _
  have hlist : VarModel.getVh (t.assign name value) =
      ys' ++ { x with value := some value } :: zs' := by
    rw [VarModel.getVh, VarModel.Task.assign, hpriv, Option.map_some, Option.getD_some,
      assign_of_first hne hname]
  refine ⟨Or.inl h.queue, ?_, h.live, ?_, h.ws⟩
  · rw [hlist]
    refine List.rel_append (vars_congr hys fun w hw => ?_)
      (.cons ⟨value, rfl, ?_⟩ (vars_congr hzs fun w hw => ?_))
    · exact hother w (List.mem_append_left _ hw)
    · rw [hself, h.name, hname]
    · exact hother w (List.mem_append_right _ hw)
  · rw [VarModel.Task.assign, hpriv]
    exact h.priv

/-- A name without a variable gets one, unless the workspace is full. -/
theorem Holds.newVar (h : Holds M (withHead t) ptrs) (hpriv : M.priv = true)
    (hnone : VarModel.vhGetVar (VarModel.getVh t) name = none) :
    (∃ t' v M' ptrs', VarModel.vhGetVarAlloc t name = some t' ∧ M.newVar name = .ok (v, M') ∧
        Ready M' t' name ptrs' v) ∨
      VarModel.vhGetVarAlloc t name = none ∧ M.newVar name = .error .assertion := by
  have hws : M.ws = t.ws := h.ws
  cases hp : t.ws 0 && t.ws 1 with
  | false =>
      refine Or.inr ⟨?_, ?_⟩
      · simp [VarModel.vhGetVarAlloc, hnone, VarModel.Task.alloc, hp]
      · rcases Bool.and_eq_false_iff.mp hp with hp | hp
        · simp [Memory.newVar, Memory.alloc, hws, hp]
        · simp [Memory.newVar, Memory.alloc, hws, hp]
  | true =>
      obtain ⟨hp₀, hp₁⟩ := Bool.and_eq_true_iff.mp hp
      have hnew : M.fresh ∉ ptrs := fun hmem => lt_irrefl _ (h.lt_fresh hmem)
      have hdead : M.vars.live M.fresh = false :=
        Bool.eq_false_iff.mpr fun hlive => lt_irrefl _ ((h.live _).mp hlive)
      have hborn : (M.vars.alloc M.fresh).live M.fresh = true := Function.update_self _ _ _
      obtain ⟨vars', hinsert, hq', hlive'⟩ :=
        (h.list.alloc hdead).insertHead M.alive hpriv hborn hnew
      let N : Memory := { M.setVar M.fresh { M.var M.fresh with name := some name } with
        vars := vars', fresh := M.fresh + 1, ws := fun n => M.ws (n + 1 + 1) }
      refine Or.inl ⟨{ t.alloc.2.alloc.2 with priv := some (⟨name, none⟩ :: VarModel.getVh t) },
        M.fresh, N, M.fresh :: ptrs, ?_, ?_, hq',
        ⟨[], ptrs, [], ⟨name, none⟩, VarModel.getVh t, rfl, rfl, .nil, ?_, by simp, rfl⟩, ?_,
        fun w => ?_, hpriv, ?_⟩
      · simp [VarModel.vhGetVarAlloc, hnone, VarModel.Task.alloc, hp]
      · rw [← hws] at hp₀ hp₁
        simp only [Memory.newVar, Memory.alloc, hp₀, Nat.zero_add, hp₁, Bool.not_true,
          Bool.false_eq_true, if_false]
        exact (ok_bind hinsert).trans rfl
      · exact vars_congr h.vars fun w hw =>
          Function.update_of_ne (ne_of_mem_of_not_mem hw hnew) _ _
      · exact congrArg Cell.name (Function.update_self M.fresh _ M.var)
      · rw [show N.vars.live = (M.vars.alloc M.fresh).live from hlive']
        by_cases hw : w = M.fresh
        · simp [Queues.alloc, hw, N]
        · have hlt : w < M.fresh + 1 ↔ w < M.fresh := by omega
          simpa [Queues.alloc, hw, N, hlt] using h.live w
      · exact congrArg (fun ws n => ws (n + 1 + 1)) hws

theorem Holds.vhGetVarAlloc (h : Holds M t ptrs) (name : CString) :
    (∃ t' v M' ptrs', VarModel.vhGetVarAlloc t name = some t' ∧
        M.getVh.vhGetVarAlloc name = .ok (v, M') ∧ Ready M' t' name ptrs' v) ∨
      VarModel.vhGetVarAlloc t name = none ∧
        M.getVh.vhGetVarAlloc name = .error .assertion := by
  obtain ⟨h', hpriv⟩ := h.getVh
  rcases h'.vhGetVar name with
    ⟨hfind, hnone⟩ | ⟨ys, v, zs, ys', x, zs', hs, hfind⟩
  · rw [show M.getVh.vhGetVarAlloc name = M.getVh.newVar name from ok_bind hfind]
    exact h'.newVar hpriv (vhGetVar_of_forall hnone)
  · have hsome : VarModel.vhGetVar (VarModel.getVh t) name = some x := hs.find?_eq
    obtain ⟨hptrs, hlist, hys, ⟨value, -, hcell⟩, hzs, hne, hname⟩ := hs
    refine Or.inl ⟨withHead t, v, M.getVh, ptrs, ?_, ok_bind hfind, h'.list.isQueue (v := v) ?_,
      ⟨ys, zs, ys', x, zs', hptrs, congrArg some hlist, hys, hzs, hne, hname⟩, ?_, h'.live, hpriv,
      h'.ws⟩
    · rw [VarModel.vhGetVarAlloc, hsome]
      rfl
    · rw [hptrs]
      simp
    · rw [hcell, hname]

/-- The same in memory as on the list, or an assertion that fails in both. -/
def Follows (r : Except Fault (Answer × Memory)) (o : Option (Answer × Task)) : Prop :=
  (∃ a t' M' ptrs', o = some (a, t') ∧ r = .ok (a, M') ∧ Holds M' t' ptrs') ∨
    o = none ∧ r = .error .assertion

theorem Holds.vmodSetX (h : Holds M t ptrs) (name : Option CString) (value : Value) :
    Follows (Memory.setter (M.vmodSetX name value))
      ((VarModel.vmodSetX t name value).map (Prod.mk .nothing)) := by
  cases name with
  | none => exact Or.inl ⟨.nothing, t, M, ptrs, rfl, rfl, h⟩
  | some name =>
      rcases h.vhGetVarAlloc name with ⟨t', v, M', ptrs', hmodel, hmem, hready⟩ | ⟨hmodel, hmem⟩
      · refine Or.inl ⟨.nothing, _, _, ptrs', ?_, ?_, hready.assign value⟩
        · rw [VarModel.vmodSetX, hmodel]
          rfl
        · rw [Memory.vmodSetX, hmem]
          rfl
      · refine Or.inr ⟨?_, ?_⟩
        · rw [VarModel.vmodSetX, hmodel]
          rfl
        · rw [Memory.vmodSetX, hmem]
          rfl

theorem Holds.vmodSetString (h : Holds M t ptrs) (name value : Option CString) :
    Follows (Memory.setter (M.vmodSetString name value))
      ((VarModel.vmodSetString t name value).map (Prod.mk .nothing)) := by
  cases name with
  | none => exact Or.inl ⟨.nothing, t, M, ptrs, rfl, rfl, h⟩
  | some name =>
      rcases h.vhGetVarAlloc name with ⟨t', v, M', ptrs', hmodel, hmem, hready⟩ | ⟨hmodel, hmem⟩
      · obtain ⟨hp, hready'⟩ := hready.alloc
        refine Or.inl ⟨.nothing, _, _, ptrs', ?_, ?_, hready'.assign
          (.string (if t'.alloc.1 then some (value.getD []) else none))⟩
        · rw [VarModel.vmodSetString, hmodel]
          rfl
        · rw [Memory.vmodSetString, hmem, ← hp]
          rfl
      · refine Or.inr ⟨?_, ?_⟩
        · rw [VarModel.vmodSetString, hmodel]
          rfl
        · rw [Memory.vmodSetString, hmem]
          rfl

theorem Holds.vmodSetIp (h : Holds M t ptrs) (name : Option CString) (ip : Option Suckaddr) :
    Follows (Memory.setter (M.vmodSetIp name ip))
      ((VarModel.vmodSetIp t name ip).map (Prod.mk .nothing)) := by
  cases name with
  | none => exact Or.inl ⟨.nothing, t, M, ptrs, rfl, rfl, h⟩
  | some name =>
      rcases h.vhGetVarAlloc name with ⟨t', v, M', ptrs', hmodel, hmem, hready⟩ | ⟨hmodel, hmem⟩
      · rw [VarModel.vmodSetIp, hmodel, Memory.vmodSetIp, hmem]
        cases ip with
        | none => exact Or.inr ⟨rfl, rfl⟩
        | some ip =>
            obtain ⟨hp, hready'⟩ := hready.alloc
            refine Or.inl ⟨.nothing, _, _, ptrs', rfl, ?_, hready'.assign
              (.ip (if t'.alloc.1 then some ip else none))⟩
            rw [← hp]
            rfl
      · refine Or.inr ⟨?_, ?_⟩
        · rw [VarModel.vmodSetIp, hmodel]
          rfl
        · rw [Memory.vmodSetIp, hmem]
          rfl

/-! The getters. -/

/-- A getter reads the member that goes with the type it has checked. -/
theorem Holds.vmodGetX {α : Type} (h : Holds M t ptrs) (name : Option CString) {type : VarType}
    {member : Value → Option α} (hmember : ∀ value, (member value).isSome ↔ typeOf value = type)
    (zero : α) (answer : α → Answer) :
    Follows (Memory.getter answer (M.vmodGetX name type member zero))
      (some (Prod.map answer id (VarModel.vmodGetX t name member zero))) := by
  cases name with
  | none => exact Or.inl ⟨_, t, M, ptrs, rfl, rfl, h⟩
  | some name =>
      obtain ⟨h', -⟩ := h.getVh
      refine Or.inl ⟨_, withHead t, M.getVh, ptrs, rfl, ?_, h'⟩
      rcases h'.vhGetVar name with
        ⟨hfind, hnone⟩ | ⟨ys, v, zs, ys', x, zs', hs, hfind⟩
      · have hnone : ∀ x ∈ VarModel.getVh t, x.name ≠ name := hnone
        rw [vhGetVar_of_forall hnone, Memory.vmodGetX, ok_bind hfind]
        rfl
      · have hsome : VarModel.vhGetVar (VarModel.getVh t) name = some x := hs.find?_eq
        obtain ⟨value, hvalue, hcell⟩ := hs.found
        rw [hsome, Option.bind_some, hvalue, Option.bind_some, Memory.vmodGetX, ok_bind hfind]
        dsimp only
        rw [hcell]
        by_cases htype : typeOf value = type
        · obtain ⟨a, ha⟩ := Option.isSome_iff_exists.mp ((hmember value).mpr htype)
          simp [htype, ha, Memory.getter, bind, Except.bind, pure, Except.pure]
        · have hnone : member value = none := by
            rw [← Option.not_isSome_iff_eq_none]
            exact mt (hmember value).mp htype
          simp [htype, hnone, Memory.getter, bind, Except.bind, pure, Except.pure]

/-! Any sequence of calls. -/

theorem Holds.vmodClear (h : Holds M t ptrs) : Holds M.vmodClear (VarModel.vmodClear t) [] := by
  obtain ⟨h', hpriv⟩ := h.getVh
  exact ⟨Or.inl (isQueue_init _ _ _), .nil, h'.live, hpriv, h'.ws⟩

theorem Holds.call (h : Holds M t ptrs) (c : Call) : Follows (M.call c) (step t c) := by
  cases c with
  | set name value => exact h.vmodSetString name value
  | setString name value => exact h.vmodSetString name value
  | setInt name value => exact h.vmodSetX name _
  | setReal name value => exact h.vmodSetX name _
  | setDuration name value => exact h.vmodSetX name _
  | setBackend name value => exact h.vmodSetX name _
  | setIp name ip => exact h.vmodSetIp name ip
  | get name => exact h.vmodGetX name (fun value => by cases value <;> simp [stringOf, typeOf]) _ _
  | getString name =>
      exact h.vmodGetX name (fun value => by cases value <;> simp [stringOf, typeOf]) _ _
  | getInt name => exact h.vmodGetX name (fun value => by cases value <;> simp [intOf, typeOf]) _ _
  | getReal name =>
      exact h.vmodGetX name (fun value => by cases value <;> simp [realOf, typeOf]) _ _
  | getDuration name =>
      exact h.vmodGetX name (fun value => by cases value <;> simp [durationOf, typeOf]) _ _
  | getIp name => exact h.vmodGetX name (fun value => by cases value <;> simp [ipOf, typeOf]) _ _
  | getBackend name =>
      exact h.vmodGetX name (fun value => by cases value <;> simp [backendOf, typeOf]) _ _
  | clear => exact Or.inl ⟨.nothing, _, _, [], rfl, rfl, h.vmodClear⟩

theorem Holds.run (h : Holds M t ptrs) (calls : List Call) :
    (∃ es t' M' ptrs', Machine.run step calls t = some (es, t') ∧
        run calls M = .ok (es.map Machine.Event.output, M') ∧ Holds M' t' ptrs') ∨
      Machine.run step calls t = none ∧ run calls M = .error .assertion := by
  induction calls generalizing M t ptrs with
  | nil => exact Or.inl ⟨[], t, M, ptrs, rfl, rfl, h⟩
  | cons c calls ih =>
      rcases h.call c with ⟨a, t₁, M₁, ptrs₁, hstep, hcall, h₁⟩ | ⟨hstep, hcall⟩
      · rcases ih h₁ with ⟨es, t', M', ptrs', hrun, hmem, h'⟩ | ⟨hrun, hmem⟩
        · refine Or.inl ⟨_, t', M', ptrs', Machine.run_cons hstep hrun, ?_, h'⟩
          exact (ok_bind hcall).trans ((ok_bind hmem).trans rfl)
        · refine Or.inr ⟨by simp [Machine.run, hstep, hrun], ?_⟩
          rw [VarTaskHeap.run, hcall]
          simp only [bind, Except.bind, hmem]
      · refine Or.inr ⟨by simp [Machine.run, hstep], ?_⟩
        rw [VarTaskHeap.run, hcall]
        rfl

theorem holds_initial (junk : ℕ → Cell) (ws : ℕ → Bool) :
    Holds (Memory.initial junk ws) ⟨none, ws⟩ [] := by
  refine ⟨Or.inr ⟨rfl, rfl⟩, .nil, fun v => ?_, rfl, rfl⟩
  simp [Memory.initial, Queues.empty]

/-- What the list in memory is after calls that leave `t`. -/
structure Leaves (M : Memory) (t : Task) (ptrs : List ℕ) : Prop where
  head : M.priv = t.priv.isSome
  walk : M.vars.walk () M.fuel (M.vars.first ()) = .ok ptrs
  vars : List.Forall₂ (IsVar M) ptrs (VarModel.getVh t)

/-- In memory the variables of a task are what they are on lists, whatever the workspace held
before and whichever allocations fail: the calls return the same, and a run comes to an end too
early where it does on lists, by an assertion. So no `NULL` is followed, not in a head of zeros
either, and a getter reads a member of the union only if it was written last. -/
theorem task_on_memory (junk : ℕ → Cell) (ws : ℕ → Bool) (calls : List Call) :
    (∃ es t M ptrs, Machine.run step calls ⟨none, ws⟩ = some (es, t) ∧
        run calls (Memory.initial junk ws) = .ok (es.map Machine.Event.output, M) ∧
        Leaves M t ptrs) ∨
      Machine.run step calls ⟨none, ws⟩ = none ∧
        run calls (Memory.initial junk ws) = .error .assertion := by
  rcases (holds_initial junk ws).run calls with ⟨es, t, M, ptrs, hrun, hmem, h⟩ | hnone
  · refine Or.inl ⟨es, t, M, ptrs, hrun, hmem, h.priv, ?_, h.vars⟩
    have hlength := h.length_le
    rcases h.list with hq | ⟨rfl, hfirst⟩
    · exact hq.walk_eq hlength
    · rw [hfirst]
      cases M.fuel <;> rfl
  · exact Or.inr hnone

end VarnishModules.VarTaskLedger
