import VarnishModules.QueueFind
import VarnishModules.VarHeap

/-!
The global variables in memory are those of `VarGlobals`, and every string belongs to one of
them.
-/

namespace VarnishModules.VarLedger

open VarnishModules.CStrings
open VarnishModules.TailQueue
open VarnishModules.QueueFind
open VarnishModules.Malloc
open VarnishModules.VarModel (GlobalVar)
open VarnishModules.VarGlobals (Call)
open VarnishModules.VarHeap

/-- What a variable in memory stands for. -/
structure Cell (M : Memory) (v : ℕ) (g : GlobalVar) : Prop where
  name : (M.var v).name.map M.strings.block = some (some g.name)
  type : (M.var v).type = .string
  value : (M.var v).value.map M.strings.block = g.value.map some

/-- The strings of a variable. -/
def fields (M : Memory) (v : ℕ) : List ℕ :=
  (M.var v).name.toList ++ (M.var v).value.toList

structure Holds (M : Memory) (vars : List GlobalVar) (ptrs : List ℕ) : Prop where
  queue : IsQueue M.vars () () ptrs
  cells : List.Forall₂ (Cell M) ptrs vars
  live : ∀ v, M.vars.live v = true ↔ v ∈ ptrs
  fresh : ∀ v, v < M.fresh ↔ v ∈ ptrs
  owns : Owns M.strings (ptrs.flatMap (fields M))

/-- `global_set` has a variable without a name in its hands. -/
structure Taken (M : Memory) (v : ℕ) (vars : List GlobalVar) (ptrs : List ℕ) : Prop where
  queue : IsQueue M.vars () () ptrs
  cells : List.Forall₂ (Cell M) ptrs vars
  live : ∀ w, M.vars.live w = true ↔ w = v ∨ w ∈ ptrs
  fresh : ∀ w, w < M.fresh ↔ w = v ∨ w ∈ ptrs
  notMem : v ∉ ptrs
  name : (M.var v).name = none
  type : (M.var v).type = .string
  owns : Owns M.strings ((M.var v).value.toList ++ ptrs.flatMap (fields M))

variable {M M' : Memory} {vars : List GlobalVar} {ptrs pre : List ℕ} {v n : ℕ} {g : GlobalVar}
  {name : CString} {value : Option CString}

theorem alive_eq (h : Unit) : alive h = true := rfl

theorem Cell.congr (h : Cell M v g) (hvar : M'.var v = M.var v)
    (hblock : ∀ p ∈ fields M v, M'.strings.block p = M.strings.block p) : Cell M' v g := by
  have hmap : ∀ p : Option ℕ, (∀ q ∈ p.toList, q ∈ fields M v) →
      p.map M'.strings.block = p.map M.strings.block := by
    intro p hp
    cases p with
    | none => rfl
    | some q => simp [hblock q (hp q (by simp))]
  refine ⟨?_, ?_, ?_⟩
  · rw [hvar, hmap _ fun q hq => List.mem_append_left _ hq]
    exact h.name
  · rw [hvar]
    exact h.type
  · rw [hvar, hmap _ fun q hq => List.mem_append_right _ hq]
    exact h.value

theorem cells_congr (h : List.Forall₂ (Cell M) ptrs vars)
    (hvar : ∀ v ∈ ptrs, M'.var v = M.var v)
    (hblock : ∀ p ∈ ptrs.flatMap (fields M), M'.strings.block p = M.strings.block p) :
    List.Forall₂ (Cell M') ptrs vars := by
  induction h with
  | nil => exact .nil
  | @cons v g ptrs vars hcell _ ih =>
      rw [List.flatMap_cons] at hblock
      refine .cons (hcell.congr (hvar v List.mem_cons_self) fun p hp =>
        hblock p (List.mem_append_left _ hp)) (ih ?_ ?_)
      · exact fun w hw => hvar w (List.mem_cons_of_mem v hw)
      · exact fun p hp => hblock p (List.mem_append_right _ hp)

theorem fields_congr (hvar : ∀ v ∈ ptrs, M'.var v = M.var v) :
    ptrs.flatMap (fields M') = ptrs.flatMap (fields M) := by
  refine List.flatMap_congr fun v hv => ?_
  rw [fields, fields, hvar v hv]

theorem Cell.read_name (h : Cell M v g) :
    ∃ p, (M.var v).name = some p ∧ M.strings.read p = .ok g.name := by
  obtain ⟨p, hp, hblock⟩ := Option.map_eq_some_iff.mp h.name
  exact ⟨p, hp, read_eq hblock⟩

/-! The loop. -/

/-- What the loop asks of a variable. -/
def named (M : Memory) (name : CString) (v : ℕ) : Except Fault Bool :=
  match (M.var v).name with
  | none => .error .assertion
  | some p => do return decide ((← M.strings.read p) = name)

theorem findVar_eq (M : Memory) (name : CString) (n : ℕ) (p : Option ℕ) :
    M.findVar (some name) n p = findFirst M.vars () (named M name) n p := by
  induction n generalizing p with
  | zero => cases p <;> rfl
  | succ n ih =>
      cases p with
      | none => rfl
      | some v =>
          rw [Memory.findVar, findFirst, named]
          cases (M.var v).name with
          | none => rfl
          | some p =>
              cases hread : M.strings.read p with
              | error e => simp [hread, bind, Except.bind]
              | ok s =>
                  by_cases hs : s = name
                  · simp [hread, hs, bind, Except.bind, pure, Except.pure]
                  · simp [hread, hs, ih, bind, Except.bind, pure, Except.pure]

theorem findVar_null (h : Holds M vars ptrs) :
    M.findVar none M.fuel (M.vars.first ()) =
      if vars = [] then .ok none else .error .nullDeref := by
  rw [h.queue.first_eq]
  cases h.cells with
  | nil => rfl
  | @cons v g ptrs vars hcell _ =>
      obtain ⟨p, hp, hread⟩ := hcell.read_name
      rw [List.head?_cons, Memory.fuel, Memory.findVar, touchElem_ok (h.queue.live (by simp))]
      simp only [hp, hread, bind, Except.bind]
      rfl

theorem Holds.length_le (h : Holds M vars ptrs) : ptrs.length ≤ M.fuel := by
  have hlength := length_le_of_lt h.queue.nodup fun v hv => (h.fresh v).mpr hv
  exact hlength.trans (Nat.le_succ _)

/-- The search of a call, and what it finds on the list. -/
theorem Holds.findVar (h : Holds M vars ptrs) (name : CString) :
    (M.findVar (some name) M.fuel (M.vars.first ()) = .ok none ∧ ∀ g ∈ vars, g.name ≠ name) ∨
      ∃ ys v zs ys' g zs',
        Splits (Cell M) (fun g => g.name = name) ptrs vars ys v zs ys' g zs' ∧
          M.findVar (some name) M.fuel (M.vars.first ()) = .ok (some v) := by
  rw [findVar_eq, h.queue.first_eq]
  refine findFirst_spec h.cells (fun v g hcell => ?_)
    (show IsQueue M.vars () () ([] ++ ptrs) from h.queue) h.length_le
  obtain ⟨p, hp, hread⟩ := hcell.read_name
  simp only [named, hp, hread, bind, Except.bind]
  rfl

/-! The steps of `global_set`. -/

theorem takeVar_found {ys zs : List ℕ} {ys' zs' : List GlobalVar}
    (h : Holds M (ys' ++ g :: zs') (ys ++ v :: zs)) (hys : List.Forall₂ (Cell M) ys ys')
    (hcell : Cell M v g) (hzs : List.Forall₂ (Cell M) zs zs') :
    ∃ M', M.takeVar (some v) = .ok (v, M') ∧ Taken M' v (ys' ++ zs') (ys ++ zs) := by
  have hv : v ∉ ys ++ zs := (List.nodup_middle.mp h.queue.nodup).notMem
  obtain ⟨vars', hremove, hq', hm', -, -⟩ := remove_spec h.queue (alive_eq _)
  have howns : Owns M.strings ((M.var v).name.toList ++
      ((M.var v).value.toList ++ (ys ++ zs).flatMap (fields M))) := by
    refine h.owns.perm ((List.perm_middle.flatMap_right _).trans ?_)
    rw [List.flatMap_cons, fields, List.append_assoc]
  obtain ⟨strings', hfree, howns', -, hblock⟩ := howns.free_option
  let M' := Memory.setVar { M with vars := vars', strings := strings' } v
    { M.var v with name := none }
  have hvar : ∀ w ∈ ys ++ zs, M'.var w = M.var w := fun w hw =>
    Function.update_of_ne (ne_of_mem_of_not_mem hw hv) _ _
  have hself : M'.var v = { M.var v with name := none } := Function.update_self _ _ _
  have hmem : ∀ w, w ∈ ys ++ v :: zs ↔ w = v ∨ w ∈ ys ++ zs := fun w =>
    List.perm_middle.mem_iff.trans List.mem_cons
  refine ⟨M', ?_, hq', ?_, fun w => ?_, fun w => (h.fresh w).trans (hmem w), hv, ?_, ?_, ?_⟩
  · rw [Memory.takeVar, hremove]
    simp only [hfree, bind, Except.bind]
    rfl
  · exact cells_congr (List.rel_append hys hzs) hvar
      fun p hp => hblock p (List.mem_append_right _ hp)
  · rw [show M'.vars.live = vars'.live from rfl, hm'.live, h.live w, hmem w]
  · rw [hself]
  · rw [hself]
    exact hcell.type
  · rw [hself, fields_congr hvar]
    exact howns'

theorem takeVar_none (h : Holds M vars ptrs) :
    ∃ M', M.takeVar none = .ok (M.fresh, M') ∧ Taken M' M.fresh vars ptrs := by
  have hnew : M.fresh ∉ ptrs := fun hmem => lt_irrefl _ ((h.fresh _).mpr hmem)
  have hdead : M.vars.live M.fresh = false :=
    Bool.eq_false_iff.mpr fun hlive => hnew ((h.live _).mp hlive)
  let M' := Memory.setVar { M with vars := M.vars.alloc M.fresh, fresh := M.fresh + 1 } M.fresh
    ⟨none, .string, none⟩
  have hvar : ∀ w ∈ ptrs, M'.var w = M.var w := fun w hw =>
    Function.update_of_ne (ne_of_mem_of_not_mem hw hnew) _ _
  have hself : M'.var M.fresh = ⟨none, .string, none⟩ := Function.update_self _ _ _
  refine ⟨M', rfl, h.queue.alloc hdead, cells_congr h.cells hvar fun _ _ => rfl, fun w => ?_,
    fun w => ?_, hnew, ?_, ?_, ?_⟩
  · rw [← h.live w]
    by_cases hw : w = M.fresh
    · simp [M', Memory.setVar, Queues.alloc, hw]
    · simp [M', Memory.setVar, Queues.alloc, hw]
  · rw [← h.fresh w]
    exact Nat.lt_succ_iff_lt_or_eq.trans or_comm
  · rw [hself]
  · rw [hself]
  · rw [hself, fields_congr hvar]
    exact h.owns

theorem setValue_spec (hq : IsQueue M.vars () () (v :: ptrs))
    (hcells : List.Forall₂ (Cell M) ptrs vars) (hlive : ∀ w, M.vars.live w = true ↔ w ∈ v :: ptrs)
    (hfresh : ∀ w, w < M.fresh ↔ w ∈ v :: ptrs) (htype : (M.var v).type = .string) {p : ℕ}
    (hname : (M.var v).name = some p) (hp : M.strings.block p = some name)
    (howns : Owns M.strings ((M.var v).value.toList ++ p :: ptrs.flatMap (fields M)))
    (value : Option CString) :
    ∃ M', M.setValue v value = .ok M' ∧ Holds M' (⟨name, value⟩ :: vars) (v :: ptrs) := by
  have hv : v ∉ ptrs := (List.nodup_cons.mp hq.nodup).1
  obtain ⟨strings₁, hfree, howns₁, -, hblock₁⟩ := howns.free_option
  have hp₁ : strings₁.block p = some name := (hblock₁ p List.mem_cons_self).trans hp
  have hstart : M.strings.free (if (M.var v).type = .string then (M.var v).value else none) =
      .ok strings₁ := by
    rw [if_pos htype]
    exact hfree
  cases value with
  | none =>
      let M' := Memory.setVar { M with strings := strings₁ } v ⟨some p, .string, none⟩
      have hvar : ∀ w ∈ ptrs, M'.var w = M.var w := fun w hw =>
        Function.update_of_ne (ne_of_mem_of_not_mem hw hv) _ _
      have hself : M'.var v = ⟨some p, .string, none⟩ := Function.update_self _ _ _
      refine ⟨M', ?_, hq, .cons ⟨?_, ?_, ?_⟩ ?_, hlive, hfresh, ?_⟩
      · rw [Memory.setValue, hstart]
        simp only [bind, Except.bind, hname]
        rfl
      · rw [hself]
        exact congrArg some hp₁
      · rw [hself]
      · rw [hself]
        rfl
      · exact cells_congr hcells hvar fun q hq => hblock₁ q (List.mem_cons_of_mem p hq)
      · rw [List.flatMap_cons, fields, hself, fields_congr hvar]
        exact howns₁
  | some s =>
      let M' := Memory.setVar { M with strings := strings₁.alloc s } v
        ⟨some p, .string, some strings₁.fresh⟩
      have hvar : ∀ w ∈ ptrs, M'.var w = M.var w := fun w hw =>
        Function.update_of_ne (ne_of_mem_of_not_mem hw hv) _ _
      have hself : M'.var v = ⟨some p, .string, some strings₁.fresh⟩ := Function.update_self _ _ _
      refine ⟨M', ?_, hq, .cons ⟨?_, ?_, ?_⟩ ?_, hlive, hfresh, ?_⟩
      · rw [Memory.setValue, hstart]
        simp only [bind, Except.bind, Memory.setVar, Function.update_self, Function.update_idem,
          hname]
        rfl
      · rw [hself]
        exact congrArg some ((howns₁.block_alloc List.mem_cons_self s).trans hp₁)
      · rw [hself]
      · rw [hself]
        exact congrArg some (block_alloc_self strings₁ s)
      · refine cells_congr hcells hvar fun q hq => ?_
        have hmem : q ∈ p :: ptrs.flatMap (fields M) := List.mem_cons_of_mem p hq
        exact (howns₁.block_alloc hmem s).trans (hblock₁ q hmem)
      · rw [List.flatMap_cons, fields, hself, fields_congr hvar]
        exact (howns₁.alloc s).perm (List.Perm.swap _ _ _)

/-- The variable gets its name, goes to the front and gets its value. -/
theorem finish_spec (h : Taken M v vars ptrs) (name : CString) (value : Option CString) :
    ∃ vars' M', (M.setName v name).vars.insertHead alive () () v = .ok vars' ∧
      Memory.setValue { M.setName v name with vars := vars' } v value = .ok M' ∧
      Holds M' (⟨name, value⟩ :: vars) (v :: ptrs) := by
  have hself : (M.setName v name).var v = { M.var v with name := some M.strings.fresh } :=
    Function.update_self _ _ _
  have hvar : ∀ w ∈ ptrs, (M.setName v name).var w = M.var w := fun w hw =>
    Function.update_of_ne (ne_of_mem_of_not_mem hw h.notMem) _ _
  have hlive : (M.setName v name).vars.live v = true := (h.live v).mpr (Or.inl rfl)
  obtain ⟨vars', hinsert, hq', hm'⟩ := insertHead_spec
    (show IsQueue (M.setName v name).vars () () ptrs from h.queue) (alive_eq _) hlive h.notMem
  have hcells : List.Forall₂ (Cell { M.setName v name with vars := vars' }) ptrs vars :=
    cells_congr h.cells hvar fun p hp => h.owns.block_alloc (List.mem_append_right _ hp) name
  have howns : Owns (M.setName v name).strings (((M.setName v name).var v).value.toList ++
      M.strings.fresh ::
        ptrs.flatMap (fields { M.setName v name with vars := vars' })) := by
    have hfields : ptrs.flatMap (fields { M.setName v name with vars := vars' }) =
        ptrs.flatMap (fields M) := fields_congr hvar
    rw [hself, hfields]
    exact (h.owns.alloc name).perm List.perm_middle.symm
  obtain ⟨M', hset, h'⟩ := setValue_spec (M := { M.setName v name with vars := vars' }) hq' hcells
    (fun w => by
      rw [show vars'.live = (M.setName v name).vars.live from hm'.live, List.mem_cons]
      exact h.live w)
    (fun w => by
      rw [List.mem_cons]
      exact h.fresh w)
    (by
      rw [show (M.setName v name).var v = _ from hself]
      exact h.type)
    (by rw [show (M.setName v name).var v = _ from hself]) (block_alloc_self _ _) howns value
  exact ⟨vars', M', hinsert, hset, h'⟩

/-! The calls. -/

/-- A call comes to its end too early. -/
def Stops {α : Type} (r : Except Fault α) : Prop :=
  r = .error .nullDeref ∨ r = .error .assertion

theorem Stops.bind {α β : Type} {r : Except Fault α} (h : Stops r) (f : α → Except Fault β) :
    Stops (r >>= f) := by
  rcases h with rfl | rfl
  · exact Or.inl rfl
  · exact Or.inr rfl

theorem vmodGlobalSet_spec (h : Holds M vars ptrs) (name : CString) (value : Option CString) :
    ∃ M' ptrs', M.vmodGlobalSet (some name) value = .ok M' ∧
      Holds M' (⟨name, value⟩ :: vars.eraseP fun g => g.name = name) ptrs' := by
  rcases h.findVar name with
    ⟨hfind, hnone⟩ | ⟨ys, v, zs, ys', g, zs', hs, hfind⟩
  · obtain ⟨M₁, htake, h₁⟩ := takeVar_none h
    obtain ⟨vars', M', hinsert, hset, h'⟩ := finish_spec h₁ name value
    have herase : (vars.eraseP fun g => g.name = name) = vars :=
      List.eraseP_of_forall_not fun g hg => by simpa using hnone g hg
    rw [herase]
    refine ⟨M', _, ?_, h'⟩
    rw [Memory.vmodGlobalSet, hfind]
    simp only [htake, hinsert, hset, bind, Except.bind]
  · have herase : (vars.eraseP fun g => g.name = name) = ys' ++ zs' := hs.eraseP_eq
    obtain ⟨rfl, rfl, hys, hcell, hzs, -, -⟩ := hs
    obtain ⟨M₁, htake, h₁⟩ := takeVar_found h hys hcell hzs
    obtain ⟨vars', M', hinsert, hset, h'⟩ := finish_spec h₁ name value
    rw [herase]
    refine ⟨M', _, ?_, h'⟩
    rw [Memory.vmodGlobalSet, hfind]
    simp only [htake, hinsert, hset, bind, Except.bind]

theorem Cell.read_value (h : Cell M v g) :
    (M.var v).value = none ∧ g.value = none ∨
      ∃ p s, (M.var v).value = some p ∧ g.value = some s ∧ M.strings.read p = .ok s := by
  have hvalue := h.value
  cases hp : (M.var v).value with
  | none =>
      rw [hp] at hvalue
      exact Or.inl ⟨rfl, Option.map_eq_none_iff.mp hvalue.symm⟩
  | some p =>
      rw [hp] at hvalue
      obtain ⟨s, hs, hblock⟩ := Option.map_eq_some_iff.mp hvalue.symm
      exact Or.inr ⟨p, s, rfl, hs, read_eq hblock.symm⟩

theorem vmodGlobalGet_spec (h : Holds M vars ptrs) (name : Option CString) (r : Bool) :
    (∃ o, VarModel.vmodGlobalGet vars name r = some o ∧ M.vmodGlobalGet name r = .ok o) ∨
      VarModel.vmodGlobalGet vars name r = none ∧ Stops (M.vmodGlobalGet name r) := by
  cases name with
  | none =>
      rw [Memory.vmodGlobalGet, findVar_null h]
      cases vars with
      | nil => exact Or.inl ⟨none, rfl, rfl⟩
      | cons g vars => exact Or.inr ⟨rfl, Or.inl rfl⟩
  | some name =>
      rw [Memory.vmodGlobalGet, VarGlobals.vmodGlobalGet_some]
      rcases h.findVar name with
        ⟨hfind, hnone⟩ | ⟨ys, v, zs, ys', g, zs', hs, hfind⟩
      · have hlookup : VarGlobals.lookup vars name = none :=
          List.find?_eq_none.mpr fun g hg => by simpa using hnone g hg
        rw [hfind, hlookup]
        exact Or.inl ⟨none, rfl, rfl⟩
      · have hlookup : VarGlobals.lookup vars name = some g := hs.find?_eq
        rw [hfind, hlookup, Option.bind_some]
        simp only [bind, Except.bind, Option.bind_some]
        rcases hs.found.read_value with ⟨hp, hg⟩ | ⟨p, s, hp, hg, hread⟩
        · simp only [hp, hg]
          exact Or.inl ⟨none, rfl, rfl⟩
        · simp only [hp, hg, hread]
          cases r with
          | true => exact Or.inl ⟨some s, rfl, rfl⟩
          | false => exact Or.inr ⟨rfl, Or.inr rfl⟩

theorem call_spec (h : Holds M vars ptrs) (c : Call) :
    (∃ o vars' M' ptrs', VarGlobals.step vars c = some (o, vars') ∧ M.call c = .ok (o, M') ∧
        Holds M' vars' ptrs') ∨
      VarGlobals.step vars c = none ∧ Stops (M.call c) := by
  cases c with
  | globalSet name value =>
      cases name with
      | none => exact Or.inl ⟨none, vars, M, ptrs, rfl, rfl, h⟩
      | some name =>
          obtain ⟨M', ptrs', hset, h'⟩ := vmodGlobalSet_spec h name value
          refine Or.inl ⟨none, _, M', ptrs', ?_, ?_, h'⟩
          · rw [VarGlobals.step, VarGlobals.vmodGlobalSet_eq]
            rfl
          · rw [Memory.call, hset]
            rfl
  | globalGet name r =>
      rcases vmodGlobalGet_spec h name r with ⟨o, hstep, hget⟩ | ⟨hstep, hget⟩
      · refine Or.inl ⟨o, vars, M, ptrs, ?_, ?_, h⟩
        · rw [VarGlobals.step, hstep]
          rfl
        · rw [Memory.call, hget]
          rfl
      · refine Or.inr ⟨?_, hget.bind _⟩
        rw [VarGlobals.step, hstep]
        rfl

theorem run_spec (h : Holds M vars ptrs) (calls : List Call) :
    (∃ es vars' M' ptrs', Machine.run VarGlobals.step calls vars = some (es, vars') ∧
        run calls M = .ok (es.map Machine.Event.output, M') ∧ Holds M' vars' ptrs') ∨
      Machine.run VarGlobals.step calls vars = none ∧ Stops (run calls M) := by
  induction calls generalizing M vars ptrs with
  | nil => exact Or.inl ⟨[], vars, M, ptrs, rfl, rfl, h⟩
  | cons c calls ih =>
      rcases call_spec h c with ⟨o, vars₁, M₁, ptrs₁, hstep, hcall, h₁⟩ | ⟨hstep, hcall⟩
      · rcases ih h₁ with ⟨es, vars', M', ptrs', hrun, hmem, h'⟩ | ⟨hrun, hmem⟩
        · refine Or.inl ⟨_, vars', M', ptrs', Machine.run_cons hstep hrun, ?_, h'⟩
          rw [run, hcall]
          simp only [bind, Except.bind, hmem]
          rfl
        · refine Or.inr ⟨by simp [Machine.run, hstep, hrun], ?_⟩
          rw [run, hcall]
          exact hmem.bind _
      · exact Or.inr ⟨by simp [Machine.run, hstep], hcall.bind _⟩

theorem mapM_readVar (hcells : List.Forall₂ (Cell M) ptrs vars) :
    ptrs.mapM M.readVar = .ok vars := by
  induction hcells with
  | nil => rfl
  | @cons v g ptrs vars hcell _ ih =>
      obtain ⟨p, hp, hread⟩ := hcell.read_name
      have hself : M.readVar v = .ok g := by
        rw [Memory.readVar]
        rcases hcell.read_value with ⟨hq, hg⟩ | ⟨q, s, hq, hg, hread'⟩
        · rw [show g = ⟨g.name, none⟩ by rw [← hg]]
          simp only [hp, hread, hq, bind, Except.bind]
          rfl
        · rw [show g = ⟨g.name, some s⟩ by rw [← hg]]
          simp only [hp, hread, hq, hread', bind, Except.bind]
          rfl
      rw [List.mapM_cons, hself, ok_bind rfl, ih, ok_bind rfl]
      rfl

theorem holds_initial : Holds Memory.initial [] [] := by
  refine ⟨⟨trivial, rfl, rfl, List.nodup_nil⟩, .nil, ?_, ?_, owns_empty⟩
  · simp [Memory.initial, Queues.empty]
  · simp [Memory.initial]

/-- What the list in memory is after calls that leave `vars`. -/
structure Leaves (M : Memory) (vars : List GlobalVar) (ptrs : List ℕ) : Prop where
  walk : M.vars.walk () M.fuel (M.vars.first ()) = .ok ptrs
  contents : M.contents = .ok vars
  names : (vars.map GlobalVar.name).Nodup
  /-- No variable is given up. -/
  listed : ∀ v, v < M.fresh ↔ v ∈ ptrs
  /-- No string is lost, and none is freed twice. -/
  strings : Owns M.strings (ptrs.flatMap (fields M))

/-- On memory the global variables are what they are on lists: the calls return the same, and
a run comes to an end too early where it does on lists, for a `NULL` name or for want of
workspace. What has been allocated is on the list, or has been freed once. -/
theorem globals_on_memory (calls : List Call) :
    (∃ es vars M ptrs, VarGlobals.run calls = some (es, vars) ∧
        run calls Memory.initial = .ok (es.map Machine.Event.output, M) ∧ Leaves M vars ptrs) ∨
      VarGlobals.run calls = none ∧
        (run calls Memory.initial = .error .nullDeref ∨
          run calls Memory.initial = .error .assertion) := by
  rcases run_spec holds_initial calls with ⟨es, vars, M, ptrs, hrun, hmem, h⟩ | hnone
  · have hwalk : M.vars.walk () M.fuel (M.vars.first ()) = .ok ptrs := h.queue.walk_eq h.length_le
    refine Or.inl ⟨es, vars, M, ptrs, hrun, hmem, hwalk, ?_, ?_, h.fresh, h.owns⟩
    · rw [Memory.contents, hwalk, ok_bind rfl]
      exact mapM_readVar h.cells
    · exact (VarGlobals.holds_of_run VarGlobals.holds_nil hrun).nodup
  · exact Or.inr hnone

end VarnishModules.VarLedger
