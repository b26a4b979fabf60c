import VarnishModules.VarModel

/-!
What the variables of a task hold, against the values they were given.
-/

namespace VarnishModules.VarStore

open VarnishModules.CStrings
open VarnishModules.VarModel

/-- A value of one of the types of VCL, as a setter is given it. -/
inductive Arg
  | string (value : Option CString)
  | int (value : Int64)
  | real (value : Double)
  | duration (value : Double)
  | ip (value : Suckaddr)
  | backend (value : Option Nat)

inductive Op
  | set (name value : Option CString)
  | setString (name value : Option CString)
  | setInt (name : Option CString) (value : Int64)
  | setReal (name : Option CString) (value : Double)
  | setDuration (name : Option CString) (value : Double)
  | setIp (name : Option CString) (value : Suckaddr)
  | setBackend (name : Option CString) (value : Option Nat)
  | clear

def Op.run (t : Task) : Op → Option Task
  | set name value => vmodSet t name value
  | setString name value => vmodSetString t name value
  | setInt name value => vmodSetInt t name value
  | setReal name value => vmodSetReal t name value
  | setDuration name value => vmodSetDuration t name value
  | setIp name value => vmodSetIp t name (some value)
  | setBackend name value => vmodSetBackend t name value
  | clear => some (vmodClear t)

/-- The task after the calls, from one without variables and with enough workspace. -/
def taskAfter (ops : List Op) : Option Task :=
  ops.foldlM Op.run ⟨none, fun _ => true⟩

/-- What a setter sets; `clear` sets nothing. -/
def Op.setting : Op → Option (Option CString × Arg)
  | set name value => some (name, .string value)
  | setString name value => some (name, .string value)
  | setInt name value => some (name, .int value)
  | setReal name value => some (name, .real value)
  | setDuration name value => some (name, .duration value)
  | setIp name value => some (name, .ip value)
  | setBackend name value => some (name, .backend value)
  | clear => none

/-- What was set last, after one more call. -/
def nextSet (name : CString) (last : Option Arg) (op : Op) : Option Arg :=
  match op.setting with
  | none => none
  | some (name', arg) => if name' = some name then some arg else last

/-- What the last setter of the name set since the last `clear`. -/
def lastSet (name : CString) (ops : List Op) : Option Arg :=
  ops.foldl (nextSet name) none

/-- Every getter returns what the last setter was given if it was of its type. -/
def GetsLast (t : Task) (name : CString) (last : Option Arg) : Prop :=
  (vmodGetString t (some name)).1 =
      (match last with | some (.string value) => some (value.getD []) | _ => none) ∧
    (vmodGetInt t (some name)).1 = (match last with | some (.int value) => value | _ => 0) ∧
    (vmodGetReal t (some name)).1 = (match last with | some (.real value) => value | _ => 0) ∧
    (vmodGetDuration t (some name)).1 =
      (match last with | some (.duration value) => value | _ => 0) ∧
    (vmodGetIp t (some name)).1 = (match last with | some (.ip value) => some value | _ => none) ∧
    (vmodGetBackend t (some name)).1 =
      (match last with | some (.backend value) => value | _ => none)

/-- A `long` that is an `int`. -/
def FitsInt (value : Int64) : Prop :=
  -2 ^ 31 ≤ value.toInt ∧ value.toInt < 2 ^ 31

/-- What is stored of an argument. -/
def Arg.toValue : Arg → Value
  | string value => .string (some (value.getD []))
  | int value => .int value.toInt32
  | real value => .real value
  | duration value => .duration value
  | ip value => .ip (some value)
  | backend value => .backend value

/-- There is enough workspace. -/
def Roomy (t : Task) : Prop :=
  ∀ n, t.ws n = true

/-- What is found under a name. -/
def stored (t : Task) (name : CString) : Option Value :=
  (vhGetVar (getVh t) name).bind Var.value

variable {t t' : Task} {name other : CString} {vars : List Var} {value : Value} {v : Var}

theorem vhGetVar_cons : vhGetVar (v :: vars) name =
    if v.name = name then some v else vhGetVar vars name := by
  unfold vhGetVar
  by_cases h : v.name = name
  · simp [h]
  · simp [h]

theorem vhGetVar_assign (h : (vhGetVar vars name).isSome) :
    (vhGetVar (assign name value vars) other).bind Var.value =
      if name = other then some value else (vhGetVar vars other).bind Var.value := by
  induction vars with
  | nil => exact absurd h (by simp [vhGetVar])
  | cons v vars ih =>
      rw [vhGetVar_cons] at h ⊢
      by_cases hname : v.name = name
      · rw [assign, if_pos hname, vhGetVar_cons]
        by_cases hother : v.name = other
        · simp [hother, hname.symm.trans hother]
        · have hne : name ≠ other := fun heq => hother (hname.trans heq)
          simp [hother, hne]
      · rw [if_neg hname] at h
        rw [assign, if_neg hname, vhGetVar_cons]
        by_cases hother : v.name = other
        · have hne : name ≠ other := fun heq => hname (hother.trans heq.symm)
          simp [hother, hne]
        · rw [if_neg hother, if_neg hother]
          exact ih h

theorem vhGetVarAlloc_spec (ht : Roomy t) (name : CString) :
    ∃ vars, ∃ ws : Nat → Bool, vhGetVarAlloc t name = some ⟨some vars, ws⟩ ∧ (∀ n, ws n = true) ∧
      (vhGetVar vars name).isSome ∧
      ∀ other, name ≠ other → vhGetVar vars other = vhGetVar (getVh t) other := by
  cases hfind : vhGetVar (getVh t) name with
  | some v =>
      refine ⟨getVh t, t.ws, ?_, ht, by rw [hfind]; rfl, fun _ _ => rfl⟩
      simp [vhGetVarAlloc, hfind]
  | none =>
      refine ⟨⟨name, none⟩ :: getVh t, fun n => t.ws (n + 1 + 1), ?_, fun n => ht (n + 1 + 1),
        ?_, ?_⟩
      · simp [vhGetVarAlloc, hfind, Task.alloc, ht 0, ht 1]
      · simp [vhGetVar_cons]
      · intro other hne
        rw [vhGetVar_cons, if_neg hne]

/-- One name has a new value, and the workspace still has room. -/
structure Sets (t t' : Task) (name : CString) (value : Value) : Prop where
  roomy : Roomy t'
  stored : ∀ other, stored t' other = if name = other then some value else stored t other

theorem sets_assign {ws : Nat → Bool} (hws : ∀ n, ws n = true)
    (hsome : (vhGetVar vars name).isSome)
    (hother : ∀ other, name ≠ other → vhGetVar vars other = vhGetVar (getVh t) other) :
    Sets t (Task.assign ⟨some vars, ws⟩ name value) name value := by
  refine ⟨hws, fun other => (vhGetVar_assign hsome).trans ?_⟩
  by_cases hne : name = other
  · rw [if_pos hne, if_pos hne]
  · rw [if_neg hne, if_neg hne, hother other hne]
    rfl

theorem vmodSetX_spec (ht : Roomy t) (name : CString) (value : Value) :
    ∃ t', vmodSetX t (some name) value = some t' ∧ Sets t t' name value := by
  obtain ⟨vars, ws, halloc, hws, hsome, hother⟩ := vhGetVarAlloc_spec ht name
  exact ⟨_, by rw [vmodSetX, halloc]; rfl, sets_assign hws hsome hother⟩

theorem vmodSetString_spec (ht : Roomy t) (name : CString) (value : Option CString) :
    ∃ t', vmodSetString t (some name) value = some t' ∧
      Sets t t' name (.string (some (value.getD []))) := by
  obtain ⟨vars, ws, halloc, hws, hsome, hother⟩ := vhGetVarAlloc_spec ht name
  have hroom : ∀ n, (fun n => ws (n + 1)) n = true := fun n => hws (n + 1)
  refine ⟨_, ?_, sets_assign hroom hsome hother⟩
  rw [vmodSetString, halloc]
  simp [Task.alloc, hws 0]

theorem vmodSetIp_spec (ht : Roomy t) (name : CString) (ip : Suckaddr) :
    ∃ t', vmodSetIp t (some name) (some ip) = some t' ∧ Sets t t' name (.ip (some ip)) := by
  obtain ⟨vars, ws, halloc, hws, hsome, hother⟩ := vhGetVarAlloc_spec ht name
  have hroom : ∀ n, (fun n => ws (n + 1)) n = true := fun n => hws (n + 1)
  refine ⟨_, ?_, sets_assign hroom hsome hother⟩
  rw [vmodSetIp, halloc]
  simp [Task.alloc, hws 0]

/-- A setter stores its argument, if there is a name. -/
theorem run_of_setting (ht : Roomy t) {op : Op} {arg : Arg}
    (hop : op.setting = some (some name, arg)) :
    ∃ t', op.run t = some t' ∧ Sets t t' name arg.toValue := by
  cases op with
  | set name' value | setString name' value =>
      obtain ⟨rfl, rfl⟩ := Prod.mk.inj (Option.some.inj hop)
      exact vmodSetString_spec ht name value
  | setInt name' value | setReal name' value | setDuration name' value
  | setBackend name' value =>
      obtain ⟨rfl, rfl⟩ := Prod.mk.inj (Option.some.inj hop)
      exact vmodSetX_spec ht name _
  | setIp name' value =>
      obtain ⟨rfl, rfl⟩ := Prod.mk.inj (Option.some.inj hop)
      exact vmodSetIp_spec ht name value
  | clear => exact absurd hop (by simp [Op.setting])

theorem run_of_null {op : Op} {arg : Arg} (hop : op.setting = some (none, arg)) :
    op.run t = some t := by
  cases op with
  | set name' value | setString name' value | setInt name' value | setReal name' value
  | setDuration name' value | setBackend name' value | setIp name' value =>
      obtain ⟨rfl, -⟩ := Prod.mk.inj (Option.some.inj hop)
      rfl
  | clear => exact absurd hop (by simp [Op.setting])

/-- The variables hold the last values, as far as their types let them. -/
structure Holds (t : Task) (last : CString → Option Arg) : Prop where
  roomy : Roomy t
  stored : ∀ name, stored t name = (last name).map Arg.toValue

theorem Holds.run {last : CString → Option Arg} (h : Holds t last) (op : Op) :
    ∃ t', op.run t = some t' ∧ Holds t' fun name => nextSet name (last name) op := by
  unfold nextSet
  rcases hop : op.setting with _ | ⟨_ | name, arg⟩
  · cases op with
    | clear => exact ⟨_, rfl, h.roomy, fun _ => rfl⟩
    | _ => exact absurd hop (by simp [Op.setting])
  · refine ⟨t, run_of_null hop, h.roomy, fun name => ?_⟩
    rw [h.stored name]
    simp
  · obtain ⟨t', hrun, hsets⟩ := run_of_setting h.roomy hop
    refine ⟨t', hrun, hsets.roomy, fun other => ?_⟩
    rw [hsets.stored other, h.stored other]
    by_cases hne : name = other
    · simp [hne]
    · simp [hne]

theorem Holds.foldlM {last : CString → Option Arg} (h : Holds t last) (ops : List Op) :
    ∃ t', ops.foldlM Op.run t = some t' ∧
      Holds t' fun name => ops.foldl (nextSet name) (last name) := by
  induction ops generalizing t last with
  | nil => exact ⟨t, rfl, h⟩
  | cons op ops ih =>
      obtain ⟨t₁, hop, h₁⟩ := h.run op
      obtain ⟨t', hrest, h'⟩ := ih h₁
      refine ⟨t', ?_, h'⟩
      rw [List.foldlM_cons, hop]
      exact hrest

theorem toInt64_toInt32_iff (value : Int64) : value.toInt32.toInt64 = value ↔ FitsInt value := by
  rw [← Int64.toInt_inj, Int32.toInt_toInt64, Int64.toInt_toInt32, FitsInt]
  constructor
  · intro heq
    have hle := Int.le_bmod (x := value.toInt) (show 0 < 2 ^ 32 by norm_num)
    have hlt := Int.bmod_lt (x := value.toInt) (show 0 < 2 ^ 32 by norm_num)
    rw [heq] at hle hlt
    norm_num at hle hlt ⊢
    omega
  · rintro ⟨hle, hlt⟩
    exact Int.bmod_eq_of_le (by norm_num at hle ⊢; omega) (by norm_num at hlt ⊢; omega)

theorem getsLast_iff {last : CString → Option Arg} (h : Holds t last) (name : CString) :
    GetsLast t name (last name) ↔ ∀ value, last name = some (.int value) → FitsInt value := by
  have hget : ∀ {α : Type} (member : Value → Option α) (zero : α),
      (vmodGetX t (some name) member zero).1 =
        (((last name).map Arg.toValue).bind member).getD zero := by
    intro α member zero
    rw [← h.stored name]
    rfl
  simp only [GetsLast, vmodGetString, vmodGetInt, vmodGetReal, vmodGetDuration, vmodGetIp,
    vmodGetBackend, hget]
  rcases last name with _ | value | value | value | value | value | value
  · simp
  · simp [Arg.toValue]
  · simp [Arg.toValue, toInt64_toInt32_iff]
  · simp [Arg.toValue]
  · simp [Arg.toValue]
  · simp [Arg.toValue]
  · simp [Arg.toValue]

/-- The getters return what was set last just when that is no `long` too large for an `int`. -/
theorem taskAfter_getsLast_iff (ops : List Op) : ∃ t, taskAfter ops = some t ∧
    ∀ name, GetsLast t name (lastSet name ops) ↔
      ∀ value, lastSet name ops = some (.int value) → FitsInt value := by
  have hfresh : Holds ⟨none, fun _ => true⟩ fun _ => none := ⟨fun _ => rfl, fun _ => rfl⟩
  obtain ⟨t, hrun, hholds⟩ := hfresh.foldlM ops
  exact ⟨t, hrun, getsLast_iff hholds⟩

/-- The least `long` that is not an `int`. -/
theorem not_getsLast_large : ∃ t, taskAfter [.setInt (some (str "n")) 2147483648] = some t ∧
    (vmodGetInt t (some (str "n"))).1 = -2147483648 ∧
    ¬ GetsLast t (str "n") (lastSet (str "n") [.setInt (some (str "n")) 2147483648]) := by
  refine ⟨_, rfl, by decide, fun hgets => ?_⟩
  have hint : (-2147483648 : Int64) = 2147483648 := hgets.2.1
  exact absurd hint (by decide)

end VarnishModules.VarStore
