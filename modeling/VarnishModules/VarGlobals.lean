import VarnishModules.Machine
import VarnishModules.VarModel

/-!
The global variables, under calls from any requests.

A call holds the mutex of the list from the comparison of the first name to its
end, so an interleaving of calls is a sequence of them.
-/

namespace VarnishModules.VarGlobals

open VarnishModules.CStrings
open VarnishModules.VarModel

inductive Call
  | globalSet (name value : Option CString)
  | globalGet (name : Option CString) (r : Bool)

/-- Only a `global_get` has a result. -/
def step (vars : List GlobalVar) : Call → Option (Option CString × List GlobalVar)
  | .globalSet name value => (vmodGlobalSet vars name value).map fun vars => (none, vars)
  | .globalGet name r => (vmodGlobalGet vars name r).map fun value => (value, vars)

/-- From the list as it is initialised. -/
def run (calls : List Call) :
    Option (List (Machine.Event (List GlobalVar) Call (Option CString)) × List GlobalVar) :=
  Machine.run step calls []

/-- What the last `global_set` of the name set. -/
def lastGlobal (name : CString) (calls : List Call) : Option CString :=
  calls.foldl (fun last call =>
    match call with
    | .globalSet name' value => if name' = some name then value else last
    | .globalGet _ _ => last) none

/-- Some call set a variable. -/
def AnySet (calls : List Call) : Prop :=
  ∃ name value, Call.globalSet (some name) value ∈ calls

/-- What a call returns after others. -/
def expected (calls : List Call) : Call → Option CString
  | .globalGet (some name) _ => lastGlobal name calls
  | _ => none

/-- Every call of a run completes, leaves names that differ, and returns what it should. -/
def Correct (calls : List Call) : Prop :=
  ∀ pre call post, calls = pre ++ call :: post → ∃ es vars o vars', run pre = some (es, vars) ∧
    step vars call = some (o, vars') ∧ (vars'.map GlobalVar.name).Nodup ∧ o = expected pre call

/-- There is no `NULL` to compare with, and room for the value if there is one. -/
def Safe (pre : List Call) : Call → Prop
  | .globalSet _ _ => True
  | .globalGet none _ => ¬ AnySet pre
  | .globalGet (some name) r => lastGlobal name pre = none ∨ r = true

variable {vars vars' : List GlobalVar} {pre calls : List Call} {call : Call}
  {name other : CString} {value : Option CString} {v : GlobalVar} {o : Option CString}

def lookup (vars : List GlobalVar) (name : CString) : Option GlobalVar :=
  vars.find? fun v => v.name = name

theorem findGlobal_eq (vars : List GlobalVar) (name : CString) :
    findGlobal vars (some name) = some (lookup vars name) := by
  induction vars with
  | nil => rfl
  | cons v vars ih =>
      by_cases h : v.name = name
      · simp [findGlobal, lookup, h]
      · simpa [findGlobal, lookup, h] using ih

/-- The new variable stands in front, and an old one with its name is gone. -/
theorem vmodGlobalSet_eq (vars : List GlobalVar) (name : CString) (value : Option CString) :
    vmodGlobalSet vars (some name) value =
      some (⟨name, value⟩ :: vars.eraseP fun v => v.name = name) := by
  rw [vmodGlobalSet, findGlobal_eq]
  cases hfind : lookup vars name with
  | some v => rfl
  | none =>
      have habsent : ∀ v ∈ vars, ¬ decide (v.name = name) = true := List.find?_eq_none.mp hfind
      rw [List.eraseP_of_forall_not habsent]
      rfl

theorem vmodGlobalGet_some (vars : List GlobalVar) (name : CString) (r : Bool) :
    vmodGlobalGet vars (some name) r =
      match (lookup vars name).bind GlobalVar.value with
      | none => some none
      | some value => if r then some (some value) else none := by
  rw [vmodGlobalGet, findGlobal_eq]
  rcases lookup vars name with _ | ⟨name', _ | value⟩
  · rfl
  · rfl
  · rfl

theorem vmodGlobalGet_null (r : Bool) : vmodGlobalGet vars none r = none ↔ vars ≠ [] := by
  cases vars with
  | nil => simp [vmodGlobalGet, findGlobal]
  | cons v vars => simp [vmodGlobalGet, findGlobal]

/-- The list after the calls. -/
structure Holds (calls : List Call) (vars : List GlobalVar) : Prop where
  nodup : (vars.map GlobalVar.name).Nodup
  value : ∀ name, (lookup vars name).bind GlobalVar.value = lastGlobal name calls
  ne_nil : vars ≠ [] ↔ AnySet calls

theorem lastGlobal_concat (name : CString) (calls : List Call) (call : Call) :
    lastGlobal name (calls ++ [call]) =
      match call with
      | .globalSet name' value => if name' = some name then value else lastGlobal name calls
      | .globalGet _ _ => lastGlobal name calls := by
  rw [lastGlobal, List.foldl_append]
  rfl

theorem lookup_eraseP (vars : List GlobalVar) (hne : name ≠ other) :
    lookup (vars.eraseP fun v => v.name = name) other = lookup vars other := by
  induction vars with
  | nil => rfl
  | cons v vars ih =>
      by_cases h : v.name = name
      · simp [h, lookup, hne]
      · rw [List.eraseP_cons_of_neg (by simpa using h)]
        by_cases hother : v.name = other
        · simp [lookup, hother]
        · simpa [lookup, hother] using ih

theorem map_name_eraseP (vars : List GlobalVar) (name : CString) :
    (vars.eraseP fun v => v.name = name).map GlobalVar.name =
      (vars.map GlobalVar.name).erase name := by
  induction vars with
  | nil => rfl
  | cons v vars ih =>
      by_cases h : v.name = name
      · simp [h]
      · rw [List.eraseP_cons_of_neg (by simpa using h), List.map_cons, List.map_cons, ih,
          List.erase_cons_tail (by simpa using h)]

theorem holds_nil : Holds [] [] :=
  ⟨List.nodup_nil, fun _ => rfl, by simp [AnySet]⟩

theorem Holds.set (h : Holds calls vars) (name : CString) (value : Option CString) :
    Holds (calls ++ [.globalSet (some name) value])
      (⟨name, value⟩ :: vars.eraseP fun v => v.name = name) := by
  refine ⟨?_, fun other => ?_, ?_⟩
  · rw [List.map_cons, map_name_eraseP]
    exact List.nodup_cons.mpr ⟨h.nodup.not_mem_erase, h.nodup.erase name⟩
  · rw [lastGlobal_concat, ← h.value other]
    by_cases hne : name = other
    · simp [lookup, hne]
    · have hrest := lookup_eraseP vars hne
      rw [← hrest]
      simp [lookup, hne]
  · exact iff_of_true (List.cons_ne_nil _ _) ⟨name, value, by simp⟩

theorem Holds.skip (h : Holds calls vars)
    (hcall : ∀ name value, call ≠ .globalSet (some name) value) :
    Holds (calls ++ [call]) vars := by
  refine ⟨h.nodup, fun name => ?_, h.ne_nil.trans ?_⟩
  · rw [h.value name, lastGlobal_concat]
    match call with
    | .globalSet none _ => rfl
    | .globalSet (some name') value => exact absurd rfl (hcall name' value)
    | .globalGet _ _ => rfl
  · refine exists_congr fun name => exists_congr fun value => ?_
    rw [List.mem_append, List.mem_singleton]
    exact (or_iff_left (hcall name value).symm).symm

theorem Holds.step_iff (h : Holds calls vars) (call : Call) :
    (∃ o vars', step vars call = some (o, vars')) ↔ Safe calls call := by
  match call with
  | .globalSet none value => exact iff_of_true ⟨_, _, rfl⟩ trivial
  | .globalSet (some name) value =>
      refine iff_of_true ⟨none, ⟨name, value⟩ :: vars.eraseP fun v => v.name = name, ?_⟩ trivial
      rw [step, vmodGlobalSet_eq]
      rfl
  | .globalGet none r =>
      rw [Safe, ← h.ne_nil, ← vmodGlobalGet_null r, step]
      cases vmodGlobalGet vars none r with
      | none => simp
      | some value => simp
  | .globalGet (some name) r =>
      rw [Safe, ← h.value name, step, vmodGlobalGet_some]
      cases (lookup vars name).bind GlobalVar.value with
      | none => simp
      | some value => cases r <;> simp

theorem Holds.step (h : Holds calls vars) (hstep : step vars call = some (o, vars')) :
    o = expected calls call ∧ Holds (calls ++ [call]) vars' := by
  match call with
  | .globalSet none value =>
      obtain ⟨rfl, rfl⟩ := Prod.mk.inj (Option.some.inj hstep)
      exact ⟨rfl, h.skip (by simp)⟩
  | .globalSet (some name) value =>
      rw [VarGlobals.step, vmodGlobalSet_eq] at hstep
      obtain ⟨rfl, rfl⟩ := Prod.mk.inj (Option.some.inj hstep)
      exact ⟨rfl, h.set name value⟩
  | .globalGet none r =>
      obtain ⟨value, hget, heq⟩ := Option.map_eq_some_iff.mp hstep
      obtain ⟨rfl, rfl⟩ := Prod.mk.inj heq
      refine ⟨?_, h.skip (by simp)⟩
      cases vars with
      | nil => exact (Option.some.inj hget).symm
      | cons v vars => simp [vmodGlobalGet, findGlobal] at hget
  | .globalGet (some name) r =>
      obtain ⟨value, hget, heq⟩ := Option.map_eq_some_iff.mp hstep
      obtain ⟨rfl, rfl⟩ := Prod.mk.inj heq
      refine ⟨?_, h.skip (by simp)⟩
      rw [vmodGlobalGet_some, h.value name] at hget
      change value = lastGlobal name calls
      cases hlast : lastGlobal name calls with
      | none =>
          rw [hlast] at hget
          exact (Option.some.inj hget).symm
      | some last =>
          rw [hlast] at hget
          cases r with
          | false => simp at hget
          | true => exact (Option.some.inj hget).symm

theorem exists_run (hsafe : ∀ pre call post, calls = pre ++ call :: post → Safe pre call) :
    ∃ es vars, run calls = some (es, vars) ∧ Holds calls vars := by
  induction calls using List.reverseRecOn with
  | nil => exact ⟨[], [], rfl, holds_nil⟩
  | append_singleton calls call ih =>
      obtain ⟨es, vars, hrun, hholds⟩ := ih fun pre call' post heq =>
        hsafe pre call' (post ++ [call]) (by simp [heq])
      obtain ⟨o, vars', hstep⟩ := (hholds.step_iff call).mpr (hsafe calls call [] rfl)
      exact ⟨_, vars', Machine.run_append hrun (Machine.run_cons hstep Machine.run_nil),
        (hholds.step hstep).2⟩

theorem holds_of_run {es : List (Machine.Event (List GlobalVar) Call (Option CString))}
    (hcalls : Holds pre vars) (hrun : Machine.run step calls vars = some (es, vars')) :
    Holds (pre ++ calls) vars' := by
  induction calls generalizing pre vars es with
  | nil =>
      obtain ⟨-, rfl⟩ := Prod.mk.inj (Option.some.inj hrun)
      rwa [List.append_nil]
  | cons call calls ih =>
      obtain ⟨o, vars₁, fs, hstep, hrest, -⟩ := Machine.run_cons_inv hrun
      have hnext := ih (hcalls.step hstep).2 hrest
      rwa [List.append_assoc] at hnext

/-- All calls complete and return what was set last just when no `NULL` name is looked up after
a variable has been set, and every value that is returned can be copied. -/
theorem correct_iff (calls : List Call) :
    Correct calls ↔ ∀ pre call post, calls = pre ++ call :: post → Safe pre call := by
  constructor
  · intro hcorrect pre call post heq
    obtain ⟨es, vars, o, vars', hrun, hstep, -⟩ := hcorrect pre call post heq
    have hholds : Holds pre vars := holds_of_run holds_nil hrun
    exact (hholds.step_iff call).mp ⟨o, vars', hstep⟩
  · intro hsafe pre call post heq
    have hpre : ∀ pre' call' post', pre = pre' ++ call' :: post' → Safe pre' call' :=
      fun pre' call' post' heq' => hsafe pre' call' (post' ++ call :: post) (by simp [heq, heq'])
    obtain ⟨es, vars, hrun, hholds⟩ := exists_run hpre
    obtain ⟨o, vars', hstep⟩ := (hholds.step_iff call).mpr (hsafe pre call post heq)
    obtain ⟨ho, hholds'⟩ := hholds.step hstep
    exact ⟨es, vars, o, vars', hrun, hstep, hholds'.nodup, ho⟩

/-- A header that does not exist is looked up after a variable has been set. -/
theorem not_correct_null :
    ¬ Correct [.globalSet (some (str "a")) (some (str "b")), .globalGet none true] := by
  intro hcorrect
  obtain ⟨es, vars, o, vars', hrun, hstep, -⟩ := hcorrect
    [.globalSet (some (str "a")) (some (str "b"))] (.globalGet none true) [] rfl
  obtain ⟨-, rfl⟩ := Prod.mk.inj (Option.some.inj hrun)
  exact nomatch hstep

end VarnishModules.VarGlobals
