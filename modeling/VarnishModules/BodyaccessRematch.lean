import VarnishModules.BodyaccessModel
import VarnishModules.Machine

/-!
The calls of `rematch_req_body` at one place of a VCL.

The first expression that compiles there is the one all later calls match.
-/

namespace VarnishModules.BodyaccessRematch

open VarnishModules.CStrings
open VarnishModules.BodyaccessModel

/-- A call in `vcl_recv` with a cached body. -/
structure Call where
  re : CString
  body : Iteration

section

variable {R : Type*} (vreCompile : CString → Option R) (vreExec : R → List UInt8 → Int)

def step (priv : Option R) (c : Call) : Option (Int × Option R) :=
  (vmodRematchReqBody vreCompile vreExec .cached .recv priv (some c.re) c.body).map fun r =>
    (r.ret, r.priv)

abbrev Event (R : Type*) := Machine.Event (Option R) Call Int

def run : List Call → Option R → Option (List (Event R) × Option R) :=
  Machine.run (step vreCompile vreExec)

variable (Matches : R → List UInt8 → Prop) [∀ t body, Decidable (Matches t body)]

/-- What a call should return, by its own expression and body. -/
def answer (c : Call) : Int :=
  match vreCompile c.re with
  | none => -1
  | some t => if c.body.ret < 0 then -1 else if Matches t c.body.bytes then 1 else 0

/-- The first expression that compiled. -/
def kept (cs : List Call) : Option R :=
  cs.findSome? fun c => vreCompile c.re

/-- After the calls in `cs`, an expression that does not compile is the first one, and one that
does is on the body as the one that is kept. -/
def Agrees (cs : List Call) (c : Call) : Prop :=
  match vreCompile c.re with
  | none => kept vreCompile cs = none
  | some t => 0 ≤ c.body.ret ∧
      ∀ t', kept vreCompile cs = some t' → (Matches t' c.body.bytes ↔ Matches t c.body.bytes)

end

variable {R : Type*} {vreCompile : CString → Option R} {vreExec : R → List UInt8 → Int}
variable {priv priv' : Option R} {c : Call} {cs : List Call} {es : List (Event R)}

/-- The expression a call matches. -/
theorem step_eq (priv : Option R) (c : Call) :
    step vreCompile vreExec priv c = some
      (match priv.or (vreCompile c.re) with
        | none => -1
        | some t =>
            if vreExec t c.body.bytes > 0 then 1
            else if vreExec t c.body.bytes = vreErrorNomatch then 0 else -1,
        priv.or (vreCompile c.re)) := by
  have hpriv : (if priv.isNone then vreCompile c.re else priv) = priv.or (vreCompile c.re) := by
    cases priv <;> rfl
  simp only [step, vmodRematchReqBody, ne_eq, not_true_eq_false, if_false, Option.map_some, hpriv,
    bodyaccessBcat_eq]
  cases priv.or (vreCompile c.re) with
  | none => rfl
  | some t =>
      dsimp only
      split_ifs <;> rfl

theorem run_priv (hrun : run vreCompile vreExec cs priv = some (es, priv')) :
    priv' = priv.or (kept vreCompile cs) := by
  induction cs generalizing priv es with
  | nil =>
      obtain ⟨-, rfl⟩ := Prod.mk.inj (Option.some.inj hrun)
      exact Option.or_none.symm
  | cons c cs ih =>
      obtain ⟨o, priv₁, fs, hstep, hrest, rfl⟩ := Machine.run_cons_inv hrun
      rw [step_eq] at hstep
      obtain ⟨-, rfl⟩ := Prod.mk.inj (Option.some.inj hstep)
      rw [ih hrest, Option.or_assoc]
      congr 1
      rw [kept, kept, List.findSome?_cons]
      cases vreCompile c.re <;> rfl

variable (vreCompile vreExec) in
theorem exists_run (cs : List Call) (priv : Option R) :
    ∃ es priv', run vreCompile vreExec cs priv = some (es, priv') := by
  induction cs generalizing priv with
  | nil => exact ⟨[], priv, rfl⟩
  | cons c cs ih =>
      obtain ⟨es, priv', hrest⟩ := ih (priv.or (vreCompile c.re))
      exact ⟨_, priv', Machine.run_cons (step_eq priv c) hrest⟩

section

variable {Matches : R → List UInt8 → Prop} [∀ t body, Decidable (Matches t body)]

/-- The result of matching an expression on a body. -/
theorem exec_result (hmatch : ∀ t body, Matches t body → 0 < vreExec t body)
    (hnomatch : ∀ t body, ¬ Matches t body → vreExec t body = vreErrorNomatch) (t : R)
    (body : List UInt8) :
    (if vreExec t body > 0 then 1 else if vreExec t body = vreErrorNomatch then 0 else -1 : Int) =
      if Matches t body then 1 else 0 := by
  by_cases h : Matches t body
  · rw [if_pos (hmatch t body h), if_pos h]
  · rw [hnomatch t body h, if_neg (by decide), if_pos rfl, if_neg h]

theorem result_eq_iff (p q : Prop) [Decidable p] [Decidable q] (ret : Int) :
    (if p then 1 else 0 : Int) = (if ret < 0 then -1 else if q then 1 else 0) ↔
      0 ≤ ret ∧ (p ↔ q) := by
  by_cases hret : ret < 0
  · rw [if_pos hret]
    refine iff_of_false ?_ fun h => absurd h.1 (not_le.mpr hret)
    split_ifs <;> decide
  · rw [if_neg hret, and_iff_right (not_lt.mp hret)]
    by_cases hp : p
    · by_cases hq : q <;> simp [hp, hq]
    · by_cases hq : q <;> simp [hp, hq]

theorem step_output_iff (hmatch : ∀ t body, Matches t body → 0 < vreExec t body)
    (hnomatch : ∀ t body, ¬ Matches t body → vreExec t body = vreErrorNomatch) {o : Int}
    (hstep : step vreCompile vreExec (kept vreCompile cs) c = some (o, priv')) :
    o = answer vreCompile Matches c ↔ Agrees vreCompile Matches cs c := by
  rw [step_eq] at hstep
  obtain ⟨rfl, -⟩ := Prod.mk.inj (Option.some.inj hstep)
  cases hcompile : vreCompile c.re with
  | none =>
      simp only [answer, Agrees, hcompile, Option.or_none]
      cases hkept : kept vreCompile cs with
      | none => simp
      | some t' =>
          simp only [exec_result hmatch hnomatch]
          split_ifs <;> simp
  | some t =>
      simp only [answer, Agrees, hcompile]
      cases hkept : kept vreCompile cs with
      | none =>
          simp only [Option.none_or, exec_result hmatch hnomatch, result_eq_iff]
          simp
      | some t' =>
          simp only [Option.some_or, exec_result hmatch hnomatch, result_eq_iff]
          simp

end

/-- A call at a place returns what it should just when its expression agrees with the one that is
kept there, and its body was read to the end. -/
theorem output_eq_answer_iff {R : Type*} (vreCompile : CString → Option R)
    (vreExec : R → List UInt8 → Int) (Matches : R → List UInt8 → Prop)
    [∀ t body, Decidable (Matches t body)]
    (hmatch : ∀ t body, Matches t body → 0 < vreExec t body)
    (hnomatch : ∀ t body, ¬ Matches t body → vreExec t body = vreErrorNomatch)
    (cs : List Call) :
    ∃ es priv, run vreCompile vreExec cs none = some (es, priv) ∧
      ∀ fs (e : Event R) gs, es = fs ++ e :: gs →
        (e.output = answer vreCompile Matches e.input ↔
          Agrees vreCompile Matches (fs.map Machine.Event.input) e.input) := by
  obtain ⟨es, priv, hrun⟩ := exists_run vreCompile vreExec cs none
  refine ⟨es, priv, hrun, ?_⟩
  rintro fs e gs rfl
  obtain ⟨cs', priv', hbefore, hstep⟩ := Machine.run_split hrun
  rw [run_priv hbefore, Option.none_or] at hstep
  rw [Machine.map_input_run hbefore]
  exact step_output_iff hmatch hnomatch hstep

/-! Expressions that are literals. -/

def literalCompile (re : CString) : Option CString :=
  if re = str "(" then none else some re

def literalExec (t : CString) (body : List UInt8) : Int :=
  if t <:+: body then 1 else vreErrorNomatch

/-- A body that is cached in one chunk. -/
def bodyA (ret : Int) : Iteration := ⟨[⟨str "a", by decide⟩], ret⟩

def callsAtOnePlace : List Call :=
  [⟨str "a", bodyA 0⟩, ⟨str "b", bodyA 0⟩, ⟨str "(", bodyA 0⟩, ⟨str "a", bodyA (-1)⟩]

theorem output_eq_answer_iff_literal :
    ∃ es priv, run literalCompile literalExec callsAtOnePlace none = some (es, priv) ∧
      ∀ fs (e : Event CString) gs, es = fs ++ e :: gs →
        (e.output = answer literalCompile (fun t body => t <:+: body) e.input ↔
          Agrees literalCompile (fun t body => t <:+: body) (fs.map Machine.Event.input)
            e.input) :=
  output_eq_answer_iff literalCompile literalExec (fun t body => t <:+: body)
    (fun t body h => by rw [literalExec, if_pos h]; decide)
    (fun t body h => by rw [literalExec, if_neg h]) callsAtOnePlace

/-- After the first call, another expression, one that does not compile and a body that is not
read to the end are answered as if by the first. -/
theorem not_output_eq_answer :
    (run literalCompile literalExec callsAtOnePlace none).map
        (fun r => r.1.map Machine.Event.output) = some [1, 1, 1, 1] ∧
      callsAtOnePlace.map (answer literalCompile fun t body => t <:+: body) = [1, 0, -1, -1] := by
  decide +kernel

end VarnishModules.BodyaccessRematch
