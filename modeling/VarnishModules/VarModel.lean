import VarnishModules.CStrings

/-!
Variables of a task and global ones: `vmod_var.c`.

An assertion that fails leaves no result.
-/

namespace VarnishModules.VarModel

open VarnishModules.CStrings

/-- The bits of a `double`. -/
abbrev Double := UInt64

/-- The bytes behind a `VCL_IP`. -/
abbrev Suckaddr := List UInt8

/-- The type of a variable and the member of the union that goes with it. -/
inductive Value
  | string (p : Option CString)
  | int (n : Int32)
  | real (x : Double)
  | duration (x : Double)
  | ip (ip : Option Suckaddr)
  | backend (be : Option Nat)

/-- Nothing is in a variable between its allocation and the first assignment. -/
structure Var where
  name : CString
  value : Option Value

structure Task where
  /-- The list of the head, once there is a head. -/
  priv : Option (List Var)
  /-- The outcomes of the allocations to come. -/
  ws : Nat → Bool

/-- `WS_Alloc` or `WS_Copy`. -/
def Task.alloc (t : Task) : Bool × Task :=
  (t.ws 0, { t with ws := fun n => t.ws (n + 1) })

def vhGetVar (vars : List Var) (name : CString) : Option Var :=
  vars.find? fun v => v.name = name

/-- A head of zeros has no first variable either. -/
def getVh (t : Task) : List Var :=
  t.priv.getD []

def vhGetVarAlloc (t : Task) (name : CString) : Option Task :=
  match vhGetVar (getVh t) name with
  | some _ => some { t with priv := some (getVh t) }
  | none =>
      let vars := getVh t
      let (v, t) := t.alloc
      let (vname, t) := t.alloc
      if v && vname then some { t with priv := some (⟨name, none⟩ :: vars) } else none

/-- The variable that `vh_get_var_alloc` returns is assigned. -/
def assign (name : CString) (value : Value) : List Var → List Var
  | [] => []
  | v :: vars =>
      if v.name = name then { v with value := some value } :: vars
      else v :: assign name value vars

def Task.assign (t : Task) (name : CString) (value : Value) : Task :=
  { t with priv := t.priv.map (VarModel.assign name value) }

def vmodSetString (t : Task) (name value : Option CString) : Option Task :=
  match name with
  | none => some t
  | some name => do
      let t ← vhGetVarAlloc t name
      let (p, t) := t.alloc
      return t.assign name (.string (if p then some (value.getD []) else none))

def vmodSet (t : Task) (name value : Option CString) : Option Task :=
  vmodSetString t name value

def vmodSetIp (t : Task) (name : Option CString) (ip : Option Suckaddr) : Option Task :=
  match name with
  | none => some t
  | some name => do
      let t ← vhGetVarAlloc t name
      let ip ← ip
      let (p, t) := t.alloc
      return t.assign name (.ip (if p then some ip else none))

/-- `VMOD_SET_X`. -/
def vmodSetX (t : Task) (name : Option CString) (value : Value) : Option Task :=
  match name with
  | none => some t
  | some name => do
      let t ← vhGetVarAlloc t name
      return t.assign name value

/-- The member of the union is an `int`. -/
def vmodSetInt (t : Task) (name : Option CString) (value : Int64) : Option Task :=
  vmodSetX t name (.int value.toInt32)

def vmodSetReal (t : Task) (name : Option CString) (value : Double) : Option Task :=
  vmodSetX t name (.real value)

def vmodSetDuration (t : Task) (name : Option CString) (value : Double) : Option Task :=
  vmodSetX t name (.duration value)

def vmodSetBackend (t : Task) (name : Option CString) (value : Option Nat) : Option Task :=
  vmodSetX t name (.backend value)

/-- `VMOD_GET_X`: `zero` is returned if there is no variable with the name and type. -/
def vmodGetX {α : Type} (t : Task) (name : Option CString) (member : Value → Option α)
    (zero : α) : α × Task :=
  match name with
  | none => (zero, t)
  | some name =>
      ((((vhGetVar (getVh t) name).bind Var.value).bind member).getD zero,
        { t with priv := some (getVh t) })

def vmodGetString (t : Task) (name : Option CString) : Option CString × Task :=
  vmodGetX t name (fun | .string p => some p | _ => none) none

def vmodGet (t : Task) (name : Option CString) : Option CString × Task :=
  vmodGetString t name

def vmodGetIp (t : Task) (name : Option CString) : Option Suckaddr × Task :=
  vmodGetX t name (fun | .ip ip => some ip | _ => none) none

def vmodGetInt (t : Task) (name : Option CString) : Int64 × Task :=
  vmodGetX t name (fun | .int n => some n.toInt64 | _ => none) 0

def vmodGetReal (t : Task) (name : Option CString) : Double × Task :=
  vmodGetX t name (fun | .real x => some x | _ => none) 0

def vmodGetDuration (t : Task) (name : Option CString) : Double × Task :=
  vmodGetX t name (fun | .duration x => some x | _ => none) 0

def vmodGetBackend (t : Task) (name : Option CString) : Option Nat × Task :=
  vmodGetX t name (fun | .backend be => some be | _ => none) none

def vmodClear (t : Task) : Task :=
  { t with priv := some [] }

/-! The list that all tasks share. -/

/-- Its type is always `STRING`. -/
structure GlobalVar where
  name : CString
  value : Option CString

/-- The loop over `global_vars`; `strcmp` reads both names. -/
def findGlobal : List GlobalVar → Option CString → Option (Option GlobalVar)
  | [], _ => some none
  | _ :: _, none => none
  | v :: vars, some name => if v.name = name then some (some v) else findGlobal vars (some name)

def vmodGlobalSet (vars : List GlobalVar) (name value : Option CString) :
    Option (List GlobalVar) :=
  match name with
  | none => some vars
  | some name => do
      match ← findGlobal vars (some name) with
      | some _ => return ⟨name, value⟩ :: vars.eraseP fun v => v.name = name
      | none => return ⟨name, value⟩ :: vars

/-- `r` tells whether the workspace has room for the copy. -/
def vmodGlobalGet (vars : List GlobalVar) (name : Option CString) (r : Bool) :
    Option (Option CString) := do
  match ← findGlobal vars name with
  | none => return none
  | some v =>
      match v.value with
      | none => return none
      | some value => if r then return some value else none

end VarnishModules.VarModel
