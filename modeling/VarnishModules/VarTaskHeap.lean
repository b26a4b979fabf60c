import VarnishModules.QueueFind
import VarnishModules.VarHeap

/-!
The variables of a task of `vmod_var.c` on their memory.

The head is allocated by the first call that needs it, as zeros: `VTAILQ_INIT` is not run
before `clear`. The variables are on the workspace, whose memory holds what it held before.
-/

namespace VarnishModules.VarTaskHeap

open VarnishModules.CStrings
open VarnishModules.TailQueue
open VarnishModules.QueueFind
open VarnishModules.VarModel (Double Suckaddr Value Task)
open VarnishModules.VarHeap (VarType)

/-- `value` is the member of the union that was written last, with what was written. -/
structure Cell where
  name : Option CString
  type : VarType
  value : Option Value

/-- The head of the list is `()`; it is allocated if `priv` is. -/
structure Memory where
  priv : Bool
  vars : Queues Unit Unit ℕ
  var : ℕ → Cell
  fresh : ℕ
  /-- The outcomes of the allocations to come. -/
  ws : ℕ → Bool

/-- The member that goes with a type. -/
def typeOf : Value → VarType
  | .string _ => .string
  | .int _ => .int
  | .real _ => .real
  | .duration _ => .duration
  | .ip _ => .ip
  | .backend _ => .backend

namespace Memory

variable (M : Memory)

/-- The start of a task. -/
def initial (junk : ℕ → Cell) (ws : ℕ → Bool) : Memory :=
  ⟨false, Queues.empty, junk, 0, ws⟩

/-- The list is not longer. -/
def fuel : ℕ := M.fresh + 1

def alive : Unit → Bool := fun _ => M.priv

/-- `WS_Alloc` or `WS_Copy`. -/
def alloc : Bool × Memory :=
  (M.ws 0, { M with ws := fun n => M.ws (n + 1) })

def setVar (v : ℕ) (x : Cell) : Memory :=
  { M with var := Function.update M.var v x }

/-- The members of the head are `NULL`. -/
def zeroHead : Memory :=
  { M with vars := { M.vars with first := fun _ => none, last := fun _ => none } }

/-- The head of the task, which is allocated if there is none. -/
def getVh : Memory :=
  if M.priv then M else { M.zeroHead with priv := true }

def vhInit : Memory :=
  let M := M.zeroHead
  { M with vars := M.vars.init () }

def vhGetVar (name : CString) : Except Fault (Option ℕ) :=
  findFirst M.vars () (fun v =>
    match (M.var v).name with
    | none => .error .assertion
    | some s => .ok (decide (s = name))) M.fuel (M.vars.first ())

/-- A variable for a name that is not on the list. -/
def newVar (name : CString) : Except Fault (ℕ × Memory) :=
  let v := M.fresh
  let (p, M) := M.alloc
  if !p then .error .assertion
  else
    let M := { M with vars := M.vars.alloc v, fresh := M.fresh + 1 }
    let (p, M) := M.alloc
    if !p then .error .assertion
    else do
      let M := M.setVar v { M.var v with name := some name }
      let vars ← M.vars.insertHead M.alive () () v
      return (v, { M with vars })

def vhGetVarAlloc (name : CString) : Except Fault (ℕ × Memory) := do
  match ← M.vhGetVar name with
  | some v => return (v, M)
  | none => M.newVar name

/-- `v->type = type; v->value.member = value;` -/
def assign (v : ℕ) (value : Value) : Memory :=
  M.setVar v { M.var v with type := typeOf value, value := some value }

def vmodSetString (name value : Option CString) : Except Fault Memory :=
  match name with
  | none => .ok M
  | some name => do
      let (v, M) ← M.getVh.vhGetVarAlloc name
      let (p, M) := M.alloc
      return M.assign v (.string (if p then some (value.getD []) else none))

def vmodSetIp (name : Option CString) (ip : Option Suckaddr) : Except Fault Memory :=
  match name with
  | none => .ok M
  | some name => do
      let (v, M) ← M.getVh.vhGetVarAlloc name
      match ip with
      | none => .error .assertion
      | some ip =>
          let (p, M) := M.alloc
          return M.assign v (.ip (if p then some ip else none))

/-- `VMOD_SET_X`. -/
def vmodSetX (name : Option CString) (value : Value) : Except Fault Memory :=
  match name with
  | none => .ok M
  | some name => do
      let (v, M) ← M.getVh.vhGetVarAlloc name
      return M.assign v value

/-- `VMOD_GET_X`. A member of the union that was not written last is not there to be read. -/
def vmodGetX {α : Type} (name : Option CString) (type : VarType) (member : Value → Option α)
    (zero : α) : Except Fault (α × Memory) :=
  match name with
  | none => .ok (zero, M)
  | some name => do
      let M := M.getVh
      match ← M.vhGetVar name with
      | none => return (zero, M)
      | some v =>
          if (M.var v).type ≠ type then return (zero, M)
          else
            match (M.var v).value.bind member with
            | none => .error .useAfterFree
            | some a => return (a, M)

def vmodClear : Memory :=
  M.getVh.vhInit

end Memory

/-- The calls of a task. -/
inductive Call
  | set (name value : Option CString)
  | get (name : Option CString)
  | setString (name value : Option CString)
  | getString (name : Option CString)
  | setInt (name : Option CString) (value : Int64)
  | getInt (name : Option CString)
  | setReal (name : Option CString) (value : Double)
  | getReal (name : Option CString)
  | setDuration (name : Option CString) (value : Double)
  | getDuration (name : Option CString)
  | setIp (name : Option CString) (ip : Option Suckaddr)
  | getIp (name : Option CString)
  | setBackend (name : Option CString) (value : Option ℕ)
  | getBackend (name : Option CString)
  | clear

/-- What a call returns. -/
inductive Answer
  | nothing
  | string (s : Option CString)
  | int (n : Int64)
  | double (x : Double)
  | ip (ip : Option Suckaddr)
  | backend (be : Option ℕ)
  deriving DecidableEq

def stringOf : Value → Option (Option CString)
  | .string p => some p
  | _ => none

def intOf : Value → Option Int64
  | .int n => some n.toInt64
  | _ => none

def realOf : Value → Option Double
  | .real x => some x
  | _ => none

def durationOf : Value → Option Double
  | .duration x => some x
  | _ => none

def ipOf : Value → Option (Option Suckaddr)
  | .ip ip => some ip
  | _ => none

def backendOf : Value → Option (Option ℕ)
  | .backend be => some be
  | _ => none

/-- A setter has nothing to return. -/
def Memory.setter (M : Except Fault Memory) : Except Fault (Answer × Memory) := do
  return (.nothing, ← M)

def Memory.getter {α : Type} (answer : α → Answer) (r : Except Fault (α × Memory)) :
    Except Fault (Answer × Memory) := do
  let (a, M) ← r
  return (answer a, M)

def Memory.call (M : Memory) : Call → Except Fault (Answer × Memory)
  | .set name value => setter (M.vmodSetString name value)
  | .get name => getter .string (M.vmodGetX name .string stringOf none)
  | .setString name value => setter (M.vmodSetString name value)
  | .getString name => getter .string (M.vmodGetX name .string stringOf none)
  | .setInt name value => setter (M.vmodSetX name (.int value.toInt32))
  | .getInt name => getter .int (M.vmodGetX name .int intOf 0)
  | .setReal name value => setter (M.vmodSetX name (.real value))
  | .getReal name => getter .double (M.vmodGetX name .real realOf 0)
  | .setDuration name value => setter (M.vmodSetX name (.duration value))
  | .getDuration name => getter .double (M.vmodGetX name .duration durationOf 0)
  | .setIp name ip => setter (M.vmodSetIp name ip)
  | .getIp name => getter .ip (M.vmodGetX name .ip ipOf none)
  | .setBackend name value => setter (M.vmodSetX name (.backend value))
  | .getBackend name => getter .backend (M.vmodGetX name .backend backendOf none)
  | .clear => setter (.ok M.vmodClear)

def run : List Call → Memory → Except Fault (List Answer × Memory)
  | [], M => .ok ([], M)
  | c :: cs, M => do
      let (a, M) ← M.call c
      let (as, M) ← run cs M
      return (a :: as, M)

/-- A call on the list of variables. -/
def step (t : Task) : Call → Option (Answer × Task)
  | .set name value => (VarModel.vmodSet t name value).map (Prod.mk .nothing)
  | .get name => some (Prod.map .string id (VarModel.vmodGet t name))
  | .setString name value => (VarModel.vmodSetString t name value).map (Prod.mk .nothing)
  | .getString name => some (Prod.map .string id (VarModel.vmodGetString t name))
  | .setInt name value => (VarModel.vmodSetInt t name value).map (Prod.mk .nothing)
  | .getInt name => some (Prod.map .int id (VarModel.vmodGetInt t name))
  | .setReal name value => (VarModel.vmodSetReal t name value).map (Prod.mk .nothing)
  | .getReal name => some (Prod.map .double id (VarModel.vmodGetReal t name))
  | .setDuration name value => (VarModel.vmodSetDuration t name value).map (Prod.mk .nothing)
  | .getDuration name => some (Prod.map .double id (VarModel.vmodGetDuration t name))
  | .setIp name ip => (VarModel.vmodSetIp t name ip).map (Prod.mk .nothing)
  | .getIp name => some (Prod.map .ip id (VarModel.vmodGetIp t name))
  | .setBackend name value => (VarModel.vmodSetBackend t name value).map (Prod.mk .nothing)
  | .getBackend name => some (Prod.map .backend id (VarModel.vmodGetBackend t name))
  | .clear => some (.nothing, VarModel.vmodClear t)

end VarnishModules.VarTaskHeap
