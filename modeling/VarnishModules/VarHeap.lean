import VarnishModules.Malloc
import VarnishModules.VarGlobals

/-!
The global variables of `vmod_var.c` on their memory: a tail queue of variables, and the
strings they point at.
-/

namespace VarnishModules.VarHeap

open VarnishModules.CStrings
open VarnishModules.TailQueue
open VarnishModules.Malloc
open VarnishModules.VarModel (GlobalVar)
open VarnishModules.VarGlobals (Call)

/-- `enum VAR_TYPE`; the first one is what a zeroed variable has. -/
inductive VarType
  | string
  | int
  | real
  | duration
  | ip
  | backend
  deriving DecidableEq

structure Var where
  name : Option ℕ
  type : VarType
  /-- `value.STRING`. -/
  value : Option ℕ

/-- `global_vars` is the head `()`. -/
structure Memory where
  vars : Queues Unit Unit ℕ
  var : ℕ → Var
  fresh : ℕ
  strings : Blocks CString

def alive : Unit → Bool := fun _ => true

namespace Memory

variable (M : Memory)

def setVar (v : ℕ) (x : Var) : Memory :=
  { M with var := Function.update M.var v x }

/-- `VTAILQ_HEAD_INITIALIZER`. -/
def initial : Memory := ⟨Queues.empty, fun _ => ⟨none, .string, none⟩, 0, Blocks.empty⟩

/-- The list is not longer. -/
def fuel : ℕ := M.fresh + 1

/-- The loop over `global_vars` from the cursor on. -/
def findVar (name : Option CString) : ℕ → Option ℕ → Except Fault (Option ℕ)
  | _, none => .ok none
  | 0, some _ => .error .outOfFuel
  | n + 1, some v => do
      M.vars.touchElem v
      match (M.var v).name with
      | none => .error .assertion
      | some p => do
          let s ← M.strings.read p
          match name with
          | none => .error .nullDeref
          | some name =>
              if s = name then return some v else findVar (some name) n (M.vars.next () v)

/-- The variable of `global_set`, taken off the list or allocated. -/
def takeVar : Option ℕ → Except Fault (ℕ × Memory)
  | some v => do
      let vars ← M.vars.remove alive () () v
      let strings ← M.strings.free (M.var v).name
      return (v, { M with vars, strings }.setVar v { M.var v with name := none })
  | none => .ok (M.fresh,
      { M with vars := M.vars.alloc M.fresh, fresh := M.fresh + 1 }.setVar M.fresh
        ⟨none, .string, none⟩)

/-- `v->name = strdup(name)`. -/
def setName (v : ℕ) (name : CString) : Memory :=
  { M with strings := M.strings.alloc name }.setVar v
    { M.var v with name := some M.strings.fresh }

/-- The end of `global_set`. -/
def setValue (v : ℕ) (value : Option CString) : Except Fault Memory := do
  let strings ← M.strings.free (if (M.var v).type = .string then (M.var v).value else none)
  let M := { M with strings }.setVar v { M.var v with type := .string, value := none }
  match value with
  | none => return M
  | some value =>
      return { M with strings := M.strings.alloc value }.setVar v
        { M.var v with value := some M.strings.fresh }

def vmodGlobalSet (name value : Option CString) : Except Fault Memory :=
  match name with
  | none => .ok M
  | some name => do
      let v ← M.findVar (some name) M.fuel (M.vars.first ())
      let (v, M) ← M.takeVar v
      let M := M.setName v name
      let vars ← M.vars.insertHead alive () () v
      Memory.setValue { M with vars } v value

/-- `r` tells whether the workspace has room for the copy. -/
def vmodGlobalGet (name : Option CString) (r : Bool) : Except Fault (Option CString) := do
  let v ← M.findVar name M.fuel (M.vars.first ())
  match v.bind fun v => (M.var v).value with
  | none => return none
  | some p => do
      let value ← M.strings.read p
      if r then return some value else .error .assertion

/-- The variable behind a pointer. -/
def readVar (v : ℕ) : Except Fault GlobalVar :=
  match (M.var v).name with
  | none => .error .assertion
  | some p => do
      let name ← M.strings.read p
      match (M.var v).value with
      | none => return ⟨name, none⟩
      | some q => do
          let value ← M.strings.read q
          return ⟨name, some value⟩

/-- What is on the list. -/
def contents : Except Fault (List GlobalVar) := do
  let vs ← M.vars.walk () M.fuel (M.vars.first ())
  vs.mapM M.readVar

def call : Call → Except Fault (Option CString × Memory)
  | .globalSet name value => do return (none, ← M.vmodGlobalSet name value)
  | .globalGet name r => do return (← M.vmodGlobalGet name r, M)

end Memory

def run : List Call → Memory → Except Fault (List (Option CString) × Memory)
  | [], M => .ok ([], M)
  | c :: cs, M => do
      let (o, M) ← M.call c
      let (os, M) ← run cs M
      return (o :: os, M)

end VarnishModules.VarHeap
