import VarnishModules.Json
import VarnishModules.SaintmodeModel

/-!
The saintmode functions with the pointers they follow and the assertions they make.

A pointer that may be `NULL` is an `Option`. Pointers to objects are their places on the list.
-/

namespace VarnishModules.SaintmodeChecked

open VarnishModules.CStrings
open VarnishModules.SaintmodeModel

/-- The kinds of structures that are told apart by a magic number. -/
inductive Magic
  | vrtCtx
  | busyobj
  | director
  | saintmode
  | saintmodeObjs
  | trouble
  deriving DecidableEq

structure Obj (α : Type*) where
  magic : Magic
  val : α

section

variable {α : Type*}

/-- `CHECK_OBJ_NOTNULL` and `CAST_OBJ_NOTNULL`: nothing is returned if the assertion fails. -/
def checkObjNotnull (magic : Magic) : Option (Obj α) → Option α
  | none => none
  | some p => if p.magic = magic then some p.val else none

def checkObjOrnull (magic : Magic) : Option (Obj α) → Option (Option α)
  | none => some none
  | some p => if p.magic = magic then some (some p.val) else none

@[simp] theorem checkObjNotnull_mk (magic : Magic) (x : α) :
    checkObjNotnull magic (some ⟨magic, x⟩) = some x :=
  if_pos rfl

end

def isLetter (c : UInt8) : Bool :=
  (65 ≤ c && c ≤ 90) || (97 ≤ c && c ≤ 122)

/-- A name in a VCL: a letter, then letters, digits, underscores and hyphens. -/
structure Identifier where
  name : CString
  head : name.head?.any isLetter = true
  all : name.all (fun c => isLetter c || (48 ≤ c && c ≤ 57) || c == 95 || c == 45) = true

/-- A `struct director` that is wrapped. -/
structure Director where
  be : Backend
  vclName : Identifier

/-- The director in an object, with the object in `priv`. -/
structure Sdir where
  vclName : Identifier
  priv : Nat

structure Sm where
  sdir : Obj Sdir
  be : Option (Obj Director)
  threshold : UInt32
  nTrouble : UInt32
  troublelist : List (Obj Trouble)

/-- What is in `PRIV_VCL`. -/
structure Vcl where
  priv : Option (Obj (List (Obj Sm)))

structure Bo where
  digest : Digest
  tPrev : ℚ
  directorResp : Option (Obj Director)

structure Ctx where
  method : Method
  req : Option Req
  bo : Option (Obj Bo)
  /-- The workspace has room for so many bytes. -/
  wsRoom : Nat → Bool

namespace Vcl

variable (vcl : Vcl)

/-- The object at a place, for the VCL and for `priv` of its director. -/
def object (i : Nat) : Option (Obj Sm) :=
  vcl.priv.bind fun p => p.val[i]?

def setObject (i : Nat) (sm : Sm) : Vcl :=
  ⟨vcl.priv.map fun p => { p with val := p.val.modify i fun o => { o with val := sm } }⟩

end Vcl

def vmodSaintmodeInit (vcl : Vcl) (vclName : Identifier) (be : Option (Obj Director))
    (threshold : Int64) : Option Vcl := do
  let _ ← checkObjNotnull .director be
  let priv := vcl.priv.getD ⟨.saintmodeObjs, []⟩
  let smObjs ← checkObjNotnull .saintmodeObjs (some priv)
  let sm : Sm :=
    { sdir := ⟨.director, ⟨vclName, smObjs.length⟩⟩
      be := be
      threshold := threshold.toUInt64.toUInt32
      nTrouble := 0
      troublelist := [] }
  return ⟨some { priv with val := smObjs ++ [⟨.saintmode, sm⟩] }⟩

def findSm (be : Backend) : List (Obj Sm) → Option (Option Nat)
  | [] => some none
  | o :: smObjs => do
      let sm ← checkObjNotnull .saintmode (some o)
      let dir ← checkObjNotnull .director sm.be
      if dir.be = be then return some 0
      else return (← findSm be smObjs).map (· + 1)

def vmodBlacklist (vcl : Vcl) (ctx : Obj Ctx) (expires : ℚ) : Option (Message × Vcl) :=
  match vcl.priv with
  | none => some (.notConfigured, vcl)
  | some priv => do
      let ctx ← checkObjNotnull .vrtCtx (some ctx)
      if ctx.method ≠ .backendResponse then return (.outsideBackendResponse, vcl)
      let bo ← checkObjNotnull .busyobj ctx.bo
      let smObjs ← checkObjNotnull .saintmodeObjs (some priv)
      let dir ← checkObjNotnull .director bo.directorResp
      match ← findSm dir.be smObjs with
      | none => return (.notConfiguredForBackend, vcl)
      | some i =>
          let tp : Obj Trouble := ⟨.trouble, ⟨bo.digest, bo.tPrev + expires⟩⟩
          return (.putOnBlacklist dir.be expires,
            ⟨some { priv with val := smObjs.modify i fun o =>
              { o with val := { o.val with
                troublelist := tp :: o.val.troublelist
                nTrouble := o.val.nTrouble + 1 } } }⟩)

/-- The objects of `vmod_status`, one on a line. -/
def statusLoop : List (Obj Sm) → Option CString
  | [] => some []
  | o :: smObjs => do
      let sm ← checkObjNotnull .saintmode (some o)
      let dir ← checkObjNotnull .director sm.be
      let rest ← statusLoop smObjs
      return str "\t\t\x7b " ++
        str "\"name\": \"" ++ sm.sdir.val.vclName.name ++ str "\", " ++
        str "\"backend\": \"" ++ dir.vclName.name ++ str "\", " ++
        str "\"count\": \"" ++ Json.decimal sm.nTrouble.toNat ++ str "\", " ++
        str "\"threshold\": \"" ++ Json.decimal sm.threshold.toNat ++ str "\" " ++
        str "\x7d" ++ (if smObjs ≠ [] then str "," else []) ++ str "\n" ++ rest

/-- The result is `NULL` if `WS_Copy` finds no room for the text and its terminating zero. -/
def vmodStatus (vcl : Vcl) (ctx : Obj Ctx) : Option (Option CString) := do
  let ctx ← checkObjNotnull .vrtCtx (some ctx)
  let smObjs ← checkObjNotnull .saintmodeObjs vcl.priv
  let lines ← statusLoop smObjs
  let vsb := str "\x7b\n\t\"saintmode\": [\n" ++ lines ++ str "\t]\n\x7d\n"
  return if ctx.wsRoom (vsb.length + 1) then some vsb else none

def vmodSaintmodeBlacklistCount (vcl : Vcl) (ctx : Obj Ctx) (i : Nat) : Option UInt32 := do
  let _ ← checkObjNotnull .vrtCtx (some ctx)
  let sm ← checkObjNotnull .saintmode (vcl.object i)
  return sm.nTrouble

def pruneLoop (digest : Option Digest) (now : ℚ) : List (Obj Trouble) → UInt32 →
    Option (Bool × List (Obj Trouble) × UInt32)
  | [], nTrouble => some (true, [], nTrouble)
  | o :: troublelist, nTrouble => do
      let tr ← checkObjNotnull .trouble (some o)
      if tr.timeout < now then pruneLoop digest now troublelist (nTrouble - 1)
      else if digest = some tr.digest then return (false, o :: troublelist, nTrouble)
      else
        let (retval, troublelist, nTrouble) ← pruneLoop digest now troublelist nTrouble
        return (retval, o :: troublelist, nTrouble)

/-- The object that `priv` of a director points to. -/
def castPriv (vcl : Vcl) (dir : Obj Sdir) : Option (Nat × Sm) := do
  let dir ← checkObjNotnull .director (some dir)
  let sm ← checkObjNotnull .saintmode (vcl.object dir.priv)
  return (dir.priv, sm)

def isDigestHealthy (vcl : Vcl) (dir : Obj Sdir) (digest : Option Digest) (tPrev : ℚ) :
    Option (Bool × Option Message × Vcl) := do
  let (i, sm) ← castPriv vcl dir
  let be ← checkObjNotnull .director sm.be
  let (retval, troublelist, nTrouble) ← pruneLoop digest tPrev sm.troublelist sm.nTrouble
  let bl := !retval
  let retval := retval && !decide (sm.threshold ≤ nTrouble)
  let vsl :=
    if bl then some (.objectBlacklisted be.be)
    else if !retval then some (.hitThreshold be.be)
    else none
  return (retval, vsl, vcl.setObject i { sm with troublelist, nTrouble })

def healthy (vcl : Vcl) (dir : Obj Sdir) (bo : Option (Obj Bo)) (real : ℚ) (up : Bool) :
    Option (Bool × Option Message × Vcl) := do
  let (_, sm) ← castPriv vcl dir
  let _ ← checkObjNotnull .director sm.be
  let bo ← checkObjOrnull .busyobj bo
  if sm.threshold = 0 ∨ sm.nTrouble = 0 then return (up, none, vcl)
  match bo with
  | none =>
      let (retval, _, vcl) ← isDigestHealthy vcl dir none real
      return (retval && up, none, vcl)
  | some bo =>
      let (retval, vsl, vcl) ← isDigestHealthy vcl dir (some bo.digest) bo.tPrev
      return (retval && up, vsl, vcl)

def vmodSaintmodeIsHealthy (vcl : Vcl) (ctx : Obj Ctx) (i : Nat) (real : ℚ) (up : Bool) :
    Option (Bool × Option Message × Vcl) := do
  let ctx ← checkObjNotnull .vrtCtx (some ctx)
  let sm ← checkObjNotnull .saintmode (vcl.object i)
  let _ ← checkObjNotnull .director (some sm.sdir)
  match ctx.req with
  | some req =>
      let digest := if ctx.method = .recv ∨ ctx.method = .hash then none else some req.digest
      isDigestHealthy vcl sm.sdir digest req.tPrev
  | none => healthy vcl sm.sdir ctx.bo real up

def resolve (vcl : Vcl) (dir : Obj Sdir) (bo : Option (Obj Bo)) (real : ℚ) (up : Bool) :
    Option (Option Backend × Option Message × Vcl) := do
  let (_, sm) ← castPriv vcl dir
  let (retval, vsl, vcl) ← healthy vcl dir bo real up
  return (if !retval then none else sm.be.map fun be => be.val.be, vsl, vcl)

/-! A VCL that is running. -/

inductive Call
  | blacklist (ctx : Obj Ctx) (expires : ℚ)
  | status (ctx : Obj Ctx)
  | blacklistCount (ctx : Obj Ctx) (sm : Nat)
  | isHealthy (ctx : Obj Ctx) (sm : Nat) (real : ℚ) (up : Bool)
  | resolve (sm : Nat) (bo : Option (Obj Bo)) (real : ℚ) (up : Bool)

inductive Output
  | call (o : SaintmodeModel.Output)
  | status (p : Option CString)

/-- There is no step where an assertion fails, nor for an object that does not exist. -/
def step (vcl : Vcl) : Call → Option (Output × Vcl)
  | .blacklist ctx expires => do
      let (vsl, vcl) ← vmodBlacklist vcl ctx expires
      return (.call (.void, some vsl), vcl)
  | .status ctx => do
      let p ← vmodStatus vcl ctx
      return (.status p, vcl)
  | .blacklistCount ctx i => do
      let c ← vmodSaintmodeBlacklistCount vcl ctx i
      return (.call (.count c, none), vcl)
  | .isHealthy ctx i real up => do
      let (retval, vsl, vcl) ← vmodSaintmodeIsHealthy vcl ctx i real up
      return (.call (.bool retval, vsl), vcl)
  | .resolve i bo real up => do
      let o ← vcl.object i
      let (be, vsl, vcl) ← SaintmodeChecked.resolve vcl o.val.sdir bo real up
      return (.call (.backend be, vsl), vcl)

/-- The `new` lines of `vcl_init`. -/
abbrev Config := List (Identifier × Director × Int64)

def load (config : Config) : Option Vcl :=
  config.foldlM (fun vcl c => vmodSaintmodeInit vcl c.1 (some ⟨.director, c.2.1⟩) c.2.2) ⟨none⟩

def run (config : Config) (calls : List Call) :
    Option (List (Machine.Event Vcl Call Output) × Vcl) :=
  (load config).bind (Machine.run step calls)

end VarnishModules.SaintmodeChecked
