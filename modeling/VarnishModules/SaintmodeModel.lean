import VarnishModules.Digest
import VarnishModules.Machine

/-!
The saintmode directors of a VCL: `vmod_saintmode.c`.

A call is one step, since what it changes it changes under the lock of one
object.  What the wrapped backend says of its own health comes from outside.
-/

namespace VarnishModules.SaintmodeModel

/-- A `struct director` that is wrapped. -/
abbrev Backend := Nat

structure Trouble where
  digest : Digest
  timeout : ℚ
  deriving DecidableEq

structure Saintmode where
  be : Backend
  threshold : UInt32
  nTrouble : UInt32
  troublelist : List Trouble
  deriving DecidableEq

/-- `sm_list`. The objects are allocated with the first one. -/
abbrev SaintmodeObjs := List Saintmode

inductive Method
  | recv
  | hash
  | backendResponse
  | other
  deriving DecidableEq

structure Req where
  digest : Digest
  tPrev : ℚ

structure Busyobj where
  digest : Digest
  tPrev : ℚ
  directorResp : Backend

/-- What is written to the log. -/
inductive Message
  | notConfigured
  | outsideBackendResponse
  | notConfiguredForBackend
  | putOnBlacklist (be : Backend) (expires : ℚ)
  | objectBlacklisted (be : Backend)
  | hitThreshold (be : Backend)
  deriving DecidableEq

def vmodSaintmodeInit (be : Backend) (threshold : Int64) : Saintmode :=
  ⟨be, threshold.toUInt64.toUInt32, 0, []⟩

/-- The first object of the list for the backend. -/
def findSm (smObjs : SaintmodeObjs) (be : Backend) : Option Nat :=
  smObjs.findIdx? fun sm => sm.be = be

def insertTrouble (sm : Saintmode) (tp : Trouble) : Saintmode :=
  { sm with troublelist := tp :: sm.troublelist, nTrouble := sm.nTrouble + 1 }

def vmodBlacklist (smObjs : SaintmodeObjs) (method : Method) (bo : Busyobj) (expires : ℚ) :
    Message × SaintmodeObjs :=
  if smObjs = [] then (.notConfigured, smObjs)
  else if method ≠ .backendResponse then (.outsideBackendResponse, smObjs)
  else
    match findSm smObjs bo.directorResp with
    | none => (.notConfiguredForBackend, smObjs)
    | some sm =>
        (.putOnBlacklist bo.directorResp expires,
          smObjs.modify sm fun sm => insertTrouble sm ⟨bo.digest, bo.tPrev + expires⟩)

def vmodSaintmodeBlacklistCount (sm : Saintmode) : UInt32 :=
  sm.nTrouble

/-- The loop of `is_digest_healthy`: what has expired is taken off the list, up to the
first entry for the digest. -/
def pruneLoop (digest : Option Digest) (now : ℚ) : List Trouble → UInt32 →
    Bool × List Trouble × UInt32
  | [], nTrouble => (true, [], nTrouble)
  | tr :: troublelist, nTrouble =>
      if tr.timeout < now then pruneLoop digest now troublelist (nTrouble - 1)
      else if digest = some tr.digest then (false, tr :: troublelist, nTrouble)
      else
        let (retval, troublelist, nTrouble) := pruneLoop digest now troublelist nTrouble
        (retval, tr :: troublelist, nTrouble)

def isDigestHealthy (sm : Saintmode) (digest : Option Digest) (tPrev : ℚ) :
    Bool × Option Message × Saintmode :=
  let (retval, troublelist, nTrouble) := pruneLoop digest tPrev sm.troublelist sm.nTrouble
  let bl := !retval
  let retval := retval && !decide (sm.threshold ≤ nTrouble)
  let vsl :=
    if bl then some (.objectBlacklisted sm.be)
    else if !retval then some (.hitThreshold sm.be)
    else none
  (retval, vsl, { sm with troublelist, nTrouble })

/-- `up` is what the wrapped backend says, `real` what `VTIM_real` says. -/
def healthy (sm : Saintmode) (bo : Option Busyobj) (real : ℚ) (up : Bool) :
    Bool × Option Message × Saintmode :=
  if sm.threshold = 0 ∨ sm.nTrouble = 0 then (up, none, sm)
  else
    match bo with
    | none =>
        -- there is no log to write to
        let (retval, _, sm) := isDigestHealthy sm none real
        (retval && up, none, sm)
    | some bo =>
        let (retval, vsl, sm) := isDigestHealthy sm (some bo.digest) bo.tPrev
        (retval && up, vsl, sm)

def vmodSaintmodeIsHealthy (sm : Saintmode) (method : Method) (req : Option Req)
    (bo : Option Busyobj) (real : ℚ) (up : Bool) : Bool × Option Message × Saintmode :=
  match req with
  | some req =>
      let digest := if method = .recv ∨ method = .hash then none else some req.digest
      isDigestHealthy sm digest req.tPrev
  | none => healthy sm bo real up

def resolve (sm : Saintmode) (bo : Option Busyobj) (real : ℚ) (up : Bool) :
    Option Backend × Option Message × Saintmode :=
  let (retval, vsl, sm) := healthy sm bo real up
  (if !retval then none else some sm.be, vsl, sm)

/-! A VCL that is running. -/

/-- Objects are named by their place on the list. -/
inductive Call
  | blacklist (method : Method) (bo : Busyobj) (expires : ℚ)
  | blacklistCount (sm : Nat)
  | healthy (sm : Nat) (bo : Option Busyobj) (real : ℚ) (up : Bool)
  | isHealthy (sm : Nat) (method : Method) (req : Option Req) (bo : Option Busyobj) (real : ℚ)
      (up : Bool)
  | resolve (sm : Nat) (bo : Option Busyobj) (real : ℚ) (up : Bool)

inductive Result
  | void
  | count (c : UInt32)
  | bool (retval : Bool)
  | backend (be : Option Backend)
  deriving DecidableEq

abbrev Output := Result × Option Message

/-- There is no step for an object that does not exist. -/
def step (smObjs : SaintmodeObjs) : Call → Option (Output × SaintmodeObjs)
  | .blacklist method bo expires =>
      let (vsl, smObjs) := vmodBlacklist smObjs method bo expires
      some ((.void, some vsl), smObjs)
  | .blacklistCount i =>
      smObjs[i]?.map fun sm => ((.count (vmodSaintmodeBlacklistCount sm), none), smObjs)
  | .healthy i bo real up =>
      smObjs[i]?.map fun sm =>
        let (retval, vsl, sm) := SaintmodeModel.healthy sm bo real up
        ((.bool retval, vsl), smObjs.set i sm)
  | .isHealthy i method req bo real up =>
      smObjs[i]?.map fun sm =>
        let (retval, vsl, sm) := vmodSaintmodeIsHealthy sm method req bo real up
        ((.bool retval, vsl), smObjs.set i sm)
  | .resolve i bo real up =>
      smObjs[i]?.map fun sm =>
        let (be, vsl, sm) := SaintmodeModel.resolve sm bo real up
        ((.backend be, vsl), smObjs.set i sm)

/-- The `new` lines of `vcl_init`. -/
abbrev Config := List (Backend × Int64)

def init (config : Config) : SaintmodeObjs :=
  config.map fun c => vmodSaintmodeInit c.1 c.2

def run (config : Config) (calls : List Call) :
    Option (List (Machine.Event SaintmodeObjs Call Output) × SaintmodeObjs) :=
  Machine.run step calls (init config)

/-- The time a health check compares the entries with. -/
def Call.checkTime : Call → Option ℚ
  | blacklist _ _ _ => none
  | blacklistCount _ => none
  | healthy _ bo real _ => some (bo.elim real Busyobj.tPrev)
  | isHealthy _ _ req bo real _ => some (req.elim (bo.elim real Busyobj.tPrev) Req.tPrev)
  | resolve _ bo real _ => some (bo.elim real Busyobj.tPrev)

end VarnishModules.SaintmodeModel
