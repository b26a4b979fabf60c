import VarnishModules.SaintmodeVerdict
import VarnishModules.TailQueue

/-!
`vmod_saintmode.c` on its memory, with threads.

The entries are allocated by `blacklist`, hang on the list of an object, move to a list of the
thread that finds them expired, and are freed by that thread after it has let go of the lock.
A thread can be interrupted wherever it does not hold the lock.
-/

namespace VarnishModules.SaintmodeHeap

open VarnishModules.TailQueue
open VarnishModules.SaintmodeModel (Backend Trouble Method Req Busyobj Message Config)
open VarnishModules.SaintmodeVerdict (Asker Check Answer)

/-- The heads of lists of entries. -/
inductive Head
  | troublelist (sm : ℕ)
  /-- The `troublelist` of a call of `is_digest_healthy`. -/
  | pruned (thread : ℕ)
  deriving DecidableEq

abbrev Links := Queues Head Unit ℕ

structure Sm where
  be : Backend
  threshold : UInt32
  nTrouble : UInt32
  deriving DecidableEq

/-- Where a thread is, with what it holds in its local variables. -/
inductive Thread
  | idle
  /-- In `vmod_blacklist`, before the lock. -/
  | insert (sm : ℕ) (bo : Busyobj) (expires : ℚ) (tp : ℕ)
  /-- In `healthy`, before the lock. -/
  | check (c : Check)
  /-- In the last loop of `is_digest_healthy`. -/
  | release (tr : Option ℕ)

/-- The objects are in the order of `sm_list`. -/
structure Memory where
  queues : Links
  trouble : ℕ → Trouble
  fresh : ℕ
  smList : List Sm
  threads : ℕ → Thread

/-- No object goes before the threads do. -/
def alive : Head → Bool := fun _ => true

namespace Memory

variable (M : Memory)

def setThread (thread : ℕ) (t : Thread) : Memory :=
  { M with threads := Function.update M.threads thread t }

def vmodSaintmodeInit (be : Backend) (threshold : Int64) : Memory :=
  { M with
    queues := M.queues.init (.troublelist M.smList.length)
    smList := M.smList ++ [⟨be, threshold.toUInt64.toUInt32, 0⟩] }

def findSm (be : Backend) : Option ℕ :=
  M.smList.findIdx? fun sm => sm.be = be

/-- `ALLOC_OBJ(tp, TROUBLE_MAGIC)` and the lines that fill it in. -/
def newTrouble (tr : Trouble) : Memory :=
  { M with
    queues := M.queues.alloc M.fresh
    trouble := Function.update M.trouble M.fresh tr
    fresh := M.fresh + 1 }

/-- `vmod_blacklist` up to the lock. -/
def vmodBlacklist (thread : ℕ) (method : Method) (bo : Busyobj) (expires : ℚ) :
    Option Message × Memory :=
  if M.smList = [] then (some .notConfigured, M)
  else if method ≠ .backendResponse then (some .outsideBackendResponse, M)
  else
    match M.findSm bo.directorResp with
    | none => (some .notConfiguredForBackend, M)
    | some i =>
        (none, (M.newTrouble ⟨bo.digest, bo.tPrev + expires⟩).setThread thread
          (.insert i bo expires M.fresh))

/-- What `vmod_blacklist` does with the lock held. -/
def insertTrouble (i : ℕ) (sm : Sm) (tp : ℕ) : Except Fault Memory := do
  let queues ← M.queues.insertHead alive () (.troublelist i) tp
  return { M with queues, smList := M.smList.set i { sm with nTrouble := sm.nTrouble + 1 } }

end Memory

/-- The loop of `is_digest_healthy` from the cursor on. -/
def pruneLoop (trouble : ℕ → Trouble) (digest : Option Digest) (now : ℚ) (i thread : ℕ) :
    ℕ → Option ℕ → Links → UInt32 → Except Fault (Bool × Links × UInt32)
  | _, none, queues, nTrouble => .ok (true, queues, nTrouble)
  | 0, some _, _, _ => .error .outOfFuel
  | n + 1, some tr, queues, nTrouble => do
      queues.touchElem tr
      let tr2 := queues.next () tr
      if (trouble tr).timeout < now then
        let queues ← queues.remove alive () (.troublelist i) tr
        let queues ← queues.insertHead alive () (.pruned thread) tr
        pruneLoop trouble digest now i thread n tr2 queues (nTrouble - 1)
      else if digest = some (trouble tr).digest then
        return (false, queues, nTrouble)
      else
        pruneLoop trouble digest now i thread n tr2 queues nTrouble

namespace Memory

variable (M : Memory)

/-- No list of entries is longer. -/
def fuel : ℕ := M.fresh + 1

/-- `is_digest_healthy` up to its last loop. -/
def isDigestHealthy (thread i : ℕ) (sm : Sm) (digest : Option Digest) (tPrev : ℚ) :
    Except Fault (Bool × Option Message × Memory) := do
  let queues := M.queues.init (.pruned thread)
  let (retval, queues, nTrouble) ← pruneLoop M.trouble digest tPrev i thread M.fuel
    (queues.first (.troublelist i)) queues sm.nTrouble
  let bl := !retval
  let retval := retval && !decide (sm.threshold ≤ nTrouble)
  let vsl :=
    if bl then some (.objectBlacklisted sm.be)
    else if !retval then some (.hitThreshold sm.be)
    else none
  return (retval, vsl,
    { M with
      queues
      smList := M.smList.set i { sm with nTrouble }
      threads := Function.update M.threads thread (.release (queues.first (.pruned thread))) })

/-- One turn of the last loop of `is_digest_healthy`. -/
def releaseNext (thread tr : ℕ) : Except Fault Memory := do
  M.queues.touchElem tr
  let tr2 := M.queues.next () tr
  let queues ← M.queues.free tr
  return { M with queues, threads := Function.update M.threads thread (.release tr2) }

end Memory

/-! The threads. -/

/-- What happens between two points at which a thread can be interrupted. `up` is what the
wrapped backend says, `real` what `VTIM_real` says. -/
inductive Action
  | blacklist (thread : ℕ) (method : Method) (bo : Busyobj) (expires : ℚ)
  | insert (thread : ℕ)
  | count (sm : ℕ)
  | isHealthy (thread sm : ℕ) (method : Method) (req : Req)
  | enter (thread sm : ℕ) (asker : Asker) (bo : Option Busyobj) (real : ℚ) (up : Bool)
  | check (thread : ℕ) (real : ℚ) (up : Bool)
  | release (thread : ℕ)

structure Output where
  answer : Option Answer
  count : Option UInt32
  vsl : Option Message

def Output.none : Output := ⟨.none, .none, .none⟩

namespace Memory

variable (M : Memory)

/-- What a thread does that is not doing anything yet. -/
def whenIdle (thread : ℕ) (r : Option (Except Fault (Output × Memory))) :
    Option (Except Fault (Output × Memory)) :=
  match M.threads thread with
  | .idle => r
  | _ => none

/-- There is no step for an object that does not exist, nor for a thread that is elsewhere. -/
def act : Action → Option (Except Fault (Output × Memory))
  | .blacklist thread method bo expires =>
      M.whenIdle thread <|
        let (vsl, M') := M.vmodBlacklist thread method bo expires
        some (.ok (⟨none, none, vsl⟩, M'))
  | .insert thread =>
      match M.threads thread with
      | .insert i _ expires tp => (M.smList[i]?).map fun sm => do
          let M' ← M.insertTrouble i sm tp
          return (⟨none, none, some (.putOnBlacklist sm.be expires)⟩, M'.setThread thread .idle)
      | _ => none
  | .count i => (M.smList[i]?).map fun sm => .ok (⟨none, some sm.nTrouble, none⟩, M)
  | .isHealthy thread i method req =>
      M.whenIdle thread <| (M.smList[i]?).map fun sm => do
        let digest := if method = .recv ∨ method = .hash then none else some req.digest
        let (retval, vsl, M') ← M.isDigestHealthy thread i sm digest req.tPrev
        return (⟨some ⟨i, .client, digest, req.tPrev, true, .bool retval⟩, none, vsl⟩, M')
  | .enter thread i asker bo real up =>
      M.whenIdle thread <| (M.smList[i]?).map fun sm =>
        if sm.threshold = 0 ∨ sm.nTrouble = 0 then
          .ok (⟨some ⟨i, asker, bo.map Busyobj.digest, bo.elim real Busyobj.tPrev, up,
            asker.result sm.be up⟩, none, none⟩, M)
        else .ok (Output.none, M.setThread thread (.check ⟨i, asker, bo⟩))
  | .check thread real up =>
      match M.threads thread with
      | .check c => (M.smList[c.sm]?).map fun sm => do
          let digest := c.bo.map Busyobj.digest
          let now := c.bo.elim real Busyobj.tPrev
          let (retval, vsl, M') ← M.isDigestHealthy thread c.sm sm digest now
          return (⟨some ⟨c.sm, c.asker, digest, now, up, c.asker.result sm.be (retval && up)⟩,
            none, c.bo.bind fun _ => vsl⟩, M')
      | _ => none
  | .release thread =>
      match M.threads thread with
      | .release none => some (.ok (Output.none, M.setThread thread .idle))
      | .release (some tr) => some do
          let M' ← M.releaseNext thread tr
          return (Output.none, M')
      | _ => none

/-- A fault is put out; nothing is said of the memory after it. -/
def step (a : Action) : Option (Except Fault Output × Memory) :=
  (M.act a).map fun r =>
    match r with
    | .ok (o, M') => (.ok o, M')
    | .error e => (.error e, M)

/-- The `new` lines of `vcl_init`. -/
def start (config : Config) : Memory :=
  config.foldl (fun M c => M.vmodSaintmodeInit c.1 c.2)
    ⟨Queues.empty, fun _ => ⟨Digest.zero, 0⟩, 0, [], fun _ => .idle⟩

/-- The entries on the list of an object. -/
def troublelist (i : ℕ) : Except Fault (List Trouble) := do
  let trs ← M.queues.walk () M.fuel (M.queues.first (.troublelist i))
  return trs.map M.trouble

end Memory

/-- The loop of `vmod_saintmode__fini`. -/
def finiLoop (i : ℕ) : ℕ → Option ℕ → Links → Except Fault Links
  | _, none, queues => .ok queues
  | 0, some _, _ => .error .outOfFuel
  | n + 1, some tr, queues => do
      queues.touchElem tr
      let tr2 := queues.next () tr
      let queues ← queues.remove alive () (.troublelist i) tr
      let queues ← queues.free tr
      finiLoop i n tr2 queues

/-- What `vmod_saintmode__fini` does to the entries of an object. -/
def Memory.vmodSaintmodeFini (M : Memory) (i : ℕ) : Except Fault Memory := do
  let queues ← finiLoop i M.fuel (M.queues.first (.troublelist i)) M.queues
  return { M with queues }

/-- The VCL goes, and all its objects do. -/
def Memory.discard (M : Memory) : Except Fault Memory :=
  (List.range M.smList.length).foldlM Memory.vmodSaintmodeFini M

abbrev Event := Machine.Event Memory Action (Except Fault Output)

def run (config : Config) (as : List Action) : Option (List Event × Memory) :=
  Machine.run Memory.step as (Memory.start config)

end VarnishModules.SaintmodeHeap
