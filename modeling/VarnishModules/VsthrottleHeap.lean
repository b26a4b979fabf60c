import VarnishModules.VsthrottleModel
import VarnishModules.VtreeSystem

/-!
The partitions of `vmod_vsthrottle.c` on its memory: the trees of buckets linked
by `vtree.h`, their allocation and release, and the loading and discarding of
VCLs.
-/

namespace VarnishModules.VsthrottleHeap

open VarnishModules.TailQueue (Fault)
open VarnishModules.TokenBucket
open VarnishModules.VtreeModel
open VarnishModules.VtreeWalk (removeIf)
open VarnishModules.CStrings
open VarnishModules.VsthrottleModel (Hashing Call Op Result Vsthrottle partOf gcIntvl)

abbrev TbucketPtr := ℕ

def keycmp (b1 b2 : Tbucket) : Int :=
  Digest.memcmp b1.digest.bytes b2.digest.bytes

/-- A bucket cleared by `INIT_OBJ`, with a digest. -/
def keyBucket (digest : Digest) : Tbucket :=
  ⟨digest, 0, 0, 0, 0, 0⟩

/-- The static variables and the buckets.  The heads of the trees are those of
the partitions; a bucket consists of its links and its other members.  `fresh`
is the first address that was never allocated. -/
structure Memory where
  tree : Heap UInt8 TbucketPtr
  bucket : TbucketPtr → Tbucket
  gcCount : UInt8 → ℕ
  nInit : ℕ
  fresh : ℕ

namespace Memory

/-- The module before the first load. -/
def initial : Memory where
  tree := ⟨fun _ => none, fun _ => none⟩
  bucket := fun _ => keyBucket Digest.zero
  gcCount := fun _ => 0
  nInit := 0
  fresh := 0

/-- No tree has more elements than were ever allocated. -/
def fuel (M : Memory) : ℕ :=
  M.fresh + 3

def load (M : Memory) (b : TbucketPtr) : Except Fault Tbucket := do
  let _ ← M.tree.deref (some b)
  return M.bucket b

def store (M : Memory) (b : TbucketPtr) (v : Tbucket) : Except Fault Memory := do
  let _ ← M.tree.deref (some b)
  return { M with bucket := Function.update M.bucket b v }

def tbAlloc (M : Memory) (digest : Digest) (limit : ℤ) (period now : ℚ) :
    TbucketPtr × Memory :=
  (M.fresh, { M with
    tree := M.tree.put M.fresh ⟨none, none, none, .black⟩
    bucket := Function.update M.bucket M.fresh (TokenBucket.tbAlloc digest limit period now)
    fresh := M.fresh + 1 })

def getBucket (M : Memory) (digest : Digest) (limit : ℤ) (period now : ℚ) :
    Except Fault (TbucketPtr × Memory) := do
  let part := partOf digest
  match ← M.tree.vrbFind M.fuel (fun k b => keycmp k (M.bucket b)) part (keyBucket digest) with
  | some b => return (b, M)
  | none => do
      let (b, M) := M.tbAlloc digest limit period now
      let (old, tree) ←
        M.tree.vrbInsert M.fuel (fun b1 b2 => keycmp (M.bucket b1) (M.bucket b2)) part b
      if old ≠ none then
        .error .assertion
      else
        return (b, { M with tree })

def calcTokens (M : Memory) (b : TbucketPtr) (now : ℚ) : Except Fault Memory := do
  match TokenBucket.calcTokens (← M.load b) now with
  | none => .error .assertion
  | some v => M.store b v

def runGc (M : Memory) (now : ℚ) (part : UInt8) : Except Fault Memory := do
  let tree ← M.tree.vrbForeachSafe M.fuel part
    (removeIf M.fuel part fun x => expired now (M.bucket x))
  return { M with tree }

/-- The end of the critical section of `is_denied`. -/
def countCall (M : Memory) (now : ℚ) (part : UInt8) : Except Fault Memory := do
  let M := { M with gcCount := Function.update M.gcCount part (M.gcCount part + 1) }
  if M.gcCount part = gcIntvl then
    let M ← M.runGc now part
    return { M with gcCount := Function.update M.gcCount part 0 }
  else
    return M

section

variable (H : Hashing) (M : Memory)

def vmodIsDenied (key : Option CString) (limit : Int64) (period block now : ℚ) :
    Except Fault (Bool × Memory) :=
  match key with
  | none => .ok (true, M)
  | some key => do
      let digest := H.doDigest ⟨key, limit, period, block⟩
      let part := partOf digest
      let (b, M) ← M.getBucket digest limit.toInt period now
      let M ← M.calcTokens b now
      let (ret, v) := denyBucket (← M.load b) block now
      let M ← M.store b v
      let M ← M.countCall now part
      return (ret, M)

def vmodRemaining (key : Option CString) (limit : Int64) (period block now : ℚ) :
    Except Fault (ℤ × Memory) :=
  match key with
  | none => .ok (-1, M)
  | some key => do
      let digest := H.doDigest ⟨key, limit, period, block⟩
      let (b, M) ← M.getBucket digest limit.toInt period now
      let M ← M.calcTokens b now
      return ((← M.load b).tokens % 2 ^ 32, M)

def vmodBlocked (key : Option CString) (limit : Int64) (period block now : ℚ) :
    Except Fault (ℚ × Memory) :=
  match key with
  | none => .ok (-1, M)
  | some key => do
      let digest := H.doDigest ⟨key, limit, period, block⟩
      let (b, M) ← M.getBucket digest limit.toInt period now
      let ret := (← M.load b).block - now
      return (if ret ≤ 0 then 0 else ret, M)

end

/-- The indexes of the partitions. -/
def partitions : List UInt8 :=
  (List.range 16).map UInt8.ofNat

/-- The loop over the buckets of a partition in `fini`. -/
def dropBuckets (M : Memory) (part : UInt8) : Except Fault Memory := do
  let tree ← M.tree.vrbForeachSafe M.fuel part (removeIf M.fuel part fun _ => true)
  return { M with tree }

def dropPartitions (M : Memory) : List UInt8 → Except Fault Memory
  | [] => .ok M
  | p :: ps => do
      let M ← M.dropBuckets p
      M.dropPartitions ps

/-- Registered by `event_function` to run when the VCL is discarded. -/
def fini (M : Memory) : Except Fault Memory :=
  if M.nInit = 0 then
    .error .assertion
  else
    let M := { M with nInit := M.nInit - 1 }
    if M.nInit = 0 then M.dropPartitions partitions else .ok M

end Memory

inductive VclEvent
  | load
  | warm
  | cold
  | discard
  deriving DecidableEq

namespace Memory

def eventFunction (M : Memory) (e : VclEvent) : Memory :=
  if e ≠ .load then
    M
  else
    let M :=
      if M.nInit = 0 then
        { M with tree := partitions.foldl (fun tree p => tree.vrbInit p) M.tree }
      else
        M
    { M with nInit := M.nInit + 1 }

/-- A call from a VCL. -/
def call (H : Hashing) (M : Memory) (c : Call) : Except Fault (Result × Memory) :=
  match c.op with
  | .isDenied => do
      let (ret, M) ← M.vmodIsDenied H c.key c.limit c.period c.block c.now
      return (.denied ret, M)
  | .remaining => do
      let (ret, M) ← M.vmodRemaining H c.key c.limit c.period c.block c.now
      return (.remaining ret, M)
  | .blocked => do
      let (ret, M) ← M.vmodBlocked H c.key c.limit c.period c.block c.now
      return (.blocked ret, M)

end Memory

/-- What happens to the module: an event of a VCL, the end of the private data
of one, or a call. -/
inductive Act
  | event (e : VclEvent)
  | fini
  | call (c : Call)

def Memory.act (H : Hashing) (M : Memory) : Act → Except Fault (Option Result × Memory)
  | .event e => .ok (none, M.eventFunction e)
  | .fini => do return (none, ← M.fini)
  | .call c => do
      let (r, M) ← M.call H c
      return (some r, M)

def Memory.run (H : Hashing) : List Act → Memory → Except Fault (List (Option Result) × Memory)
  | [], M => .ok ([], M)
  | a :: as, M => do
      let (r, M) ← M.act H a
      let (rs, M) ← Memory.run H as M
      return (r :: rs, M)

/-- The same on ordered lists of buckets, with the number of loaded VCLs. -/
def life (H : Hashing) (L : ℕ × Vsthrottle) : Act → Option (Option Result × ℕ × Vsthrottle)
  | .event e => some (none, if e = .load then L.1 + 1 else L.1, L.2)
  | .fini =>
      if L.1 = 0 then
        none
      else if L.1 = 1 then
        some (none, 0, fun p => { L.2 p with buckets := [] })
      else
        some (none, L.1 - 1, L.2)
  | .call c => (c.run H L.2).map fun r => (some r.1, L.1, r.2)

/-- Only a loaded VCL calls the module, if `n` are loaded at the start. -/
def CallsLoaded : ℕ → List Act → Prop
  | _, [] => True
  | n, .event e :: as => CallsLoaded (if e = .load then n + 1 else n) as
  | n, .fini :: as => CallsLoaded (n - 1) as
  | n, .call _ :: as => 0 < n ∧ CallsLoaded n as

end VarnishModules.VsthrottleHeap
