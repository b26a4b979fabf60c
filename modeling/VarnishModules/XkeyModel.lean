import VarnishModules.Digest
import VarnishModules.ObjectPool
import VarnishModules.OrderedTree

/-!
The two indexes of `vmod_xkey.c`.

An `xkey_oc` links one objcore to one key.  It sits on the list of an ochead,
which the octree finds by objcore pointer, and on the list of a hashhead, which
the hashtree finds by digest; each of the two lists has its own pair of links.
Heads and links that are no longer used wait in three pools.
-/

namespace VarnishModules.XkeyModel

open VarnishModules.TailQueue
open VarnishModules.ObjectPool

abbrev HashheadPtr := Nat
abbrev OcheadPtr := Nat
abbrev OcPtr := Nat

/-- A pointer to an objcore, never `NULL`. -/
abbrev Objcore := ℕ+

/-- The heads of lists of `xkey_oc`: `xkey_pool.ocs` and the member `ocs` of the
two kinds of heads. -/
inductive OcsHead
  | pool
  | ochead (h : OcheadPtr)
  | hashhead (h : HashheadPtr)
  deriving DecidableEq

/-- The two pairs of links of an `xkey_oc`. -/
inductive OcLink
  | listOchead
  | listHashhead
  deriving DecidableEq

def poolMax : Nat := 5

/-- The static variables of the module with everything they reach.  The pools
hold the counters of `xkey_pool`, the free lists and the memory behind them. -/
structure Xkey where
  hashtree : List HashheadPtr
  octree : List OcheadPtr
  hashheads : Pool Unit Unit
  ocheads : Pool Unit Unit
  ocs : Pool OcsHead OcLink
  /-- `hashhead->key.digest` -/
  digest : HashheadPtr → Digest
  /-- `ochead->key.ptr` -/
  ptr : OcheadPtr → Nat
  /-- `oc->hashhead` -/
  hashhead : OcPtr → Option HashheadPtr
  /-- `oc->objcore` -/
  objcore : OcPtr → Option Objcore

/-- The module as it is loaded. -/
def Xkey.initial : Xkey where
  hashtree := []
  octree := []
  hashheads := Pool.empty
  ocheads := Pool.empty
  ocs := Pool.empty
  digest := fun _ => Digest.zero
  ptr := fun _ => 0
  hashhead := fun _ => none
  objcore := fun _ => none

namespace Xkey

/-- Which heads of lists of `xkey_oc` are allocated: the one of the pool is
static, the others live in their head objects. -/
def alive (s : Xkey) : OcsHead → Bool
  | .pool => true
  | .ochead h => s.ocheads.queues.live h
  | .hashhead h => s.hashheads.queues.live h

def setOcQueues (s : Xkey) (queues : Queues OcsHead OcLink OcPtr) : Xkey :=
  { s with ocs := { s.ocs with queues } }

end Xkey

/-- The heads of the other two pool lists are static. -/
def poolAlive : Unit → Bool := fun _ => true

/-- `CHECK_OBJ_NOTNULL` and `AN` on a condition. -/
def check (b : Bool) : Except Fault Unit :=
  if b then .ok () else .error .assertion

def xkeyHashheadNew (s : Xkey) : Except Fault (HashheadPtr × Xkey) := do
  let (head, isNew, hashheads) ← s.hashheads.new poolAlive () () .assertion
  let s := { s with hashheads }
  if isNew then
    let s := { s with digest := Function.update s.digest head Digest.zero }
    return (head, s.setOcQueues (s.ocs.queues.init (.hashhead head)))
  else
    return (head, s)

def xkeyHashheadDelete (s : Xkey) (head : HashheadPtr) : Except Fault Xkey := do
  s.hashheads.queues.touchElem head
  check (s.ocs.queues.first (.hashhead head)).isNone
  let digest := if s.hashheads.count < poolMax then
    Function.update s.digest head Digest.zero else s.digest
  let hashheads ← s.hashheads.delete poolMax poolAlive () () head
  return { s with hashheads, digest }

/-- Unlike its sibling it does not check the pointer taken off the list. -/
def xkeyOcheadNew (s : Xkey) : Except Fault (OcheadPtr × Xkey) := do
  let (head, isNew, ocheads) ← s.ocheads.new poolAlive () () .nullDeref
  let s := { s with ocheads }
  if isNew then
    let s := { s with ptr := Function.update s.ptr head 0 }
    return (head, s.setOcQueues (s.ocs.queues.init (.ochead head)))
  else
    return (head, s)

def xkeyOcheadDelete (s : Xkey) (head : OcheadPtr) : Except Fault Xkey := do
  s.ocheads.queues.touchElem head
  check (s.ocs.queues.first (.ochead head)).isNone
  let ptr := if s.ocheads.count < poolMax then
    Function.update s.ptr head 0 else s.ptr
  let ocheads ← s.ocheads.delete poolMax poolAlive () () head
  return { s with ocheads, ptr }

/-- The free list of `xkey_oc` is threaded on `list_hashhead`. -/
def xkeyOcNew (s : Xkey) : Except Fault (OcPtr × Xkey) := do
  let (oc, isNew, ocs) ← s.ocs.new s.alive .listHashhead .pool .nullDeref
  let s := { s with ocs }
  if isNew then
    return (oc, { s with
      hashhead := Function.update s.hashhead oc none
      objcore := Function.update s.objcore oc none })
  else
    return (oc, s)

def xkeyOcDelete (s : Xkey) (oc : OcPtr) : Except Fault Xkey := do
  s.ocs.queues.touchElem oc
  check (s.objcore oc).isNone
  let ocs ← s.ocs.delete poolMax s.alive .listHashhead .pool oc
  return { s with ocs }

def xkeyHashtreeLookup (s : Xkey) (digest : Digest) : Except Fault (Option HashheadPtr) :=
  match OrderedTree.find s.digest digest s.hashtree with
  | none => return none
  | some head => do
      s.hashheads.queues.touchElem head
      return some head

def xkeyHashtreeInsert (s : Xkey) (digest : Digest) :
    Except Fault (HashheadPtr × Xkey) := do
  let (head, s) ← xkeyHashheadNew s
  let s := { s with digest := Function.update s.digest head digest }
  match OrderedTree.insert s.digest head s.hashtree with
  | (some key, _) => do
      let s ← xkeyHashheadDelete s head
      s.hashheads.queues.touchElem key
      return (key, s)
  | (none, hashtree) => return (head, { s with hashtree })

def xkeyOctreeLookup (s : Xkey) (objcore : Objcore) : Except Fault (Option OcheadPtr) :=
  match OrderedTree.find s.ptr objcore s.octree with
  | none => return none
  | some head => do
      s.ocheads.queues.touchElem head
      return some head

def xkeyOctreeInsert (s : Xkey) (objcore : Objcore) :
    Except Fault (OcheadPtr × Xkey) := do
  let (head, s) ← xkeyOcheadNew s
  let s := { s with ptr := Function.update s.ptr head objcore }
  match OrderedTree.insert s.ptr head s.octree with
  | (some key, _) => do
      let s ← xkeyOcheadDelete s head
      s.ocheads.queues.touchElem key
      return (key, s)
  | (none, octree) => return (head, { s with octree })

def xkeyInsert (s : Xkey) (objcore : Objcore) (digest : Digest) : Except Fault Xkey := do
  let (ochead, s) ← xkeyOctreeInsert s objcore
  let (hashhead, s) ← xkeyHashtreeInsert s digest
  let (oc, s) ← xkeyOcNew s
  let queues ← s.ocs.queues.insertTail s.alive .listOchead (.ochead ochead) oc
  let queues ← queues.insertTail s.alive .listHashhead (.hashhead hashhead) oc
  return { s.setOcQueues queues with
    objcore := Function.update s.objcore oc (some objcore)
    hashhead := Function.update s.hashhead oc (some hashhead) }

/-- A hashhead leaves the tree in `xkey_remove` once its list is empty. -/
def xkeyRemoveHashhead (hashhead : HashheadPtr) (s : Xkey) : Except Fault Xkey := do
  Queues.touchHead s.alive (.hashhead hashhead)
  if (s.ocs.queues.first (.hashhead hashhead)).isNone then
    xkeyHashheadDelete { s with hashtree := s.hashtree.erase hashhead } hashhead
  else
    return s

/-- The body of the loop of `xkey_remove`. -/
def xkeyRemoveOc (ochead : OcheadPtr) (oc : OcPtr) (s : Xkey) : Except Fault Xkey := do
  s.ocs.queues.touchElem oc
  match s.hashhead oc with
  | none => .error .nullDeref
  | some hashhead => do
      let s := { s with hashhead := Function.update s.hashhead oc none }
      let queues ← s.ocs.queues.remove s.alive .listHashhead (.hashhead hashhead) oc
      let s ← xkeyRemoveHashhead hashhead (s.setOcQueues queues)
      let s := { s with objcore := Function.update s.objcore oc none }
      let queues ← s.ocs.queues.remove s.alive .listOchead (.ochead ochead) oc
      xkeyOcDelete (s.setOcQueues queues) oc

/-- `VTAILQ_FOREACH_SAFE` of `xkey_remove`: the successor is read before the
body runs. -/
def xkeyRemoveLoop (ochead : OcheadPtr) : Nat → Option OcPtr → Xkey → Except Fault Xkey
  | _, none, s => .ok s
  | 0, some _, _ => .error .outOfFuel
  | n + 1, some oc, s => do
      s.ocs.queues.touchElem oc
      let oc2 := s.ocs.queues.next .listOchead oc
      let s ← xkeyRemoveOc ochead oc s
      xkeyRemoveLoop ochead n oc2 s

/-- No list is longer than the number of `xkey_oc` ever allocated, which is the
fuel of the loop. -/
def xkeyRemove (s : Xkey) (ochead : OcheadPtr) : Except Fault Xkey := do
  s.ocheads.queues.touchElem ochead
  let s ← xkeyRemoveLoop ochead s.ocs.fresh (s.ocs.queues.first (.ochead ochead)) s
  check (s.ocs.queues.first (.ochead ochead)).isNone
  xkeyOcheadDelete { s with octree := s.octree.erase ochead } ochead

/-- `xkey_cb_remove`, which holds the mutex throughout. -/
def xkeyCbRemove (s : Xkey) (objcore : Objcore) : Except Fault Xkey := do
  match ← xkeyOctreeLookup s objcore with
  | some ochead => xkeyRemove s ochead
  | none => return s

end VarnishModules.XkeyModel
