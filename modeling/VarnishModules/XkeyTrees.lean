import VarnishModules.VtreeSystem
import VarnishModules.XkeyLifeCycle

/-!
`vmod_xkey.c` with its two trees as `vtree.h` links them.

The node of a tree is the key at the start of a head, so it is allocated,
cleared and freed with the head.
-/

namespace VarnishModules.XkeyTrees

open VarnishModules.CStrings
open VarnishModules.TailQueue
open VarnishModules.QueueDrain
open VarnishModules.ObjectPool
open VarnishModules.VtreeModel
open VarnishModules.XkeyModel
open VarnishModules.XkeyIndex
open VarnishModules.XkeyTokens
open VarnishModules.XkeyPurge
open VarnishModules.XkeyCleanup
open VarnishModules.XkeyLifeCycle

/-- The trees are those in memory; `xkey` is everything else, and its two lists
of nodes stay empty. -/
structure Linked where
  xkey : Xkey
  hashtree : Heap Unit HashheadPtr
  octree : Heap Unit OcheadPtr

/-- An entry of zeros. -/
def zeroEntry : Entry Nat :=
  ⟨none, none, none, .black⟩

def xkeyHashcmp (k1 k2 : Digest) : Int :=
  Digest.memcmp k1.bytes k2.bytes

def xkeyPtrcmp (k1 k2 : Nat) : Int :=
  if k1 < k2 then -1 else if k1 > k2 then 1 else 0

/-- The node of a head that comes from its pool or is allocated, when the pool held
`count` heads. -/
def newNode (count : Nat) (tree : Heap Unit Nat) (head : Nat) : Heap Unit Nat :=
  if 0 < count then tree else tree.put head zeroEntry

/-- The node of a head that goes to its pool or is freed. -/
def deleteNode (count : Nat) (tree : Heap Unit Nat) (head : Nat) :
    Except Fault (Heap Unit Nat) :=
  if count < poolMax then tree.assign (some head) fun _ => zeroEntry else tree.free head

namespace Linked

def initial : Linked where
  xkey := Xkey.initial
  hashtree := ⟨fun _ => none, fun _ => none⟩
  octree := ⟨fun _ => none, fun _ => none⟩

/-- No tree has more nodes than heads were ever allocated. -/
def hashFuel (L : Linked) : ℕ :=
  L.xkey.hashheads.fresh + 3

def ocFuel (L : Linked) : ℕ :=
  L.xkey.ocheads.fresh + 3

def xkeyHashheadNew (L : Linked) : Except Fault (HashheadPtr × Linked) := do
  let (head, xkey) ← XkeyModel.xkeyHashheadNew L.xkey
  return (head, { L with xkey, hashtree := newNode L.xkey.hashheads.count L.hashtree head })

def xkeyHashheadDelete (L : Linked) (head : HashheadPtr) : Except Fault Linked := do
  let xkey ← XkeyModel.xkeyHashheadDelete L.xkey head
  let hashtree ← deleteNode L.xkey.hashheads.count L.hashtree head
  return { L with xkey, hashtree }

def xkeyOcheadNew (L : Linked) : Except Fault (OcheadPtr × Linked) := do
  let (head, xkey) ← XkeyModel.xkeyOcheadNew L.xkey
  return (head, { L with xkey, octree := newNode L.xkey.ocheads.count L.octree head })

def xkeyOcheadDelete (L : Linked) (head : OcheadPtr) : Except Fault Linked := do
  let xkey ← XkeyModel.xkeyOcheadDelete L.xkey head
  let octree ← deleteNode L.xkey.ocheads.count L.octree head
  return { L with xkey, octree }

def xkeyHashtreeLookup (L : Linked) (digest : Digest) : Except Fault (Option HashheadPtr) := do
  let pkey ← L.hashtree.vrbFind L.hashFuel
    (fun k head => xkeyHashcmp k (L.xkey.digest head)) () digest
  match pkey with
  | none => return none
  | some head => do
      L.xkey.hashheads.queues.touchElem head
      return some head

def xkeyHashtreeInsert (L : Linked) (digest : Digest) : Except Fault (HashheadPtr × Linked) := do
  let (head, L) ← L.xkeyHashheadNew
  let xkey := { L.xkey with digest := Function.update L.xkey.digest head digest }
  let (key, hashtree) ← L.hashtree.vrbInsert L.hashFuel
    (fun k1 k2 => xkeyHashcmp (xkey.digest k1) (xkey.digest k2)) () head
  let L := { L with xkey, hashtree }
  match key with
  | some key => do
      let L ← L.xkeyHashheadDelete head
      L.xkey.hashheads.queues.touchElem key
      return (key, L)
  | none => return (head, L)

def xkeyOctreeLookup (L : Linked) (objcore : Objcore) : Except Fault (Option OcheadPtr) := do
  let pkey ← L.octree.vrbFind L.ocFuel
    (fun k head => xkeyPtrcmp k (L.xkey.ptr head)) () (objcore : Nat)
  match pkey with
  | none => return none
  | some head => do
      L.xkey.ocheads.queues.touchElem head
      return some head

def xkeyOctreeInsert (L : Linked) (objcore : Objcore) : Except Fault (OcheadPtr × Linked) := do
  let (head, L) ← L.xkeyOcheadNew
  let xkey := { L.xkey with ptr := Function.update L.xkey.ptr head objcore }
  let (key, octree) ← L.octree.vrbInsert L.ocFuel
    (fun k1 k2 => xkeyPtrcmp (xkey.ptr k1) (xkey.ptr k2)) () head
  let L := { L with xkey, octree }
  match key with
  | some key => do
      let L ← L.xkeyOcheadDelete head
      L.xkey.ocheads.queues.touchElem key
      return (key, L)
  | none => return (head, L)

def xkeyInsert (L : Linked) (objcore : Objcore) (digest : Digest) : Except Fault Linked := do
  let (ochead, L) ← L.xkeyOctreeInsert objcore
  let (hashhead, L) ← L.xkeyHashtreeInsert digest
  let (oc, xkey) ← xkeyOcNew L.xkey
  let queues ← xkey.ocs.queues.insertTail xkey.alive .listOchead (.ochead ochead) oc
  let queues ← queues.insertTail xkey.alive .listHashhead (.hashhead hashhead) oc
  return { L with
    xkey := { xkey.setOcQueues queues with
      objcore := Function.update xkey.objcore oc (some objcore)
      hashhead := Function.update xkey.hashhead oc (some hashhead) } }

/-- What `xkey_remove` does with a hashhead after it took a link off its list. -/
def xkeyRemoveHashhead (hashhead : HashheadPtr) (L : Linked) : Except Fault Linked := do
  Queues.touchHead L.xkey.alive (.hashhead hashhead)
  if (L.xkey.ocs.queues.first (.hashhead hashhead)).isNone then
    let (_, hashtree) ← L.hashtree.vrbRemove L.hashFuel () hashhead
    { L with hashtree }.xkeyHashheadDelete hashhead
  else
    return L

def xkeyRemoveOc (ochead : OcheadPtr) (oc : OcPtr) (L : Linked) : Except Fault Linked := do
  L.xkey.ocs.queues.touchElem oc
  match L.xkey.hashhead oc with
  | none => .error .nullDeref
  | some hashhead => do
      let xkey := { L.xkey with hashhead := Function.update L.xkey.hashhead oc none }
      let queues ← xkey.ocs.queues.remove xkey.alive .listHashhead (.hashhead hashhead) oc
      let L ← xkeyRemoveHashhead hashhead { L with xkey := xkey.setOcQueues queues }
      let xkey := { L.xkey with objcore := Function.update L.xkey.objcore oc none }
      let queues ← xkey.ocs.queues.remove xkey.alive .listOchead (.ochead ochead) oc
      let xkey ← xkeyOcDelete (xkey.setOcQueues queues) oc
      return { L with xkey }

def xkeyRemoveLoop (ochead : OcheadPtr) : Nat → Option OcPtr → Linked → Except Fault Linked
  | _, none, L => .ok L
  | 0, some _, _ => .error .outOfFuel
  | n + 1, some oc, L => do
      L.xkey.ocs.queues.touchElem oc
      let oc2 := L.xkey.ocs.queues.next .listOchead oc
      let L ← xkeyRemoveOc ochead oc L
      xkeyRemoveLoop ochead n oc2 L

def xkeyRemove (L : Linked) (ochead : OcheadPtr) : Except Fault Linked := do
  L.xkey.ocheads.queues.touchElem ochead
  let L ← xkeyRemoveLoop ochead L.xkey.ocs.fresh (L.xkey.ocs.queues.first (.ochead ochead)) L
  check (L.xkey.ocs.queues.first (.ochead ochead)).isNone
  let (_, octree) ← L.octree.vrbRemove L.ocFuel () ochead
  { L with octree }.xkeyOcheadDelete ochead

def xkeyCbRemove (L : Linked) (objcore : Objcore) : Except Fault Linked := do
  match ← L.xkeyOctreeLookup objcore with
  | some ochead => L.xkeyRemove ochead
  | none => return L

/-- A loop of `xkey_cleanup` that frees the heads on their pool list, with their
nodes. -/
def drainHeads : Nat → Queues Unit Unit Nat → Heap Unit Nat →
    Except Fault (Queues Unit Unit Nat × Heap Unit Nat)
  | 0, m, tree => if (m.first ()).isNone then .ok (m, tree) else .error .outOfFuel
  | n + 1, m, tree =>
      match m.first () with
      | none => .ok (m, tree)
      | some head => do
          let m ← m.remove poolAlive () () head
          let m ← m.free head
          let tree ← tree.free head
          drainHeads n m tree

/-- The body of the loop over the hashtree. -/
def xkeyCleanupHashhead (head : HashheadPtr) (L : Linked) : Except Fault Linked := do
  let xkey ← XkeyCleanup.xkeyCleanupHashhead L.xkey head
  return { L with xkey }

/-- The body of the loop over the octree. -/
def xkeyCleanupOchead (head : OcheadPtr) (L : Linked) : Except Fault Linked := do
  let xkey ← XkeyCleanup.xkeyCleanupOchead L.xkey head
  return { L with xkey }

def xkeyCleanup (L : Linked) : Except Fault Linked := do
  let L ← Heap.vrbForeachDo hashtree L.hashFuel () xkeyCleanupHashhead L
  let L := { L with hashtree := L.hashtree.vrbInit () }
  let L ← Heap.vrbForeachDo octree L.ocFuel () xkeyCleanupOchead L
  let L := { L with octree := L.octree.vrbInit () }
  let (heads, hashtree) ←
    drainHeads L.xkey.hashheads.fresh L.xkey.hashheads.queues L.hashtree
  let L := { L with
    xkey := { L.xkey with hashheads := { L.xkey.hashheads with queues := heads } }, hashtree }
  let (heads, octree) ← drainHeads L.xkey.ocheads.fresh L.xkey.ocheads.queues L.octree
  let L := { L with
    xkey := { L.xkey with ocheads := { L.xkey.ocheads with queues := heads } }, octree }
  let ocs ← drain L.xkey.alive .listOchead .pool L.xkey.ocs.fresh L.xkey.ocs.queues
  return { L with xkey := L.xkey.setOcQueues ocs }

section Purge

variable (sha256 : CString → Digest) (rearm : Rearm) (doSoft : Int) (now : ℚ)

/-- What `purge` does for one of its keys. -/
def purgeKey (L : Linked) (st : Purge) (key : CString) : Except Fault Purge := do
  match ← L.xkeyHashtreeLookup (sha256 key) with
  | none => return st
  | some hashhead =>
      purgeLoop rearm doSoft now L.xkey.ocs.fresh (L.xkey.ocs.queues.first (.hashhead hashhead)) st

def purge (L : Linked) (objects : Objcore → ObjcoreData) (key : Option CString) :
    Except Fault Purge :=
  let st := Purge.start L.xkey objects
  match key with
  | none => .ok st
  | some [] => .ok st
  | some key => (tokens key).foldlM (L.purgeKey sha256 rearm doSoft now) st

end Purge

def call (L : Linked) : Call → Except Fault Linked
  | .insert o d => L.xkeyInsert o d
  | .cbRemove o => L.xkeyCbRemove o

end Linked

/-- The statics of the file, with the handles under which `xkey_cb` is called. -/
structure LinkedModule where
  linked : Linked
  nInit : Int
  xkeyCbHandle : Nat
  registered : List Nat

namespace LinkedModule

def initial : LinkedModule where
  linked := Linked.initial
  nInit := 0
  xkeyCbHandle := 0
  registered := []

def vmodEvent (handle : ℕ+) (M : LinkedModule) : VclEvent → Except Fault LinkedModule
  | .load => do
      let M := if M.nInit = 0 then
          { M with xkeyCbHandle := handle, registered := (handle : Nat) :: M.registered }
        else M
      check (M.xkeyCbHandle ≠ 0)
      return { M with nInit := M.nInit + 1 }
  | .discard => do
      check (0 < M.nInit)
      let M := { M with nInit := M.nInit - 1 }
      check (M.xkeyCbHandle ≠ 0)
      if M.nInit = 0 then
        let M := { M with
          xkeyCbHandle := 0, registered := M.registered.erase M.xkeyCbHandle }
        check (M.xkeyCbHandle = 0)
        let linked ← M.linked.xkeyCleanup
        return { M with linked }
      else
        return M
  | _ => return M

def step (sha256 : CString → Digest) (rearm : Rearm) (M : LinkedModule) :
    Event → Except Fault LinkedModule
  | .vcl handle e => M.vmodEvent handle e
  | .call c => do return { M with linked := ← M.linked.call c }
  | .purge objects doSoft now key => do
      let st ← M.linked.purge sha256 rearm doSoft now objects key
      return { M with linked := { M.linked with xkey := st.xkey } }

end LinkedModule

end VarnishModules.XkeyTrees
