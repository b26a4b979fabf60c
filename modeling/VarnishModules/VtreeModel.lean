import VarnishModules.RedBlackTree
import VarnishModules.TailQueue

/-!
The red-black trees of `vtree.h`, on the links between their elements.

The elements of every tree live in one memory, in which an element that is not
allocated has no entry.  A pointer is followed only if it is not `NULL` and
leads to an allocated element.  Each loop counts down from a bound on its
turns.  `VRB_AUGMENT` is empty.
-/

namespace VarnishModules.VtreeModel

open VarnishModules.RedBlackTree
open VarnishModules.TailQueue (Fault)

/-- `VRB_ENTRY`. -/
structure Entry (E : Type) where
  left : Option E
  right : Option E
  parent : Option E
  color : Color
  deriving DecidableEq, Repr

/-- The root of each head, and the entries of the allocated elements. -/
structure Heap (H E : Type) where
  root : H → Option E
  entry : E → Option (Entry E)

variable {H E K : Type} [DecidableEq H] [DecidableEq E]

namespace Entry

def child (n : Entry E) : Side → Option E
  | .left => n.left
  | .right => n.right

def setChild (n : Entry E) (s : Side) (p : Option E) : Entry E :=
  match s with
  | .left => { n with left := p }
  | .right => { n with right := p }

end Entry

namespace Heap

def deref (m : Heap H E) : Option E → Except Fault (Entry E)
  | none => .error .nullDeref
  | some e =>
      match m.entry e with
      | none => .error .useAfterFree
      | some n => .ok n

def put (m : Heap H E) (e : E) (n : Entry E) : Heap H E :=
  { m with entry := Function.update m.entry e (some n) }

def assign (m : Heap H E) (p : Option E) (f : Entry E → Entry E) : Except Fault (Heap H E) :=
  match p with
  | none => .error .nullDeref
  | some e =>
      match m.entry e with
      | none => .error .useAfterFree
      | some n => .ok (m.put e (f n))

def setChild (m : Heap H E) (s : Side) (p q : Option E) : Except Fault (Heap H E) :=
  m.assign p fun n => n.setChild s q

def setParent (m : Heap H E) (p q : Option E) : Except Fault (Heap H E) :=
  m.assign p fun n => { n with parent := q }

def setColor (m : Heap H E) (p : Option E) (c : Color) : Except Fault (Heap H E) :=
  m.assign p fun n => { n with color := c }

def setRoot (m : Heap H E) (h : H) (p : Option E) : Heap H E :=
  { m with root := Function.update m.root h p }

/-- `free` of the structure that an entry is part of. -/
def free (m : Heap H E) (e : E) : Except Fault (Heap H E) :=
  match m.entry e with
  | none => .error .useAfterFree
  | some _ => .ok { m with entry := Function.update m.entry e none }

/-- `VRB_INIT`. -/
def vrbInit (m : Heap H E) (h : H) : Heap H E :=
  m.setRoot h none

/-- `VRB_SET`. -/
def vrbSet (m : Heap H E) (elm parent : Option E) : Except Fault (Heap H E) :=
  m.assign elm fun _ => ⟨none, none, parent, .red⟩

/-- `VRB_SET_BLACKRED`. -/
def vrbSetBlackred (m : Heap H E) (black red : Option E) : Except Fault (Heap H E) := do
  let m ← m.setColor black .black
  m.setColor red .red

/-- `p && VRB_COLOR(p) == VRB_RED`. -/
def isRed (m : Heap H E) (p : Option E) : Except Fault Bool := do
  if p = none then
    return false
  else
    return (← m.deref p).color = .red

/-- `p == NULL || VRB_COLOR(p) == VRB_BLACK`. -/
def isBlack (m : Heap H E) (p : Option E) : Except Fault Bool := do
  if p = none then
    return true
  else
    return (← m.deref p).color = .black

/-- `if (p) VRB_COLOR(p) = VRB_BLACK`. -/
def blacken (m : Heap H E) (p : Option E) : Except Fault (Heap H E) :=
  if p = none then .ok m else m.setColor p .black

/-- `if (p) VRB_PARENT(p) = q`. -/
def reparent (m : Heap H E) (p q : Option E) : Except Fault (Heap H E) :=
  if p = none then .ok m else m.setParent p q

/-- The link that led down to `p` leads to `q`: it is one of `parent`, or the
head's if there is no parent. -/
def relink (h : H) (parent p q : Option E) (m : Heap H E) : Except Fault (Heap H E) := do
  if parent = none then
    return m.setRoot h q
  else if (← m.deref parent).left = p then
    m.setChild .left parent q
  else
    m.setChild .right parent q

/-- `VRB_ROTATE_LEFT`, and with the sides exchanged `VRB_ROTATE_RIGHT`. -/
def rotate (s : Side) (h : H) (elm : Option E) (m : Heap H E) : Except Fault (Heap H E) := do
  let tmp := (← m.deref elm).child s.flip
  let m ← m.setChild s.flip elm ((← m.deref tmp).child s)
  let m ← m.reparent ((← m.deref tmp).child s) elm
  let m ← m.setParent tmp (← m.deref elm).parent
  let m ← m.relink h (← m.deref elm).parent elm tmp
  let m ← m.setChild s tmp elm
  m.setParent elm tmp

def vrbRotateLeft (h : H) (elm : Option E) (m : Heap H E) : Except Fault (Heap H E) :=
  m.rotate .left h elm

def vrbRotateRight (h : H) (elm : Option E) (m : Heap H E) : Except Fault (Heap H E) :=
  m.rotate .right h elm

/-- A turn of the loop of `VRB_INSERT_COLOR`, with `parent` on side `s` of
`gparent`: the next `elm`, and the memory. -/
def insertColorTurn (s : Side) (h : H) (elm parent gparent : Option E) (m : Heap H E) :
    Except Fault (Option E × Heap H E) := do
  let tmp := (← m.deref gparent).child s.flip
  if ← m.isRed tmp then
    let m ← m.setColor tmp .black
    let m ← m.vrbSetBlackred parent gparent
    return (gparent, m)
  else if (← m.deref parent).child s.flip = elm then
    let m ← m.rotate s h parent
    let m ← m.vrbSetBlackred elm gparent
    let m ← m.rotate s.flip h gparent
    return (parent, m)
  else
    let m ← m.vrbSetBlackred parent gparent
    let m ← m.rotate s.flip h gparent
    return (elm, m)

def vrbInsertColor (h : H) : ℕ → Option E → Heap H E → Except Fault (Heap H E)
  | 0, _, _ => .error .outOfFuel
  | fuel + 1, elm, m => do
      let parent := (← m.deref elm).parent
      if ← m.isRed parent then
        let gparent := (← m.deref parent).parent
        let s := if parent = (← m.deref gparent).left then Side.left else Side.right
        let (elm, m) ← m.insertColorTurn s h elm parent gparent
        vrbInsertColor h fuel elm m
      else
        m.setColor (m.root h) .black

/-- A red `tmp` on side `s.flip` of `parent` is rotated away; the result is the
`tmp` that takes its place. -/
def redSibling (s : Side) (h : H) (parent : Option E) (m : Heap H E) :
    Except Fault (Option E × Heap H E) := do
  let tmp := (← m.deref parent).child s.flip
  if (← m.deref tmp).color = .red then
    let m ← m.vrbSetBlackred tmp parent
    let m ← m.rotate s h parent
    return ((← m.deref parent).child s.flip, m)
  else
    return (tmp, m)

/-- The children of `tmp` are black. -/
def blackChildren (m : Heap H E) (tmp : Option E) : Except Fault Bool := do
  if ← m.isBlack (← m.deref tmp).left then
    m.isBlack (← m.deref tmp).right
  else
    return false

/-- If the child of `tmp` on side `s.flip` is black, the red one on the other side
is rotated over it; the result is the `tmp` that has its red child outside. -/
def redOutside (s : Side) (h : H) (parent tmp : Option E) (m : Heap H E) :
    Except Fault (Option E × Heap H E) := do
  if ← m.isBlack ((← m.deref tmp).child s.flip) then
    let m ← m.blacken ((← m.deref tmp).child s)
    let m ← m.setColor tmp .red
    let m ← m.rotate s.flip h tmp
    return ((← m.deref parent).child s.flip, m)
  else
    return (tmp, m)

/-- The last turn of the loop of `VRB_REMOVE_COLOR`, where `tmp` on side `s.flip`
of `parent` has a red child. -/
def blackSibling (s : Side) (h : H) (parent tmp : Option E) (m : Heap H E) :
    Except Fault (Heap H E) := do
  let (tmp, m) ← m.redOutside s h parent tmp
  let m ← m.setColor tmp (← m.deref parent).color
  let m ← m.setColor parent .black
  let m ← m.blacken ((← m.deref tmp).child s.flip)
  m.rotate s h parent

def vrbRemoveColor (h : H) : ℕ → Option E → Option E → Heap H E → Except Fault (Heap H E)
  | 0, _, _, _ => .error .outOfFuel
  | fuel + 1, parent, elm, m => do
      if (← m.isBlack elm) && elm ≠ m.root h then
        if parent = none then
          .error .assertion
        else
          let s := if (← m.deref parent).left = elm then Side.left else Side.right
          let (tmp, m) ← m.redSibling s h parent
          if ← m.blackChildren tmp then
            let m ← m.setColor tmp .red
            vrbRemoveColor h fuel (← m.deref parent).parent parent m
          else
            let m ← m.blackSibling s h parent tmp
            m.blacken (m.root h)
      else
        m.blacken elm

/-- `child` takes the place of `elm`, which has no other child. -/
def splice (h : H) (elm child : Option E) (m : Heap H E) : Except Fault (Heap H E) := do
  let parent := (← m.deref elm).parent
  let m ← m.reparent child parent
  m.relink h parent elm child

/-- Follow the links of side `s` to the last element. -/
def descend (m : Heap H E) (s : Side) : ℕ → Option E → Except Fault (Option E)
  | 0, _ => .error .outOfFuel
  | fuel + 1, elm => do
      let next := (← m.deref elm).child s
      if next = none then
        return elm
      else
        m.descend s fuel next

/-- The loop of `VRB_REMOVE` that would augment the ancestors of an element. -/
def ascend (m : Heap H E) : ℕ → Option E → Except Fault Unit
  | 0, _ => .error .outOfFuel
  | fuel + 1, left =>
      if left = none then
        return ()
      else do
        m.ascend fuel (← m.deref left).parent

/-- `elm` takes the entry and the place of `old`, which has a left child. -/
def takeOver (h : H) (old elm : Option E) (m : Heap H E) : Except Fault (Heap H E) := do
  let n ← m.deref old
  let m ← m.assign elm fun _ => n
  let m ← m.relink h (← m.deref old).parent old elm
  let m ← m.setParent (← m.deref old).left elm
  m.reparent (← m.deref old).right elm

/-- The end of `VRB_REMOVE`. -/
def recolor (fuel : ℕ) (h : H) (color : Color) (parent child : Option E) (m : Heap H E) :
    Except Fault (Heap H E) :=
  if color = .black then
    m.vrbRemoveColor h fuel parent child
  else
    .ok m

/-- `VRB_REMOVE` of an element with two children: its successor is spliced out
and takes its place. -/
def removeInner (fuel : ℕ) (h : H) (old : Option E) (m : Heap H E) :
    Except Fault (Heap H E) := do
  let elm ← m.descend .left fuel (← m.deref old).right
  let child := (← m.deref elm).right
  let parent := (← m.deref elm).parent
  let color := (← m.deref elm).color
  let m ← m.splice h elm child
  let parent := if (← m.deref elm).parent = old then elm else parent
  let m ← m.takeOver h old elm
  m.ascend fuel parent
  m.recolor fuel h color parent child

/-- `VRB_REMOVE` of an element with one child at most. -/
def removeOuter (fuel : ℕ) (h : H) (elm child : Option E) (m : Heap H E) :
    Except Fault (Heap H E) := do
  let parent := (← m.deref elm).parent
  let color := (← m.deref elm).color
  let m ← m.splice h elm child
  m.recolor fuel h color parent child

/-- The removed element is returned. -/
def vrbRemove (fuel : ℕ) (h : H) (elm : E) (m : Heap H E) : Except Fault (E × Heap H E) := do
  let n ← m.deref (some elm)
  let m ←
    if n.left = none then
      m.removeOuter fuel h (some elm) n.right
    else if n.right = none then
      m.removeOuter fuel h (some elm) n.left
    else
      m.removeInner fuel h (some elm)
  return (elm, m)

/-- Where the search of `VRB_INSERT` ends: at an element with the same key, or
below `parent` on the side that `comp` tells. -/
def insertWalk (m : Heap H E) (cmp : E → Int) :
    ℕ → Option E → Option E → Int → Except Fault (Option E × Option E × Int)
  | 0, _, _, _ => .error .outOfFuel
  | _ + 1, none, parent, comp => return (none, parent, comp)
  | fuel + 1, some tmp, _, _ => do
      let n ← m.deref (some tmp)
      let comp := cmp tmp
      if comp < 0 then
        m.insertWalk cmp fuel n.left (some tmp) comp
      else if comp > 0 then
        m.insertWalk cmp fuel n.right (some tmp) comp
      else
        return (some tmp, some tmp, comp)

/-- The new `elm` becomes a child of `parent`, on the side that `comp` tells, or
the root. -/
def attach (h : H) (comp : Int) (parent elm : Option E) (m : Heap H E) :
    Except Fault (Heap H E) :=
  if parent ≠ none then
    if comp < 0 then
      m.setChild .left parent elm
    else
      m.setChild .right parent elm
  else
    .ok (m.setRoot h elm)

/-- The element with the same key that is there already, if any. -/
def vrbInsert (fuel : ℕ) (cmp : E → E → Int) (h : H) (elm : E) (m : Heap H E) :
    Except Fault (Option E × Heap H E) := do
  let (tmp, parent, comp) ← m.insertWalk (cmp elm) fuel (m.root h) none 0
  if tmp ≠ none then
    return (tmp, m)
  else
    let m ← m.vrbSet (some elm) parent
    let m ← m.attach h comp parent (some elm)
    let m ← m.vrbInsertColor h fuel (some elm)
    return (none, m)

def findFrom (m : Heap H E) (cmp : E → Int) : ℕ → Option E → Except Fault (Option E)
  | 0, _ => .error .outOfFuel
  | _ + 1, none => return none
  | fuel + 1, some tmp => do
      let n ← m.deref (some tmp)
      let comp := cmp tmp
      if comp < 0 then
        m.findFrom cmp fuel n.left
      else if comp > 0 then
        m.findFrom cmp fuel n.right
      else
        return some tmp

/-- The sought `elm` is only ever handed to `cmp`. -/
def vrbFind (fuel : ℕ) (cmp : K → E → Int) (h : H) (elm : K) (m : Heap H E) :
    Except Fault (Option E) :=
  m.findFrom (cmp elm) fuel (m.root h)

def nfindFrom (m : Heap H E) (cmp : E → Int) :
    ℕ → Option E → Option E → Except Fault (Option E)
  | 0, _, _ => .error .outOfFuel
  | _ + 1, none, res => return res
  | fuel + 1, some tmp, res => do
      let n ← m.deref (some tmp)
      let comp := cmp tmp
      if comp < 0 then
        m.nfindFrom cmp fuel n.left (some tmp)
      else if comp > 0 then
        m.nfindFrom cmp fuel n.right res
      else
        return some tmp

def vrbNfind (fuel : ℕ) (cmp : K → E → Int) (h : H) (elm : K) (m : Heap H E) :
    Except Fault (Option E) :=
  m.nfindFrom (cmp elm) fuel (m.root h) none

/-- `elm` has a parent, and is on side `s` of it. -/
def isChild (m : Heap H E) (s : Side) (elm : Option E) : Except Fault Bool := do
  let parent := (← m.deref elm).parent
  if parent = none then
    return false
  else
    return elm = (← m.deref parent).child s

/-- Go up as long as `elm` is on side `s` of its parent. -/
def climb (m : Heap H E) (s : Side) : ℕ → Option E → Except Fault (Option E)
  | 0, _ => .error .outOfFuel
  | fuel + 1, elm => do
      if ← m.isChild s elm then
        m.climb s fuel (← m.deref elm).parent
      else
        return elm

/-- `VRB_NEXT` for the right side, and with the sides exchanged `VRB_PREV`. -/
def neighbour (s : Side) (fuel : ℕ) (elm : E) (m : Heap H E) : Except Fault (Option E) := do
  let n ← m.deref (some elm)
  if n.child s ≠ none then
    m.descend s.flip fuel (n.child s)
  else if ← m.isChild s.flip (some elm) then
    return n.parent
  else
    let elm ← m.climb s fuel (some elm)
    return (← m.deref elm).parent

def vrbNext (fuel : ℕ) (elm : E) (m : Heap H E) : Except Fault (Option E) :=
  m.neighbour .right fuel elm

def vrbPrev (fuel : ℕ) (elm : E) (m : Heap H E) : Except Fault (Option E) :=
  m.neighbour .left fuel elm

def minmaxFrom (m : Heap H E) (val : Int) :
    ℕ → Option E → Option E → Except Fault (Option E)
  | 0, _, _ => .error .outOfFuel
  | fuel + 1, tmp, parent =>
      if tmp = none then
        return parent
      else do
        let n ← m.deref tmp
        if val < 0 then
          m.minmaxFrom val fuel n.left tmp
        else
          m.minmaxFrom val fuel n.right tmp

def vrbMinmax (fuel : ℕ) (h : H) (val : Int) (m : Heap H E) : Except Fault (Option E) :=
  m.minmaxFrom val fuel (m.root h) none

def vrbMin (fuel : ℕ) (h : H) (m : Heap H E) : Except Fault (Option E) :=
  m.vrbMinmax fuel h (-1)

def vrbMax (fuel : ℕ) (h : H) (m : Heap H E) : Except Fault (Option E) :=
  m.vrbMinmax fuel h 1

/-- The elements that `VRB_FOREACH`, or `VRB_FOREACH_REVERSE`, visits from `x` on
when the body leaves the trees alone. -/
def visit (m : Heap H E) (s : Side) (fuel : ℕ) : ℕ → Option E → Except Fault (List E)
  | 0, _ => .error .outOfFuel
  | _ + 1, none => return []
  | n + 1, some x => do
      let y ← m.neighbour s fuel x
      return x :: (← m.visit s fuel n y)

def vrbForeach (fuel : ℕ) (h : H) (m : Heap H E) : Except Fault (List E) := do
  m.visit .right fuel fuel (← m.vrbMin fuel h)

def vrbForeachReverse (fuel : ℕ) (h : H) (m : Heap H E) : Except Fault (List E) := do
  m.visit .left fuel fuel (← m.vrbMax fuel h)

/-- `VRB_FOREACH` from `x` on with a body that works on a larger state, of which
`tree` is the memory of the links. -/
def visitDo {σ : Type} (tree : σ → Heap H E) (fuel : ℕ) (body : E → σ → Except Fault σ) :
    ℕ → Option E → σ → Except Fault σ
  | 0, _, _ => .error .outOfFuel
  | _ + 1, none, s => return s
  | n + 1, some x, s => do
      let s ← body x s
      let y ← (tree s).vrbNext fuel x
      visitDo tree fuel body n y s

def vrbForeachDo {σ : Type} (tree : σ → Heap H E) (fuel : ℕ) (h : H)
    (body : E → σ → Except Fault σ) (s : σ) : Except Fault σ := do
  visitDo tree fuel body fuel (← (tree s).vrbMin fuel h) s

/-- `VRB_FOREACH_SAFE` from `x` on: the successor is saved before the body runs. -/
def visitSafe (fuel : ℕ) (body : E → Heap H E → Except Fault (Heap H E)) :
    ℕ → Option E → Heap H E → Except Fault (Heap H E)
  | 0, _, _ => .error .outOfFuel
  | _ + 1, none, m => return m
  | n + 1, some x, m => do
      let y ← m.vrbNext fuel x
      let m ← body x m
      visitSafe fuel body n y m

def vrbForeachSafe (fuel : ℕ) (h : H) (body : E → Heap H E → Except Fault (Heap H E))
    (m : Heap H E) : Except Fault (Heap H E) := do
  visitSafe fuel body fuel (← m.vrbMin fuel h) m

end Heap

end VarnishModules.VtreeModel
