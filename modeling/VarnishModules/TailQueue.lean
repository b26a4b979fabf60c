import Mathlib

/-!
Intrusive doubly linked tail queues.

An element carries one pair of links for each queue it can sit on, and the
back link of a pair points at the cell that holds the element's address, so
unlinking needs no list head.  Every access first checks that the object it
reads or writes is still allocated.  The module knows nothing of what the
elements are.
-/

set_option linter.unusedSectionVars false

namespace VarnishModules.TailQueue

/-- How a run leaves the defined part of a C program. -/
inductive Fault
  | nullDeref
  | useAfterFree
  | assertion
  | outOfFuel
  deriving DecidableEq, Repr

theorem ok_bind {α β : Type} {x : Except Fault α} {a : α} {f : α → Except Fault β}
    (hx : x = .ok a) : (x >>= f) = f a := by
  rw [hx]
  rfl

/-- The cells that hold the address of an element: the first cell of a queue
head and the forward link of an element. -/
inductive Slot (H F E : Type)
  | first (h : H)
  | next (f : F) (e : E)
  deriving DecidableEq

/-- The memory of a family of queues over one type of elements: the two cells
of each head, the links of each element under each field, which elements are
allocated, and the elements given back so far. -/
structure Queues (H F E : Type) where
  live : E → Bool
  first : H → Option E
  last : H → Option (Slot H F E)
  next : F → E → Option E
  prev : F → E → Option (Slot H F E)
  freed : List E

variable {H F E : Type} [DecidableEq H] [DecidableEq F] [DecidableEq E]

namespace Queues

/-- No element is allocated and every head is an initialised empty queue. -/
def empty : Queues H F E where
  live := fun _ => false
  first := fun _ => none
  last := fun h => some (.first h)
  next := fun _ _ => none
  prev := fun _ _ => none
  freed := []

def read (m : Queues H F E) : Slot H F E → Option E
  | .first h => m.first h
  | .next f e => m.next f e

def write (m : Queues H F E) (s : Slot H F E) (v : Option E) : Queues H F E :=
  match s with
  | .first h => { m with first := Function.update m.first h v }
  | .next f e =>
      { m with next := Function.update m.next f (Function.update (m.next f) e v) }

def setPrev (m : Queues H F E) (f : F) (e : E) (s : Option (Slot H F E)) :
    Queues H F E :=
  { m with prev := Function.update m.prev f (Function.update (m.prev f) e s) }

def setLast (m : Queues H F E) (h : H) (s : Option (Slot H F E)) : Queues H F E :=
  { m with last := Function.update m.last h s }

@[simp] theorem read_first (m : Queues H F E) (h : H) :
    m.read (.first h) = m.first h := rfl

@[simp] theorem read_next (m : Queues H F E) (f : F) (e : E) :
    m.read (.next f e) = m.next f e := rfl

theorem read_write (m : Queues H F E) (s t : Slot H F E) (v : Option E) :
    (m.write s v).read t = if t = s then v else m.read t := by
  cases s with
  | first h =>
      cases t with
      | first k => simp [write, Function.update_apply]
      | next g x => simp [write]
  | next f e =>
      cases t with
      | first k => simp [write]
      | next g x =>
          by_cases hg : g = f
          · subst hg
            simp [write, Function.update_apply]
          · simp [write, hg]

@[simp] theorem first_write (m : Queues H F E) (s : Slot H F E) (v : Option E)
    (h : H) : (m.write s v).first h = if .first h = s then v else m.first h :=
  read_write m s (.first h) v

@[simp] theorem next_write (m : Queues H F E) (s : Slot H F E) (v : Option E)
    (f : F) (e : E) :
    (m.write s v).next f e = if .next f e = s then v else m.next f e :=
  read_write m s (.next f e) v

@[simp] theorem last_write (m : Queues H F E) (s : Slot H F E) (v : Option E) :
    (m.write s v).last = m.last := by cases s <;> rfl

@[simp] theorem prev_write (m : Queues H F E) (s : Slot H F E) (v : Option E) :
    (m.write s v).prev = m.prev := by cases s <;> rfl

@[simp] theorem live_write (m : Queues H F E) (s : Slot H F E) (v : Option E) :
    (m.write s v).live = m.live := by cases s <;> rfl

@[simp] theorem freed_write (m : Queues H F E) (s : Slot H F E) (v : Option E) :
    (m.write s v).freed = m.freed := by cases s <;> rfl

@[simp] theorem read_setPrev (m : Queues H F E) (f : F) (e : E)
    (s : Option (Slot H F E)) : (m.setPrev f e s).read = m.read := by
  funext t
  cases t <;> rfl

@[simp] theorem first_setPrev (m : Queues H F E) (f : F) (e : E)
    (s : Option (Slot H F E)) : (m.setPrev f e s).first = m.first := rfl

@[simp] theorem next_setPrev (m : Queues H F E) (f : F) (e : E)
    (s : Option (Slot H F E)) : (m.setPrev f e s).next = m.next := rfl

@[simp] theorem last_setPrev (m : Queues H F E) (f : F) (e : E)
    (s : Option (Slot H F E)) : (m.setPrev f e s).last = m.last := rfl

@[simp] theorem prev_setPrev (m : Queues H F E) (f g : F) (e x : E)
    (s : Option (Slot H F E)) :
    (m.setPrev f e s).prev g x = if g = f ∧ x = e then s else m.prev g x := by
  by_cases hg : g = f
  · subst hg
    simp [setPrev, Function.update_apply]
  · simp [setPrev, hg]

@[simp] theorem live_setPrev (m : Queues H F E) (f : F) (e : E)
    (s : Option (Slot H F E)) : (m.setPrev f e s).live = m.live := rfl

@[simp] theorem freed_setPrev (m : Queues H F E) (f : F) (e : E)
    (s : Option (Slot H F E)) : (m.setPrev f e s).freed = m.freed := rfl

@[simp] theorem read_setLast (m : Queues H F E) (h : H) (s : Option (Slot H F E)) :
    (m.setLast h s).read = m.read := by
  funext t
  cases t <;> rfl

@[simp] theorem first_setLast (m : Queues H F E) (h : H) (s : Option (Slot H F E)) :
    (m.setLast h s).first = m.first := rfl

@[simp] theorem next_setLast (m : Queues H F E) (h : H) (s : Option (Slot H F E)) :
    (m.setLast h s).next = m.next := rfl

@[simp] theorem last_setLast (m : Queues H F E) (h k : H)
    (s : Option (Slot H F E)) :
    (m.setLast h s).last k = if k = h then s else m.last k := by
  simp [setLast, Function.update_apply]

@[simp] theorem prev_setLast (m : Queues H F E) (h : H) (s : Option (Slot H F E)) :
    (m.setLast h s).prev = m.prev := rfl

@[simp] theorem live_setLast (m : Queues H F E) (h : H) (s : Option (Slot H F E)) :
    (m.setLast h s).live = m.live := rfl

@[simp] theorem freed_setLast (m : Queues H F E) (h : H) (s : Option (Slot H F E)) :
    (m.setLast h s).freed = m.freed := rfl

/-! The operations, with `alive` telling which heads are allocated. -/

def touchElem (m : Queues H F E) (e : E) : Except Fault Unit :=
  if m.live e then .ok () else .error .useAfterFree

def touchHead (alive : H → Bool) (h : H) : Except Fault Unit :=
  if alive h then .ok () else .error .useAfterFree

def touchSlot (m : Queues H F E) (alive : H → Bool) : Slot H F E → Except Fault Unit
  | .first h => touchHead alive h
  | .next _ e => m.touchElem e

/-- `*s = v` for a cell address `s` that may be `NULL`. -/
def store (m : Queues H F E) (alive : H → Bool) (s : Option (Slot H F E))
    (v : Option E) : Except Fault (Queues H F E) :=
  match s with
  | none => .error .nullDeref
  | some s => do
      m.touchSlot alive s
      return m.write s v

/-- `ALLOC_OBJ`: a zeroed element. -/
def alloc (m : Queues H F E) (e : E) : Queues H F E :=
  { m with
    live := Function.update m.live e true
    next := fun f => Function.update (m.next f) e none
    prev := fun f => Function.update (m.prev f) e none }

/-- `FREE_OBJ`. -/
def free (m : Queues H F E) (e : E) : Except Fault (Queues H F E) := do
  m.touchElem e
  return { m with live := Function.update m.live e false, freed := m.freed ++ [e] }

/-- `VTAILQ_INIT`. -/
def init (m : Queues H F E) (h : H) : Queues H F E :=
  (m.write (.first h) none).setLast h (some (.first h))

/-- `VTAILQ_INSERT_HEAD`. -/
def insertHead (m : Queues H F E) (alive : H → Bool) (f : F) (h : H) (e : E) :
    Except Fault (Queues H F E) := do
  touchHead alive h
  m.touchElem e
  let m := m.write (.next f e) (m.first h)
  let m ← match m.next f e with
    | some x => do
        m.touchElem x
        pure (m.setPrev f x (some (.next f e)))
    | none => pure (m.setLast h (some (.next f e)))
  let m := m.write (.first h) (some e)
  return m.setPrev f e (some (.first h))

/-- `VTAILQ_INSERT_TAIL`. -/
def insertTail (m : Queues H F E) (alive : H → Bool) (f : F) (h : H) (e : E) :
    Except Fault (Queues H F E) := do
  touchHead alive h
  m.touchElem e
  let m := m.write (.next f e) none
  let m := m.setPrev f e (m.last h)
  let m ← m.store alive (m.last h) (some e)
  return m.setLast h (some (.next f e))

/-- `VTAILQ_REMOVE`. -/
def remove (m : Queues H F E) (alive : H → Bool) (f : F) (h : H) (e : E) :
    Except Fault (Queues H F E) := do
  m.touchElem e
  let m ← match m.next f e with
    | some x => do
        m.touchElem x
        pure (m.setPrev f x (m.prev f e))
    | none => do
        touchHead alive h
        pure (m.setLast h (m.prev f e))
  m.store alive (m.prev f e) (m.next f e)

/-- `VTAILQ_CONCAT`. -/
def concat (m : Queues H F E) (alive : H → Bool) (f : F) (h₁ h₂ : H) :
    Except Fault (Queues H F E) := do
  touchHead alive h₂
  match m.first h₂ with
  | none => return m
  | some x => do
      touchHead alive h₁
      let m ← m.store alive (m.last h₁) (some x)
      m.touchElem x
      let m := m.setPrev f x (m.last h₁)
      let m := m.setLast h₁ (m.last h₂)
      return m.init h₂

/-- The elements `VTAILQ_FOREACH` visits from the cursor `cur` on. -/
def walk (m : Queues H F E) (f : F) : Nat → Option E → Except Fault (List E)
  | _, none => .ok []
  | 0, some _ => .error .outOfFuel
  | n + 1, some x => do
      m.touchElem x
      let xs ← m.walk f n (m.next f x)
      return x :: xs

end Queues

/-- The cells from `s` on lead through exactly the elements `xs`, and every
back link points at the cell its element is read from. -/
def Segment (m : Queues H F E) (f : F) : Slot H F E → List E → Prop
  | _, [] => True
  | s, x :: xs =>
      m.read s = some x ∧ m.prev f x = some s ∧ m.live x = true ∧
        Segment m f (.next f x) xs

/-- The cell that follows the last element of `xs`. -/
def endSlot (f : F) : Slot H F E → List E → Slot H F E
  | s, [] => s
  | _, x :: xs => endSlot f (.next f x) xs

/-- The queue of `h`, threaded on the links `f`, holds `xs`. -/
structure IsQueue (m : Queues H F E) (f : F) (h : H) (xs : List E) : Prop where
  segment : Segment m f (.first h) xs
  stop : m.read (endSlot f (.first h) xs) = none
  last : m.last h = some (endSlot f (.first h) xs)
  nodup : xs.Nodup

/-- `m'` differs from `m` at most in the cells of the head `h` and in the
`f`-links of the elements of `S`. -/
structure AgreeOff (f : F) (h : H) (S : List E) (m m' : Queues H F E) : Prop where
  first : ∀ k, k ≠ h → m'.first k = m.first k
  last : ∀ k, k ≠ h → m'.last k = m.last k
  next : ∀ g x, g ≠ f ∨ x ∉ S → m'.next g x = m.next g x
  prev : ∀ g x, g ≠ f ∨ x ∉ S → m'.prev g x = m.prev g x
  live : m'.live = m.live
  freed : m'.freed = m.freed

theorem endSlot_append (f : F) (s : Slot H F E) (xs ys : List E) :
    endSlot f s (xs ++ ys) = endSlot f (endSlot f s xs) ys := by
  induction xs generalizing s with
  | nil => rfl
  | cons x xs ih => exact ih _

theorem endSlot_eq (f : F) (s : Slot H F E) (xs : List E) :
    endSlot f s xs = s ∨ ∃ x ∈ xs, endSlot f s xs = .next f x := by
  induction xs generalizing s with
  | nil => exact Or.inl rfl
  | cons x xs ih =>
      rcases ih (.next f x) with h | ⟨y, hy, h⟩
      · exact Or.inr ⟨x, by simp, h⟩
      · exact Or.inr ⟨y, by simp [hy], h⟩

theorem endSlot_next (f : F) (y : E) (ys : List E) :
    ∃ z, endSlot f (.next f y : Slot H F E) ys = .next f z := by
  rcases endSlot_eq f (.next f y : Slot H F E) ys with h | ⟨z, -, h⟩
  · exact ⟨y, h⟩
  · exact ⟨z, h⟩

theorem endSlot_ne_next {f : F} {s : Slot H F E} {xs : List E} {e : E}
    (hs : s ≠ .next f e) (he : e ∉ xs) : endSlot f s xs ≠ .next f e := by
  rcases endSlot_eq f s xs with h | ⟨x, hx, h⟩
  · rwa [h]
  · rw [h]
    intro heq
    obtain rfl : x = e := by simpa using heq
    exact he hx

theorem segment_append {m : Queues H F E} {f : F} {s : Slot H F E} {xs ys : List E} :
    Segment m f s (xs ++ ys) ↔ Segment m f s xs ∧ Segment m f (endSlot f s xs) ys := by
  induction xs generalizing s with
  | nil => simp [Segment, endSlot]
  | cons x xs ih => simp [Segment, endSlot, ih, and_assoc]

/-- A segment reads its cells up to, but not including, the one that follows
its last element. -/
theorem Segment.congr {m m' : Queues H F E} {f : F} {s : Slot H F E} {xs : List E}
    (hs : ∀ x ∈ xs, s ≠ .next f x) (hnodup : xs.Nodup)
    (hread : ∀ t, t ≠ endSlot f s xs → (t = s ∨ ∃ x ∈ xs, t = .next f x) →
      m'.read t = m.read t)
    (hxs : ∀ x ∈ xs, m'.prev f x = m.prev f x ∧ (m.live x = true → m'.live x = true))
    (hseg : Segment m f s xs) : Segment m' f s xs := by
  induction xs generalizing s with
  | nil => trivial
  | cons x xs ih =>
      obtain ⟨hx, hprev, hlive, htail⟩ := hseg
      obtain ⟨hprev', hlive'⟩ := hxs x (by simp)
      have hne : s ≠ endSlot f s (x :: xs) := by
        rcases endSlot_eq f (.next f x : Slot H F E) xs with h | ⟨y, hy, h⟩
        · rw [endSlot, h]
          exact hs x (by simp)
        · rw [endSlot, h]
          exact hs y (by simp [hy])
      refine ⟨(hread s hne (Or.inl rfl)).trans hx, hprev'.trans hprev, hlive' hlive, ?_⟩
      obtain ⟨hx, hnodup⟩ := List.nodup_cons.mp hnodup
      refine ih ?_ hnodup ?_ (fun y hy => hxs y (by simp [hy])) htail
      · intro y hy heq
        obtain rfl : x = y := by simpa using heq
        exact hx hy
      · rintro t ht (rfl | ⟨y, hy, rfl⟩)
        · exact hread _ ht (Or.inr ⟨x, by simp, rfl⟩)
        · exact hread _ ht (Or.inr ⟨y, by simp [hy], rfl⟩)

/-- A segment may be entered from another cell once its first element is read
from there and points back to it. -/
theorem Segment.relink {m m' : Queues H F E} {f : F} {s s' : Slot H F E} {zs : List E}
    (hnodup : zs.Nodup)
    (hhead : ∀ z ∈ zs.head?, m'.read s' = some z ∧ m'.prev f z = some s')
    (hnext : ∀ z ∈ zs, m'.next f z = m.next f z)
    (hprev : ∀ z ∈ zs.tail, m'.prev f z = m.prev f z)
    (hlive : m'.live = m.live) (hseg : Segment m f s zs) : Segment m' f s' zs := by
  cases zs with
  | nil => trivial
  | cons z zs =>
      obtain ⟨-, -, hz, htail⟩ := hseg
      obtain ⟨hread', hprev'⟩ := hhead z rfl
      obtain ⟨hzs, hnodup⟩ := List.nodup_cons.mp hnodup
      refine ⟨hread', hprev', hlive ▸ hz, htail.congr ?_ hnodup ?_ ?_⟩
      · intro y hy heq
        obtain rfl : z = y := by simpa using heq
        exact hzs hy
      · rintro t - (rfl | ⟨y, hy, rfl⟩)
        · exact hnext z (by simp)
        · exact hnext y (by simp [hy])
      · intro y hy
        exact ⟨hprev y hy, fun hl => hlive ▸ hl⟩

theorem IsQueue.congr {m m' : Queues H F E} {f : F} {h : H} {xs : List E}
    (hfirst : m'.first h = m.first h) (hlast : m'.last h = m.last h)
    (hxs : ∀ x ∈ xs, m'.next f x = m.next f x ∧ m'.prev f x = m.prev f x ∧
      (m.live x = true → m'.live x = true))
    (hq : IsQueue m f h xs) : IsQueue m' f h xs := by
  have hread : ∀ t, (t = .first h ∨ ∃ x ∈ xs, t = .next f x) →
      m'.read t = m.read t := by
    rintro t (rfl | ⟨x, hx, rfl⟩)
    · exact hfirst
    · exact (hxs x hx).1
  have hstop := hread _ (endSlot_eq f (.first h) xs)
  exact ⟨hq.segment.congr (by simp) hq.nodup (fun t _ ht => hread t ht)
    (fun x hx => (hxs x hx).2), hstop.trans hq.stop, hlast.trans hq.last, hq.nodup⟩

/-- A queue with another head, threaded on other links or through other
elements, survives an operation on the queue of `h`. -/
theorem IsQueue.frame {m m' : Queues H F E} {f g : F} {h k : H} {S ys : List E}
    (hq : IsQueue m g k ys) (hm : AgreeOff f h S m m') (hk : k ≠ h)
    (hS : g ≠ f ∨ ∀ y ∈ ys, y ∉ S) : IsQueue m' g k ys := by
  refine hq.congr (hm.first k hk) (hm.last k hk) ?_
  intro y hy
  have hoff : g ≠ f ∨ y ∉ S := hS.imp_right (fun h => h y hy)
  exact ⟨hm.next g y hoff, hm.prev g y hoff, fun hl => by rwa [hm.live]⟩

/-- Of queues without common elements, those of the other heads survive an operation on the
queue of one of them. -/
theorem forall_isQueue_update {ι : Type*} [DecidableEq ι] {m m' : Queues H F E} {f : F}
    {mk : ι → H} {lists : ι → List E} {P : ι → Prop} {i : ι} {S xs : List E}
    (hmk : Function.Injective mk) (hq : ∀ j, P j → IsQueue m f (mk j) (lists j))
    (hm : AgreeOff f (mk i) S m m') (hi : IsQueue m' f (mk i) xs)
    (hS : ∀ j, j ≠ i → ∀ y ∈ lists j, y ∉ S) :
    ∀ j, P j → IsQueue m' f (mk j) (Function.update lists i xs j) :=
  (Function.forall_update_iff lists fun j ys => P j → IsQueue m' f (mk j) ys).mpr
    ⟨fun _ => hi, fun j hj hl => (hq j hl).frame hm (hmk.ne hj) (Or.inr (hS j hj))⟩

theorem Segment.live {m : Queues H F E} {f : F} {s : Slot H F E} {xs : List E}
    (hseg : Segment m f s xs) {x : E} (hx : x ∈ xs) : m.live x = true := by
  induction xs generalizing s with
  | nil => simp at hx
  | cons y ys ih =>
      obtain ⟨-, -, hlive, htail⟩ := hseg
      rcases List.mem_cons.mp hx with rfl | hx
      · exact hlive
      · exact ih htail hx

theorem IsQueue.live {m : Queues H F E} {f : F} {h : H} {xs : List E}
    (hq : IsQueue m f h xs) {x : E} (hx : x ∈ xs) : m.live x = true :=
  hq.segment.live hx

theorem IsQueue.first_eq {m : Queues H F E} {f : F} {h : H} {xs : List E}
    (hq : IsQueue m f h xs) : m.first h = xs.head? := by
  cases xs with
  | nil => exact hq.stop
  | cons x xs => exact hq.segment.1

theorem IsQueue.next_eq {m : Queues H F E} {f : F} {h : H} {x : E} {xs : List E}
    (hq : IsQueue m f h (x :: xs)) : m.next f x = xs.head? := by
  cases xs with
  | nil => exact hq.stop
  | cons y ys => exact hq.segment.2.2.2.1

theorem isQueue_init (m : Queues H F E) (f : F) (h : H) :
    IsQueue (m.init h) f h [] := by
  constructor <;> simp [Segment, Queues.init, endSlot]

theorem AgreeOff.trans {f : F} {h : H} {S : List E} {m₁ m₂ m₃ : Queues H F E}
    (h₁ : AgreeOff f h S m₁ m₂) (h₂ : AgreeOff f h S m₂ m₃) : AgreeOff f h S m₁ m₃ where
  first k hk := (h₂.first k hk).trans (h₁.first k hk)
  last k hk := (h₂.last k hk).trans (h₁.last k hk)
  next g x hx := (h₂.next g x hx).trans (h₁.next g x hx)
  prev g x hx := (h₂.prev g x hx).trans (h₁.prev g x hx)
  live := h₂.live.trans h₁.live
  freed := h₂.freed.trans h₁.freed

theorem agreeOff_write {f : F} {h : H} {S : List E} (m : Queues H F E)
    {s : Slot H F E} (v : Option E) (hs : s = .first h ∨ ∃ x ∈ S, s = .next f x) :
    AgreeOff f h S m (m.write s v) := by
  refine ⟨?_, by simp, ?_, by simp, by simp, by simp⟩
  · intro k hk
    rcases hs with rfl | ⟨x, -, rfl⟩ <;> simp [hk]
  · intro g x hoff
    rcases hs with rfl | ⟨y, hy, rfl⟩
    · simp
    · have hne : ¬(g = f ∧ x = y) := by
        rintro ⟨rfl, rfl⟩
        simp [hy] at hoff
      simp [hne]

theorem agreeOff_setPrev {f : F} {h : H} {S : List E} (m : Queues H F E) {e : E}
    (s : Option (Slot H F E)) (he : e ∈ S) : AgreeOff f h S m (m.setPrev f e s) := by
  refine ⟨by simp, by simp, by simp, ?_, by simp, by simp⟩
  intro g x hoff
  have hne : ¬(g = f ∧ x = e) := by
    rintro ⟨rfl, rfl⟩
    simp [he] at hoff
  simp [hne]

theorem agreeOff_setLast {f : F} {h : H} {S : List E} (m : Queues H F E)
    (s : Option (Slot H F E)) : AgreeOff f h S m (m.setLast h s) := by
  constructor <;> simp +contextual

theorem agreeOff_init (m : Queues H F E) (f : F) (h : H) :
    AgreeOff f h [] m (m.init h) :=
  (agreeOff_write m none (Or.inl rfl)).trans (agreeOff_setLast _ _)

/-! What the operations do to a queue. -/

theorem touchElem_ok {m : Queues H F E} {e : E} (he : m.live e = true) :
    m.touchElem e = .ok () := by
  simp [Queues.touchElem, he]

theorem touchHead_ok {alive : H → Bool} {h : H} (ha : alive h = true) :
    Queues.touchHead alive h = .ok () := by
  simp [Queues.touchHead, ha]

theorem touchSlot_endSlot {m : Queues H F E} {alive : H → Bool} {f : F} {h : H}
    {xs : List E} (ha : alive h = true) (hlive : ∀ x ∈ xs, m.live x = true) :
    m.touchSlot alive (endSlot f (.first h) xs) = .ok () := by
  rcases endSlot_eq f (.first h) xs with heq | ⟨x, hx, heq⟩
  · rw [heq]
    exact touchHead_ok ha
  · rw [heq]
    exact touchElem_ok (hlive x hx)

theorem insertTail_spec {m : Queues H F E} {alive : H → Bool} {f : F} {h : H}
    {xs : List E} {e : E} (hq : IsQueue m f h xs) (ha : alive h = true)
    (he : m.live e = true) (hxs : e ∉ xs) :
    ∃ m', m.insertTail alive f h e = .ok m' ∧ IsQueue m' f h (xs ++ [e]) ∧
      AgreeOff f h (e :: xs) m m' := by
  let t := endSlot f (.first h) xs
  have ht : t ≠ .next f e := endSlot_ne_next (by simp) hxs
  let m₁ := (m.write (.next f e) none).setPrev f e (some t)
  have htouch : m₁.touchSlot alive t = .ok () :=
    touchSlot_endSlot ha (fun x hx => hq.live hx)
  let m' := (m₁.write t (some e)).setLast h (some (.next f e))
  have hread : ∀ s, m'.read s =
      if s = t then some e else if s = .next f e then none else m.read s := by
    intro s
    simp [m', m₁, Queues.read_write]
  refine ⟨m', ?_, ⟨?_, ?_, ?_, ?_⟩, ?_⟩
  · simp only [Queues.insertTail, touchHead_ok ha, touchElem_ok he, bind, Except.bind,
      Queues.last_write, Queues.last_setPrev, hq.last, Queues.store]
    change (match m₁.touchSlot alive t with | _ => _) = _
    rw [htouch]
    rfl
  · rw [segment_append]
    refine ⟨hq.segment.congr (by simp) hq.nodup ?_ ?_, ?_⟩
    · rintro s hs (rfl | ⟨x, hx, rfl⟩)
      · rw [hread, if_neg hs]
        simp
      · rw [hread, if_neg hs, if_neg]
        rintro heq
        obtain rfl : x = e := by simpa using heq
        exact hxs hx
    · intro x hx
      have hne : x ≠ e := fun heq => hxs (heq ▸ hx)
      simp [m', m₁, hne]
    · exact ⟨by rw [hread, if_pos rfl], by simp [m', m₁, t], by simpa [m', m₁], trivial⟩
  · rw [endSlot_append, endSlot, endSlot, hread, if_neg ht.symm, if_pos rfl]
  · rw [endSlot_append]
    simp [m', endSlot]
  · exact List.nodup_append.mpr ⟨hq.nodup, by simp, by
      rintro x hx y hy rfl
      exact hxs (List.mem_singleton.mp hy ▸ hx)⟩
  · have ht : t = .first h ∨ ∃ x ∈ e :: xs, t = .next f x :=
      (endSlot_eq f (.first h) xs).imp_right fun ⟨x, hx, heq⟩ => ⟨x, by simp [hx], heq⟩
    exact (agreeOff_write m none (Or.inr ⟨e, by simp, rfl⟩)).trans
      ((agreeOff_setPrev _ _ (by simp)).trans
        ((agreeOff_write _ _ ht).trans (agreeOff_setLast _ _)))

theorem insertHead_spec {m : Queues H F E} {alive : H → Bool} {f : F} {h : H}
    {xs : List E} {e : E} (hq : IsQueue m f h xs) (ha : alive h = true)
    (he : m.live e = true) (hxs : e ∉ xs) :
    ∃ m', m.insertHead alive f h e = .ok m' ∧ IsQueue m' f h (e :: xs) ∧
      AgreeOff f h (e :: xs) m m' := by
  let m₁ := m.write (.next f e) (m.first h)
  let m₂ := match xs with
    | [] => m₁.setLast h (some (.next f e))
    | x :: _ => m₁.setPrev f x (some (.next f e))
  let m' := (m₂.write (.first h) (some e)).setPrev f e (some (.first h))
  have hread : m₂.read = m₁.read := by cases xs <;> simp [m₂]
  have hlive : m₂.live = m.live := by cases xs <;> simp [m₂, m₁]
  have hoff : AgreeOff f h (e :: xs) m m₂ := by
    have h₁ : AgreeOff f h (e :: xs) m m₁ :=
      agreeOff_write m (m.first h) (Or.inr ⟨e, by simp, rfl⟩)
    cases xs with
    | nil => exact h₁.trans (agreeOff_setLast _ _)
    | cons x xs => exact h₁.trans (agreeOff_setPrev _ _ (by simp))
  have hnext : ∀ x, m'.next f x = if x = e then m.first h else m.next f x := by
    intro x
    have : m₂.next f x = m₁.next f x := congrFun hread (.next f x)
    simp [m', this, m₁]
  have hstep : m.insertHead alive f h e = .ok m' := by
    have hm₁ : m₁.next f e = xs.head? := by simp [m₁, hq.first_eq]
    simp only [Queues.insertHead, touchHead_ok ha, touchElem_ok he, bind, Except.bind,
      pure, Except.pure]
    cases xs with
    | nil => simp only [m₁, List.head?_nil] at hm₁; simp only [hm₁]; rfl
    | cons x xs =>
        have hx : m₁.touchElem x = .ok () :=
          touchElem_ok (by simpa [m₁] using hq.live (by simp))
        simp only [m₁, List.head?_cons] at hm₁ hx
        simp only [hm₁, hx]
        rfl
  refine ⟨m', hstep, ⟨⟨?_, ?_, ?_, ?_⟩, ?_, ?_, ?_⟩, ?_⟩
  · simp [m']
  · simp [m']
  · simpa [m', hlive]
  · refine hq.segment.relink hq.nodup ?_ ?_ ?_ (by simp [m', hlive])
    · intro z hz
      have hne : z ≠ e := by
        rintro rfl
        exact hxs (List.mem_of_mem_head? hz)
      refine ⟨by simp [hnext, hq.first_eq, Option.mem_def.mp hz], ?_⟩
      cases xs with
      | nil => simp at hz
      | cons x xs =>
          obtain rfl : x = z := by simpa using hz
          simp [m', m₂, hne]
    · intro z hz
      rw [hnext, if_neg]
      rintro rfl
      exact hxs hz
    · intro z hz
      have hne : z ≠ e := by
        rintro rfl
        exact hxs (List.mem_of_mem_tail hz)
      cases xs with
      | nil => simp at hz
      | cons x xs =>
          have hzx : z ≠ x := by
            rintro rfl
            exact (List.nodup_cons.mp hq.nodup).1 hz
          simp [m', m₂, m₁, hne, hzx]
  · rw [endSlot]
    cases xs with
    | nil => simp [endSlot, hnext, hq.first_eq]
    | cons x xs =>
        have hstop := hq.stop
        rw [endSlot] at hstop ⊢
        rcases endSlot_eq f (.next f x : Slot H F E) xs with heq | ⟨y, hy, heq⟩
        · rw [heq] at hstop ⊢
          rw [Queues.read_next, hnext, if_neg (by rintro rfl; simp at hxs)]
          exact hstop
        · rw [heq] at hstop ⊢
          rw [Queues.read_next, hnext, if_neg (by rintro rfl; simp [hy] at hxs)]
          exact hstop
  · cases xs with
    | nil => simp [m', m₂, endSlot]
    | cons x xs => simpa [m', m₂, m₁, endSlot] using hq.last
  · exact List.nodup_cons.mpr ⟨hxs, hq.nodup⟩
  · exact hoff.trans ((agreeOff_write _ _ (Or.inl rfl)).trans
      (agreeOff_setPrev _ _ (by simp)))

/-- The element taken off keeps its own two links. -/
theorem remove_spec {m : Queues H F E} {alive : H → Bool} {f : F} {h : H}
    {ys zs : List E} {e : E} (hq : IsQueue m f h (ys ++ e :: zs)) (ha : alive h = true) :
    ∃ m', m.remove alive f h e = .ok m' ∧ IsQueue m' f h (ys ++ zs) ∧
      AgreeOff f h (ys ++ e :: zs) m m' ∧ m'.next f e = m.next f e ∧
      m'.prev f e = m.prev f e := by
  let t := endSlot f (.first h) ys
  obtain ⟨hys, hread, hprev, he, hzs⟩ := segment_append.mp hq.segment
  obtain ⟨hnodupYs, hnodupZs, hdisj⟩ := List.nodup_append.mp hq.nodup
  obtain ⟨hezs, hnodupZs⟩ := List.nodup_cons.mp hnodupZs
  have heys : e ∉ ys := fun hmem => hdisj e hmem e (by simp) rfl
  have hyszs : ∀ x ∈ ys, x ∉ zs := fun x hx hz => hdisj x hx x (by simp [hz]) rfl
  have ht : ∀ x, x ∉ ys → t ≠ .next f x := fun x hx => endSlot_ne_next (by simp) hx
  have hnext : m.next f e = zs.head? := by
    cases zs with
    | nil =>
        have hstop := hq.stop
        rwa [endSlot_append] at hstop
    | cons z zs => exact hzs.1
  let m₁ := match zs with
    | [] => m.setLast h (some t)
    | z :: _ => m.setPrev f z (some t)
  let m' := m₁.write t (m.next f e)
  have hread₁ : m₁.read = m.read := by cases zs <;> simp [m₁]
  have hlive₁ : m₁.live = m.live := by cases zs <;> simp [m₁]
  have hprev₁ : ∀ x, x ∉ zs.head? → m₁.prev f x = m.prev f x := by
    intro x hx
    cases zs with
    | nil => rfl
    | cons z zs =>
        have hne : x ≠ z := by
          rintro rfl
          exact hx rfl
        simp [m₁, hne]
  have hread' : ∀ s, m'.read s = if s = t then m.next f e else m.read s := by
    intro s
    simp [m', Queues.read_write, hread₁]
  have hoff : AgreeOff f h (ys ++ e :: zs) m m' := by
    have h₁ : AgreeOff f h (ys ++ e :: zs) m m₁ := by
      cases zs with
      | nil => exact agreeOff_setLast _ _
      | cons z zs => exact agreeOff_setPrev _ _ (by simp)
    refine h₁.trans (agreeOff_write _ _ ?_)
    exact (endSlot_eq f (.first h) ys).imp_right fun ⟨x, hx, heq⟩ => ⟨x, by simp [hx], heq⟩
  have hstep : m.remove alive f h e = .ok m' := by
    have htouch : m₁.touchSlot alive t = .ok () :=
      touchSlot_endSlot ha (fun x hx => hlive₁ ▸ hys.live hx)
    have hprevE : m₁.prev f e = some t := (hprev₁ e (fun hmem =>
      hezs (List.mem_of_mem_head? hmem))).trans hprev
    have hnextE : m₁.next f e = m.next f e := congrFun hread₁ (.next f e)
    have hstore : m₁.store alive (m₁.prev f e) (m₁.next f e) = .ok m' := by
      rw [hprevE, hnextE]
      simp only [Queues.store, htouch, bind, Except.bind]
      rfl
    simp only [Queues.remove, touchElem_ok he, bind, Except.bind, pure, Except.pure]
    cases zs with
    | nil =>
        simp only [hnext, List.head?_nil, touchHead_ok ha, hprev]
        exact hstore
    | cons z zs =>
        have hz : m.touchElem z = .ok () := touchElem_ok hzs.2.2.1
        simp only [hnext, List.head?_cons, hz, hprev]
        exact hstore
  refine ⟨m', hstep, ⟨?_, ?_, ?_, ?_⟩, hoff, ?_, ?_⟩
  · rw [segment_append]
    constructor
    · refine hys.congr (by simp) hnodupYs ?_ ?_
      · intro s hs _
        rw [hread', if_neg hs]
      · intro x hx
        have hxz : x ∉ zs.head? := fun hmem =>
          hyszs x hx (List.mem_of_mem_head? hmem)
        exact ⟨by simp [m', hprev₁ x hxz], by simp [m', hlive₁]⟩
    · refine hzs.relink hnodupZs ?_ ?_ ?_ (by simp [m', hlive₁])
      · intro z hz
        refine ⟨by rw [hread', if_pos rfl, hnext]; exact hz, ?_⟩
        cases zs with
        | nil => simp at hz
        | cons y zs =>
            obtain rfl : y = z := by simpa using hz
            simp [m', m₁, t]
      · intro z hz
        have hne := ht z (fun hmem => hyszs z hmem hz)
        rw [← Queues.read_next, hread', if_neg hne.symm]
        rfl
      · intro z hz
        have hzz : z ∉ zs.head? := by
          cases zs with
          | nil => simp
          | cons y zs =>
              simp only [List.head?_cons, Option.mem_def, Option.some.injEq]
              rintro rfl
              exact (List.nodup_cons.mp hnodupZs).1 hz
        simp [m', hprev₁ z hzz]
  · rw [endSlot_append]
    have hstop := hq.stop
    rw [endSlot_append, endSlot] at hstop
    cases zs with
    | nil => rw [endSlot, hread', if_pos rfl, hnext]; rfl
    | cons z zs =>
        rw [endSlot] at hstop ⊢
        rw [hread', if_neg]
        · exact hstop
        · intro heq
          rcases endSlot_eq f (.next f z : Slot H F E) zs with h' | ⟨y, hy, h'⟩
          · exact ht z (fun hmem => hyszs z hmem (by simp)) (heq ▸ h')
          · exact ht y (fun hmem => hyszs y hmem (by simp [hy])) (heq ▸ h')
  · rw [endSlot_append]
    have hlast := hq.last
    rw [endSlot_append, endSlot] at hlast
    cases zs with
    | nil => simp [m', m₁, endSlot, t]
    | cons z zs => simpa [m', m₁, endSlot] using hlast
  · exact List.nodup_append.mpr ⟨hnodupYs, hnodupZs, fun x hx y hy heq =>
      hyszs x hx (heq ▸ hy)⟩
  · rw [← Queues.read_next, hread', if_neg (ht e heys).symm]
    rfl
  · simp only [m', Queues.prev_write]
    exact hprev₁ e (fun hmem => hezs (List.mem_of_mem_head? hmem))

theorem remove_head_spec {m : Queues H F E} {alive : H → Bool} {f : F} {h : H}
    {zs : List E} {e : E} (hq : IsQueue m f h (e :: zs)) (ha : alive h = true) :
    ∃ m', m.remove alive f h e = .ok m' ∧ IsQueue m' f h zs ∧
      AgreeOff f h (e :: zs) m m' ∧ m'.next f e = m.next f e ∧
      m'.prev f e = m.prev f e :=
  remove_spec (show IsQueue m f h ([] ++ e :: zs) from hq) ha

theorem free_spec {m : Queues H F E} {e : E} (he : m.live e = true) :
    m.free e = .ok { m with
      live := Function.update m.live e false, freed := m.freed ++ [e] } := by
  simp [Queues.free, touchElem_ok he, bind, Except.bind, pure, Except.pure]

theorem IsQueue.free {m : Queues H F E} {f : F} {h : H} {xs : List E} {e : E}
    (hq : IsQueue m f h xs) (he : e ∉ xs) (freed : List E) :
    IsQueue { m with live := Function.update m.live e false, freed } f h xs := by
  refine IsQueue.congr (m := m) rfl rfl ?_ hq
  intro x hx
  have hne : x ≠ e := fun heq => he (heq ▸ hx)
  simp [hne]

theorem IsQueue.alloc {m : Queues H F E} {f : F} {h : H} {xs : List E} {e : E}
    (hq : IsQueue m f h xs) (he : m.live e = false) : IsQueue (m.alloc e) f h xs := by
  refine IsQueue.congr (m := m) rfl rfl ?_ hq
  intro x hx
  have hne : x ≠ e := by
    rintro rfl
    exact absurd (hq.live hx) (by simp [he])
  simp [Queues.alloc, hne]

theorem Segment.walk_eq {m : Queues H F E} {f : F} {s : Slot H F E} {xs : List E}
    (hseg : Segment m f s xs) (hstop : m.read (endSlot f s xs) = none) {n : Nat}
    (hn : xs.length ≤ n) : m.walk f n (m.read s) = .ok xs := by
  induction xs generalizing s n with
  | nil =>
      rw [show m.read s = none from hstop]
      cases n <;> rfl
  | cons x xs ih =>
      obtain ⟨hread, -, hlive, htail⟩ := hseg
      obtain ⟨n, rfl⟩ : ∃ k, n = k + 1 := ⟨n - 1, by simp at hn; omega⟩
      have hwalk := ih htail hstop (n := n) (by simpa using hn)
      rw [hread, Queues.walk, touchElem_ok hlive]
      simp only [bind, Except.bind]
      rw [← Queues.read_next, hwalk]
      rfl

theorem IsQueue.walk_eq {m : Queues H F E} {f : F} {h : H} {xs : List E}
    (hq : IsQueue m f h xs) {n : Nat} (hn : xs.length ≤ n) :
    m.walk f n (m.first h) = .ok xs :=
  hq.segment.walk_eq hq.stop hn

/-- Addresses are given out in order, so the next one bounds every list of them. -/
theorem length_le_of_lt {xs : List Nat} {n : Nat} (hnodup : xs.Nodup)
    (hlt : ∀ x ∈ xs, x < n) : xs.length ≤ n := by
  have hsub : xs ⊆ List.range n := fun x hx => List.mem_range.mpr (hlt x hx)
  simpa using (List.subperm_of_subset hnodup hsub).length_le

end VarnishModules.TailQueue
