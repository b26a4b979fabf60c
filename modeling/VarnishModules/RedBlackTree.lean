import Mathlib

/-!
Red-black trees, and the contexts that lead from a subtree to the root.

A context lists its frames from the innermost one outwards.  A tree is balanced
when red nodes have black children and every path to a leaf passes equally many
black nodes; a context fits a colour and a height when it makes such a tree of
every balanced subtree of that height whose root is black or has that colour.
-/

namespace VarnishModules.RedBlackTree

inductive Color
  | black
  | red
  deriving DecidableEq, Repr

inductive Side
  | left
  | right
  deriving DecidableEq, Repr

def Side.flip : Side → Side
  | .left => .right
  | .right => .left

@[simp] theorem Side.flip_flip (s : Side) : s.flip.flip = s := by
  cases s <;> rfl

inductive ColorTree (E : Type)
  | leaf
  | node (color : Color) (left : ColorTree E) (elm : E) (right : ColorTree E)
  deriving DecidableEq, Repr

/-- One step from a subtree to its parent `elm`: the side the subtree is on, and
the tree on the other side. -/
structure Frame (E : Type) where
  side : Side
  color : Color
  elm : E
  sibling : ColorTree E

variable {E κ : Type} [LinearOrder κ]

namespace ColorTree

/-- The element at the root. -/
def ptr : ColorTree E → Option E
  | leaf => none
  | node _ _ e _ => some e

/-- The colour of the root; a leaf counts as black. -/
def color : ColorTree E → Color
  | leaf => .black
  | node c _ _ _ => c

/-- The elements from left to right. -/
def elems : ColorTree E → List E
  | leaf => []
  | node _ l e r => l.elems ++ e :: r.elems

/-- The tree with `t` on side `s` of `e` and `u` on the other side. -/
def join (s : Side) (c : Color) (t : ColorTree E) (e : E) (u : ColorTree E) : ColorTree E :=
  match s with
  | .left => node c t e u
  | .right => node c u e t

def blacken : ColorTree E → ColorTree E
  | leaf => leaf
  | node _ l e r => node .black l e r

@[simp] theorem ptr_leaf : (leaf : ColorTree E).ptr = none := rfl

@[simp] theorem ptr_node (c : Color) (l : ColorTree E) (e : E) (r : ColorTree E) :
    (node c l e r).ptr = some e := rfl

@[simp] theorem elems_leaf : (leaf : ColorTree E).elems = [] := rfl

@[simp] theorem elems_node (c : Color) (l : ColorTree E) (e : E) (r : ColorTree E) :
    (node c l e r).elems = l.elems ++ e :: r.elems := rfl

@[simp] theorem ptr_join (s : Side) (c : Color) (t : ColorTree E) (e : E) (u : ColorTree E) :
    (join s c t e u).ptr = some e := by
  cases s <;> rfl

@[simp] theorem elems_blacken (t : ColorTree E) : t.blacken.elems = t.elems := by
  cases t <;> rfl

@[simp] theorem ptr_blacken (t : ColorTree E) : t.blacken.ptr = t.ptr := by
  cases t <;> rfl

@[simp] theorem color_leaf : (leaf : ColorTree E).color = .black := rfl

@[simp] theorem color_join (s : Side) (c : Color) (t : ColorTree E) (e : E) (u : ColorTree E) :
    (join s c t e u).color = c := by
  cases s <;> rfl

theorem join_flip (s : Side) (c : Color) (t : ColorTree E) (e : E) (u : ColorTree E) :
    join s.flip c t e u = join s c u e t := by
  cases s <;> rfl

@[simp] theorem blacken_join (s : Side) (c : Color) (t : ColorTree E) (e : E) (u : ColorTree E) :
    (join s c t e u).blacken = join s .black t e u := by
  cases s <;> rfl

theorem elems_join_color (s : Side) (c d : Color) (t : ColorTree E) (e : E) (u : ColorTree E) :
    (join s c t e u).elems = (join s d t e u).elems := by
  cases s <;> rfl

/-- A rotation keeps the order of the elements. -/
theorem elems_rotate (s : Side) (c d c' d' : Color) (a : ColorTree E) (x : E)
    (b : ColorTree E) (y : E) (u : ColorTree E) :
    (join s c (join s d a x b) y u).elems = (join s c' a x (join s d' b y u)).elems := by
  cases s <;> simp [join]

theorem ptr_eq_none_iff {t : ColorTree E} : t.ptr = none ↔ t = leaf := by
  cases t <;> simp

/-- A tree is a leaf or, seen from either side, a node. -/
theorem eq_leaf_or_join (t : ColorTree E) (s : Side) :
    t = leaf ∨ ∃ c l e r, t = join s c l e r := by
  cases t with
  | leaf => exact Or.inl rfl
  | node c l e r =>
      cases s with
      | left => exact Or.inr ⟨c, l, e, r, rfl⟩
      | right => exact Or.inr ⟨c, r, e, l, rfl⟩

theorem mem_elems_of_ptr {t : ColorTree E} {e : E} (h : t.ptr = some e) : e ∈ t.elems := by
  cases t with
  | leaf => cases h
  | node c l x r =>
      obtain rfl := Option.some.inj h
      simp

/-- Red nodes have black children, every path to a leaf passes `n` black nodes,
and the root has the given colour; a leaf counts as black. -/
inductive Balanced : Color → ℕ → ColorTree E → Prop
  | leaf : Balanced .black 0 leaf
  | red {n : ℕ} {l r : ColorTree E} (e : E) :
      Balanced .black n l → Balanced .black n r → Balanced .red n (node .red l e r)
  | black {c d : Color} {n : ℕ} {l r : ColorTree E} (e : E) :
      Balanced c n l → Balanced d n r → Balanced .black (n + 1) (node .black l e r)

/-- The whole tree: its root is black. -/
def IsRedBlack (t : ColorTree E) : Prop :=
  ∃ n, Balanced .black n t

theorem isRedBlack_leaf : IsRedBlack (leaf : ColorTree E) := ⟨0, .leaf⟩

section Balanced

variable {s : Side} {c d : Color} {n : ℕ} {t u : ColorTree E} {e : E}

theorem Balanced.color_eq (h : Balanced c n t) : t.color = c := by
  cases h <;> rfl

theorem Balanced.join_red (ht : Balanced .black n t) (hu : Balanced .black n u) :
    Balanced .red n (join s .red t e u) := by
  cases s with
  | left => exact .red e ht hu
  | right => exact .red e hu ht

theorem Balanced.join_black (ht : Balanced c n t) (hu : Balanced d n u) :
    Balanced .black (n + 1) (join s .black t e u) := by
  cases s with
  | left => exact .black e ht hu
  | right => exact .black e hu ht

theorem Balanced.of_join_red (h : Balanced c n (join s .red t e u)) :
    c = .red ∧ Balanced .black n t ∧ Balanced .black n u := by
  cases s with
  | left =>
      cases h with
      | red _ hl hr => exact ⟨rfl, hl, hr⟩
  | right =>
      cases h with
      | red _ hl hr => exact ⟨rfl, hr, hl⟩

theorem Balanced.of_join_black (h : Balanced c (n + 1) (join s .black t e u)) :
    c = .black ∧ (∃ c, Balanced c n t) ∧ ∃ d, Balanced d n u := by
  cases s with
  | left =>
      cases h with
      | black _ hl hr => exact ⟨rfl, ⟨_, hl⟩, ⟨_, hr⟩⟩
  | right =>
      cases h with
      | black _ hl hr => exact ⟨rfl, ⟨_, hr⟩, ⟨_, hl⟩⟩

/-- A balanced tree with a red root, seen from either side. -/
theorem Balanced.exists_join_red (h : Balanced .red n t) (s : Side) :
    ∃ l e r, t = join s .red l e r ∧ Balanced .black n l ∧ Balanced .black n r := by
  cases h with
  | @red _ l r e hl hr =>
      cases s with
      | left => exact ⟨l, e, r, rfl, hl, hr⟩
      | right => exact ⟨r, e, l, rfl, hr, hl⟩

theorem Balanced.exists_join_black (h : Balanced .black (n + 1) t) (s : Side) :
    ∃ l e r c d, t = join s .black l e r ∧ Balanced c n l ∧ Balanced d n r := by
  cases h with
  | @black c d _ l r e hl hr =>
      cases s with
      | left => exact ⟨l, e, r, c, d, rfl, hl, hr⟩
      | right => exact ⟨r, e, l, d, c, rfl, hr, hl⟩

theorem Balanced.blacken_red (h : Balanced .red n t) : Balanced .black (n + 1) t.blacken := by
  cases h with
  | red e hl hr => exact .black e hl hr

theorem Balanced.blacken_black (h : Balanced .black n t) : t.blacken = t := by
  cases h <;> rfl

theorem Balanced.isRedBlack_blacken (h : Balanced c n t) : IsRedBlack t.blacken := by
  cases c with
  | red => exact ⟨_, h.blacken_red⟩
  | black =>
      rw [h.blacken_black]
      exact ⟨n, h⟩

theorem Balanced.relabel (h : Balanced c n (node d t e u)) (x : E) :
    Balanced c n (node d t x u) := by
  cases h with
  | red _ hl hr => exact .red x hl hr
  | black _ hl hr => exact .black x hl hr

/-- A tree of black height `n` has at least `2 ^ n - 1` elements. -/
theorem Balanced.pow_le (h : Balanced c n t) : 2 ^ n ≤ t.elems.length + 1 := by
  induction h with
  | leaf => simp
  | red e hl hr ihl ihr =>
      simp only [elems_node, List.length_append, List.length_cons]
      omega
  | black e hl hr ihl ihr =>
      simp only [elems_node, List.length_append, List.length_cons, pow_succ]
      omega

end Balanced

def height : ColorTree E → ℕ
  | leaf => 0
  | node _ l _ r => max l.height r.height + 1

/-- At most every second node of a path is red. -/
theorem Balanced.height_le {c : Color} {n : ℕ} {t : ColorTree E} (h : Balanced c n t) :
    t.height ≤ 2 * n + if c = .red then 1 else 0 := by
  induction h with
  | leaf => simp [height]
  | red e hl hr ihl ihr =>
      simp only [reduceCtorEq, ↓reduceIte] at ihl ihr
      simp only [height, ↓reduceIte]
      omega
  | @black c d n l r e hl hr ihl ihr =>
      have hl' : l.height ≤ 2 * n + 1 := ihl.trans (by split <;> omega)
      have hr' : r.height ≤ 2 * n + 1 := ihr.trans (by split <;> omega)
      simp only [height, reduceCtorEq, ↓reduceIte]
      omega

/-- The height of a red-black tree is logarithmic in the number of its elements. -/
theorem IsRedBlack.height_le {t : ColorTree E} (h : IsRedBlack t) :
    t.height ≤ 2 * Nat.log 2 (t.elems.length + 1) := by
  obtain ⟨n, hn⟩ := h
  have hpow : n ≤ Nat.log 2 (t.elems.length + 1) :=
    Nat.le_log_of_pow_le (by omega) hn.pow_le
  have hheight := hn.height_le
  simp only [reduceCtorEq, ↓reduceIte] at hheight
  omega

end ColorTree

open ColorTree

namespace Frame

def fill (f : Frame E) (t : ColorTree E) : ColorTree E :=
  join f.side f.color t f.elm f.sibling

@[simp] theorem fill_mk (s : Side) (c : Color) (e : E) (t u : ColorTree E) :
    (Frame.mk s c e u).fill t = join s c t e u := rfl

end Frame

/-- The tree that the context makes of a subtree. -/
def plug : List (Frame E) → ColorTree E → ColorTree E
  | [], t => t
  | f :: ctx, t => plug ctx (f.fill t)

/-- The parent of the subtree. -/
def ctxParent : List (Frame E) → Option E
  | [] => none
  | f :: _ => some f.elm

/-- The elements to the left of the subtree. -/
def before : List (Frame E) → List E
  | [] => []
  | f :: ctx =>
      match f.side with
      | .left => before ctx
      | .right => before ctx ++ f.sibling.elems ++ [f.elm]

/-- The elements to the right of the subtree. -/
def after : List (Frame E) → List E
  | [] => []
  | f :: ctx =>
      match f.side with
      | .left => f.elm :: f.sibling.elems ++ after ctx
      | .right => after ctx

def ctxElems (ctx : List (Frame E)) : List E :=
  before ctx ++ after ctx

section Context

variable {ctx ctx' : List (Frame E)} {f : Frame E} {t u : ColorTree E} {e : E}

@[simp] theorem plug_nil : plug [] t = t := rfl

@[simp] theorem plug_cons : plug (f :: ctx) t = plug ctx (f.fill t) := rfl

@[simp] theorem ctxParent_nil : ctxParent ([] : List (Frame E)) = none := rfl

@[simp] theorem ctxParent_cons : ctxParent (f :: ctx) = some f.elm := rfl

/-- The same tree, seen from the other child of the parent. -/
theorem plug_sibling (ctx : List (Frame E)) (s : Side) (c : Color) (e : E) (t u : ColorTree E) :
    plug (⟨s, c, e, u⟩ :: ctx) t = plug (⟨s.flip, c, e, t⟩ :: ctx) u := by
  rw [plug_cons, plug_cons, Frame.fill_mk, Frame.fill_mk, join_flip]

theorem plug_append : plug (ctx ++ ctx') t = plug ctx' (plug ctx t) := by
  induction ctx generalizing t with
  | nil => rfl
  | cons f ctx ih => exact ih

theorem elems_plug : (plug ctx t).elems = before ctx ++ t.elems ++ after ctx := by
  induction ctx generalizing t with
  | nil => simp [before, after]
  | cons f ctx ih =>
      obtain ⟨s, c, e, u⟩ := f
      cases s <;> simp [before, after, ih, join]

theorem elems_plug_congr (h : t.elems = u.elems) : (plug ctx t).elems = (plug ctx u).elems := by
  rw [elems_plug, elems_plug, h]

theorem mem_elems_plug : e ∈ (plug ctx t).elems ↔ e ∈ ctxElems ctx ∨ e ∈ t.elems := by
  simp only [elems_plug, ctxElems, List.mem_append]
  tauto

theorem nodup_plug : (plug ctx t).elems.Nodup ↔
    (ctxElems ctx).Nodup ∧ t.elems.Nodup ∧ ∀ x ∈ t.elems, x ∉ ctxElems ctx := by
  have hperm : (plug ctx t).elems.Perm (t.elems ++ ctxElems ctx) := by
    rw [elems_plug, ctxElems]
    exact (List.perm_append_comm.append_right _).trans (by simp)
  rw [hperm.nodup_iff, List.nodup_append]
  constructor
  · rintro ⟨ht, hctx, hne⟩
    exact ⟨hctx, ht, fun x hx hx' => hne x hx x hx' rfl⟩
  · rintro ⟨hctx, ht, hne⟩
    refine ⟨ht, hctx, ?_⟩
    rintro x hx y hy rfl
    exact hne x hx hy

theorem mem_ctxElems_cons : e ∈ ctxElems (f :: ctx) ↔
    e = f.elm ∨ e ∈ f.sibling.elems ∨ e ∈ ctxElems ctx := by
  obtain ⟨s, c, x, u⟩ := f
  cases s with
  | left =>
      simp only [ctxElems, before, after, List.mem_append, List.mem_cons]
      tauto
  | right =>
      simp only [ctxElems, before, after, List.mem_append, List.mem_singleton]
      tauto

theorem mem_ctxElems_append :
    e ∈ ctxElems (ctx ++ ctx') ↔ e ∈ ctxElems ctx ∨ e ∈ ctxElems ctx' := by
  induction ctx with
  | nil => simp [ctxElems, before, after]
  | cons f ctx ih =>
      rw [List.cons_append, mem_ctxElems_cons, mem_ctxElems_cons, ih]
      tauto

theorem nodup_ctxElems_cons : (ctxElems (f :: ctx)).Nodup ↔
    f.elm ∉ f.sibling.elems ∧ f.elm ∉ ctxElems ctx ∧ f.sibling.elems.Nodup ∧
      (ctxElems ctx).Nodup ∧ ∀ x ∈ f.sibling.elems, x ∉ ctxElems ctx := by
  have hperm : (ctxElems (f :: ctx)).Perm (f.elm :: (f.sibling.elems ++ ctxElems ctx)) := by
    obtain ⟨s, c, x, u⟩ := f
    cases s with
    | left =>
        simp only [ctxElems, before, after, List.cons_append]
        exact List.perm_middle.trans ((List.perm_append_comm_assoc _ _ _).cons _)
    | right =>
        simp only [ctxElems, before, after, List.append_assoc, List.singleton_append]
        refine (List.perm_append_comm_assoc _ _ _).trans ?_
        exact (List.Perm.append_left _ List.perm_middle).trans List.perm_middle
  rw [hperm.nodup_iff, List.nodup_cons, List.nodup_append]
  simp only [List.mem_append, not_or]
  constructor
  · rintro ⟨⟨hsib, hctx⟩, hnsib, hnctx, hne⟩
    exact ⟨hsib, hctx, hnsib, hnctx, fun x hx hx' => hne x hx x hx' rfl⟩
  · rintro ⟨hsib, hctx, hnsib, hnctx, hne⟩
    refine ⟨⟨hsib, hctx⟩, hnsib, hnctx, ?_⟩
    rintro x hx y hy rfl
    exact hne x hx hy

theorem length_add_height_le : ctx.length + t.height ≤ (plug ctx t).height := by
  induction ctx generalizing t with
  | nil => simp
  | cons f ctx ih =>
      have hfill : t.height + 1 ≤ (f.fill t).height := by
        obtain ⟨s, c, x, u⟩ := f
        cases s <;> simp [join, height]
      have := ih (t := f.fill t)
      rw [plug_cons, List.length_cons]
      omega

/-- Every element is the root of some subtree. -/
theorem exists_plug_of_mem (h : e ∈ t.elems) :
    ∃ ctx c l r, t = plug ctx (node c l e r) := by
  induction t with
  | leaf => exact absurd h (by simp)
  | node c l x r ihl ihr =>
      rcases List.mem_append.mp h with hl | hr
      · obtain ⟨ctx, d, l', r', rfl⟩ := ihl hl
        exact ⟨ctx ++ [⟨.left, c, x, r⟩], d, l', r', by simp [plug_append, join]⟩
      · rcases List.mem_cons.mp hr with rfl | hr
        · exact ⟨[], c, l, r, rfl⟩
        · obtain ⟨ctx, d, l', r', rfl⟩ := ihr hr
          exact ⟨ctx ++ [⟨.right, c, x, l⟩], d, l', r', by simp [plug_append, join]⟩

end Context

/-- The context makes a red-black tree of every balanced subtree of height `n`
whose root is black or has the given colour. -/
inductive Fits : List (Frame E) → Color → ℕ → Prop
  | nil (n : ℕ) : Fits [] .black n
  | red {ctx : List (Frame E)} {n : ℕ} {u : ColorTree E} (s : Side) (e : E) :
      Balanced .black n u → Fits ctx .red n → Fits (⟨s, .red, e, u⟩ :: ctx) .black n
  | black {ctx : List (Frame E)} {n : ℕ} {u : ColorTree E} {d : Color} (s : Side) (e : E)
      (c : Color) :
      Balanced d n u → Fits ctx .black (n + 1) → Fits (⟨s, .black, e, u⟩ :: ctx) c n

section Fits

variable {ctx : List (Frame E)} {f : Frame E} {c d : Color} {n : ℕ} {t : ColorTree E}

theorem Fits.toBlack (h : Fits ctx c n) : Fits ctx .black n := by
  cases h with
  | nil n => exact .nil n
  | red s e hu hctx => exact .red s e hu hctx
  | black s e _ hu hctx => exact .black s e _ hu hctx

theorem Fits.plug (h : Fits ctx c n) (ht : Balanced c n t) : IsRedBlack (plug ctx t) := by
  induction h generalizing t with
  | nil n => exact ⟨n, ht⟩
  | red s e hu hctx ih => exact ih (ht.join_red hu)
  | black s e _ hu hctx ih => exact ih (ht.join_black hu)

/-- The other way round: the path to a subtree of a red-black tree. -/
theorem exists_fits (h : IsRedBlack (RedBlackTree.plug ctx t)) :
    ∃ c n, Fits ctx c n ∧ Balanced c n t := by
  induction ctx generalizing t with
  | nil =>
      obtain ⟨n, hn⟩ := h
      exact ⟨.black, n, .nil n, hn⟩
  | cons f ctx ih =>
      obtain ⟨s, fc, e, u⟩ := f
      obtain ⟨c, n, hctx, hfill⟩ := ih h
      cases fc with
      | red =>
          obtain ⟨rfl, ht, hu⟩ := Balanced.of_join_red hfill
          exact ⟨.black, n, .red s e hu hctx, ht⟩
      | black =>
          cases n with
          | zero => cases s <;> cases hfill
          | succ n =>
              obtain ⟨rfl, ⟨c, ht⟩, d, hu⟩ := Balanced.of_join_black hfill
              exact ⟨c, n, .black s e c hu hctx, ht⟩

end Fits

end VarnishModules.RedBlackTree
