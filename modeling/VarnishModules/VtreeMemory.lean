import VarnishModules.OrderedTree
import VarnishModules.VtreeModel

/-!
Trees in memory.

A tree is at its place when the links of its elements are those of its shape; a
context when the links that lead through it are.  What the steps of the
algorithms do to memory is told as what they do to a subtree in its context.
-/

set_option linter.unusedSectionVars false

namespace VarnishModules.VtreeMemory

open VarnishModules.RedBlackTree
open VarnishModules.RedBlackTree.ColorTree
open VarnishModules.TailQueue (Fault ok_bind)
open VarnishModules.VtreeModel

variable {H E : Type} [DecidableEq H] [DecidableEq E]

/-- The entry of an element with `p` on side `s` and `q` on the other side. -/
def entryOf (s : Side) (p q parent : Option E) (c : Color) : Entry E :=
  match s with
  | .left => ⟨p, q, parent, c⟩
  | .right => ⟨q, p, parent, c⟩

section entryOf

variable (s : Side) (p q r parent : Option E) (c d : Color)

@[simp] theorem child_entryOf : (entryOf s p q parent c).child s = p := by
  cases s <;> rfl

@[simp] theorem child_flip_entryOf : (entryOf s p q parent c).child s.flip = q := by
  cases s <;> rfl

@[simp] theorem parent_entryOf : (entryOf s p q parent c).parent = parent := by
  cases s <;> rfl

@[simp] theorem color_entryOf : (entryOf s p q parent c).color = c := by
  cases s <;> rfl

@[simp] theorem setChild_entryOf :
    (entryOf s p q parent c).setChild s r = entryOf s r q parent c := by
  cases s <;> rfl

@[simp] theorem setChild_flip_entryOf :
    (entryOf s p q parent c).setChild s.flip r = entryOf s p r parent c := by
  cases s <;> rfl

@[simp] theorem setParent_entryOf :
    { entryOf s p q parent c with parent := r } = entryOf s p q r c := by
  cases s <;> rfl

@[simp] theorem setColor_entryOf :
    { entryOf s p q parent c with color := d } = entryOf s p q parent d := by
  cases s <;> rfl

theorem entryOf_flip : entryOf s.flip p q parent c = entryOf s q p parent c := by
  cases s <;> rfl

end entryOf

/-- The links of the elements are those of the tree, which hangs below `parent`. -/
def TreeAt (m : Heap H E) : Option E → ColorTree E → Prop
  | _, .leaf => True
  | parent, .node c l e r =>
      m.entry e = some ⟨l.ptr, r.ptr, parent, c⟩ ∧ TreeAt m (some e) l ∧ TreeAt m (some e) r

/-- The links of the context lead from the head `h` to `p`. -/
def CtxAt (m : Heap H E) (h : H) : Option E → List (Frame E) → Prop
  | p, [] => m.root h = p
  | p, f :: ctx =>
      m.entry f.elm = some (entryOf f.side p f.sibling.ptr (ctxParent ctx) f.color) ∧
        TreeAt m (some f.elm) f.sibling ∧ CtxAt m h (some f.elm) ctx

/-- The roots of the heads in `R` and the entries of the elements in `S` may
differ, and the same elements are allocated. -/
structure Within (R : Set H) (S : Set E) (m m' : Heap H E) : Prop where
  root : ∀ k, k ∉ R → m'.root k = m.root k
  entry : ∀ e, e ∉ S → m'.entry e = m.entry e
  live : ∀ e, (m'.entry e).isSome = (m.entry e).isSome

/-- The tree of the head `h`, in a memory that differs from `m₀` in that tree's
root and the elements in `S` at most. -/
structure Holds (m₀ : Heap H E) (S : Set E) (h : H) (t : ColorTree E) (m : Heap H E) :
    Prop where
  root : m.root h = t.ptr
  tree : TreeAt m none t
  nodup : t.elems.Nodup
  mem : ∀ e ∈ t.elems, e ∈ S
  within : Within {h} S m₀ m

section Updates

variable {m m' m'' : Heap H E} {R R' : Set H} {S S' : Set E} {h : H} {e x : E} {n n' : Entry E}
  {p q : Option E} {t u : ColorTree E} {ctx : List (Frame E)} {s : Side} {c d : Color}

@[simp] theorem root_put : (m.put e n).root = m.root := rfl

theorem entry_put_self : (m.put e n).entry e = some n := by
  simp [Heap.put]

theorem entry_put_of_ne (hne : x ≠ e) : (m.put e n).entry x = m.entry x := by
  simp [Heap.put, hne]

theorem deref_eq (he : m.entry e = some n) : m.deref (some e) = .ok n := by
  simp [Heap.deref, he]

theorem assign_eq (he : m.entry e = some n) (f : Entry E → Entry E) :
    m.assign (some e) f = .ok (m.put e (f n)) := by
  simp [Heap.assign, he]

theorem setChild_eq (he : m.entry e = some n) (s : Side) (q : Option E) :
    m.setChild s (some e) q = .ok (m.put e (n.setChild s q)) :=
  assign_eq he _

theorem setParent_eq (he : m.entry e = some n) (q : Option E) :
    m.setParent (some e) q = .ok (m.put e { n with parent := q }) :=
  assign_eq he _

theorem setColor_eq (he : m.entry e = some n) (c : Color) :
    m.setColor (some e) c = .ok (m.put e { n with color := c }) :=
  assign_eq he _

theorem Within.refl (m : Heap H E) : Within R S m m where
  root _ _ := rfl
  entry _ _ := rfl
  live _ := rfl

theorem Within.trans (h₁ : Within R S m m') (h₂ : Within R S m' m'') : Within R S m m'' where
  root k hk := (h₂.root k hk).trans (h₁.root k hk)
  entry e he := (h₂.entry e he).trans (h₁.entry e he)
  live e := (h₂.live e).trans (h₁.live e)

theorem Within.mono (hm : Within R S m m') (hR : R ⊆ R') (hS : S ⊆ S') :
    Within R' S' m m' where
  root k hk := hm.root k fun hmem => hk (hR hmem)
  entry e he := hm.entry e fun hmem => he (hS hmem)
  live := hm.live

theorem Within.step (h₁ : Within R S m m') (h₂ : Within R' S' m' m'') (hR : R' ⊆ R)
    (hS : ∀ e ∈ S', e ∈ S) : Within R S m m'' :=
  h₁.trans (h₂.mono hR hS)

theorem Within.put (he : m.entry e = some n) (n' : Entry E) : Within R {e} m (m.put e n') where
  root _ _ := rfl
  entry _ hx := entry_put_of_ne (by simpa using hx)
  live x := by
    by_cases hx : x = e
    · rw [hx, entry_put_self, he]
      rfl
    · rw [entry_put_of_ne hx]

theorem Within.setRoot (m : Heap H E) (h : H) (p : Option E) : Within {h} S m (m.setRoot h p) where
  root _ hk := Function.update_of_ne (by simpa using hk) _ _
  entry _ _ := rfl
  live _ := rfl

theorem TreeAt.congr (ht : TreeAt m p t) (heq : ∀ e ∈ t.elems, m'.entry e = m.entry e) :
    TreeAt m' p t := by
  induction t generalizing p with
  | leaf => trivial
  | node c l e r ihl ihr =>
      obtain ⟨he, hl, hr⟩ := ht
      refine ⟨(heq e (by simp)).trans he, ihl hl ?_, ihr hr ?_⟩
      · exact fun x hx => heq x (by simp [hx])
      · exact fun x hx => heq x (by simp [hx])

theorem TreeAt.within (ht : TreeAt m p t) (hm : Within R S m m') (hS : ∀ e ∈ t.elems, e ∉ S) :
    TreeAt m' p t :=
  ht.congr fun e he => hm.entry e (hS e he)

theorem TreeAt.put (ht : TreeAt m p t) (he : e ∉ t.elems) (n : Entry E) :
    TreeAt (m.put e n) p t :=
  ht.congr fun _ hx => entry_put_of_ne fun heq => he (heq ▸ hx)

theorem treeAt_join : TreeAt m p (join s c t e u) ↔
    m.entry e = some (entryOf s t.ptr u.ptr p c) ∧ TreeAt m (some e) t ∧ TreeAt m (some e) u := by
  cases s with
  | left => exact Iff.rfl
  | right =>
      rw [and_comm (a := TreeAt m (some e) t)]
      exact Iff.rfl

theorem TreeAt.isSome (ht : TreeAt m p t) (he : e ∈ t.elems) : (m.entry e).isSome := by
  induction t generalizing p with
  | leaf => exact absurd he (by simp)
  | node c l x r ihl ihr =>
      obtain ⟨hx, hl, hr⟩ := ht
      rcases List.mem_append.mp he with he | he
      · exact ihl hl he
      · rcases List.mem_cons.mp he with rfl | he
        · rw [hx]
          rfl
        · exact ihr hr he

theorem CtxAt.congr (hctx : CtxAt m h p ctx) (hroot : m'.root h = m.root h)
    (heq : ∀ e ∈ ctxElems ctx, m'.entry e = m.entry e) : CtxAt m' h p ctx := by
  induction ctx generalizing p with
  | nil => exact hroot.trans hctx
  | cons f ctx ih =>
      obtain ⟨hf, hsib, hctx⟩ := hctx
      refine ⟨(heq _ (mem_ctxElems_cons.mpr (Or.inl rfl))).trans hf, hsib.congr ?_, ih hctx ?_⟩
      · exact fun x hx => heq x (mem_ctxElems_cons.mpr (Or.inr (Or.inl hx)))
      · exact fun x hx => heq x (mem_ctxElems_cons.mpr (Or.inr (Or.inr hx)))

theorem CtxAt.within (hctx : CtxAt m h p ctx) (hm : Within ∅ S m m')
    (hS : ∀ e ∈ ctxElems ctx, e ∉ S) : CtxAt m' h p ctx :=
  hctx.congr (hm.root h (by simp)) fun e he => hm.entry e (hS e he)

theorem CtxAt.put (hctx : CtxAt m h p ctx) (he : e ∉ ctxElems ctx) (n : Entry E) :
    CtxAt (m.put e n) h p ctx :=
  hctx.congr rfl fun _ hx => entry_put_of_ne fun heq => he (heq ▸ hx)

/-- A tree is in memory when the subtree and the context that it consists of are. -/
theorem treeAt_plug : m.root h = (plug ctx t).ptr ∧ TreeAt m none (plug ctx t) ↔
    CtxAt m h t.ptr ctx ∧ TreeAt m (ctxParent ctx) t := by
  induction ctx generalizing t with
  | nil => exact Iff.rfl
  | cons f ctx ih =>
      rw [plug_cons, ih, Frame.fill, treeAt_join, ptr_join]
      simp only [CtxAt, ctxParent_cons]
      tauto

theorem nodup_join : (join s c t e u).elems.Nodup ↔
    e ∉ t.elems ∧ e ∉ u.elems ∧ t.elems.Nodup ∧ u.elems.Nodup ∧ ∀ x ∈ t.elems, x ∉ u.elems := by
  cases s with
  | left =>
      simp only [join, elems_node, List.nodup_append, List.nodup_cons]
      grind
  | right =>
      simp only [join, elems_node, List.nodup_append, List.nodup_cons]
      grind

theorem mem_join : x ∈ (join s c t e u).elems ↔ x = e ∨ x ∈ t.elems ∨ x ∈ u.elems := by
  cases s with
  | left =>
      simp only [join, elems_node, List.mem_append, List.mem_cons]
      tauto
  | right =>
      simp only [join, elems_node, List.mem_append, List.mem_cons]
      tauto

/-- The tree `t` is moved below another parent. -/
theorem reparent_spec (ht : TreeAt m p t) (hnodup : t.elems.Nodup) (q : Option E) :
    ∃ m', m.reparent t.ptr q = .ok m' ∧ TreeAt m' q t ∧ Within ∅ {x | t.ptr = some x} m m' := by
  cases t with
  | leaf => exact ⟨m, rfl, trivial, Within.refl m⟩
  | node c l e r =>
      obtain ⟨he, hl, hr⟩ := ht
      obtain ⟨hel, her, _⟩ := nodup_join (s := .left) (c := c) |>.mp hnodup
      refine ⟨_, setParent_eq he q, ⟨entry_put_self, hl.put hel _, hr.put her _⟩, ?_⟩
      exact (Within.put he _).mono (Set.Subset.refl _) (by simp)

/-- The parent of the hole gets another child there. -/
theorem setHole_spec {f : Frame E} (hctx : CtxAt m h p (f :: ctx))
    (hnodup : (ctxElems (f :: ctx)).Nodup) (q : Option E) :
    ∃ m', m.setChild f.side (some f.elm) q = .ok m' ∧ CtxAt m' h q (f :: ctx) ∧
      Within ∅ {f.elm} m m' := by
  obtain ⟨hf, hsib, hctx⟩ := hctx
  obtain ⟨hfsib, hfctx, -⟩ := nodup_ctxElems_cons.mp hnodup
  have hset := setChild_eq hf f.side q
  rw [setChild_entryOf] at hset
  exact ⟨_, hset, ⟨entry_put_self, hsib.put hfsib _, hctx.put hfctx _⟩, Within.put hf _⟩

/-- The link that leads through the context is redirected. -/
theorem relink_spec (hctx : CtxAt m h (some e) ctx) (hnodup : (ctxElems ctx).Nodup)
    (he : e ∉ ctxElems ctx) (q : Option E) :
    ∃ m', m.relink h (ctxParent ctx) (some e) q = .ok m' ∧ CtxAt m' h q ctx ∧
      Within {h} {x | ctxParent ctx = some x} m m' := by
  cases ctx with
  | nil =>
      refine ⟨m.setRoot h q, rfl, ?_, Within.setRoot m h q⟩
      exact Function.update_self _ _ _
  | cons f ctx =>
      have hf := hctx.1
      have hesib : f.sibling.ptr ≠ some e := fun hptr =>
        he (mem_ctxElems_cons.mpr (Or.inr (Or.inl (mem_elems_of_ptr hptr))))
      obtain ⟨m', hset, hctx', hw⟩ := setHole_spec hctx hnodup q
      refine ⟨m', ?_, hctx', hw.mono (Set.empty_subset _) (by simp)⟩
      simp only [Heap.relink, ctxParent_cons, reduceCtorEq, ↓reduceIte]
      rw [ok_bind (deref_eq hf)]
      cases hside : f.side with
      | left =>
          rw [hside] at hset
          simpa [entryOf] using hset
      | right =>
          rw [hside] at hset
          simpa [entryOf, hesib] using hset

end Updates

section Steps

variable {m₀ m : Heap H E} {S : Set E} {h : H} {e x y : E} {ctx : List (Frame E)}
  {t u a b : ColorTree E} {s : Side} {c d : Color}

theorem holds_plug : Holds m₀ S h (plug ctx t) m ↔
    CtxAt m h t.ptr ctx ∧ TreeAt m (ctxParent ctx) t ∧ (plug ctx t).elems.Nodup ∧
      (∀ e ∈ (plug ctx t).elems, e ∈ S) ∧ Within {h} S m₀ m := by
  constructor
  · rintro ⟨hroot, htree, hnodup, hmem, hm⟩
    obtain ⟨hctx, ht⟩ := treeAt_plug.mp ⟨hroot, htree⟩
    exact ⟨hctx, ht, hnodup, hmem, hm⟩
  · rintro ⟨hctx, ht, hnodup, hmem, hm⟩
    obtain ⟨hroot, htree⟩ := treeAt_plug.mpr ⟨hctx, ht⟩
    exact ⟨hroot, htree, hnodup, hmem, hm⟩

theorem Holds.refl (hroot : m.root h = t.ptr) (htree : TreeAt m none t) (hnodup : t.elems.Nodup) :
    Holds m {e | e ∈ t.elems} h t m :=
  ⟨hroot, htree, hnodup, fun _ he => he, Within.refl m⟩

theorem Holds.deref (hm : Holds m₀ S h (plug ctx (join s c t e u)) m) :
    m.deref (some e) = .ok (entryOf s t.ptr u.ptr (ctxParent ctx) c) := by
  obtain ⟨-, ht, -⟩ := holds_plug.mp hm
  exact deref_eq (treeAt_join.mp ht).1

theorem Holds.deref_parent (hm : Holds m₀ S h (plug (⟨s, c, e, u⟩ :: ctx) t) m) :
    m.deref (some e) = .ok (entryOf s t.ptr u.ptr (ctxParent ctx) c) :=
  Holds.deref hm

theorem Holds.isSome (hm : Holds m₀ S h t m) (he : e ∈ t.elems) : (m.entry e).isSome :=
  hm.tree.isSome he

theorem ptr_ne_of_nodup (hnodup : (join s c t e u).elems.Nodup) (ht : t ≠ leaf) :
    u.ptr ≠ t.ptr := by
  obtain ⟨-, -, -, -, hdisj⟩ := nodup_join.mp hnodup
  obtain rfl | ⟨c, l, x, r, rfl⟩ := eq_leaf_or_join t .left
  · exact absurd rfl ht
  · intro heq
    rw [ptr_join] at heq
    exact hdisj x (mem_join.mpr (Or.inl rfl)) (mem_elems_of_ptr heq)

theorem Holds.nodup_subtree (hm : Holds m₀ S h (plug ctx t) m) : t.elems.Nodup :=
  (nodup_plug.mp hm.nodup).2.1

/-- The root of the subtree gets another colour. -/
theorem setColor_spec (hm : Holds m₀ S h (plug ctx (join s c t e u)) m) (d : Color) :
    ∃ m', m.setColor (some e) d = .ok m' ∧ Holds m₀ S h (plug ctx (join s d t e u)) m' := by
  obtain ⟨hctx, ht, hnodup, hmem, hw⟩ := holds_plug.mp hm
  obtain ⟨he, ht, hu⟩ := treeAt_join.mp ht
  obtain ⟨-, hn, hdisj⟩ := nodup_plug.mp hnodup
  obtain ⟨het, heu, -⟩ := nodup_join.mp hn
  have heS : e ∈ S := hmem e (mem_elems_plug.mpr (Or.inr (mem_join.mpr (Or.inl rfl))))
  have hset := setColor_eq he d
  rw [setColor_entryOf] at hset
  refine ⟨_, hset, holds_plug.mpr ⟨?_, ?_, ?_, ?_, ?_⟩⟩
  · rw [ptr_join] at hctx ⊢
    exact hctx.put (hdisj e (mem_join.mpr (Or.inl rfl))) _
  · exact treeAt_join.mpr ⟨entry_put_self, ht.put het _, hu.put heu _⟩
  · rwa [elems_plug_congr (elems_join_color s d c t e u)]
  · rwa [elems_plug_congr (elems_join_color s d c t e u)]
  · exact hw.trans ((Within.put he _).mono (Set.empty_subset _) (by simpa using heS))

theorem mem_ctxElems_of_parent (h : ctxParent ctx = some e) : e ∈ ctxElems ctx := by
  cases ctx with
  | nil => exact absurd h (by simp)
  | cons f ctx => exact mem_ctxElems_cons.mpr (Or.inl (Option.some.inj h).symm)

theorem blackenRoot_spec (hm : Holds m₀ S h t m) (ht : t ≠ leaf) :
    ∃ m', m.setColor (m.root h) .black = .ok m' ∧ Holds m₀ S h t.blacken m' := by
  obtain rfl | ⟨c, l, e, r, rfl⟩ := eq_leaf_or_join t .left
  · exact absurd rfl ht
  · rw [hm.root, ptr_join, blacken_join]
    rw [← plug_nil (t := join .left c l e r)] at hm
    exact setColor_spec hm .black

/-- A rotation at `x` lifts `y` from the other side over it. -/
theorem rotate_spec (hm : Holds m₀ S h (plug ctx (join s c a x (join s d b y u))) m) :
    ∃ m', m.rotate s h (some x) = .ok m' ∧
      Holds m₀ S h (plug ctx (join s d (join s c a x b) y u)) m' := by
  obtain ⟨hctx, ht, hnodup, hmem, hw⟩ := holds_plug.mp hm
  obtain ⟨hx, ha, ht⟩ := treeAt_join.mp ht
  obtain ⟨hy, hb, hu⟩ := treeAt_join.mp ht
  obtain ⟨hnctx, hn, hdisj⟩ := nodup_plug.mp hnodup
  obtain ⟨hxa, hxt, hna, hn', hadisj⟩ := nodup_join.mp hn
  obtain ⟨hyb, hyu, hnb, hnu, hbdisj⟩ := nodup_join.mp hn'
  simp only [mem_join, not_or] at hxt hdisj hadisj
  obtain ⟨hxy, hxb, hxu⟩ := hxt
  have hxctx : x ∉ ctxElems ctx := hdisj x (Or.inl rfl)
  have hyctx : y ∉ ctxElems ctx := hdisj y (Or.inr (Or.inr (Or.inl rfl)))
  have hya : y ∉ a.elems := fun hy => (hadisj y hy).1 rfl
  rw [ptr_join] at hctx hx
  -- the inner subtree `b` moves below `x`
  have hset₁ := setChild_eq hx s.flip b.ptr
  rw [setChild_flip_entryOf] at hset₁
  generalize hn₁ : entryOf s a.ptr b.ptr (ctxParent ctx) c = n₁ at hset₁
  have hy₁ := (entry_put_of_ne (n := n₁) (Ne.symm hxy)).trans hy
  obtain ⟨m₂, hset₂, hb₂, hw₂⟩ := reparent_spec (hb.put hxb n₁) hnb (some x)
  have hx₂ : m₂.entry x = some n₁ :=
    (hw₂.entry x fun hptr => hxb (mem_elems_of_ptr hptr)).trans entry_put_self
  have hy₂ := (hw₂.entry y fun hptr => hyb (mem_elems_of_ptr hptr)).trans hy₁
  have ha₂ := (ha.put hxa n₁).within hw₂ fun z hz hptr =>
    (hadisj z hz).2.1 (mem_elems_of_ptr hptr)
  have hu₂ := (hu.put hxu n₁).within hw₂ fun z hz hptr =>
    hbdisj z (mem_elems_of_ptr hptr) hz
  have hctx₂ := (hctx.put hxctx n₁).within hw₂ fun z hz hptr =>
    hdisj z (Or.inr (Or.inr (Or.inr (Or.inl (mem_elems_of_ptr hptr))))) hz
  -- `y` moves below the parent of `x`
  have hset₃ := setParent_eq hy₂ (ctxParent ctx)
  rw [setParent_entryOf] at hset₃
  generalize hn₃ : entryOf s b.ptr u.ptr (ctxParent ctx) d = n₃ at hset₃
  have hx₃ := (entry_put_of_ne (n := n₃) hxy).trans hx₂
  obtain ⟨m₄, hset₄, hctx₄, hw₄⟩ := relink_spec (hctx₂.put hyctx n₃) hnctx hxctx (some y)
  have hparent : ∀ z, z ∉ ctxElems ctx → z ∉ {z | ctxParent ctx = some z} :=
    fun z hz hp => hz (mem_ctxElems_of_parent hp)
  have hx₄ := (hw₄.entry x (hparent x hxctx)).trans hx₃
  have hy₄ : m₄.entry y = some n₃ := (hw₄.entry y (hparent y hyctx)).trans entry_put_self
  have ha₄ := (ha₂.put hya n₃).within hw₄ fun z hz => hparent z (hdisj z (Or.inr (Or.inl hz)))
  have hb₄ := (hb₂.put hyb n₃).within hw₄ fun z hz =>
    hparent z (hdisj z (Or.inr (Or.inr (Or.inr (Or.inl hz)))))
  have hu₄ := (hu₂.put hyu n₃).within hw₄ fun z hz =>
    hparent z (hdisj z (Or.inr (Or.inr (Or.inr (Or.inr hz)))))
  -- `x` moves below `y`
  subst hn₁ hn₃
  have hset₅ := setChild_eq hy₄ s (some x)
  rw [setChild_entryOf] at hset₅
  generalize hn₅ : entryOf s (some x) u.ptr (ctxParent ctx) d = n₅ at hset₅
  have hx₅ := (entry_put_of_ne (n := n₅) hxy).trans hx₄
  have hset₆ := setParent_eq hx₅ (some y)
  rw [setParent_entryOf] at hset₆
  subst hn₅
  have hS : ∀ z, z = x ∨ z ∈ a.elems ∨ z = y ∨ z ∈ b.elems ∨ z ∈ u.elems → z ∈ S := fun z hz =>
    hmem z (mem_elems_plug.mpr (Or.inr (mem_join.mpr (by rwa [mem_join]))))
  have hxS : ∀ z ∈ ({x} : Set E), z ∈ S := fun z hz => hS z (Or.inl hz)
  have hyS : ∀ z ∈ ({y} : Set E), z ∈ S := fun z hz => hS z (Or.inr (Or.inr (Or.inl hz)))
  have hbS : ∀ z ∈ {z | b.ptr = some z}, z ∈ S := fun z hz =>
    hS z (Or.inr (Or.inr (Or.inr (Or.inl (mem_elems_of_ptr hz)))))
  have hpS : ∀ z ∈ {z | ctxParent ctx = some z}, z ∈ S := fun z hz =>
    hmem z (mem_elems_plug.mpr (Or.inl (mem_ctxElems_of_parent hz)))
  have helems : (plug ctx (join s d (join s c a x b) y u)).elems =
      (plug ctx (join s c a x (join s d b y u))).elems :=
    elems_plug_congr (elems_rotate s d c c d a x b y u)
  refine ⟨(m₄.put y (entryOf s (some x) u.ptr (ctxParent ctx) d)).put x
    (entryOf s a.ptr b.ptr (some y) c), ?_, holds_plug.mpr ⟨?_, ?_, ?_, ?_, ?_⟩⟩
  · simp [Heap.rotate, bind, Except.bind, deref_eq hx, deref_eq hy, deref_eq hy₁, deref_eq hx₂,
      deref_eq hx₃, hset₁, hset₂, hset₃, hset₄, hset₅, hset₆]
  · rw [ptr_join]
    exact (hctx₄.put hyctx _).put hxctx _
  · refine treeAt_join.mpr ⟨?_, treeAt_join.mpr ⟨entry_put_self, ?_, ?_⟩, ?_⟩
    · rw [entry_put_of_ne (Ne.symm hxy), ptr_join]
      exact entry_put_self
    · exact (ha₄.put hya _).put hxa _
    · exact (hb₄.put hyb _).put hxb _
    · exact (hu₄.put hyu _).put hxu _
  · rwa [helems]
  · rwa [helems]
  · exact hw.step (Within.put hx _) (Set.empty_subset _) hxS
      |>.step hw₂ (Set.empty_subset _) hbS
      |>.step (Within.put hy₂ _) (Set.empty_subset _) hyS
      |>.step hw₄ (Set.Subset.refl _) hpS
      |>.step (Within.put hy₄ _) (Set.empty_subset _) hyS
      |>.step (Within.put hx₅ _) (Set.empty_subset _) hxS

theorem isRed_spec (hm : Holds m₀ S h (plug ctx t) m) :
    m.isRed t.ptr = .ok (decide (t.color = .red)) := by
  obtain rfl | ⟨c, l, e, r, rfl⟩ := eq_leaf_or_join t .left
  · rfl
  · simp only [Heap.isRed, ptr_join, reduceCtorEq, ↓reduceIte, color_join]
    rw [ok_bind hm.deref, color_entryOf]
    rfl

theorem isBlack_spec (hm : Holds m₀ S h (plug ctx t) m) :
    m.isBlack t.ptr = .ok (decide (t.color = .black)) := by
  obtain rfl | ⟨c, l, e, r, rfl⟩ := eq_leaf_or_join t .left
  · rfl
  · simp only [Heap.isBlack, ptr_join, reduceCtorEq, ↓reduceIte, color_join]
    rw [ok_bind hm.deref, color_entryOf]
    rfl

theorem blacken_spec (hm : Holds m₀ S h (plug ctx t) m) :
    ∃ m', m.blacken t.ptr = .ok m' ∧ Holds m₀ S h (plug ctx t.blacken) m' := by
  obtain rfl | ⟨c, l, e, r, rfl⟩ := eq_leaf_or_join t .left
  · exact ⟨m, rfl, hm⟩
  · simp only [Heap.blacken, ptr_join, reduceCtorEq, ↓reduceIte, blacken_join]
    exact setColor_spec hm .black

/-- The root of a subtree becomes black and its parent red. -/
theorem vrbSetBlackred_spec {s' : Side} {c' : Color} {v : ColorTree E}
    (hm : Holds m₀ S h (plug (⟨s, c, x, u⟩ :: ctx) (join s' c' t e v)) m) :
    ∃ m', m.vrbSetBlackred (some e) (some x) = .ok m' ∧
      Holds m₀ S h (plug (⟨s, .red, x, u⟩ :: ctx) (join s' .black t e v)) m' := by
  obtain ⟨m₁, hset₁, hm₁⟩ := setColor_spec hm .black
  rw [plug_cons, Frame.fill_mk] at hm₁
  obtain ⟨m₂, hset₂, hm₂⟩ := setColor_spec hm₁ .red
  refine ⟨m₂, ?_, hm₂⟩
  rw [Heap.vrbSetBlackred, ok_bind hset₁, hset₂]

end Steps

section Represents

variable {κ : Type} [LinearOrder κ]

/-- The tree of the head `h` is a red-black tree of the elements `xs`, in the
order of their keys. -/
structure Represents (key : E → κ) (m : Heap H E) (h : H) (xs : List E) : Prop where
  sorted : OrderedTree.IsTree key xs
  shape : ∃ t, m.root h = t.ptr ∧ TreeAt m none t ∧ t.elems = xs ∧ IsRedBlack t

/-- `cmp` compares the key `k` with those of the elements. -/
def Compares (key : E → κ) (k : κ) (xs : List E) (cmp : E → Int) : Prop :=
  ∀ x ∈ xs, (cmp x < 0 ↔ k < key x) ∧ (0 < cmp x ↔ key x < k)

variable {m m' : Heap H E} {R : Set H} {S : Set E} {h : H} {x : E} {key key' : E → κ}
  {xs : List E}

theorem represents_nil (hroot : m.root h = none) : Represents key m h [] :=
  ⟨OrderedTree.isTree_nil, leaf, hroot, trivial, rfl, isRedBlack_leaf⟩

theorem Represents.congr (hm : Represents key m h xs) (hroot : m'.root h = m.root h)
    (heq : ∀ e ∈ xs, m'.entry e = m.entry e) : Represents key m' h xs := by
  obtain ⟨hsorted, t, ht, htree, rfl, hrb⟩ := hm
  exact ⟨hsorted, t, hroot.trans ht, htree.congr heq, rfl, hrb⟩

theorem Represents.congr_key (hm : Represents key m h xs) (hkey : ∀ x ∈ xs, key' x = key x) :
    Represents key' m h xs :=
  ⟨hm.sorted.congr hkey, hm.shape⟩

theorem Represents.isSome (hm : Represents key m h xs) (hx : x ∈ xs) : (m.entry x).isSome := by
  obtain ⟨-, t, -, htree, rfl, -⟩ := hm
  exact htree.isSome hx

/-- A tree is not affected by what happens in other trees. -/
theorem Represents.within (hm : Represents key m h xs) (hw : Within R S m m')
    (hR : h ∉ R) (hS : ∀ x ∈ xs, x ∉ S) : Represents key m' h xs :=
  hm.congr (hw.root h hR) fun x hx => hw.entry x (hS x hx)

end Represents

/-- Enough turns for every loop up or down a tree of `n` elements. -/
def turns (n : ℕ) : ℕ :=
  2 * Nat.log 2 (n + 1) + 2

theorem turns_mono {i j : ℕ} (hij : i ≤ j) : turns i ≤ turns j := by
  have hlog : Nat.log 2 (i + 1) ≤ Nat.log 2 (j + 1) := Nat.log_mono_right (by omega)
  simp only [turns]
  omega

end VarnishModules.VtreeMemory
