import VarnishModules.VtreeMemory

/-!
Insertion: the new element is red, and its red parent, if it has one, is dealt
with on the way up.
-/

set_option linter.unusedSectionVars false

namespace VarnishModules.VtreeInsert

open VarnishModules.RedBlackTree
open VarnishModules.RedBlackTree.ColorTree
open VarnishModules.TailQueue (Fault ok_bind)
open VarnishModules.VtreeModel
open VarnishModules.VtreeMemory

variable {H E κ : Type} [DecidableEq H] [DecidableEq E] [LinearOrder κ]
  {m₀ m : Heap H E} {S : Set E} {h : H} {e g p x : E} {ctx : List (Frame E)}
  {t u v a b : ColorTree E} {s s' : Side} {c d : Color} {n fuel : ℕ}

/-- The side of the parent is read off its left link. -/
theorem side_eq {p q parent : Option E} (hne : q ≠ p) :
    (if p = (entryOf s p q parent c).left then Side.left else Side.right) = s := by
  cases s with
  | left => simp [entryOf]
  | right => simp [entryOf, hne.symm]

theorem side_eq' {p q parent : Option E} (hne : q ≠ p) :
    (if (entryOf s p q parent c).left = p then Side.left else Side.right) = s := by
  cases s with
  | left => simp [entryOf]
  | right => simp [entryOf, hne]

/-- The grandparent `g` is rotated below the parent `p`, and they exchange
their colours. -/
theorem lift_spec (hm : Holds m₀ S h (plug (⟨s, .black, g, u⟩ :: ctx) (join s .red t p b)) m) :
    ∃ m₁ m', m.vrbSetBlackred (some p) (some g) = .ok m₁ ∧ m₁.rotate s.flip h (some g) = .ok m' ∧
      Holds m₀ S h (plug (⟨s, .black, p, join s.flip .red u g b⟩ :: ctx) t) m' := by
  obtain ⟨m₁, hset, hm₁⟩ := vrbSetBlackred_spec hm
  rw [plug_cons, Frame.fill_mk, ← join_flip s, ← join_flip s] at hm₁
  obtain ⟨m', hrot, hm'⟩ := rotate_spec hm₁
  rw [join_flip s] at hm'
  exact ⟨m₁, m', hset, hrot, hm'⟩

theorem elems_lift : (plug (⟨s, .black, p, join s.flip .red u g b⟩ :: ctx) t).elems =
    (plug (⟨s, .black, g, u⟩ :: ctx) (join s .red t p b)).elems := by
  rw [plug_cons, plug_cons, Frame.fill_mk, Frame.fill_mk]
  refine elems_plug_congr ?_
  cases s <;> simp [join, Side.flip]

/-- What a turn of the loop leaves: `elm` is red with black children, in a
context of length `len` at most. -/
def Turned (m₀ : Heap H E) (S : Set E) (h : H) (len : ℕ) (xs : List E) (elm : Option E)
    (m : Heap H E) : Prop :=
  ∃ ctx n t, elm = t.ptr ∧ Holds m₀ S h (plug ctx t) m ∧ (plug ctx t).elems = xs ∧
    Fits ctx .black n ∧ Balanced .red n t ∧ ctx.length ≤ len

section Turn

variable (hm : Holds m₀ S h (plug (⟨s', .red, p, v⟩ :: ⟨s, .black, g, u⟩ :: ctx) t) m)
  (ht : Balanced .red n t) (hv : Balanced .black n v) (hu : Balanced d n u)
  (hctx : Fits ctx .black (n + 1))
include hm ht hv hu hctx

/-- The parent and its sibling become black, and the grandparent red. -/
theorem insertColorTurn_red (hred : u.color = .red) :
    ∃ elm m', m.insertColorTurn s h t.ptr (some p) (some g) = .ok (elm, m') ∧
      Turned m₀ S h (ctx.length + 1)
        (plug (⟨s', .red, p, v⟩ :: ⟨s, .black, g, u⟩ :: ctx) t).elems elm m' := by
  obtain rfl : d = .red := hu.color_eq.symm.trans hred
  have huncle : Holds m₀ S h (plug (⟨s.flip, .black, g, join s' .red t p v⟩ :: ctx) u) m := by
    rwa [← plug_sibling]
  have hg := huncle.deref_parent
  have hisRed := isRed_spec huncle
  obtain ⟨ul, ue, ur, rfl, hul, hur⟩ := hu.exists_join_red .left
  obtain ⟨m₁, hset₁, hm₁⟩ := setColor_spec huncle .black
  rw [← plug_sibling] at hm₁
  obtain ⟨m₂, hset₂, hm₂⟩ := vrbSetBlackred_spec hm₁
  rw [plug_cons, Frame.fill_mk] at hm₂
  refine ⟨some g, m₂, ?_, ctx, n + 1, _, (ptr_join s _ _ _ _).symm, hm₂, ?_, hctx, ?_, by omega⟩
  · simp only [ptr_join, color_join, decide_true] at hg hisRed
    simp [Heap.insertColorTurn, bind, Except.bind, hg, hisRed, hset₁, hset₂, pure, Except.pure,
      entryOf_flip]
  · refine elems_plug_congr ?_
    cases s <;> cases s' <;> simp [join]
  · exact (ht.join_black hv).join_red (hul.join_black hur)

/-- The element is on the outer side of its parent, which rises over the
grandparent. -/
theorem insertColorTurn_outer (hblack : u.color = .black) (hs : s' = s) :
    ∃ elm m', m.insertColorTurn s h t.ptr (some p) (some g) = .ok (elm, m') ∧
      Turned m₀ S h (ctx.length + 1)
        (plug (⟨s', .red, p, v⟩ :: ⟨s, .black, g, u⟩ :: ctx) t).elems elm m' := by
  subst hs
  obtain rfl : d = .black := hu.color_eq.symm.trans hblack
  have huncle : Holds m₀ S h (plug (⟨s'.flip, .black, g, join s' .red t p v⟩ :: ctx) u) m := by
    rwa [← plug_sibling]
  have hg := huncle.deref_parent
  have hisRed := isRed_spec huncle
  have hp := hm.deref_parent
  rw [plug_cons, Frame.fill_mk] at hm
  have hne : v.ptr ≠ t.ptr := ptr_ne_of_nodup hm.nodup_subtree (by rintro rfl; cases ht)
  obtain ⟨m₁, m₂, hset, hrot, hm₂⟩ := lift_spec hm
  refine ⟨t.ptr, m₂, ?_, _, n, t, rfl, hm₂, ?_, ?_, ht, by simp⟩
  · simp only [hblack, reduceCtorEq, decide_false] at hisRed
    simp [Heap.insertColorTurn, bind, Except.bind, hg, hisRed, hp, hne, hset, hrot, pure,
      Except.pure, entryOf_flip]
  · exact elems_lift
  · exact .black _ _ _ (hu.join_red hv) hctx

/-- The element is on the inner side: it rises over its parent first. -/
theorem insertColorTurn_inner (hblack : u.color = .black) (hs : s' = s.flip) :
    ∃ elm m', m.insertColorTurn s h t.ptr (some p) (some g) = .ok (elm, m') ∧
      Turned m₀ S h (ctx.length + 1)
        (plug (⟨s', .red, p, v⟩ :: ⟨s, .black, g, u⟩ :: ctx) t).elems elm m' := by
  subst hs
  obtain rfl : d = .black := hu.color_eq.symm.trans hblack
  have huncle : Holds m₀ S h (plug (⟨s.flip, .black, g, join s.flip .red t p v⟩ :: ctx) u) m := by
    rwa [← plug_sibling]
  have hg := huncle.deref_parent
  have hisRed := isRed_spec huncle
  have hp := hm.deref_parent
  obtain ⟨a, e, b, rfl, ha, hb⟩ := ht.exists_join_red s
  rw [plug_cons, Frame.fill_mk, join_flip] at hm
  obtain ⟨m₁, hrot₁, hm₁⟩ := rotate_spec hm
  obtain ⟨m₂, m₃, hset, hrot₂, hm₃⟩ := lift_spec hm₁
  refine ⟨some p, m₃, ?_, _, n, _, (ptr_join s _ _ _ _).symm, hm₃, ?_, ?_, hv.join_red ha, by simp⟩
  · simp only [hblack, reduceCtorEq, decide_false] at hisRed
    simp [Heap.insertColorTurn, bind, Except.bind, hg, hisRed, hp, hrot₁, hset, hrot₂, pure,
      Except.pure, entryOf_flip]
  · rw [elems_lift, plug_cons, plug_cons, plug_cons, Frame.fill_mk, Frame.fill_mk, Frame.fill_mk,
      join_flip]
    refine elems_plug_congr ?_
    cases s <;> simp [join]
  · exact .black _ _ _ (hu.join_red hb) hctx

theorem insertColorTurn_spec :
    ∃ elm m', m.insertColorTurn s h t.ptr (some p) (some g) = .ok (elm, m') ∧
      Turned m₀ S h (ctx.length + 1)
        (plug (⟨s', .red, p, v⟩ :: ⟨s, .black, g, u⟩ :: ctx) t).elems elm m' := by
  cases hcolor : u.color with
  | red => exact insertColorTurn_red hm ht hv hu hctx hcolor
  | black =>
      rcases eq_or_ne s' s with hs | hs
      · exact insertColorTurn_outer hm ht hv hu hctx hcolor hs
      · refine insertColorTurn_inner hm ht hv hu hctx hcolor ?_
        cases s <;> cases s' <;> simp_all [Side.flip]

end Turn

theorem plug_ne_leaf (ht : t ≠ leaf) : plug ctx t ≠ leaf := by
  obtain rfl | ⟨c, l, e, r, rfl⟩ := eq_leaf_or_join t .left
  · exact absurd rfl ht
  · intro heq
    have hmem : e ∈ (plug ctx (join .left c l e r)).elems :=
      mem_elems_plug.mpr (Or.inr (mem_join.mpr (Or.inl rfl)))
    rw [heq] at hmem
    exact absurd hmem (by simp)

/-- The loop ends with a red-black tree of the same elements. -/
theorem vrbInsertColor_spec (hfuel : ctx.length < fuel) (hm : Holds m₀ S h (plug ctx t) m)
    (hctx : Fits ctx .black n) (ht : Balanced .red n t) :
    ∃ m' t', m.vrbInsertColor h fuel t.ptr = .ok m' ∧ Holds m₀ S h t' m' ∧
      t'.elems = (plug ctx t).elems ∧ IsRedBlack t' := by
  induction fuel generalizing ctx t m n with
  | zero => omega
  | succ fuel ih =>
      obtain ⟨l, e, r, rfl, -, -⟩ := ht.exists_join_red .left
      have hne : plug ctx (join .left .red l e r) ≠ leaf := plug_ne_leaf (by simp [join])
      have he := hm.deref
      obtain ⟨m₁, hset, hm₁⟩ := blackenRoot_spec hm hne
      cases hctx with
      | nil n =>
          refine ⟨m₁, _, ?_, hm₁, elems_blacken _, ht.isRedBlack_blacken⟩
          simp [Heap.vrbInsertColor, bind, Except.bind, he, Heap.isRed, pure, Except.pure, hset]
      | @black ctx n u d s p _ hu hctx =>
          obtain ⟨k, hk⟩ := (Fits.black s p .red hu hctx).plug ht
          rw [hk.blacken_black] at hm₁
          have hp := hm.deref_parent
          refine ⟨m₁, _, ?_, hm₁, rfl, ⟨k, hk⟩⟩
          rw [ptr_join] at hp
          simp [Heap.vrbInsertColor, bind, Except.bind, he, hp, Heap.isRed, pure, Except.pure, hset]
      | @red ctx n v s' p hv hctx =>
          cases hctx with
          | @black ctx n u d s g _ hu hctx =>
              obtain ⟨elm, m₂, hturn, ctx', n', t', rfl, hm₂, helems, hctx', ht', hlen⟩ :=
                insertColorTurn_spec hm ht hv hu hctx
              simp only [List.length_cons] at hfuel
              obtain ⟨m₃, t₃, hloop, hm₃, helems₃, ht₃⟩ := ih (by omega) hm₂ hctx' ht'
              refine ⟨m₃, t₃, ?_, hm₃, helems₃.trans helems, ht₃⟩
              have hp := hm.deref_parent
              rw [plug_cons, Frame.fill_mk] at hm
              have hg := hm.deref_parent
              have hne : u.ptr ≠ some p := by
                rw [plug_cons, Frame.fill_mk] at hm
                simpa using ptr_ne_of_nodup hm.nodup_subtree (by cases s' <;> simp [join])
              simp only [ptr_join, ctxParent_cons] at hp hg hturn he
              simp [Heap.vrbInsertColor, bind, Except.bind, he, hp, hg, Heap.isRed, pure,
                Except.pure, hturn, hloop, side_eq hne]

section Search

variable {key : E → κ} {k : κ} {cmp : E → Int} {comp : Int}

/-- The last comparison tells the side of the hole. -/
def Sided (comp : Int) : List (Frame E) → Prop
  | [] => True
  | f :: _ => comp < 0 ↔ f.side = .left

/-- Where a search ends: at the element with the sought key, or at the leaf
between the smaller and the larger elements. -/
inductive Sought (key : E → κ) (k : κ) (T : ColorTree E) :
    Option E × Option E × Int → Prop
  | found {x : E} (parent : Option E) (comp : Int) :
      x ∈ T.elems → key x = k → Sought key k T (some x, parent, comp)
  | absent {ctx : List (Frame E)} {comp : Int} :
      T = plug ctx leaf → (∀ y ∈ before ctx, key y < k) → (∀ y ∈ after ctx, k < key y) →
        Sided comp ctx → Sought key k T (none, ctxParent ctx, comp)

theorem isTree_subtree (hsorted : OrderedTree.IsTree key (plug ctx t).elems) :
    OrderedTree.IsTree key t.elems := by
  rw [elems_plug] at hsorted
  exact hsorted.sublist ((List.sublist_append_right _ _).trans (List.sublist_append_left _ _))

theorem isTree_node : OrderedTree.IsTree key (node c t e u).elems ↔
    OrderedTree.IsTree key t.elems ∧ OrderedTree.IsTree key u.elems ∧
      (∀ y ∈ t.elems, key y < key e) ∧ (∀ y ∈ u.elems, key e < key y) ∧
      ∀ y ∈ t.elems, ∀ z ∈ u.elems, key y < key z := by
  simp only [OrderedTree.IsTree, elems_node, List.pairwise_append, List.pairwise_cons,
    List.mem_cons, forall_eq_or_imp]
  constructor
  · rintro ⟨ht, ⟨heu, hu⟩, htu⟩
    exact ⟨ht, hu, fun y hy => (htu y hy).1, heu, fun y hy => (htu y hy).2⟩
  · rintro ⟨ht, hu, hte, heu, htu⟩
    exact ⟨ht, ⟨heu, hu⟩, fun y hy => ⟨hte y hy, htu y hy⟩⟩

theorem insertWalk_spec (hfuel : t.height < fuel)
    (ht : TreeAt m (ctxParent ctx) t) (hsorted : OrderedTree.IsTree key (plug ctx t).elems)
    (hcmp : Compares key k t.elems cmp) (hbefore : ∀ y ∈ before ctx, key y < k)
    (hafter : ∀ y ∈ after ctx, k < key y) (hsided : Sided comp ctx) :
    ∃ r, m.insertWalk cmp fuel t.ptr (ctxParent ctx) comp = .ok r ∧
      Sought key k (plug ctx t) r := by
  induction t generalizing ctx fuel comp with
  | leaf =>
      cases fuel with
      | zero => omega
      | succ fuel => exact ⟨_, rfl, .absent rfl hbefore hafter hsided⟩
  | node c l e r ihl ihr =>
      cases fuel with
      | zero => omega
      | succ fuel =>
          obtain ⟨he, hl, hr⟩ := ht
          obtain ⟨hlt, hgt⟩ := hcmp e (by simp)
          obtain ⟨-, -, hle, her, -⟩ := isTree_node.mp (isTree_subtree hsorted)
          have hderef := deref_eq he
          simp only [height] at hfuel
          rcases lt_trichotomy k (key e) with hk | hk | hk
          · obtain ⟨r', hwalk, hr'⟩ := ihl (show l.height < fuel by omega)
              (show TreeAt m (ctxParent (⟨.left, c, e, r⟩ :: ctx)) l from hl)
              (show OrderedTree.IsTree key (plug (⟨.left, c, e, r⟩ :: ctx) l).elems from hsorted)
              (fun x hx => hcmp x (by simp [hx])) hbefore
              (by
                intro y hy
                rcases List.mem_append.mp hy with hy | hy
                · rcases List.mem_cons.mp hy with rfl | hy
                  · exact hk
                  · exact hk.trans (her y hy)
                · exact hafter y hy)
              (show Sided (cmp e) (⟨.left, c, e, r⟩ :: ctx) by simp [Sided, hlt.mpr hk])
            refine ⟨r', ?_, hr'⟩
            simpa [Heap.insertWalk, bind, Except.bind, hderef, hlt.mpr hk] using hwalk
          · refine ⟨(some e, some e, cmp e), ?_, .found _ _ ?_ hk.symm⟩
            · have hlt' : ¬cmp e < 0 := fun h => (hlt.mp h).ne hk
              have hgt' : ¬0 < cmp e := fun h => (hgt.mp h).ne' hk
              simp [Heap.insertWalk, bind, Except.bind, hderef, hlt', hgt', pure, Except.pure]
            · exact mem_elems_plug.mpr (Or.inr (by simp))
          · have hlt' : ¬cmp e < 0 := fun h => (hlt.mp h).not_gt hk
            obtain ⟨r', hwalk, hr'⟩ := ihr (show r.height < fuel by omega)
              (show TreeAt m (ctxParent (⟨.right, c, e, l⟩ :: ctx)) r from hr)
              (show OrderedTree.IsTree key (plug (⟨.right, c, e, l⟩ :: ctx) r).elems from hsorted)
              (fun x hx => hcmp x (by simp [hx]))
              (by
                intro y hy
                rcases List.mem_append.mp hy with hy | hy
                · rcases List.mem_append.mp hy with hy | hy
                  · exact hbefore y hy
                  · exact (hle y hy).trans hk
                · obtain rfl := List.mem_singleton.mp hy
                  exact hk)
              hafter (show Sided (cmp e) (⟨.right, c, e, l⟩ :: ctx) by simp [Sided, hlt'])
            refine ⟨r', ?_, hr'⟩
            simpa [Heap.insertWalk, bind, Except.bind, hderef, hlt', hgt.mpr hk] using hwalk

end Search

/-- The new element takes the place of a leaf. -/
theorem attach_spec {comp : Int} (hm : Holds m₀ S h (plug ctx leaf) m)
    (hlive : (m.entry x).isSome) (hx : x ∉ (plug ctx leaf).elems) (hxS : x ∈ S)
    (hsided : Sided comp ctx) :
    ∃ m₁ m', m.vrbSet (some x) (ctxParent ctx) = .ok m₁ ∧
      m₁.attach h comp (ctxParent ctx) (some x) = .ok m' ∧
      Holds m₀ S h (plug ctx (node .red leaf x leaf)) m' := by
  obtain ⟨hctx, -, hnodup, hmem, hw⟩ := holds_plug.mp hm
  obtain ⟨hnctx, -, -⟩ := nodup_plug.mp hnodup
  have hxctx : x ∉ ctxElems ctx := fun hmem => hx (mem_elems_plug.mpr (Or.inl hmem))
  obtain ⟨n, hn⟩ := Option.isSome_iff_exists.mp hlive
  have hset := assign_eq hn fun _ => ⟨none, none, ctxParent ctx, .red⟩
  have hctx₁ := hctx.put hxctx ⟨none, none, ctxParent ctx, .red⟩
  have hw₁ := hw.step (Within.put hn ⟨none, none, ctxParent ctx, .red⟩) (Set.empty_subset _)
    (by simpa using hxS)
  have hnodup' : (plug ctx (node .red leaf x leaf)).elems.Nodup :=
    nodup_plug.mpr ⟨hnctx, by simp, by simpa using hxctx⟩
  have hmem' : ∀ e ∈ (plug ctx (node .red leaf x leaf)).elems, e ∈ S := by
    intro e he
    rcases mem_elems_plug.mp he with he | he
    · exact hmem e (mem_elems_plug.mpr (Or.inl he))
    · obtain rfl : e = x := by simpa using he
      exact hxS
  cases ctx with
  | nil =>
      refine ⟨_, _, hset, rfl, holds_plug.mpr ⟨?_, ?_, hnodup', hmem', ?_⟩⟩
      · exact Function.update_self _ _ _
      · exact ⟨entry_put_self, trivial, trivial⟩
      · exact hw₁.step (Within.setRoot _ h _) (Set.Subset.refl _) fun _ he => he
  | cons f ctx =>
      obtain ⟨m', hset', hctx', hw'⟩ := setHole_spec hctx₁ hnctx (some x)
      have hfx : x ≠ f.elm := fun heq => hxctx (mem_ctxElems_cons.mpr (Or.inl heq))
      have hside : (if comp < 0 then Side.left else Side.right) = f.side := by
        simp only [Sided] at hsided
        cases hfs : f.side <;> simp [hsided, hfs]
      refine ⟨_, m', hset, ?_, holds_plug.mpr ⟨hctx', ?_, hnodup', hmem', ?_⟩⟩
      · rw [← hset', ← hside]
        simp only [Heap.attach, ctxParent_cons, ne_eq, reduceCtorEq, not_false_eq_true,
          ↓reduceIte]
        split <;> rfl
      · exact ⟨(hw'.entry x (by simpa using hfx)).trans entry_put_self, trivial, trivial⟩
      · refine hw₁.step hw' (Set.empty_subset _) ?_
        rintro e rfl
        exact hmem _ (mem_elems_plug.mpr (Or.inl (mem_ctxElems_cons.mpr (Or.inl rfl))))

/-- The tree after an insertion refines the ordered set, stays a red-black tree,
and its loops take logarithmically many turns; nothing else changes. -/
theorem vrbInsert_spec {key : E → κ} {cmp : E → E → Int} {xs : List E}
    (hm : Represents key m h xs) (hlive : (m.entry x).isSome)
    (hcmp : Compares key (key x) xs (cmp x)) (hfuel : turns xs.length ≤ fuel) :
    ∃ m', m.vrbInsert fuel cmp h x = .ok ((OrderedTree.insert key x xs).1, m') ∧
      Represents key m' h (OrderedTree.insert key x xs).2 ∧
      Within {h} {y | y ∈ x :: xs} m m' := by
  obtain ⟨hsorted, t, hroot, htree, rfl, hrb⟩ := hm
  have hheight := hrb.height_le
  rw [turns] at hfuel
  obtain ⟨r, hwalk, hr⟩ := insertWalk_spec (show t.height < fuel by omega)
    (show TreeAt m (ctxParent []) t from htree)
    (show OrderedTree.IsTree key (plug [] t).elems from hsorted) hcmp (by simp [before])
    (by simp [after]) (show Sided 0 [] from trivial)
  rw [plug_nil] at hr
  cases hr with
  | @found y parent comp hy hkey =>
      rw [OrderedTree.insert_of_mem hsorted hy hkey]
      refine ⟨m, ?_, ⟨hsorted, t, hroot, htree, rfl, hrb⟩, Within.refl m⟩
      rw [← hroot] at hwalk
      simp only [ctxParent_nil] at hwalk
      simp [Heap.vrbInsert, bind, Except.bind, hwalk, pure, Except.pure]
  | @absent ctx comp heq hbefore hafter hsided =>
      have hxt : ∀ y ∈ t.elems, key y ≠ key x := by
        intro y hy
        rw [heq, mem_elems_plug, ctxElems, List.mem_append] at hy
        rcases hy with (hy | hy) | hy
        · exact (hbefore y hy).ne
        · exact (hafter y hy).ne'
        · exact absurd hy (by simp)
      have hx : x ∉ t.elems := fun hx => hxt x hx rfl
      rw [OrderedTree.insert_of_absent hxt]
      have hm : Holds m {y | y ∈ x :: t.elems} h t m :=
        ⟨hroot, htree, hsorted.nodup, fun e he => List.mem_cons_of_mem x he, Within.refl m⟩
      generalize hS : {y | y ∈ x :: t.elems} = S at hm ⊢
      have hxS : x ∈ S := by simp [← hS]
      have hlen : ctx.length + leaf.height ≤ (plug ctx leaf).height := length_add_height_le
      rw [← heq] at hlen
      rw [heq] at hm hx
      obtain ⟨m₁, m₂, hset, hlink, hm₂⟩ := attach_spec hm hlive hx hxS hsided
      obtain ⟨c, n, hfits, hleaf⟩ := exists_fits (heq ▸ hrb)
      cases hleaf
      obtain ⟨m₃, t', hcolor, hm₃, helems, hrb'⟩ :=
        vrbInsertColor_spec (show ctx.length < fuel by omega) hm₂ hfits (.red x .leaf .leaf)
      rw [ptr_node] at hcolor
      have helems' : t'.elems = t.elems.orderedInsert (fun a b => key a ≤ key b) x := by
        rw [helems, heq, elems_plug, elems_plug]
        simp [OrderedTree.orderedInsert_append hbefore hafter]
      have hsorted' := hsorted.orderedInsert hxt
      rw [← helems'] at hsorted' ⊢
      refine ⟨m₃, ?_, ⟨hsorted', t', hm₃.root, hm₃.tree, rfl, hrb'⟩, hm₃.within⟩
      rw [← hroot] at hwalk
      simp only [ctxParent_nil] at hwalk
      simp [Heap.vrbInsert, bind, Except.bind, hwalk, pure, Except.pure, hset, hlink, hcolor]

end VarnishModules.VtreeInsert
