import VarnishModules.VtreeInsert

/-!
Removal: a subtree that has lost a black node is one short of its sibling, and
the loss is made up for on the way to the root.
-/

set_option linter.unusedSectionVars false

namespace VarnishModules.VtreeRemove

open VarnishModules.RedBlackTree
open VarnishModules.RedBlackTree.ColorTree
open VarnishModules.TailQueue (Fault ok_bind)
open VarnishModules.VtreeModel
open VarnishModules.VtreeMemory
open VarnishModules.VtreeInsert

variable {H E κ : Type} [DecidableEq H] [DecidableEq E] [LinearOrder κ]
  {m₀ m : Heap H E} {S : Set E} {h : H} {e p x y : E} {ctx : List (Frame E)}
  {t u v a b : ColorTree E} {s s' : Side} {c d fc : Color} {n fuel : ℕ}

/-- The tree would have height `n + 1` if its red root were black, or has height
`n` with a black root. -/
def Short (n : ℕ) (t : ColorTree E) : Prop :=
  Balanced .black n t ∨ t.color = .red ∧ Balanced .black (n + 1) t.blacken

/-- A red sibling is rotated over the parent, which gets a black one. -/
theorem redSibling_spec (hm : Holds m₀ S h (plug (⟨s, fc, p, u⟩ :: ctx) t) m)
    (hfits : Fits (⟨s, fc, p, u⟩ :: ctx) .black (n + 1)) :
    ∃ ctx' fc' u' m', m.redSibling s h (some p) = .ok (u'.ptr, m') ∧
      Holds m₀ S h (plug (⟨s, fc', p, u'⟩ :: ctx') t) m' ∧
      (plug (⟨s, fc', p, u'⟩ :: ctx') t).elems = (plug (⟨s, fc, p, u⟩ :: ctx) t).elems ∧
      Fits (⟨s, fc', p, u'⟩ :: ctx') .black (n + 1) ∧ Balanced .black (n + 1) u' ∧
      (fc' = .black → ctx'.length ≤ ctx.length) := by
  have hp := hm.deref_parent
  have hu : ∃ d, Balanced d (n + 1) u := by
    cases hfits with
    | red _ _ hu _ => exact ⟨_, hu⟩
    | black _ _ _ hu _ => exact ⟨_, hu⟩
  obtain ⟨d, hu⟩ := hu
  cases d with
  | black =>
      obtain ⟨a, y, b, _, _, rfl, -, -⟩ := hu.exists_join_black s
      refine ⟨ctx, fc, _, m, ?_, hm, rfl, hfits, hu, fun _ => le_rfl⟩
      have hm' := hm
      rw [plug_sibling] at hm'
      have hy := hm'.deref
      rw [ptr_join] at hp
      simp [Heap.redSibling, bind, Except.bind, hp, hy, pure, Except.pure]
  | red =>
      cases hfits with
      | red _ _ hu' _ => exact absurd (hu.color_eq.symm.trans hu'.color_eq) (by simp)
      | black _ _ _ _ hctx =>
          obtain ⟨a, y, b, rfl, ha, hb⟩ := hu.exists_join_red s
          have hm' := hm
          rw [plug_sibling] at hm'
          have hy := hm'.deref
          obtain ⟨m₁, hset, hm₁⟩ := vrbSetBlackred_spec hm'
          rw [← plug_sibling, plug_cons, Frame.fill_mk] at hm₁
          obtain ⟨m₂, hrot, hm₂⟩ := rotate_spec hm₁
          have hm₃ : Holds m₀ S h (plug (⟨s, .red, p, a⟩ :: ⟨s, .black, y, b⟩ :: ctx) t) m₂ := hm₂
          have hp₃ := hm₃.deref_parent
          refine ⟨⟨s, .black, y, b⟩ :: ctx, .red, a, m₂, ?_, hm₃, ?_, ?_, ha, by simp⟩
          · rw [ptr_join] at hp
            simp [Heap.redSibling, bind, Except.bind, hp, hy, hset, hrot, hp₃, pure, Except.pure]
          · rw [plug_cons, plug_cons, plug_cons, Frame.fill_mk, Frame.fill_mk, Frame.fill_mk]
            exact elems_plug_congr (elems_rotate s _ _ _ _ _ _ _ _ _)
          · exact .red _ _ ha (.black _ _ _ hb hctx)

theorem blackChildren_spec (hm : Holds m₀ S h (plug ctx (join s c a y b)) m) :
    m.blackChildren (some y) = .ok (decide (a.color = .black ∧ b.color = .black)) := by
  have hy := hm.deref
  have ha : Holds m₀ S h (plug (⟨s, c, y, b⟩ :: ctx) a) m := hm
  have hb := ha
  rw [plug_sibling] at hb
  have hablack := isBlack_spec ha
  have hbblack := isBlack_spec hb
  cases s with
  | left =>
      simp only [Heap.blackChildren, bind, Except.bind, hy, entryOf, hablack, hbblack]
      by_cases hcolor : a.color = .black <;> simp [hcolor, pure, Except.pure]
  | right =>
      simp only [Heap.blackChildren, bind, Except.bind, hy, entryOf, hablack, hbblack]
      by_cases hcolor : b.color = .black <;> simp [hcolor, pure, Except.pure]

/-- The sibling gets a red child on the outer side. -/
theorem redOutside_spec
    (hm : Holds m₀ S h (plug (⟨s, fc, p, join s .black a y b⟩ :: ctx) t) m)
    (ha : Balanced c n a) (hb : Balanced d n b) (hred : ¬(a.color = .black ∧ b.color = .black)) :
    ∃ a' y' b' c' d' m', m.redOutside s h (some p) (some y) = .ok (some y', m') ∧
      Holds m₀ S h (plug (⟨s, fc, p, join s d' a' y' b'⟩ :: ctx) t) m' ∧
      (plug (⟨s, fc, p, join s d' a' y' b'⟩ :: ctx) t).elems =
        (plug (⟨s, fc, p, join s .black a y b⟩ :: ctx) t).elems ∧
      Balanced c' n a' ∧ Balanced .red n b' := by
  have hu := hm
  rw [plug_sibling] at hu
  have hy := hu.deref
  have hinner : Holds m₀ S h
      (plug (⟨s, .black, y, b⟩ :: ⟨s.flip, fc, p, t⟩ :: ctx) a) m := hu
  have houter := hinner
  rw [plug_sibling] at houter
  have hbblack := isBlack_spec houter
  cases d with
  | red =>
      refine ⟨a, y, b, c, .black, m, ?_, hm, rfl, ha, hb⟩
      simp [Heap.redOutside, bind, Except.bind, hy, hbblack, hb.color_eq, pure, Except.pure]
  | black =>
      have hacolor : a.color = .red := by
        cases hcolor : a.color with
        | red => rfl
        | black => exact absurd ⟨hcolor, hb.color_eq⟩ hred
      obtain rfl : c = .red := ha.color_eq.symm.trans hacolor
      obtain ⟨l, z, r, rfl, hl, hr⟩ := ha.exists_join_red s.flip
      obtain ⟨m₁, hset₁, hm₁⟩ := blacken_spec hinner
      rw [plug_cons, Frame.fill_mk, blacken_join] at hm₁
      obtain ⟨m₂, hset₂, hm₂⟩ := setColor_spec hm₁ .red
      rw [← join_flip s] at hm₂
      obtain ⟨m₃, hrot, hm₃⟩ := rotate_spec hm₂
      rw [← plug_sibling, join_flip, join_flip] at hm₃
      have hp := hm₃.deref_parent
      refine ⟨r, z, join s .red l y b, .black, .black, m₃, ?_, hm₃, ?_, hr, hl.join_red hb⟩
      · rw [ptr_join] at hset₁ hp hy
        simp [Heap.redOutside, bind, Except.bind, hy, hbblack, hb.color_eq, hset₁, hset₂, hrot,
          hp, pure, Except.pure]
      · rw [plug_cons, plug_cons, Frame.fill_mk, Frame.fill_mk]
        refine elems_plug_congr ?_
        cases s <;> simp [join, Side.flip]

/-- The parent is rotated below the sibling and gains the black node that was
missing. -/
theorem blackSibling_spec
    (hm : Holds m₀ S h (plug (⟨s, fc, p, join s .black a y b⟩ :: ctx) t) m)
    (ha : Balanced c n a) (hb : Balanced d n b)
    (hred : ¬(a.color = .black ∧ b.color = .black)) :
    ∃ a' y' b' c' m', m.blackSibling s h (some p) (some y) = .ok m' ∧
      Holds m₀ S h (plug ctx (join s fc (join s .black t p a') y' b')) m' ∧
      (plug ctx (join s fc (join s .black t p a') y' b')).elems =
        (plug (⟨s, fc, p, join s .black a y b⟩ :: ctx) t).elems ∧
      Balanced c' n a' ∧ Balanced .black (n + 1) b' := by
  obtain ⟨a', y', b', c', d', m₁, houtside, hm₁, helems, ha', hb'⟩ :=
    redOutside_spec hm ha hb hred
  have hp := hm₁.deref_parent
  rw [plug_sibling] at hm₁
  obtain ⟨m₂, hset₂, hm₂⟩ := setColor_spec hm₁ fc
  rw [← plug_sibling, plug_cons, Frame.fill_mk] at hm₂
  obtain ⟨m₃, hset₃, hm₃⟩ := setColor_spec hm₂ .black
  rw [← join_flip s] at hm₃
  have hm₃' : Holds m₀ S h (plug (⟨s.flip, .black, p, t⟩ :: ctx) (join s fc a' y' b')) m₃ := hm₃
  have hy := hm₃'.deref
  rw [← join_flip s] at hm₃'
  obtain ⟨m₄, hset₄, hm₄⟩ := blacken_spec (show Holds m₀ S h
    (plug (⟨s.flip, fc, y', a'⟩ :: ⟨s.flip, .black, p, t⟩ :: ctx) b') m₃ from hm₃')
  rw [plug_cons, plug_cons, Frame.fill_mk, Frame.fill_mk, join_flip, join_flip] at hm₄
  obtain ⟨m₅, hrot, hm₅⟩ := rotate_spec hm₄
  refine ⟨a', y', b'.blacken, c', m₅, ?_, hm₅, ?_, ha', hb'.blacken_red⟩
  · simp [Heap.blackSibling, bind, Except.bind, houtside, hp, hset₂, hset₃, hy, hset₄, hrot]
  · rw [← helems, plug_cons, Frame.fill_mk]
    refine elems_plug_congr ?_
    cases s <;> simp [join]

theorem ptr_plug_mem {f : Frame E} :
    ∃ x ∈ ctxElems (f :: ctx), (plug (f :: ctx) t).ptr = some x := by
  induction ctx generalizing f t with
  | nil => exact ⟨f.elm, mem_ctxElems_cons.mpr (Or.inl rfl), by simp [Frame.fill]⟩
  | cons g ctx ih =>
      obtain ⟨x, hx, hptr⟩ : ∃ x ∈ ctxElems (g :: ctx), (plug (g :: ctx) (f.fill t)).ptr = some x :=
        ih
      exact ⟨x, mem_ctxElems_cons.mpr (Or.inr (Or.inr hx)), hptr⟩

/-- A subtree in a context is not at the root. -/
theorem ptr_ne_root {f : Frame E} (hm : Holds m₀ S h (plug (f :: ctx) t) m) :
    t.ptr ≠ m.root h := by
  obtain ⟨x, hx, hptr⟩ : ∃ x ∈ ctxElems (f :: ctx), (plug (f :: ctx) t).ptr = some x :=
    ptr_plug_mem
  rw [hm.root, hptr]
  intro heq
  obtain ⟨-, -, hdisj⟩ := nodup_plug.mp hm.nodup
  exact hdisj x (mem_elems_of_ptr heq) hx

theorem ptr_ne_sibling (hm : Holds m₀ S h (plug (⟨s, fc, p, u⟩ :: ctx) t) m) (hu : u ≠ leaf) :
    u.ptr ≠ t.ptr := by
  obtain rfl | ⟨c, l, e, r, rfl⟩ := eq_leaf_or_join t .left
  · exact fun hptr => hu (ptr_eq_none_iff.mp hptr)
  · rw [plug_cons, Frame.fill_mk] at hm
    exact ptr_ne_of_nodup hm.nodup_subtree (by simp [join])

/-- A subtree with a red root makes up for its missing black node itself. -/
theorem vrbRemoveColor_red (hfuel : 1 ≤ fuel) (hm : Holds m₀ S h (plug ctx t) m)
    (hctx : Fits ctx .black (n + 1)) (hred : t.color = .red)
    (ht : Balanced .black (n + 1) t.blacken) :
    ∃ m' t', m.vrbRemoveColor h fuel (ctxParent ctx) t.ptr = .ok m' ∧ Holds m₀ S h t' m' ∧
      t'.elems = (plug ctx t).elems ∧ IsRedBlack t' := by
  cases fuel with
  | zero => omega
  | succ fuel =>
      obtain ⟨m', hset, hm'⟩ := blacken_spec hm
      refine ⟨m', _, ?_, hm', elems_plug_congr (elems_blacken t), hctx.plug ht⟩
      have hisBlack := isBlack_spec hm
      simp [Heap.vrbRemoveColor, bind, Except.bind, hisBlack, hred, hset]

/-- The loop ends with a red-black tree of the same elements. -/
theorem vrbRemoveColor_spec (hfuel : ctx.length + 2 ≤ fuel)
    (hm : Holds m₀ S h (plug ctx t) m) (hctx : Fits ctx .black (n + 1)) (ht : Short n t) :
    ∃ m' t', m.vrbRemoveColor h fuel (ctxParent ctx) t.ptr = .ok m' ∧ Holds m₀ S h t' m' ∧
      t'.elems = (plug ctx t).elems ∧ IsRedBlack t' := by
  induction fuel generalizing ctx t m n with
  | zero => omega
  | succ fuel ih =>
      rcases ht with ht | ⟨hred, ht⟩
      swap
      · exact vrbRemoveColor_red (by omega) hm hctx hred ht
      have hisBlack := isBlack_spec hm
      simp only [ht.color_eq, decide_true] at hisBlack
      cases ctx with
      | nil =>
          obtain ⟨m', hset, hm'⟩ := blacken_spec hm
          refine ⟨m', _, ?_, hm', elems_plug_congr (elems_blacken t), ht.isRedBlack_blacken⟩
          have hroot := hm.root
          rw [plug_nil] at hroot
          simp [Heap.vrbRemoveColor, bind, Except.bind, hisBlack, hroot, hset]
      | cons f ctx =>
          obtain ⟨s, fc, p, u⟩ := f
          have hroot := ptr_ne_root hm
          have hp := hm.deref_parent
          have hu : u ≠ leaf := by
            rintro rfl
            cases hctx <;> rename_i hu _ <;> cases hu
          have hside : (if (entryOf s t.ptr u.ptr (ctxParent ctx) fc).left = t.ptr then Side.left
              else Side.right) = s := side_eq' (ptr_ne_sibling hm hu)
          obtain ⟨ctx', fc', u', m₁, hsibling, hm₁, helems₁, hfits, hu', hlen⟩ :=
            redSibling_spec hm hctx
          obtain ⟨a, y, b, c, d, rfl, ha, hb⟩ := hu'.exists_join_black s
          rw [ptr_join] at hsibling
          have hm₁' := hm₁
          rw [plug_sibling] at hm₁'
          have hchildren := blackChildren_spec hm₁'
          by_cases hblack : a.color = .black ∧ b.color = .black
          · obtain ⟨rfl, rfl⟩ : c = .black ∧ d = .black :=
              ⟨ha.color_eq.symm.trans hblack.1, hb.color_eq.symm.trans hblack.2⟩
            obtain ⟨m₂, hset, hm₂⟩ := setColor_spec hm₁' .red
            rw [← plug_sibling] at hm₂
            have hp₂ := hm₂.deref_parent
            have hu'' : Balanced .red n (join s .red a y b) := ha.join_red hb
            rw [plug_cons, Frame.fill_mk] at hm₂
            have helems : (plug ctx' (join s fc' t p (join s .red a y b))).elems =
                (plug (⟨s, fc, p, u⟩ :: ctx) t).elems := by
              rw [← helems₁, plug_cons, Frame.fill_mk]
              refine elems_plug_congr ?_
              cases s <;> simp [join]
            have hloop : ∃ m' t', m₂.vrbRemoveColor h fuel (ctxParent ctx') (some p) = .ok m' ∧
                Holds m₀ S h t' m' ∧
                t'.elems = (plug ctx' (join s fc' t p (join s .red a y b))).elems ∧
                IsRedBlack t' := by
              rw [← ptr_join s fc' t p (join s .red a y b)]
              rw [List.length_cons] at hfuel
              cases hfits with
              | red _ _ _ hctx' =>
                  refine vrbRemoveColor_red (by omega) hm₂ hctx'.toBlack (color_join _ _ _ _ _) ?_
                  rw [blacken_join]
                  exact ht.join_black hu''
              | black _ _ _ _ hctx' =>
                  have hlen' := hlen rfl
                  exact ih (by omega) hm₂ hctx' (Or.inl (ht.join_black hu''))
            obtain ⟨m₃, t', hrec, hm₃, helems₃, hrb⟩ := hloop
            refine ⟨m₃, t', ?_, hm₃, helems₃.trans helems, hrb⟩
            simp [Heap.vrbRemoveColor, bind, Except.bind, hisBlack, hroot, hp, hside, hsibling,
              hchildren, hblack, hset, hp₂, hrec]
          · obtain ⟨a', y', b', c', m₂, hlast, hm₂, helems₂, ha', hb'⟩ :=
              blackSibling_spec hm₁ ha hb hblack
            have hrb : IsRedBlack (plug ctx' (join s fc' (join s .black t p a') y' b')) := by
              cases hfits with
              | red _ _ _ hctx' => exact hctx'.plug ((ht.join_black ha').join_red hb')
              | black _ _ _ _ hctx' => exact hctx'.plug ((ht.join_black ha').join_black hb')
            obtain ⟨k, hk⟩ := hrb
            obtain ⟨m₃, hset, hm₃⟩ := blacken_spec
              (show Holds m₀ S h (plug [] (plug ctx' _)) m₂ from hm₂)
            rw [← hm₂.root] at hset
            rw [plug_nil, hk.blacken_black] at hm₃
            refine ⟨m₃, _, ?_, hm₃, helems₂.trans helems₁, ⟨k, hk⟩⟩
            simp [Heap.vrbRemoveColor, bind, Except.bind, hisBlack, hroot, hp, hside, hsibling,
              hchildren, hblack, hlast, hset]

/-- The only child of an element, or a leaf, takes its place. -/
theorem splice_spec (hm : Holds m₀ S h (plug ctx (join s c t e leaf)) m) :
    ∃ m', m.splice h (some e) t.ptr = .ok m' ∧ Holds m₀ S h (plug ctx t) m' ∧
      m'.entry e = m.entry e := by
  have he := hm.deref
  obtain ⟨hctx, ht, hnodup, hmem, hw⟩ := holds_plug.mp hm
  obtain ⟨-, ht, -⟩ := treeAt_join.mp ht
  obtain ⟨hnctx, hn, hdisj⟩ := nodup_plug.mp hnodup
  obtain ⟨het, -, hnt, -⟩ := nodup_join.mp hn
  have hectx : e ∉ ctxElems ctx := hdisj e (mem_join.mpr (Or.inl rfl))
  have htctx : ∀ z ∈ t.elems, z ∉ ctxElems ctx := fun z hz =>
    hdisj z (mem_join.mpr (Or.inr (Or.inl hz)))
  rw [ptr_join] at hctx
  obtain ⟨m₁, hset₁, ht₁, hw₁⟩ := reparent_spec ht hnt (ctxParent ctx)
  have hctx₁ := hctx.within hw₁ fun z hz hptr => htctx z (mem_elems_of_ptr hptr) hz
  obtain ⟨m₂, hset₂, hctx₂, hw₂⟩ := relink_spec hctx₁ hnctx hectx t.ptr
  have hparent : ∀ z, z ∉ ctxElems ctx → z ∉ {z | ctxParent ctx = some z} :=
    fun z hz hp => hz (mem_ctxElems_of_parent hp)
  have htS : ∀ z ∈ {z | t.ptr = some z}, z ∈ S := fun z hz =>
    hmem z (mem_elems_plug.mpr (Or.inr (mem_join.mpr (Or.inr (Or.inl (mem_elems_of_ptr hz))))))
  have hpS : ∀ z ∈ {z | ctxParent ctx = some z}, z ∈ S := fun z hz =>
    hmem z (mem_elems_plug.mpr (Or.inl (mem_ctxElems_of_parent hz)))
  refine ⟨m₂, ?_, holds_plug.mpr ⟨hctx₂, ?_, ?_, ?_, ?_⟩, ?_⟩
  · simp [Heap.splice, bind, Except.bind, he, hset₁, hset₂]
  · exact ht₁.within hw₂ fun z hz => hparent z (htctx z hz)
  · exact nodup_plug.mpr ⟨hnctx, hnt, htctx⟩
  · intro z hz
    rcases mem_elems_plug.mp hz with hz | hz
    · exact hmem z (mem_elems_plug.mpr (Or.inl hz))
    · exact hmem z (mem_elems_plug.mpr (Or.inr (mem_join.mpr (Or.inr (Or.inl hz)))))
  · exact hw.step hw₁ (Set.empty_subset _) htS |>.step hw₂ (Set.Subset.refl _) hpS
  · exact (hw₂.entry e (hparent e hectx)).trans
      (hw₁.entry e fun hptr => het (mem_elems_of_ptr hptr))

/-- The element `y` takes the place of `e`. -/
theorem takeOver_spec (hm : Holds m₀ S h (plug ctx (node c t e u)) m) (ht : t ≠ leaf)
    (hlive : (m.entry y).isSome) (hy : y ∉ (plug ctx (node c t e u)).elems) (hyS : y ∈ S) :
    ∃ m', m.takeOver h (some e) (some y) = .ok m' ∧
      Holds m₀ S h (plug ctx (node c t y u)) m' := by
  obtain ⟨hctx, ⟨he, ht', hu⟩, hnodup, hmem, hw⟩ := holds_plug.mp hm
  obtain ⟨hnctx, hn, hdisj⟩ := nodup_plug.mp hnodup
  obtain ⟨het, heu, hnt, hnu, htu⟩ := nodup_join (s := .left) |>.mp hn
  simp only [mem_elems_plug, elems_node, List.mem_append, List.mem_cons, not_or] at hy hdisj
  obtain ⟨hyctx, hyt, hye, hyu⟩ := hy
  have hectx : e ∉ ctxElems ctx := hdisj e (Or.inr (Or.inl rfl))
  obtain ⟨n₀, hn₀⟩ := Option.isSome_iff_exists.mp hlive
  -- `y` gets a copy of the entry, and the link of the parent
  generalize hn₁ : (⟨t.ptr, u.ptr, ctxParent ctx, c⟩ : Entry E) = n₁ at he
  have hset₁ := assign_eq hn₀ fun _ => n₁
  have he₁ := (entry_put_of_ne (n := n₁) (Ne.symm hye)).trans he
  obtain ⟨m₂, hset₂, hctx₂, hw₂⟩ := relink_spec (hctx.put hyctx n₁) hnctx hectx (some y)
  have hparent : ∀ z, z ∉ ctxElems ctx → z ∉ {z | ctxParent ctx = some z} :=
    fun z hz hp => hz (mem_ctxElems_of_parent hp)
  have he₂ := (hw₂.entry e (hparent e hectx)).trans he₁
  have hy₂ : m₂.entry y = some n₁ := (hw₂.entry y (hparent y hyctx)).trans entry_put_self
  have ht₂ := (ht'.put hyt n₁).within hw₂ fun z hz => hparent z (hdisj z (Or.inl hz))
  have hu₂ := (hu.put hyu n₁).within hw₂ fun z hz => hparent z (hdisj z (Or.inr (Or.inr hz)))
  -- the children follow
  obtain ⟨m₃, hset₃, ht₃, hw₃⟩ := reparent_spec ht₂ hnt (some y)
  have he₃ := (hw₃.entry e fun hptr => het (mem_elems_of_ptr hptr)).trans he₂
  have hy₃ := (hw₃.entry y fun hptr => hyt (mem_elems_of_ptr hptr)).trans hy₂
  have hu₃ := hu₂.within hw₃ fun z hz hptr => htu z (mem_elems_of_ptr hptr) hz
  have hctx₃ := hctx₂.within hw₃ fun z hz hptr => hdisj z (Or.inl (mem_elems_of_ptr hptr)) hz
  obtain ⟨m₄, hset₄, hu₄, hw₄⟩ := reparent_spec hu₃ hnu (some y)
  have hy₄ := (hw₄.entry y fun hptr => hyu (mem_elems_of_ptr hptr)).trans hy₃
  have ht₄ := ht₃.within hw₄ fun z hz hptr => htu z hz (mem_elems_of_ptr hptr)
  have hctx₄ := hctx₃.within hw₄ fun z hz hptr =>
    hdisj z (Or.inr (Or.inr (mem_elems_of_ptr hptr))) hz
  subst hn₁
  have hptr : t.ptr ≠ none := fun hptr => ht (ptr_eq_none_iff.mp hptr)
  have htS : ∀ z ∈ {z | t.ptr = some z}, z ∈ S := fun z hz =>
    hmem z (mem_elems_plug.mpr (Or.inr (List.mem_append_left _ (mem_elems_of_ptr hz))))
  have huS : ∀ z ∈ {z | u.ptr = some z}, z ∈ S := fun z hz =>
    hmem z (mem_elems_plug.mpr (Or.inr (by simp [mem_elems_of_ptr hz])))
  have hpS : ∀ z ∈ {z | ctxParent ctx = some z}, z ∈ S := fun z hz =>
    hmem z (mem_elems_plug.mpr (Or.inl (mem_ctxElems_of_parent hz)))
  refine ⟨m₄, ?_, holds_plug.mpr ⟨hctx₄, ⟨hy₄, ht₄, hu₄⟩, ?_, ?_, ?_⟩⟩
  · simp only [Heap.reparent, hptr, ↓reduceIte] at hset₃
    simp [Heap.takeOver, bind, Except.bind, deref_eq he, hset₁, deref_eq he₁, hset₂,
      deref_eq he₂, hset₃, deref_eq he₃, hset₄]
  · refine nodup_plug.mpr ⟨hnctx, nodup_join (s := .left) |>.mpr ⟨hyt, hyu, hnt, hnu, htu⟩, ?_⟩
    intro z hz
    rcases List.mem_append.mp hz with hz | hz
    · exact hdisj z (Or.inl hz)
    · rcases List.mem_cons.mp hz with rfl | hz
      · exact hyctx
      · exact hdisj z (Or.inr (Or.inr hz))
  · intro z hz
    rcases mem_elems_plug.mp hz with hz | hz
    · exact hmem z (mem_elems_plug.mpr (Or.inl hz))
    · rcases List.mem_append.mp hz with hz | hz
      · exact hmem z (mem_elems_plug.mpr (Or.inr (List.mem_append_left _ hz)))
      · rcases List.mem_cons.mp hz with rfl | hz
        · exact hyS
        · exact hmem z (mem_elems_plug.mpr (Or.inr (by simp [hz])))
  · exact hw.step (Within.put hn₀ _) (Set.empty_subset _) (by simpa using hyS)
      |>.step hw₂ (Set.Subset.refl _) hpS
      |>.step hw₃ (Set.empty_subset _) htS
      |>.step hw₄ (Set.empty_subset _) huS

/-- The search for the last element on one side ends at a node without a child
there. -/
theorem descend_spec (s : Side) (ht : t ≠ leaf) (hfuel : t.height ≤ fuel) {q : Option E}
    (htree : TreeAt m q t) :
    ∃ ctx c e u, t = plug ctx (join s c leaf e u) ∧ (∀ f ∈ ctx, f.side = s) ∧
      m.descend s fuel t.ptr = .ok (some e) := by
  induction fuel generalizing t q with
  | zero =>
      cases t with
      | leaf => exact absurd rfl ht
      | node c l e r => simp [height] at hfuel
  | succ fuel ih =>
      obtain rfl | ⟨c, l, e, r, rfl⟩ := eq_leaf_or_join t s
      · exact absurd rfl ht
      · obtain ⟨he, hl, -⟩ := treeAt_join.mp htree
        by_cases hleaf : l = leaf
        · subst hleaf
          refine ⟨[], c, e, r, rfl, by simp, ?_⟩
          simp [Heap.descend, bind, Except.bind, deref_eq he, pure, Except.pure]
        · have hheight : l.height + 1 ≤ (join s c l e r).height := by
            cases s <;> simp [join, height]
          obtain ⟨ctx, c', e', u, rfl, hsides, hdescend⟩ := ih hleaf (by omega) hl
          have hptr : (plug ctx (join s c' leaf e' u)).ptr ≠ none := fun hptr =>
            hleaf (ptr_eq_none_iff.mp hptr)
          refine ⟨ctx ++ [⟨s, c, e, r⟩], c', e', u, ?_, ?_, ?_⟩
          · rw [plug_append, plug_cons, plug_nil, Frame.fill_mk]
          · intro f hf
            rcases List.mem_append.mp hf with hf | hf
            · exact hsides f hf
            · obtain rfl := List.mem_singleton.mp hf
              rfl
          · simp [Heap.descend, bind, Except.bind, deref_eq he, hptr, hdescend]

theorem before_eq_nil (h : ∀ f ∈ ctx, f.side = .left) : before ctx = [] := by
  induction ctx with
  | nil => rfl
  | cons f ctx ih =>
      rw [before, h f (by simp)]
      exact ih fun g hg => h g (by simp [hg])

theorem ascend_spec (hfuel : ctx.length < fuel) (hm : Holds m₀ S h (plug ctx t) m) :
    m.ascend fuel (ctxParent ctx) = .ok () := by
  induction ctx generalizing t fuel with
  | nil =>
      cases fuel with
      | zero => omega
      | succ fuel => rfl
  | cons f ctx ih =>
      cases fuel with
      | zero => omega
      | succ fuel =>
          have hf := hm.deref_parent
          have hrec := ih (by simpa using hfuel) hm
          simp [Heap.ascend, bind, Except.bind, hf, hrec]

/-- What is left of the tree after an element was spliced out is mended. -/
theorem recolor_spec (hfuel : ctx.length + 2 ≤ fuel) (hctx : Fits ctx d n)
    (ht : Balanced d n (join s c t e leaf)) (hm : Holds m₀ S h (plug ctx t) m) :
    ∃ m' t', m.recolor fuel h c (ctxParent ctx) t.ptr = .ok m' ∧ Holds m₀ S h t' m' ∧
      t'.elems = (plug ctx t).elems ∧ IsRedBlack t' := by
  cases c with
  | red =>
      obtain ⟨rfl, ht, -⟩ := ht.of_join_red
      exact ⟨m, _, rfl, hm, rfl, hctx.toBlack.plug ht⟩
  | black =>
      cases n with
      | zero => cases s <;> cases ht
      | succ n =>
          obtain ⟨rfl, ⟨c, ht⟩, d, hleaf⟩ := ht.of_join_black
          have hshort : Short n t := by
            cases c with
            | red => exact Or.inr ⟨ht.color_eq, ht.blacken_red⟩
            | black => exact Or.inl ht
          exact vrbRemoveColor_spec hfuel hm hctx hshort

theorem removeOuter_spec (hfuel : (plug ctx (join s c t e leaf)).height + 1 ≤ fuel)
    (hrb : IsRedBlack (plug ctx (join s c t e leaf)))
    (hm : Holds m₀ S h (plug ctx (join s c t e leaf)) m) :
    ∃ m' t', m.removeOuter fuel h (some e) t.ptr = .ok m' ∧ Holds m₀ S h t' m' ∧
      t'.elems = (plug ctx t).elems ∧ IsRedBlack t' := by
  have he := hm.deref
  obtain ⟨d, n, hctx, ht⟩ := exists_fits hrb
  have hheight : ctx.length + (join s c t e leaf).height ≤ _ := length_add_height_le
  have hpos : 1 ≤ (join s c t e leaf).height := by
    cases s <;> simp [join, height]
  obtain ⟨m₁, hsplice, hm₁, -⟩ := splice_spec hm
  have hturns : ctx.length + 2 ≤ fuel := by omega
  obtain ⟨m₂, t', hrecolor, hm₂, helems, hrb'⟩ := recolor_spec hturns hctx ht hm₁
  refine ⟨m₂, t', ?_, hm₂, helems, hrb'⟩
  simp [Heap.removeOuter, bind, Except.bind, he, hsplice, hrecolor]

theorem removeInner_spec {l r : ColorTree E} (hfuel : (plug ctx (node c l e r)).height + 1 ≤ fuel)
    (hl : l ≠ leaf) (hr : r ≠ leaf) (hrb : IsRedBlack (plug ctx (node c l e r)))
    (hm : Holds m₀ S h (plug ctx (node c l e r)) m) :
    ∃ m' t', m.removeInner fuel h (some e) = .ok m' ∧ Holds m₀ S h t' m' ∧
      t'.elems = before ctx ++ (l.elems ++ r.elems) ++ after ctx ∧ IsRedBlack t' := by
  obtain ⟨-, ⟨he, -, htree⟩, -⟩ := holds_plug.mp hm
  have hheight : ctx.length + (node c l e r).height ≤ _ := length_add_height_le
  simp only [height] at hheight
  obtain ⟨ctx₂, d, y, u, rfl, hsides, hdescend⟩ :=
    descend_spec .left hr (show _ ≤ fuel by omega) htree
  have hlen : ctx₂.length + (join .left d leaf y u).height ≤ _ := length_add_height_le
  simp only [join, height] at hlen
  -- the successor `y` is spliced out
  have hm₁ : Holds m₀ S h
      (plug (ctx₂ ++ ⟨.right, c, e, l⟩ :: ctx) (join .right d u y leaf)) m := by
    rw [plug_append]
    exact hm
  have hy := hm₁.deref
  have hmem := hm₁.mem y (mem_elems_plug.mpr (Or.inr (mem_join.mpr (Or.inl rfl))))
  have hlive := hm₁.isSome (mem_elems_plug.mpr (Or.inr (mem_join.mpr (Or.inl rfl))))
  obtain ⟨m₁, hsplice, hm₂, hyentry⟩ := splice_spec hm₁
  obtain ⟨-, hn, hdisj⟩ := nodup_plug.mp hm₁.nodup
  obtain ⟨hyu, -⟩ := nodup_join.mp hn
  have hyctx := hdisj y (mem_join.mpr (Or.inl rfl))
  have hynot : y ∉ (plug (ctx₂ ++ ⟨.right, c, e, l⟩ :: ctx) u).elems := by
    rw [mem_elems_plug]
    exact not_or.mpr ⟨hyctx, hyu⟩
  have hlive₁ : (m₁.entry y).isSome := by rwa [hyentry]
  have hy₁ : m₁.deref (some y) = m.deref (some y) := by
    rw [Heap.deref, Heap.deref, hyentry]
  rw [hy] at hy₁
  -- and takes the place of `e`
  rw [plug_append] at hm₂ hynot
  have hm₂ : Holds m₀ S h (plug ctx (node c l e (plug ctx₂ u))) m₁ := hm₂
  obtain ⟨m₂, htake, hm₃⟩ := takeOver_spec hm₂ hl hlive₁ hynot hmem
  have hm₄ : Holds m₀ S h (plug (ctx₂ ++ ⟨.right, c, y, l⟩ :: ctx) u) m₂ := by
    rw [plug_append]
    exact hm₃
  have hparent : (if ctxParent (ctx₂ ++ ⟨.right, c, e, l⟩ :: ctx) = some e then some y else
      ctxParent (ctx₂ ++ ⟨.right, c, e, l⟩ :: ctx)) =
        ctxParent (ctx₂ ++ ⟨.right, c, y, l⟩ :: ctx) := by
    cases ctx₂ with
    | nil => simp
    | cons f ctx₂ =>
        have hne : f.elm ≠ e := by
          rintro rfl
          obtain ⟨hnctx, -, -⟩ := nodup_plug.mp hm₁.nodup
          rw [List.cons_append] at hnctx
          obtain ⟨-, hf, -⟩ := nodup_ctxElems_cons.mp hnctx
          refine hf (mem_ctxElems_append.mpr (Or.inr ?_))
          exact mem_ctxElems_cons.mpr (Or.inl rfl)
        simp [hne]
  have hlen₂ : (ctx₂ ++ ⟨.right, c, y, l⟩ :: ctx).length + 2 ≤ fuel := by
    rw [List.length_append, List.length_cons]
    simp only [join] at hheight hfuel
    omega
  have hascend := ascend_spec (show _ < fuel by omega) hm₄
  have hrb₁ : IsRedBlack (plug (ctx₂ ++ ⟨.right, c, y, l⟩ :: ctx) (join .right d u y leaf)) := by
    obtain ⟨k, n, hctx, hbal⟩ := exists_fits hrb
    rw [plug_append]
    exact hctx.plug (hbal.relabel y)
  obtain ⟨k, n, hctx, hbal⟩ := exists_fits hrb₁
  obtain ⟨m₃, t', hrecolor, hm₅, helems, hrb'⟩ :=
    recolor_spec hlen₂ hctx hbal hm₄
  refine ⟨m₃, t', ?_, hm₅, ?_, hrb'⟩
  · simp [Heap.removeInner, bind, Except.bind, deref_eq he, hdescend, hy, entryOf, hsplice, hy₁,
      hparent, htake, hascend, hrecolor]
  · rw [helems, plug_append, plug_cons, Frame.fill_mk, elems_plug]
    simp [join, elems_plug, before_eq_nil hsides]

/-- A removal erases the element from the ordered set, the tree stays a
red-black tree, and the loops take logarithmically many turns; nothing else
changes. -/
theorem vrbRemove_spec {key : E → κ} {xs : List E} (hm : Represents key m h xs) (hx : x ∈ xs)
    (hfuel : turns xs.length ≤ fuel) :
    ∃ m', m.vrbRemove fuel h x = .ok (x, m') ∧ Represents key m' h (xs.erase x) ∧
      Within {h} {y | y ∈ xs} m m' := by
  obtain ⟨hsorted, t, hroot, htree, rfl, hrb⟩ := hm
  have hheight := hrb.height_le
  rw [turns] at hfuel
  have hm : Holds m {y | y ∈ t.elems} h t m :=
    ⟨hroot, htree, hsorted.nodup, fun _ he => he, Within.refl m⟩
  obtain ⟨ctx, c, l, r, rfl⟩ := exists_plug_of_mem hx
  have hremove : ∃ m' t', m.vrbRemove fuel h x = .ok (x, m') ∧
      Holds m {y | y ∈ (plug ctx (node c l x r)).elems} h t' m' ∧
      t'.elems = before ctx ++ (l.elems ++ r.elems) ++ after ctx ∧ IsRedBlack t' := by
    obtain ⟨-, ⟨he, -, -⟩, -⟩ := holds_plug.mp hm
    by_cases hl : l = leaf
    · subst hl
      obtain ⟨m', t', hout, hm', helems, hrb'⟩ := removeOuter_spec (s := .right)
        (show _ ≤ fuel by simp only [join]; omega) hrb hm
      refine ⟨m', t', ?_, hm', by simp [helems, elems_plug], hrb'⟩
      simp [Heap.vrbRemove, bind, Except.bind, deref_eq he, hout, pure, Except.pure]
    · have hl' : l.ptr ≠ none := fun hptr => hl (ptr_eq_none_iff.mp hptr)
      by_cases hr : r = leaf
      · subst hr
        obtain ⟨m', t', hout, hm', helems, hrb'⟩ := removeOuter_spec (s := .left)
          (show _ ≤ fuel by simp only [join]; omega) hrb hm
        refine ⟨m', t', ?_, hm', by simp [helems, elems_plug], hrb'⟩
        simp [Heap.vrbRemove, bind, Except.bind, deref_eq he, hl', hout, pure, Except.pure]
      · have hr' : r.ptr ≠ none := fun hptr => hr (ptr_eq_none_iff.mp hptr)
        obtain ⟨m', t', hin, hm', helems, hrb'⟩ :=
          removeInner_spec (show _ ≤ fuel by omega) hl hr hrb hm
        refine ⟨m', t', ?_, hm', helems, hrb'⟩
        simp [Heap.vrbRemove, bind, Except.bind, deref_eq he, hl', hr', hin, pure, Except.pure]
  obtain ⟨m', t', hremove, hm', helems, hrb'⟩ := hremove
  have herase : (plug ctx (node c l x r)).elems.erase x = t'.elems := by
    have hnodup := hm.nodup
    have hsplit : (plug ctx (node c l x r)).elems =
        (before ctx ++ l.elems) ++ x :: (r.elems ++ after ctx) := by
      rw [elems_plug, elems_node]
      simp
    rw [hsplit] at hnodup ⊢
    have hxl : x ∉ before ctx ++ l.elems := fun hx =>
      List.disjoint_of_nodup_append hnodup hx (by simp)
    rw [List.erase_append_right _ hxl, List.erase_cons_head, helems]
    simp
  exact ⟨m', hremove, ⟨hsorted.erase x, t', hm'.root, hm'.tree, herase.symm, hrb'⟩, hm'.within⟩

end VarnishModules.VtreeRemove
