import VarnishModules.VtreeRemove

/-!
Searches and traversals: they read the elements as an ordered list.
-/

set_option linter.unusedSectionVars false

namespace VarnishModules.VtreeWalk

open VarnishModules.RedBlackTree
open VarnishModules.RedBlackTree.ColorTree
open VarnishModules.TailQueue (Fault ok_bind)
open VarnishModules.VtreeModel
open VarnishModules.VtreeMemory
open VarnishModules.VtreeInsert
open VarnishModules.VtreeRemove

variable {H E K κ : Type} [DecidableEq H] [DecidableEq E] [LinearOrder κ]
  {m₀ m m' : Heap H E} {S : Set E} {h : H} {e p x : E} {ctx : List (Frame E)}
  {t u l r : ColorTree E} {s : Side} {c d : Color} {n fuel : ℕ} {q : Option E}
  {key : E → κ} {k : κ} {xs ys zs : List E}

section Search

variable {cmp : E → Int}

theorem findFrom_spec (hfuel : t.height < fuel) (htree : TreeAt m q t)
    (hsorted : OrderedTree.IsTree key t.elems) (hcmp : Compares key k t.elems cmp) :
    m.findFrom cmp fuel t.ptr = .ok (OrderedTree.find key k t.elems) := by
  induction t generalizing fuel q with
  | leaf =>
      cases fuel with
      | zero => omega
      | succ fuel => rfl
  | node c l e r ihl ihr =>
      cases fuel with
      | zero => omega
      | succ fuel =>
          obtain ⟨he, hl, hr⟩ := htree
          obtain ⟨hlt, hgt⟩ := hcmp e (by simp)
          obtain ⟨hsl, hsr, hle, her, -⟩ := isTree_node.mp hsorted
          have hderef := deref_eq he
          simp only [height] at hfuel
          rcases lt_trichotomy k (key e) with hk | hk | hk
          · have hnone : OrderedTree.find key k (e :: r.elems) = none := by
              refine OrderedTree.find_eq_none_iff.mpr fun y hy => ?_
              rcases List.mem_cons.mp hy with rfl | hy
              · exact hk.ne'
              · exact (hk.trans (her y hy)).ne'
            have hrec := ihl (show _ < fuel by omega) hl hsl fun x hx => hcmp x (by simp [hx])
            simp only [OrderedTree.find] at hnone hrec ⊢
            rw [elems_node, List.find?_append, hnone, Option.or_none, ← hrec]
            simp [Heap.findFrom, bind, Except.bind, hderef, hlt.mpr hk]
          · have hfind := (OrderedTree.find_eq_some_iff hsorted).mpr ⟨by simp, hk.symm⟩
            have hlt' : ¬cmp e < 0 := fun h => (hlt.mp h).ne hk
            have hgt' : ¬0 < cmp e := fun h => (hgt.mp h).ne' hk
            rw [hfind]
            simp [Heap.findFrom, bind, Except.bind, hderef, hlt', hgt', pure, Except.pure]
          · have hlt' : ¬cmp e < 0 := fun h => (hlt.mp h).not_gt hk
            have hnone : OrderedTree.find key k l.elems = none :=
              OrderedTree.find_eq_none_iff.mpr fun y hy => ((hle y hy).trans hk).ne
            have hrec := ihr (show _ < fuel by omega) hr hsr fun x hx => hcmp x (by simp [hx])
            simp only [OrderedTree.find] at hnone hrec ⊢
            rw [elems_node, List.find?_append, hnone, Option.none_or, List.find?_cons_of_neg
              (by simpa using hk.ne), ← hrec]
            simp [Heap.findFrom, bind, Except.bind, hderef, hlt', hgt.mpr hk]

/-- A search takes logarithmically many turns. -/
theorem vrbFind_spec {cmp : K → E → Int} {elm : K} (hm : Represents key m h xs)
    (hcmp : Compares key k xs (cmp elm)) (hfuel : turns xs.length ≤ fuel) :
    m.vrbFind fuel cmp h elm = .ok (OrderedTree.find key k xs) := by
  obtain ⟨hsorted, t, hroot, htree, rfl, hrb⟩ := hm
  have hheight := hrb.height_le
  rw [turns] at hfuel
  rw [Heap.vrbFind, hroot]
  exact findFrom_spec (by omega) htree hsorted hcmp

theorem nfindFrom_spec (hfuel : t.height < fuel) (htree : TreeAt m q t)
    (hsorted : OrderedTree.IsTree key t.elems) (hcmp : Compares key k t.elems cmp)
    (res : Option E) :
    m.nfindFrom cmp fuel t.ptr res =
      .ok ((t.elems.find? fun x => decide (k ≤ key x)).or res) := by
  induction t generalizing fuel q res with
  | leaf =>
      cases fuel with
      | zero => omega
      | succ fuel => rfl
  | node c l e r ihl ihr =>
      cases fuel with
      | zero => omega
      | succ fuel =>
          obtain ⟨he, hl, hr⟩ := htree
          obtain ⟨hlt, hgt⟩ := hcmp e (by simp)
          obtain ⟨hsl, hsr, hle, her, -⟩ := isTree_node.mp hsorted
          have hderef := deref_eq he
          simp only [height] at hfuel
          rw [elems_node, List.find?_append]
          rcases lt_trichotomy k (key e) with hk | hk | hk
          · have hrec := ihl (show _ < fuel by omega) hl hsl (fun x hx => hcmp x (by simp [hx]))
              (some e)
            rw [List.find?_cons_of_pos (by simpa using hk.le), Option.or_assoc, Option.some_or,
              ← hrec]
            simp [Heap.nfindFrom, bind, Except.bind, hderef, hlt.mpr hk]
          · have hlt' : ¬cmp e < 0 := fun h => (hlt.mp h).ne hk
            have hgt' : ¬0 < cmp e := fun h => (hgt.mp h).ne' hk
            have hnone : l.elems.find? (fun x => decide (k ≤ key x)) = none :=
              List.find?_eq_none.mpr fun y hy => by simpa [hk] using hle y hy
            rw [hnone, List.find?_cons_of_pos (by simpa using hk.le), Option.none_or,
              Option.some_or]
            simp [Heap.nfindFrom, bind, Except.bind, hderef, hlt', hgt', pure, Except.pure]
          · have hlt' : ¬cmp e < 0 := fun h => (hlt.mp h).not_gt hk
            have hnone : l.elems.find? (fun x => decide (k ≤ key x)) = none :=
              List.find?_eq_none.mpr fun y hy => by simpa using (hle y hy).trans hk
            have hrec := ihr (show _ < fuel by omega) hr hsr (fun x hx => hcmp x (by simp [hx])) res
            rw [hnone, Option.none_or, List.find?_cons_of_neg (by simpa using hk), ← hrec]
            simp [Heap.nfindFrom, bind, Except.bind, hderef, hlt', hgt.mpr hk]

/-- The first element whose key is not smaller. -/
theorem vrbNfind_spec {cmp : K → E → Int} {elm : K} (hm : Represents key m h xs)
    (hcmp : Compares key k xs (cmp elm)) (hfuel : turns xs.length ≤ fuel) :
    m.vrbNfind fuel cmp h elm = .ok (xs.find? fun x => decide (k ≤ key x)) := by
  obtain ⟨hsorted, t, hroot, htree, rfl, hrb⟩ := hm
  have hheight := hrb.height_le
  rw [turns] at hfuel
  rw [Heap.vrbNfind, hroot, nfindFrom_spec (by omega) htree hsorted hcmp, Option.or_none]

end Search

/-- The elements from side `s` on to the other side. -/
def elemsFrom (s : Side) (t : ColorTree E) : List E :=
  match s with
  | .left => t.elems
  | .right => t.elems.reverse

/-- The elements on side `s` of the hole, the nearest one first. -/
def beyond (s : Side) (ctx : List (Frame E)) : List E :=
  match s with
  | .left => (before ctx).reverse
  | .right => after ctx

theorem elemsFrom_join : elemsFrom s (join s c t e u) = elemsFrom s t ++ e :: elemsFrom s u := by
  cases s <;> simp [elemsFrom, join]

theorem beyond_cons (f : Frame E) : beyond s (f :: ctx) =
    if f.side = s then beyond s ctx
    else f.elm :: (elemsFrom s.flip f.sibling ++ beyond s ctx) := by
  obtain ⟨side, c, e, u⟩ := f
  cases s <;> cases side <;> simp [beyond, before, after, elemsFrom, Side.flip]

/-- The last node on one side holds the first element from there. -/
theorem descend_eq (s : Side) (ht : t ≠ leaf) (hfuel : t.height ≤ fuel) (htree : TreeAt m q t) :
    m.descend s fuel t.ptr = .ok (elemsFrom s t).head? := by
  induction fuel generalizing t q with
  | zero =>
      cases t with
      | leaf => exact absurd rfl ht
      | node c l e r => simp [height] at hfuel
  | succ fuel ih =>
      obtain rfl | ⟨c, l, e, r, rfl⟩ := eq_leaf_or_join t s
      · exact absurd rfl ht
      · obtain ⟨he, hl, -⟩ := treeAt_join.mp htree
        rw [elemsFrom_join]
        by_cases hleaf : l = leaf
        · subst hleaf
          have hnil : elemsFrom s (leaf : ColorTree E) = [] := by cases s <;> rfl
          simp [Heap.descend, bind, Except.bind, deref_eq he, hnil, pure, Except.pure]
        · have hheight : l.height + 1 ≤ (join s c l e r).height := by
            cases s <;> simp [join, height]
          have hrec := ih hleaf (by omega) hl
          have hptr : l.ptr ≠ none := fun hptr => hleaf (ptr_eq_none_iff.mp hptr)
          have hne : elemsFrom s l ≠ [] := by
            cases l with
            | leaf => exact absurd rfl hleaf
            | node c l e r => cases s <;> simp [elemsFrom]
          rw [List.head?_append_of_ne_nil _ hne, ← hrec]
          simp [Heap.descend, bind, Except.bind, deref_eq he, hptr]

theorem minmaxFrom_spec (hfuel : t.height < fuel) (htree : TreeAt m q t) {val : Int}
    (hval : val < 0 ↔ s = .left) (res : Option E) :
    m.minmaxFrom val fuel t.ptr res = .ok ((elemsFrom s t).head?.or res) := by
  induction fuel generalizing t q res with
  | zero => omega
  | succ fuel ih =>
      obtain rfl | ⟨c, l, e, r, rfl⟩ := eq_leaf_or_join t s
      · cases s <;> rfl
      · obtain ⟨he, hl, -⟩ := treeAt_join.mp htree
        have hheight : l.height + 1 ≤ (join s c l e r).height := by
          cases s <;> simp [join, height]
        have hrec := ih (by omega) hl (some e)
        rw [elemsFrom_join, List.head?_append, List.head?_cons, Option.or_assoc, Option.some_or,
          ← hrec]
        cases s with
        | left =>
            have hneg : val < 0 := hval.mpr rfl
            simp [Heap.minmaxFrom, bind, Except.bind, deref_eq he, entryOf, hneg]
        | right =>
            have hneg : ¬val < 0 := fun hneg => absurd (hval.mp hneg) (by simp)
            simp [Heap.minmaxFrom, bind, Except.bind, deref_eq he, entryOf, hneg]

theorem vrbMinmax_spec (hm : Represents key m h xs) (hfuel : turns xs.length ≤ fuel) :
    m.vrbMin fuel h = .ok xs.head? ∧ m.vrbMax fuel h = .ok xs.getLast? := by
  obtain ⟨-, t, hroot, htree, rfl, hrb⟩ := hm
  have hheight := hrb.height_le
  rw [turns] at hfuel
  constructor
  · rw [Heap.vrbMin, Heap.vrbMinmax, hroot,
      minmaxFrom_spec (s := .left) (by omega) htree (by simp), Option.or_none, elemsFrom]
  · rw [Heap.vrbMax, Heap.vrbMinmax, hroot,
      minmaxFrom_spec (s := .right) (by omega) htree (by simp), Option.or_none, elemsFrom,
      List.head?_reverse]

/-- Whether a subtree hangs on side `s` of its parent. -/
def onSide (s : Side) : List (Frame E) → Bool
  | [] => false
  | f :: _ => decide (f.side = s)

theorem isChild_spec (hm : Holds m₀ S h (plug ctx t) m) (ht : t.ptr = some e) :
    m.isChild s (some e) = .ok (onSide s ctx) := by
  obtain rfl | ⟨c, l, x, r, rfl⟩ := eq_leaf_or_join t .left
  · exact absurd ht (by simp)
  · obtain rfl : x = e := by simpa using ht
    have hx := hm.deref
    cases ctx with
    | nil => simp [Heap.isChild, bind, Except.bind, hx, onSide, pure, Except.pure]
    | cons f ctx =>
        obtain ⟨side, fc, p, u⟩ := f
        have hp := hm.deref_parent
        have hne : u.ptr ≠ some x := by
          by_cases hu : u = leaf
          · simp [hu]
          · simpa using ptr_ne_sibling
              (show Holds m₀ S h (plug (⟨side, fc, p, u⟩ :: ctx) (join .left c l x r)) m from hm) hu
        simp only [ptr_join] at hp
        cases side <;> cases s <;>
          simp [Heap.isChild, bind, Except.bind, hx, hp, entryOf, Entry.child, onSide, pure,
            Except.pure, hne.symm]

/-- Going up ends below the nearest element on the side. -/
theorem climb_spec (hfuel : ctx.length < fuel) (hm : Holds m₀ S h (plug ctx t) m)
    (ht : t.ptr = some e) :
    ∃ z n, m.climb s fuel (some e) = .ok (some z) ∧ m.deref (some z) = .ok n ∧
      n.parent = (beyond s ctx).head? := by
  induction ctx generalizing t e fuel with
  | nil =>
      cases fuel with
      | zero => omega
      | succ fuel =>
          have hchild := isChild_spec (s := s) hm ht
          obtain rfl | ⟨c, l, x, r, rfl⟩ := eq_leaf_or_join t .left
          · exact absurd ht (by simp)
          · obtain rfl : x = e := by simpa using ht
            have hnil : beyond s ([] : List (Frame E)) = [] := by cases s <;> rfl
            refine ⟨x, _, ?_, hm.deref, by simp [hnil]⟩
            simp [Heap.climb, bind, Except.bind, hchild, onSide, pure, Except.pure]
  | cons f ctx ih =>
      cases fuel with
      | zero => omega
      | succ fuel =>
          obtain rfl | ⟨c, l, x, r, rfl⟩ := eq_leaf_or_join t .left
          · exact absurd ht (by simp)
          · obtain rfl : x = e := by simpa using ht
            have hx := hm.deref
            have hchild := isChild_spec (s := s) hm ht
            rw [beyond_cons]
            by_cases hside : f.side = s
            · have hptr : (f.fill (join .left c l x r)).ptr = some f.elm := by simp [Frame.fill]
              obtain ⟨z, n, hclimb, hz, hn⟩ := ih (by simpa using hfuel) hm hptr
              refine ⟨z, n, ?_, hz, by simpa [hside] using hn⟩
              simp [Heap.climb, bind, Except.bind, hchild, onSide, hside, hx, hclimb]
            · refine ⟨x, _, ?_, hx, by simp [hside]⟩
              simp [Heap.climb, bind, Except.bind, hchild, onSide, hside, pure, Except.pure]

/-- The neighbour of an element is the nearest one on that side, in its subtree
there or else above it. -/
theorem neighbour_spec (hfuel : (plug ctx (join s c r x l)).height ≤ fuel)
    (hm : Holds m₀ S h (plug ctx (join s c r x l)) m) :
    m.neighbour s fuel x = .ok (elemsFrom s.flip r ++ beyond s ctx).head? := by
  have hlen : ctx.length + (join s c r x l).height ≤ _ := length_add_height_le
  have hheight : r.height + 1 ≤ (join s c r x l).height := by
    cases s <;> simp [join, height]
  have hx := hm.deref
  have hchild := isChild_spec (s := s.flip) hm (ptr_join s c r x l)
  obtain ⟨-, htree, -⟩ := holds_plug.mp hm
  obtain ⟨-, hr, -⟩ := treeAt_join.mp htree
  by_cases hleaf : r = leaf
  · subst hleaf
    have hnil : elemsFrom s.flip (leaf : ColorTree E) = [] := by cases s <;> rfl
    rw [hnil, List.nil_append]
    cases hside : onSide s.flip ctx with
    | true =>
        cases ctx with
        | nil => simp [onSide] at hside
        | cons f ctx =>
            have hf : f.side ≠ s := by
              intro heq
              cases s <;> simp [onSide, heq, Side.flip] at hside
            rw [beyond_cons]
            simp [Heap.neighbour, bind, Except.bind, hx, hchild, hside, hf, pure, Except.pure]
    | false =>
        obtain ⟨z, n, hclimb, hz, hn⟩ :=
          climb_spec (s := s) (show _ < fuel by omega) hm (ptr_join s c leaf x l)
        rw [← hn]
        simp [Heap.neighbour, bind, Except.bind, hx, hchild, hside, hclimb, hz, pure, Except.pure]
  · have hptr : r.ptr ≠ none := fun hptr => hleaf (ptr_eq_none_iff.mp hptr)
    have hne : elemsFrom s.flip r ≠ [] := by
      cases r with
      | leaf => exact absurd rfl hleaf
      | node c l e r => cases s <;> simp [elemsFrom, Side.flip]
    have hdescend := descend_eq s.flip hleaf (show _ ≤ fuel by omega) hr
    rw [List.head?_append_of_ne_nil _ hne, ← hdescend]
    simp [Heap.neighbour, bind, Except.bind, hx, hptr]

theorem split_unique {as bs : List E} (hnodup : (xs ++ x :: ys).Nodup)
    (heq : as ++ x :: bs = xs ++ x :: ys) : as = xs ∧ bs = ys := by
  have hxs : x ∉ xs := fun hx => List.disjoint_of_nodup_append hnodup hx (by simp)
  have hys : x ∉ ys := (List.nodup_cons.mp (List.nodup_append.mp hnodup).2.1).1
  obtain ⟨hxs, -, hys⟩ := (List.append_cons_inj_of_notMem hxs hys).mp heq.symm
  exact ⟨hxs.symm, hys.symm⟩

/-- The successor and the predecessor of an element in the order of the keys. -/
theorem vrbNext_spec (hm : Represents key m h (xs ++ x :: ys))
    (hfuel : turns (xs ++ x :: ys).length ≤ fuel) :
    m.vrbNext fuel x = .ok ys.head? ∧ m.vrbPrev fuel x = .ok xs.getLast? := by
  obtain ⟨hsorted, t, hroot, htree, helems, hrb⟩ := hm
  have hheight := hrb.height_le
  rw [turns, ← helems] at hfuel
  have hm : Holds m {y | y ∈ t.elems} h t m :=
    ⟨hroot, htree, helems ▸ hsorted.nodup, fun _ he => he, Within.refl m⟩
  obtain ⟨ctx, c, l, r, rfl⟩ := exists_plug_of_mem (show x ∈ t.elems by simp [helems])
  have hsplit : (before ctx ++ l.elems) ++ x :: (r.elems ++ after ctx) = xs ++ x :: ys := by
    rw [← helems, elems_plug, elems_node]
    simp
  obtain ⟨rfl, rfl⟩ := split_unique hsorted.nodup hsplit
  constructor
  · exact neighbour_spec (s := .right) (show _ ≤ fuel by simp only [join]; omega) hm
  · rw [Heap.vrbPrev, neighbour_spec (s := .left) (show _ ≤ fuel by simp only [join]; omega) hm]
    simp [elemsFrom, beyond, Side.flip, ← List.head?_reverse]

theorem visit_right_spec (hm : Represents key m h (xs ++ ys)) (hn : ys.length < n)
    (hfuel : turns (xs ++ ys).length ≤ fuel) : m.visit .right fuel n ys.head? = .ok ys := by
  induction ys generalizing xs n with
  | nil =>
      cases n with
      | zero => exact absurd hn (Nat.not_lt_zero _)
      | succ n => rfl
  | cons y ys ih =>
      cases n with
      | zero => exact absurd hn (Nat.not_lt_zero _)
      | succ n =>
          have hnext := (vrbNext_spec hm hfuel).1
          rw [List.append_cons] at hm hfuel
          have hrec := ih hm (by simpa using hn) hfuel
          rw [Heap.vrbNext] at hnext
          simp [Heap.visit, bind, Except.bind, hnext, hrec, pure, Except.pure]

theorem visit_left_spec (hm : Represents key m h (xs ++ ys)) (hn : xs.length < n)
    (hfuel : turns (xs ++ ys).length ≤ fuel) :
    m.visit .left fuel n xs.getLast? = .ok xs.reverse := by
  induction xs using List.reverseRecOn generalizing ys n with
  | nil =>
      cases n with
      | zero => exact absurd hn (Nat.not_lt_zero _)
      | succ n => rfl
  | append_singleton xs x ih =>
      cases n with
      | zero => exact absurd hn (Nat.not_lt_zero _)
      | succ n =>
          rw [← List.append_cons] at hm hfuel
          have hprev := (vrbNext_spec hm hfuel).2
          have hrec := ih hm (by simpa using hn) hfuel
          rw [Heap.vrbPrev] at hprev
          simp [Heap.visit, bind, Except.bind, hprev, hrec, pure, Except.pure]

/-- The loops visit every element once, in the order of the keys or in the
reverse order. -/
theorem vrbForeach_spec (hm : Represents key m h xs) (hlen : xs.length < fuel)
    (hfuel : turns xs.length ≤ fuel) :
    m.vrbForeach fuel h = .ok xs ∧ m.vrbForeachReverse fuel h = .ok xs.reverse := by
  obtain ⟨hmin, hmax⟩ := vrbMinmax_spec hm hfuel
  constructor
  · have hvisit := visit_right_spec (show Represents key m h ([] ++ xs) from hm) hlen hfuel
    simp [Heap.vrbForeach, bind, Except.bind, hmin, hvisit]
  · have hvisit := visit_left_spec (show Represents key m h (xs ++ []) by simpa using hm) hlen
      (by simpa using hfuel)
    simp [Heap.vrbForeachReverse, bind, Except.bind, hmax, hvisit]

theorem visitDo_spec {σ : Type} {tree : σ → Heap H E} {body : E → σ → Except Fault σ} {s : σ}
    (hbody : ∀ x s s', body x s = .ok s' → tree s' = tree s)
    (hm : Represents key (tree s) h (xs ++ ys)) (hn : ys.length < n)
    (hfuel : turns (xs ++ ys).length ≤ fuel) :
    Heap.visitDo tree fuel body n ys.head? s = ys.foldlM (fun s x => body x s) s := by
  induction ys generalizing xs s n with
  | nil =>
      cases n with
      | zero => exact absurd hn (Nat.not_lt_zero _)
      | succ n => rfl
  | cons y ys ih =>
      cases n with
      | zero => exact absurd hn (Nat.not_lt_zero _)
      | succ n =>
          cases hstep : body y s with
          | error e => simp [Heap.visitDo, hstep, bind, Except.bind]
          | ok s' =>
              have htree := hbody y s s' hstep
              have hnext : (tree s').vrbNext fuel y = .ok ys.head? := by
                rw [htree]
                exact (vrbNext_spec hm hfuel).1
              rw [List.append_cons] at hm hfuel
              have hrec := ih (s := s') (by rwa [htree]) (by simpa using hn) hfuel
              simp [Heap.visitDo, hstep, hnext, hrec, bind, Except.bind]

/-- A body that leaves the links alone is run for every element, in the order of
the keys. -/
theorem vrbForeachDo_spec {σ : Type} {tree : σ → Heap H E} {body : E → σ → Except Fault σ} {s : σ}
    (hbody : ∀ x s s', body x s = .ok s' → tree s' = tree s)
    (hm : Represents key (tree s) h xs) (hlen : xs.length < fuel)
    (hfuel : turns xs.length ≤ fuel) :
    Heap.vrbForeachDo tree fuel h body s = xs.foldlM (fun s x => body x s) s := by
  have hmin := (vrbMinmax_spec hm hfuel).1
  have hvisit := visitDo_spec hbody (show Represents key (tree s) h ([] ++ xs) from hm) hlen hfuel
  simp [Heap.vrbForeachDo, bind, Except.bind, hmin, hvisit]

/-- The body of a loop that removes and frees the elements that `q` is true of. -/
def removeIf (fuel : ℕ) (h : H) (q : E → Bool) (x : E) (m : Heap H E) :
    Except Fault (Heap H E) := do
  if q x then
    let (x, m) ← m.vrbRemove fuel h x
    m.free x
  else
    return m

/-- From `m` to `m'`, the elements of `ys` that `q` is true of were freed; apart
from the elements of `xs` and the root of `h`, nothing else changed. -/
structure Reaped (h : H) (xs ys : List E) (q : E → Bool) (m m' : Heap H E) : Prop where
  root : ∀ k, k ≠ h → m'.root k = m.root k
  entry : ∀ e, e ∉ xs → m'.entry e = m.entry e
  live : ∀ e, (m'.entry e).isSome ↔ (m.entry e).isSome ∧ ¬(e ∈ ys ∧ q e)

theorem removeIf_spec {q : E → Bool} (hm : Represents key m h (xs ++ x :: ys))
    (hfuel : turns (xs ++ x :: ys).length ≤ fuel) :
    ∃ m', removeIf fuel h q x m = .ok m' ∧
      Represents key m' h (xs ++ (if q x then ys else x :: ys)) ∧
      Reaped h (xs ++ x :: ys) [x] q m m' := by
  cases hq : q x with
  | false =>
      refine ⟨m, by simp [removeIf, hq, pure, Except.pure], by simpa using hm, fun _ _ => rfl,
        fun _ _ => rfl, fun e => ?_⟩
      simp only [List.mem_singleton, iff_self_and]
      rintro - ⟨rfl, hqx⟩
      exact absurd hqx (by simp [hq])
  | true =>
      have hx : x ∈ xs ++ x :: ys := by simp
      obtain ⟨m₁, hremove, hm₁, hw⟩ := vrbRemove_spec hm hx hfuel
      have hnodup := hm.sorted.nodup
      have hxs : x ∉ xs := fun hx => List.disjoint_of_nodup_append hnodup hx (by simp)
      have hys : x ∉ ys := (List.nodup_cons.mp (List.nodup_append.mp hnodup).2.1).1
      rw [List.erase_append_right _ hxs, List.erase_cons_head] at hm₁
      have hlive : (m₁.entry x).isSome := by
        rw [hw.live]
        exact hm.isSome hx
      obtain ⟨n, hn⟩ := Option.isSome_iff_exists.mp hlive
      have hne : ∀ e, e ≠ x → Function.update m₁.entry x none e = m₁.entry e :=
        fun e he => Function.update_of_ne he _ _
      refine ⟨{ m₁ with entry := Function.update m₁.entry x none }, ?_, ?_, ?_, ?_, ?_⟩
      · simp [removeIf, hq, bind, Except.bind, hremove, Heap.free, hn]
      · refine hm₁.congr rfl fun e he => hne e ?_
        rintro rfl
        simp [hxs, hys] at he
      · exact fun k hk => hw.root k (by simpa using hk)
      · intro e he
        refine (hne e ?_).trans (hw.entry e he)
        rintro rfl
        simp at he
      · intro e
        rw [← hw.live e]
        by_cases he : e = x
        · subst he
          simp [hq]
        · simp [he]

/-- The saved successor is never freed by the body of the loop. -/
theorem visitSafe_spec {q : E → Bool} (hm : Represents key m h (xs ++ ys)) (hn : ys.length < n)
    (hfuel : turns (xs ++ ys).length ≤ fuel) :
    ∃ m', Heap.visitSafe fuel (removeIf fuel h q) n ys.head? m = .ok m' ∧
      Represents key m' h (xs ++ ys.filter fun e => !q e) ∧ Reaped h (xs ++ ys) ys q m m' := by
  induction ys generalizing xs n m with
  | nil =>
      cases n with
      | zero => exact absurd hn (Nat.not_lt_zero _)
      | succ n => exact ⟨m, rfl, hm, fun _ _ => rfl, fun _ _ => rfl, by simp⟩
  | cons y ys ih =>
      cases n with
      | zero => exact absurd hn (Nat.not_lt_zero _)
      | succ n =>
          obtain ⟨m₁, hbody, hm₁, hreap₁⟩ := removeIf_spec (q := q) hm hfuel
          have hm₁' : Represents key m₁ h ((xs ++ if q y then [] else [y]) ++ ys) := by
            cases hq : q y <;> simpa [hq] using hm₁
          have hlen : ((xs ++ if q y then [] else [y]) ++ ys).length ≤ (xs ++ y :: ys).length := by
            cases hq : q y <;> simp
          obtain ⟨m₂, hloop, hm₂, hreap₂⟩ :=
            ih hm₁' (by simpa using hn) ((turns_mono hlen).trans hfuel)
          have hnext := (vrbNext_spec hm hfuel).1
          refine ⟨m₂, ?_, ?_, ?_, ?_, ?_⟩
          · simp [Heap.visitSafe, bind, Except.bind, hnext, hbody, hloop]
          · cases hq : q y <;> simpa [hq] using hm₂
          · exact fun k hk => (hreap₂.root k hk).trans (hreap₁.root k hk)
          · intro e he
            refine (hreap₂.entry e fun he' => he ?_).trans (hreap₁.entry e he)
            cases hq : q y <;> simp [hq] at he' ⊢ <;> tauto
          · intro e
            rw [hreap₂.live, hreap₁.live]
            simp only [List.mem_cons]
            tauto

/-- `VRB_FOREACH_SAFE` with such a body leaves the other elements in the tree. -/
theorem vrbForeachSafe_spec {q : E → Bool} (hm : Represents key m h xs)
    (hlen : xs.length < fuel) (hfuel : turns xs.length ≤ fuel) :
    ∃ m', m.vrbForeachSafe fuel h (removeIf fuel h q) = .ok m' ∧
      Represents key m' h (xs.filter fun e => !q e) ∧ Reaped h xs xs q m m' := by
  obtain ⟨hmin, -⟩ := vrbMinmax_spec hm hfuel
  obtain ⟨m', hloop, hm', hreap⟩ :=
    visitSafe_spec (show Represents key m h ([] ++ xs) from hm) hlen hfuel
  refine ⟨m', ?_, hm', hreap⟩
  simp [Heap.vrbForeachSafe, bind, Except.bind, hmin, hloop]

end VarnishModules.VtreeWalk
