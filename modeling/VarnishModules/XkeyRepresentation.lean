import VarnishModules.XkeyModel

/-!
What the memory of the two indexes holds.

A `Shape` names the contents of every list; `Represents` says that the links in
memory realise the shape, that every object is on exactly the lists it should be
on, and that the links of an objcore spell out the digests `ix` gives for it.
The relation is kept by the small functions on heads, so the proofs about insert
and remove only look at the lists of `xkey_oc`.
-/

namespace VarnishModules.XkeyRepresentation

open VarnishModules.TailQueue
open VarnishModules.ObjectPool
open VarnishModules.XkeyModel

/-- The contents of the lists.  Loose objects are allocated and on no list: the
running function holds them, or nobody does. -/
structure Shape where
  ochead : OcheadPtr → List OcPtr
  hashhead : HashheadPtr → List OcPtr
  freeHashheads : List HashheadPtr
  looseHashheads : List HashheadPtr
  freeOcheads : List OcheadPtr
  looseOcheads : List OcheadPtr
  freeOcs : List OcPtr
  looseOcs : List OcPtr

def Shape.initial : Shape where
  ochead := fun _ => []
  hashhead := fun _ => []
  freeHashheads := []
  looseHashheads := []
  freeOcheads := []
  looseOcheads := []
  freeOcs := []
  looseOcs := []

/-- Heads of one kind: every one that is allocated is in the tree, in the pool
or loose, and in only one of these. -/
structure HeadsOk (p : Pool Unit Unit) (tree free loose : List Nat) : Prop where
  holds : Holds poolMax p () () free
  nodup : (tree ++ (free ++ loose)).Nodup
  live : ∀ h, p.queues.live h = true ↔ h ∈ tree ++ (free ++ loose)

/-- The digest under which a link is filed. -/
def keyOf (s : Xkey) (p : OcPtr) : Option Digest :=
  (s.hashhead p).map s.digest

structure Represents (s : Xkey) (g : Shape) (ix : Objcore → List Digest) : Prop where
  hashheads : HeadsOk s.hashheads s.hashtree g.freeHashheads g.looseHashheads
  ocheads : HeadsOk s.ocheads s.octree g.freeOcheads g.looseOcheads
  hashtree : OrderedTree.IsTree s.digest s.hashtree
  octree : OrderedTree.IsTree s.ptr s.octree
  ocs : Holds poolMax s.ocs .listHashhead .pool g.freeOcs
  hashhead_queue : ∀ k, s.hashheads.queues.live k = true →
    IsQueue s.ocs.queues .listHashhead (.hashhead k) (g.hashhead k)
  ochead_queue : ∀ h, s.ocheads.queues.live h = true →
    IsQueue s.ocs.queues .listOchead (.ochead h) (g.ochead h)
  hashhead_outside : ∀ k, k ∉ s.hashtree → g.hashhead k = []
  ochead_outside : ∀ h, h ∉ s.octree → g.ochead h = []
  ochead_link : ∀ h, ∀ p ∈ g.ochead h, ∃ k o, s.hashhead p = some k ∧
    p ∈ g.hashhead k ∧ s.objcore p = some o ∧ s.ptr h = (o : Nat)
  hashhead_link : ∀ k, ∀ p ∈ g.hashhead k, s.hashhead p = some k ∧ ∃ h, p ∈ g.ochead h
  unlinked_nodup : (g.freeOcs ++ g.looseOcs).Nodup
  unlinked : ∀ p ∈ g.freeOcs ++ g.looseOcs, ∀ h, p ∉ g.ochead h
  live : ∀ p, s.ocs.queues.live p = true ↔
    p ∈ g.freeOcs ++ g.looseOcs ∨ ∃ h, p ∈ g.ochead h
  free_cleared : ∀ p ∈ g.freeOcs, s.objcore p = none ∧ s.hashhead p = none
  free_prev : ∀ p ∈ g.freeOcs, ∃ h,
    s.ocs.queues.prev .listOchead p = some (.first (.ochead h))
  index : ∀ h ∈ s.octree, ∃ o : Objcore, s.ptr h = (o : Nat) ∧
    (g.ochead h).map (keyOf s) = (ix o).map some
  index_absent : ∀ o : Objcore, (∀ h ∈ s.octree, s.ptr h ≠ (o : Nat)) → ix o = []

theorem represents_initial : Represents Xkey.initial Shape.initial fun _ => [] where
  hashheads := ⟨holds_empty, List.nodup_nil, by
    simp [Xkey.initial, Pool.empty, Queues.empty, Shape.initial]⟩
  ocheads := ⟨holds_empty, List.nodup_nil, by
    simp [Xkey.initial, Pool.empty, Queues.empty, Shape.initial]⟩
  hashtree := OrderedTree.isTree_nil
  octree := OrderedTree.isTree_nil
  ocs := holds_empty
  hashhead_queue := by simp [Xkey.initial, Pool.empty, Queues.empty]
  ochead_queue := by simp [Xkey.initial, Pool.empty, Queues.empty]
  hashhead_outside := by simp [Shape.initial]
  ochead_outside := by simp [Shape.initial]
  ochead_link := by simp [Shape.initial]
  hashhead_link := by simp [Shape.initial]
  unlinked_nodup := List.nodup_nil
  unlinked := by simp [Shape.initial]
  live := by simp [Xkey.initial, Pool.empty, Queues.empty, Shape.initial]
  free_cleared := by simp [Shape.initial]
  free_prev := by simp [Shape.initial]
  index := by simp [Xkey.initial]
  index_absent := by simp

namespace HeadsOk

variable {p : Pool Unit Unit} {tree tree' free loose : List Nat} {x : Nat}

theorem live_tree (hp : HeadsOk p tree free loose) (hx : x ∈ tree) :
    p.queues.live x = true :=
  (hp.live x).mpr (by simp [hx])

theorem live_loose (hp : HeadsOk p tree free loose) (hx : x ∈ loose) :
    p.queues.live x = true :=
  (hp.live x).mpr (by simp [hx])

theorem not_mem_tree_of_loose (hp : HeadsOk p tree free loose) (hx : x ∈ loose) :
    x ∉ tree := by
  obtain ⟨-, -, hdisj⟩ := List.nodup_append.mp hp.nodup
  exact fun htree => hdisj x htree x (by simp [hx]) rfl

theorem new (hp : HeadsOk p tree free loose) (onNull : Fault) :
    ∃ x isNew p' free', p.new poolAlive () () onNull = .ok (x, isNew, p') ∧
      HeadsOk p' tree free' (x :: loose) ∧
      (isNew = true → p.queues.live x = false) ∧
      (isNew = false → p.queues.live x = true) ∧
      (∀ y, p'.queues.live y = true ↔ y = x ∨ p.queues.live y = true) := by
  obtain ⟨x, isNew, p', free', hstep, hholds, ht⟩ :=
    new_spec hp.holds (show poolAlive () = true from rfl) onNull
  rcases ht.source with ⟨rfl, rfl⟩ | ⟨rfl, rfl, rfl, hdead⟩
  · have hperm : (tree ++ (x :: free' ++ loose)).Perm (tree ++ (free' ++ x :: loose)) :=
      List.Perm.append_left tree List.perm_middle.symm
    have hx : p.queues.live x = true := (hp.live x).mpr (by simp)
    refine ⟨x, false, p', free', hstep, ⟨hholds, hperm.nodup_iff.mp hp.nodup, ?_⟩,
      by simp, fun _ => hx, ht.live⟩
    intro y
    rw [ht.live, hp.live, hperm.mem_iff]
    simp only [List.mem_append, List.mem_cons]
    tauto
  · have hx : x ∉ tree ++ ([] ++ loose) := by
      rw [← hp.live]
      simp [hdead]
    have hperm : (x :: (tree ++ loose)).Perm (tree ++ ([] ++ x :: loose)) :=
      List.perm_middle.symm
    refine ⟨x, true, p', [], hstep, ⟨hholds, ?_, ?_⟩, fun _ => hdead, by simp, ht.live⟩
    · exact hperm.nodup_iff.mp (List.nodup_cons.mpr ⟨hx, hp.nodup⟩)
    · intro y
      rw [ht.live, hp.live, ← hperm.mem_iff]
      simp

theorem delete (hp : HeadsOk p tree free (x :: loose)) :
    ∃ p' free', p.delete poolMax poolAlive () () x = .ok p' ∧
      HeadsOk p' tree free' loose ∧
      (∀ y, p'.queues.live y = true → p.queues.live y = true) := by
  have hperm : (tree ++ (free ++ x :: loose)).Perm (x :: (tree ++ (free ++ loose))) := by
    rw [← List.append_assoc, ← List.append_assoc]
    exact List.perm_middle
  obtain ⟨hx, hnodup⟩ := List.nodup_cons.mp (hperm.nodup_iff.mp hp.nodup)
  have hxfree : x ∉ free := fun hmem => hx (by simp [hmem])
  obtain ⟨p', free', hstep, hholds, hr⟩ := delete_spec hp.holds
    (show poolAlive () = true from rfl) (hp.live_loose (by simp)) hxfree
  refine ⟨p', free', hstep, ?_, fun y hy => ((hr.live y).mp hy).1⟩
  rcases hr.target with ⟨rfl, -⟩ | ⟨rfl, -, -⟩
  · have hperm' : (x :: (tree ++ (free ++ loose))).Perm (tree ++ (x :: free ++ loose)) :=
      List.perm_middle.symm
    refine ⟨hholds, hperm'.nodup_iff.mp (List.nodup_cons.mpr ⟨hx, hnodup⟩), ?_⟩
    intro y
    rw [hr.live, hp.live, hperm.mem_iff, hperm'.mem_iff]
    simp
  · refine ⟨hholds, hnodup, ?_⟩
    intro y
    have hfree : x ∉ free' := fun hmem => hx (by simp [hmem])
    rw [hr.live, hp.live, hperm.mem_iff]
    constructor
    · rintro ⟨hy, hyx⟩
      rcases List.mem_cons.mp hy with rfl | hy
      · exact absurd (hyx rfl) hfree
      · exact hy
    · intro hy
      exact ⟨List.mem_cons_of_mem _ hy, fun heq => absurd (heq ▸ hy) hx⟩

theorem attach (hp : HeadsOk p tree free (x :: loose)) (htree : tree'.Perm (x :: tree)) :
    HeadsOk p tree' free loose := by
  have hperm : (tree ++ (free ++ x :: loose)).Perm (tree' ++ (free ++ loose)) := by
    refine List.Perm.trans ?_ (htree.symm.append_right _)
    rw [← List.append_assoc, List.cons_append, ← List.append_assoc]
    exact List.perm_middle
  refine ⟨hp.holds, hperm.nodup_iff.mp hp.nodup, ?_⟩
  intro y
  rw [hp.live, hperm.mem_iff]

theorem detach (hp : HeadsOk p tree free loose) (hx : x ∈ tree) :
    HeadsOk p (tree.erase x) free (x :: loose) := by
  have hperm : (tree ++ (free ++ loose)).Perm (tree.erase x ++ (free ++ x :: loose)) := by
    refine ((List.perm_cons_erase hx).append_right _).trans ?_
    rw [List.cons_append, ← List.append_assoc, ← List.append_assoc]
    exact List.perm_middle.symm
  refine ⟨hp.holds, hperm.nodup_iff.mp hp.nodup, ?_⟩
  intro y
  rw [hp.live, hperm.mem_iff]

end HeadsOk

namespace Represents

variable {s : Xkey} {g : Shape} {ix : Objcore → List Digest}

theorem mem_octree (hs : Represents s g ix) {h : OcheadPtr} {p : OcPtr}
    (hp : p ∈ g.ochead h) : h ∈ s.octree := by
  by_contra hh
  rw [hs.ochead_outside h hh] at hp
  simp at hp

theorem mem_hashtree (hs : Represents s g ix) {k : HashheadPtr} {p : OcPtr}
    (hp : p ∈ g.hashhead k) : k ∈ s.hashtree := by
  by_contra hk
  rw [hs.hashhead_outside k hk] at hp
  simp at hp

theorem ochead_unique (hs : Represents s g ix) {h h' : OcheadPtr} {p : OcPtr}
    (hp : p ∈ g.ochead h) (hp' : p ∈ g.ochead h') : h = h' := by
  obtain ⟨-, o, -, -, ho, hptr⟩ := hs.ochead_link h p hp
  obtain ⟨-, o', -, -, ho', hptr'⟩ := hs.ochead_link h' p hp'
  obtain rfl : o = o' := by simpa [ho] using ho'
  exact hs.octree.key_injOn (hs.mem_octree hp) (hs.mem_octree hp') (hptr.trans hptr'.symm)

theorem hashhead_unique (hs : Represents s g ix) {k k' : HashheadPtr} {p : OcPtr}
    (hp : p ∈ g.hashhead k) (hp' : p ∈ g.hashhead k') : k = k' := by
  have hk := (hs.hashhead_link k p hp).1
  have hk' := (hs.hashhead_link k' p hp').1
  simpa [hk] using hk'

theorem free_not_hashhead (hs : Represents s g ix) {k : HashheadPtr} {p : OcPtr}
    (hp : p ∈ g.hashhead k) : p ∉ g.freeOcs ++ g.looseOcs := by
  obtain ⟨-, h, hh⟩ := hs.hashhead_link k p hp
  exact fun hfree => hs.unlinked p hfree h hh

/-- The list of an ochead spells out the digests of its objcore. -/
theorem map_keyOf (hs : Represents s g ix) {h : OcheadPtr} {o : Objcore} (hh : h ∈ s.octree)
    (hptr : s.ptr h = (o : Nat)) : (g.ochead h).map (keyOf s) = (ix o).map some := by
  obtain ⟨o', ho', hmap⟩ := hs.index h hh
  obtain rfl : o' = o := PNat.coe_injective (ho'.symm.trans hptr)
  exact hmap

theorem objcore_of_mem (hs : Represents s g ix) {h : OcheadPtr} {o : Objcore} {p : OcPtr}
    (hp : p ∈ g.ochead h) (hptr : s.ptr h = (o : Nat)) : s.objcore p = some o := by
  obtain ⟨-, o', -, -, ho', hptr'⟩ := hs.ochead_link h p hp
  obtain rfl : o' = o := PNat.coe_injective (hptr'.symm.trans hptr)
  exact ho'

/-! The small changes to heads that are not in their tree. -/

theorem setPtr (hs : Represents s g ix) {h : OcheadPtr} (hh : h ∉ s.octree) (v : Nat) :
    Represents { s with ptr := Function.update s.ptr h v } g ix := by
  have hptr : ∀ h' ∈ s.octree, Function.update s.ptr h v h' = s.ptr h' := by
    intro h' hh'
    have hne : h' ≠ h := fun heq => hh (heq ▸ hh')
    simp [hne]
  refine { hs with
    octree := hs.octree.congr hptr, ochead_link := ?_, index := ?_, index_absent := ?_ }
  · intro h' p hp
    obtain ⟨k, o, hk, hpk, ho, hptr'⟩ := hs.ochead_link h' p hp
    exact ⟨k, o, hk, hpk, ho, (hptr h' (hs.mem_octree hp)).trans hptr'⟩
  · intro h' hh'
    obtain ⟨o, ho, hmap⟩ := hs.index h' hh'
    exact ⟨o, (hptr h' hh').trans ho, hmap⟩
  · intro o ho
    exact hs.index_absent o fun h' hh' => hptr h' hh' ▸ ho h' hh'

theorem congrDigest (hs : Represents s g ix) {digest : HashheadPtr → Digest}
    (hdigest : ∀ k ∈ s.hashtree, digest k = s.digest k) :
    Represents { s with digest } g ix := by
  refine { hs with hashtree := hs.hashtree.congr hdigest, index := ?_ }
  intro h hh
  obtain ⟨o, ho, hmap⟩ := hs.index h hh
  refine ⟨o, ho, Eq.trans (List.map_congr_left ?_) hmap⟩
  intro p hp
  obtain ⟨k, -, hk, hpk, -, -⟩ := hs.ochead_link h p hp
  simp [keyOf, hk, hdigest k (hs.mem_hashtree hpk)]

theorem setDigest (hs : Represents s g ix) {k : HashheadPtr} (hk : k ∉ s.hashtree)
    (d : Digest) : Represents { s with digest := Function.update s.digest k d } g ix := by
  refine hs.congrDigest fun k' hk' => ?_
  have hne : k' ≠ k := fun heq => hk (heq ▸ hk')
  simp [hne]

theorem initOcs (hs : Represents s g ix) {c : OcsHead} (hc : c ≠ .pool)
    (hochead : ∀ h, c = .ochead h → g.ochead h = [])
    (hhashhead : ∀ k, c = .hashhead k → g.hashhead k = []) :
    Represents (s.setOcQueues (s.ocs.queues.init c)) g ix := by
  have hlive : (s.ocs.queues.init c).live = s.ocs.queues.live := by simp [Queues.init]
  have hprev : (s.ocs.queues.init c).prev = s.ocs.queues.prev := by simp [Queues.init]
  have hqueue : ∀ f c' xs, c' ≠ c → IsQueue s.ocs.queues f c' xs →
      IsQueue (s.ocs.queues.init c) f c' xs := fun f c' xs hne hq =>
    hq.frame (agreeOff_init s.ocs.queues f c) hne (Or.inr (by simp))
  refine { hs with
    ocs := ⟨hqueue _ _ _ hc.symm hs.ocs.queue, hs.ocs.count, hs.ocs.bound, ?_⟩
    hashhead_queue := ?_, ochead_queue := ?_, live := ?_, free_prev := ?_ }
  · intro x hx
    exact hs.ocs.fresh x (hlive ▸ hx)
  · intro k hk
    by_cases hkc : .hashhead k = c
    · subst hkc
      rw [hhashhead k rfl]
      exact isQueue_init _ _ _
    · exact hqueue _ _ _ hkc (hs.hashhead_queue k hk)
  · intro h hh
    by_cases hhc : .ochead h = c
    · subst hhc
      rw [hochead h rfl]
      exact isQueue_init _ _ _
    · exact hqueue _ _ _ hhc (hs.ochead_queue h hh)
  · intro p
    rw [← hs.live p]
    exact iff_of_eq (congrArg (· p = true) hlive)
  · intro p hp
    obtain ⟨h, hh⟩ := hs.free_prev p hp
    exact ⟨h, (congrFun (congrFun hprev _) p).trans hh⟩

theorem setOcheads (hs : Represents s g ix) {p : Pool Unit Unit} {free loose : List Nat}
    (hp : HeadsOk p s.octree free loose)
    (hqueue : ∀ h, p.queues.live h = true →
      IsQueue s.ocs.queues .listOchead (.ochead h) (g.ochead h)) :
    Represents { s with ocheads := p }
      { g with freeOcheads := free, looseOcheads := loose } ix :=
  { hs with ocheads := hp, ochead_queue := hqueue }

theorem setHashheads (hs : Represents s g ix) {p : Pool Unit Unit} {free loose : List Nat}
    (hp : HeadsOk p s.hashtree free loose)
    (hqueue : ∀ k, p.queues.live k = true →
      IsQueue s.ocs.queues .listHashhead (.hashhead k) (g.hashhead k)) :
    Represents { s with hashheads := p }
      { g with freeHashheads := free, looseHashheads := loose } ix :=
  { hs with hashheads := hp, hashhead_queue := hqueue }

/-! Another list for the ochead of an objcore. -/

section

variable {h : OcheadPtr} {o : Objcore} {ps : List OcPtr} {ds : List Digest}

theorem index_update (hs : Represents s g ix) (hh : h ∈ s.octree) (hptr : s.ptr h = (o : Nat))
    {key : OcPtr → Option Digest} (hself : ps.map key = ds.map some)
    (hother : ∀ h', h' ≠ h → ∀ q ∈ g.ochead h', key q = keyOf s q) :
    ∀ h' ∈ s.octree, ∃ o' : Objcore, s.ptr h' = (o' : Nat) ∧
      (Function.update g.ochead h ps h').map key = (Function.update ix o ds o').map some := by
  intro h' hh'
  obtain ⟨o', ho', hmap⟩ := hs.index h' hh'
  refine ⟨o', ho', ?_⟩
  by_cases hhh : h' = h
  · subst hhh
    obtain rfl : o' = o := PNat.coe_injective (ho'.symm.trans hptr)
    rw [Function.update_self, Function.update_self]
    exact hself
  · have hne : o' ≠ o := by
      rintro rfl
      exact hhh (hs.octree.key_injOn hh' hh (ho'.trans hptr.symm))
    rw [Function.update_of_ne hhh, Function.update_of_ne hne, ← hmap]
    exact List.map_congr_left (hother h' hhh)

theorem index_absent_update (hs : Represents s g ix) (hh : h ∈ s.octree)
    (hptr : s.ptr h = (o : Nat)) :
    ∀ o' : Objcore, (∀ h' ∈ s.octree, s.ptr h' ≠ (o' : Nat)) →
      Function.update ix o ds o' = [] := by
  intro o' ho'
  have hne : o' ≠ o := by
    rintro rfl
    exact ho' h hh hptr
  rw [Function.update_of_ne hne]
  exact hs.index_absent o' ho'

end

end Represents

end VarnishModules.XkeyRepresentation
