import VarnishModules.XkeyTrees

/-!
The trees in memory do for `vmod_xkey.c` what ordered lists of heads do.

The two descriptions of the module have everything but the trees in common.  A
head has an entry in the memory of its tree as long as it is allocated, and the
nodes of a tree are the heads on the list of the other description.
-/

namespace VarnishModules.XkeyRefinement

open VarnishModules.CStrings
open VarnishModules.TailQueue
open VarnishModules.QueueDrain
open VarnishModules.ObjectPool
open VarnishModules.VtreeModel
open VarnishModules.VtreeMemory
open VarnishModules.VtreeWalk
open VarnishModules.VtreeSystem (Forest Refines refines_empty turns_le)
open VarnishModules.XkeyModel
open VarnishModules.XkeyRepresentation
open VarnishModules.XkeyInsert
open VarnishModules.XkeyRemove
open VarnishModules.XkeyIndex
open VarnishModules.XkeyTokens
open VarnishModules.XkeyPurge
open VarnishModules.XkeyCleanup
open VarnishModules.XkeyLifeCycle
open VarnishModules.XkeyTrees

/-- The module without its trees. -/
def bare (s : Xkey) : Xkey :=
  { s with hashtree := [], octree := [] }

/-- One tree of heads. -/
def heads (tree : List Nat) (live : Nat → Bool) : Forest Unit Nat where
  trees := fun _ => tree
  live := {x | live x = true}

structure Simulates (L : Linked) (s : Xkey) : Prop where
  rest : L.xkey = bare s
  hashtree : Refines s.digest L.hashtree (heads s.hashtree s.hashheads.queues.live)
  octree : Refines s.ptr L.octree (heads s.octree s.ocheads.queues.live)

section Heads

variable {κ : Type} [LinearOrder κ] {key : Nat → κ} {t : Heap Unit Nat} {p p' : Pool Unit Unit}
  {tree free loose : List Nat} {live live' : Nat → Bool} {x : Nat} {isNew : Bool}
  {onNull : Fault}

theorem setTree_heads (xs : List Nat) : (heads tree live).setTree () xs = heads xs live := by
  simp only [Forest.setTree, heads, Forest.mk.injEq, and_true]
  funext _
  simp

/-- The entry of a head outside the tree is written. -/
theorem refines_put (ht : Refines key t (heads tree live)) (hx : x ∉ tree)
    (hlive : ∀ y, live' y = true ↔ y = x ∨ live y = true) (n : Entry Nat) :
    Refines key (t.put x n) (heads tree live') where
  trees h := by
    refine (ht.trees h).congr rfl fun y hy => entry_put_of_ne ?_
    rintro rfl
    exact hx hy
  disjoint _ _ hne := absurd rfl hne
  live y := by
    change _ ↔ live' y = true
    rw [hlive y]
    by_cases hy : y = x
    · subst hy
      simp [entry_put_self]
    · rw [entry_put_of_ne hy, ht.live y]
      simp [hy, heads]

theorem refines_congr (ht : Refines key t (heads tree live)) (hlive : live' = live) :
    Refines key t (heads tree live') :=
  hlive ▸ ht

theorem isNew_iff (hnew : p.new poolAlive () () onNull = .ok (x, isNew, p')) :
    isNew = true ↔ ¬ 0 < p.count := by
  unfold Pool.new at hnew
  split at hnew
  · next hcount =>
      cases hfirst : p.queues.first () with
      | none => simp [hfirst] at hnew
      | some y =>
          cases hremove : p.queues.remove poolAlive () () y with
          | error e => simp [hfirst, hremove, bind, Except.bind] at hnew
          | ok q =>
              obtain ⟨-, rfl, -⟩ : y = x ∧ false = isNew ∧ _ = p' := by
                simpa [hfirst, hremove, bind, Except.bind, pure, Except.pure] using hnew
              simp [hcount]
  · next hcount =>
      obtain ⟨-, rfl, -⟩ : p.fresh = x ∧ true = isNew ∧ _ = p' := by
        simpa [pure, Except.pure] using hnew
      simp [hcount]

theorem refines_new (hp : HeadsOk p tree free loose)
    (ht : Refines key t (heads tree p.queues.live))
    (hnew : p.new poolAlive () () onNull = .ok (x, isNew, p')) :
    x ∉ tree ∧ Refines key (newNode p.count t x) (heads tree p'.queues.live) := by
  obtain ⟨x₁, isNew₁, p₁, free₁, hnew₁, hp₁, -, halive, hlive⟩ := hp.new onNull
  obtain ⟨rfl, rfl, rfl⟩ : x₁ = x ∧ isNew₁ = isNew ∧ p₁ = p' := by
    simpa using hnew₁.symm.trans hnew
  have hx : x₁ ∉ tree := hp₁.not_mem_tree_of_loose (by simp)
  refine ⟨hx, ?_⟩
  by_cases hcount : 0 < p.count
  · have hold : isNew₁ = false := by
      rw [Bool.eq_false_iff]
      exact fun hnew' => (isNew_iff hnew).mp hnew' hcount
    rw [newNode, if_pos hcount]
    refine refines_congr ht (funext fun y => Bool.eq_iff_iff.mpr ?_)
    rw [hlive y]
    constructor
    · rintro (rfl | hy)
      · exact halive hold
      · exact hy
    · exact Or.inr
  · rw [newNode, if_neg hcount]
    exact refines_put ht hx hlive zeroEntry

theorem refines_delete (hp : HeadsOk p tree free (x :: loose))
    (ht : Refines key t (heads tree p.queues.live))
    (hdelete : p.delete poolMax poolAlive () () x = .ok p') :
    ∃ t', deleteNode p.count t x = .ok t' ∧ Refines key t' (heads tree p'.queues.live) := by
  have hx : x ∉ tree := hp.not_mem_tree_of_loose (by simp)
  have hlive : p.queues.live x = true := hp.live_loose (by simp)
  have hxfree : x ∉ free := by
    obtain ⟨-, hnodup, -⟩ := List.nodup_append.mp hp.nodup
    exact fun hmem => (List.nodup_append.mp hnodup).2.2 x hmem x (by simp) rfl
  obtain ⟨p₁, free₁, hdelete₁, hholds, hr⟩ :=
    delete_spec hp.holds (show poolAlive () = true from rfl) hlive hxfree
  obtain rfl : p₁ = p' := by simpa using hdelete₁.symm.trans hdelete
  by_cases hcount : p.count < poolMax
  · have hfree₁ : x ∈ free₁ := by
      rcases hr.target with ⟨rfl, -⟩ | ⟨-, hlen, -⟩
      · exact List.mem_cons_self
      · exact absurd hlen (hp.holds.count ▸ hcount).ne
    obtain ⟨n, hn⟩ := Option.isSome_iff_exists.mp ((ht.live x).mpr hlive)
    refine ⟨t.put x zeroEntry, by simp [deleteNode, hcount, Heap.assign, hn],
      refines_put ht hx ?_ _⟩
    intro y
    rw [hr.live y]
    constructor
    · exact fun hy => Or.inr hy.1
    · rintro (rfl | hy)
      · exact ⟨hlive, fun _ => hfree₁⟩
      · exact ⟨hy, fun _ => hfree₁⟩
  · have hfree₁ : x ∉ free₁ := by
      rcases hr.target with ⟨rfl, -⟩ | ⟨rfl, -, -⟩
      · have hbound := hholds.bound
        rw [hp.holds.count] at hcount
        exact absurd hbound (by simpa using hcount)
      · exact hxfree
    obtain ⟨t', hfree, ht'⟩ := ht.free hlive fun _ => hx
    refine ⟨t', by simp [deleteNode, hcount, hfree], ?_⟩
    have hforest : heads tree p₁.queues.live =
        { heads tree p.queues.live with live := (heads tree p.queues.live).live \ {x} } := by
      simp only [heads, Forest.mk.injEq, true_and]
      ext y
      have hy : (y = x → x ∈ free₁) ↔ y ≠ x := by simp [hfree₁]
      simp [hr.live y, hy]
    rwa [hforest]

end Heads

theorem bind_ok {α β : Type} {x : Except Fault α} {f : α → Except Fault β} {b : β}
    (h : x >>= f = .ok b) : ∃ a, x = .ok a ∧ f a = .ok b := by
  cases x with
  | error e => cases h
  | ok a => exact ⟨a, rfl, h⟩

section Bare

variable {s s' : Xkey} {x : Nat}

/-! What does not look at the trees does the same without them. -/

theorem xkeyHashheadNew_bare (h : xkeyHashheadNew s = .ok (x, s')) :
    xkeyHashheadNew (bare s) = .ok (x, bare s') := by
  obtain ⟨⟨head, isNew, p⟩, hnew, h⟩ := bind_ok h
  refine (ok_bind hnew).trans ?_
  cases isNew <;> cases h <;> rfl

theorem xkeyHashheadDelete_bare (h : xkeyHashheadDelete s x = .ok s') :
    xkeyHashheadDelete (bare s) x = .ok (bare s') := by
  obtain ⟨_, htouch, h⟩ := bind_ok h
  obtain ⟨_, hcheck, h⟩ := bind_ok h
  obtain ⟨p, hdelete, h⟩ := bind_ok h
  refine (ok_bind htouch).trans ((ok_bind hcheck).trans ((ok_bind hdelete).trans ?_))
  cases h
  rfl

theorem xkeyOcheadNew_bare (h : xkeyOcheadNew s = .ok (x, s')) :
    xkeyOcheadNew (bare s) = .ok (x, bare s') := by
  obtain ⟨⟨head, isNew, p⟩, hnew, h⟩ := bind_ok h
  refine (ok_bind hnew).trans ?_
  cases isNew <;> cases h <;> rfl

theorem xkeyOcheadDelete_bare (h : xkeyOcheadDelete s x = .ok s') :
    xkeyOcheadDelete (bare s) x = .ok (bare s') := by
  obtain ⟨_, htouch, h⟩ := bind_ok h
  obtain ⟨_, hcheck, h⟩ := bind_ok h
  obtain ⟨p, hdelete, h⟩ := bind_ok h
  refine (ok_bind htouch).trans ((ok_bind hcheck).trans ((ok_bind hdelete).trans ?_))
  cases h
  rfl

theorem xkeyOcNew_bare (h : xkeyOcNew s = .ok (x, s')) :
    xkeyOcNew (bare s) = .ok (x, bare s') ∧ s'.hashtree = s.hashtree ∧ s'.octree = s.octree ∧
      s'.digest = s.digest ∧ s'.ptr = s.ptr ∧ s'.hashheads = s.hashheads ∧
      s'.ocheads = s.ocheads := by
  obtain ⟨⟨oc, isNew, p⟩, hnew, h⟩ := bind_ok h
  have hbare : xkeyOcNew (bare s) = _ := ok_bind hnew
  rw [hbare]
  cases isNew <;> cases h <;> exact ⟨rfl, rfl, rfl, rfl, rfl, rfl, rfl⟩

theorem xkeyOcDelete_bare (h : xkeyOcDelete s x = .ok s') :
    xkeyOcDelete (bare s) x = .ok (bare s') ∧ ∃ ocs, s' = { s with ocs } := by
  obtain ⟨_, htouch, h⟩ := bind_ok h
  obtain ⟨_, hcheck, h⟩ := bind_ok h
  obtain ⟨p, hdelete, h⟩ := bind_ok h
  have hbare : xkeyOcDelete (bare s) x = _ :=
    (ok_bind htouch).trans ((ok_bind hcheck).trans (ok_bind hdelete))
  rw [hbare]
  cases h
  exact ⟨rfl, p, rfl⟩

end Bare

variable {L : Linked} {s s' : Xkey} {g : Shape} {ix : Objcore → List Digest} {x : Nat}
  {free loose : List Nat}

/-- Only the digest of the new head changes. -/
theorem xkeyHashheadNew_inv (h : xkeyHashheadNew s = .ok (x, s')) :
    ∃ isNew, s.hashheads.new poolAlive () () .assertion = .ok (x, isNew, s'.hashheads) ∧
      s'.hashtree = s.hashtree ∧ s'.octree = s.octree ∧ s'.ocheads = s.ocheads ∧
      s'.ptr = s.ptr ∧ ∀ k, k ≠ x → s'.digest k = s.digest k := by
  obtain ⟨⟨head, isNew, p⟩, hnew, h⟩ := bind_ok h
  cases isNew with
  | false =>
      cases h
      exact ⟨false, hnew, rfl, rfl, rfl, rfl, fun _ _ => rfl⟩
  | true =>
      cases h
      exact ⟨true, hnew, rfl, rfl, rfl, rfl, fun k hk => by simp [Xkey.setOcQueues, hk]⟩

theorem xkeyOcheadNew_inv (h : xkeyOcheadNew s = .ok (x, s')) :
    ∃ isNew, s.ocheads.new poolAlive () () .nullDeref = .ok (x, isNew, s'.ocheads) ∧
      s'.octree = s.octree ∧ s'.hashtree = s.hashtree ∧ s'.hashheads = s.hashheads ∧
      s'.digest = s.digest ∧ ∀ k, k ≠ x → s'.ptr k = s.ptr k := by
  obtain ⟨⟨head, isNew, p⟩, hnew, h⟩ := bind_ok h
  cases isNew with
  | false =>
      cases h
      exact ⟨false, hnew, rfl, rfl, rfl, rfl, fun _ _ => rfl⟩
  | true =>
      cases h
      exact ⟨true, hnew, rfl, rfl, rfl, rfl, fun k hk => by simp [Xkey.setOcQueues, hk]⟩

theorem xkeyHashheadDelete_inv (h : xkeyHashheadDelete s x = .ok s') :
    ∃ digest hashheads, s.hashheads.delete poolMax poolAlive () () x = .ok hashheads ∧
      s' = { s with digest, hashheads } ∧ ∀ k, k ≠ x → digest k = s.digest k := by
  obtain ⟨-, -, h⟩ := bind_ok h
  obtain ⟨-, -, h⟩ := bind_ok h
  obtain ⟨p, hdelete, h⟩ := bind_ok h
  cases h
  refine ⟨_, p, hdelete, rfl, fun k hk => ?_⟩
  split <;> simp [hk]

theorem xkeyOcheadDelete_inv (h : xkeyOcheadDelete s x = .ok s') :
    ∃ ptr ocheads, s.ocheads.delete poolMax poolAlive () () x = .ok ocheads ∧
      s' = { s with ptr, ocheads } ∧ ∀ k, k ≠ x → ptr k = s.ptr k := by
  obtain ⟨-, -, h⟩ := bind_ok h
  obtain ⟨-, -, h⟩ := bind_ok h
  obtain ⟨p, hdelete, h⟩ := bind_ok h
  cases h
  refine ⟨_, p, hdelete, rfl, fun k hk => ?_⟩
  split <;> simp [hk]

theorem ne_of_mem {tree : List Nat} {k : Nat} (hx : x ∉ tree) (hk : k ∈ tree) : k ≠ x := by
  rintro rfl
  exact hx hk

/-- A tree is not larger than the number of heads ever allocated. -/
theorem length_le_fresh {p : Pool Unit Unit} {tree : List Nat} (hp : HeadsOk p tree free loose) :
    tree.length ≤ p.fresh :=
  hp.holds.length_le_of_live (List.nodup_append.mp hp.nodup).1 fun _ hx => hp.live_tree hx

theorem turns_le_fresh {tree : List Nat} {n : Nat} (hlen : tree.length ≤ n) :
    turns tree.length ≤ n + 3 :=
  (turns_le _).trans (by omega)

theorem xkeyHashcmp_compares (digest : HashheadPtr → Digest) (d : Digest) (tree : List Nat) :
    Compares digest d tree fun k => xkeyHashcmp d (digest k) :=
  fun k _ => Digest.memcmp_spec d (digest k)

theorem xkeyPtrcmp_compares (ptr : OcheadPtr → Nat) (n : Nat) (tree : List Nat) :
    Compares ptr n tree fun k => xkeyPtrcmp n (ptr k) := by
  intro k _
  simp only [xkeyPtrcmp]
  split_ifs <;> omega

namespace Simulates

theorem xkeyHashheadNew (h : Simulates L s)
    (hp : HeadsOk s.hashheads s.hashtree free loose)
    (hstep : XkeyModel.xkeyHashheadNew s = .ok (x, s')) :
    ∃ L', L.xkeyHashheadNew = .ok (x, L') ∧ Simulates L' s' := by
  obtain ⟨isNew, hnew, htree, hoctree, hocheads, hptr, hdigest⟩ := xkeyHashheadNew_inv hstep
  obtain ⟨hx, hrefines⟩ := refines_new hp h.hashtree hnew
  have hbare := xkeyHashheadNew_bare hstep
  rw [← h.rest] at hbare
  refine ⟨_, (ok_bind hbare).trans rfl, rfl, ?_, ?_⟩
  · have hcount : L.xkey.hashheads.count = s.hashheads.count := by rw [h.rest]; rfl
    rw [htree, hcount]
    exact hrefines.congr_key fun _ k hk => hdigest k (ne_of_mem hx hk)
  · rw [hoctree, hocheads, hptr]
    exact h.octree

theorem xkeyOcheadNew (h : Simulates L s)
    (hp : HeadsOk s.ocheads s.octree free loose)
    (hstep : XkeyModel.xkeyOcheadNew s = .ok (x, s')) :
    ∃ L', L.xkeyOcheadNew = .ok (x, L') ∧ Simulates L' s' := by
  obtain ⟨isNew, hnew, htree, hhashtree, hhashheads, hdigest, hptr⟩ := xkeyOcheadNew_inv hstep
  obtain ⟨hx, hrefines⟩ := refines_new hp h.octree hnew
  have hbare := xkeyOcheadNew_bare hstep
  rw [← h.rest] at hbare
  refine ⟨_, (ok_bind hbare).trans rfl, rfl, ?_, ?_⟩
  · rw [hhashtree, hhashheads, hdigest]
    exact h.hashtree
  · have hcount : L.xkey.ocheads.count = s.ocheads.count := by rw [h.rest]; rfl
    rw [htree, hcount]
    exact hrefines.congr_key fun _ k hk => hptr k (ne_of_mem hx hk)

theorem xkeyHashheadDelete (h : Simulates L s)
    (hp : HeadsOk s.hashheads s.hashtree free (x :: loose))
    (hstep : XkeyModel.xkeyHashheadDelete s x = .ok s') :
    ∃ L', L.xkeyHashheadDelete x = .ok L' ∧ Simulates L' s' := by
  obtain ⟨digest, hashheads, hdelete, rfl, hdigest⟩ := xkeyHashheadDelete_inv hstep
  have hx : x ∉ s.hashtree := hp.not_mem_tree_of_loose (by simp)
  obtain ⟨t', ht', hrefines⟩ := refines_delete hp h.hashtree hdelete
  have hbare := xkeyHashheadDelete_bare hstep
  rw [← h.rest] at hbare
  have hcount : L.xkey.hashheads.count = s.hashheads.count := by rw [h.rest]; rfl
  rw [← hcount] at ht'
  exact ⟨{ L with xkey := bare { s with digest, hashheads }, hashtree := t' },
    (ok_bind hbare).trans (ok_bind ht'), rfl,
    hrefines.congr_key fun _ k hk => hdigest k (ne_of_mem hx hk), h.octree⟩

theorem xkeyOcheadDelete (h : Simulates L s)
    (hp : HeadsOk s.ocheads s.octree free (x :: loose))
    (hstep : XkeyModel.xkeyOcheadDelete s x = .ok s') :
    ∃ L', L.xkeyOcheadDelete x = .ok L' ∧ Simulates L' s' := by
  obtain ⟨ptr, ocheads, hdelete, rfl, hptr⟩ := xkeyOcheadDelete_inv hstep
  have hx : x ∉ s.octree := hp.not_mem_tree_of_loose (by simp)
  obtain ⟨t', ht', hrefines⟩ := refines_delete hp h.octree hdelete
  have hbare := xkeyOcheadDelete_bare hstep
  rw [← h.rest] at hbare
  have hcount : L.xkey.ocheads.count = s.ocheads.count := by rw [h.rest]; rfl
  rw [← hcount] at ht'
  exact ⟨{ L with xkey := bare { s with ptr, ocheads }, octree := t' },
    (ok_bind hbare).trans (ok_bind ht'), rfl, h.hashtree,
    hrefines.congr_key fun _ k hk => hptr k (ne_of_mem hx hk)⟩

/-- What holds of everything but the trees and what their nodes are keyed by. -/
theorem frame (h : Simulates L s) (hhashtree : s'.hashtree = s.hashtree)
    (hoctree : s'.octree = s.octree) (hdigest : s'.digest = s.digest) (hptr : s'.ptr = s.ptr)
    (hhashheads : s'.hashheads = s.hashheads) (hocheads : s'.ocheads = s.ocheads) :
    Simulates { L with xkey := bare s' } s' where
  rest := rfl
  hashtree := by
    rw [hhashtree, hdigest, hhashheads]
    exact h.hashtree
  octree := by
    rw [hoctree, hptr, hocheads]
    exact h.octree

theorem xkeyHashtreeLookup (h : Simulates L s) (hlen : s.hashtree.length ≤ s.hashheads.fresh)
    (d : Digest) : L.xkeyHashtreeLookup d = XkeyModel.xkeyHashtreeLookup s d := by
  have hpkey : L.hashtree.vrbFind (s.hashheads.fresh + 3)
      (fun k head => xkeyHashcmp k (s.digest head)) () d =
        .ok (OrderedTree.find s.digest (id d) s.hashtree) :=
    vrbFind_spec (h.hashtree.trees ()) (xkeyHashcmp_compares _ _ _) (turns_le_fresh hlen)
  cases hfind : OrderedTree.find s.digest d s.hashtree <;>
    simp [Linked.xkeyHashtreeLookup, XkeyModel.xkeyHashtreeLookup, Linked.hashFuel, h.rest, bare,
      bind, Except.bind, hfind] at hpkey ⊢ <;> simp [hpkey]

theorem xkeyOctreeLookup (h : Simulates L s) (hlen : s.octree.length ≤ s.ocheads.fresh)
    (o : Objcore) : L.xkeyOctreeLookup o = XkeyModel.xkeyOctreeLookup s o := by
  have hpkey : L.octree.vrbFind (s.ocheads.fresh + 3)
      (fun k head => xkeyPtrcmp k (s.ptr head)) () (o : Nat) =
        .ok (OrderedTree.find s.ptr (id (o : Nat)) s.octree) :=
    vrbFind_spec (h.octree.trees ()) (xkeyPtrcmp_compares _ _ _) (turns_le_fresh hlen)
  cases hfind : OrderedTree.find s.ptr o s.octree <;>
    simp [Linked.xkeyOctreeLookup, XkeyModel.xkeyOctreeLookup, Linked.ocFuel, h.rest, bare,
      bind, Except.bind, hfind] at hpkey ⊢ <;> simp [hpkey]

/-- The tree takes the new head, or keeps the one with the same digest. -/
theorem insertHash (h : Simulates L s) (hp : HeadsOk s.hashheads s.hashtree free (x :: loose)) :
    ∃ t', L.hashtree.vrbInsert L.hashFuel
        (fun k1 k2 => xkeyHashcmp (s.digest k1) (s.digest k2)) () x =
          .ok ((OrderedTree.insert s.digest x s.hashtree).1, t') ∧
      Refines s.digest t'
        (heads (OrderedTree.insert s.digest x s.hashtree).2 s.hashheads.queues.live) := by
  have hfuel : L.hashFuel = s.hashheads.fresh + 3 := by rw [Linked.hashFuel, h.rest]; rfl
  obtain ⟨t', hinsert, ht'⟩ := h.hashtree.insert (h := ())
    (fun k1 k2 => xkeyHashcmp (s.digest k1) (s.digest k2)) (hp.live_loose (by simp))
    (fun k hk => absurd rfl hk) (xkeyHashcmp_compares s.digest (s.digest x) _)
    (hfuel ▸ turns_le_fresh (length_le_fresh hp))
  rw [setTree_heads] at ht'
  exact ⟨t', hinsert, ht'⟩

theorem insertOc (h : Simulates L s) (hp : HeadsOk s.ocheads s.octree free (x :: loose)) :
    ∃ t', L.octree.vrbInsert L.ocFuel
        (fun k1 k2 => xkeyPtrcmp (s.ptr k1) (s.ptr k2)) () x =
          .ok ((OrderedTree.insert s.ptr x s.octree).1, t') ∧
      Refines s.ptr t'
        (heads (OrderedTree.insert s.ptr x s.octree).2 s.ocheads.queues.live) := by
  have hfuel : L.ocFuel = s.ocheads.fresh + 3 := by rw [Linked.ocFuel, h.rest]; rfl
  obtain ⟨t', hinsert, ht'⟩ := h.octree.insert (h := ())
    (fun k1 k2 => xkeyPtrcmp (s.ptr k1) (s.ptr k2)) (hp.live_loose (by simp))
    (fun k hk => absurd rfl hk) (xkeyPtrcmp_compares s.ptr (s.ptr x) _)
    (hfuel ▸ turns_le_fresh (length_le_fresh hp))
  rw [setTree_heads] at ht'
  exact ⟨t', hinsert, ht'⟩

theorem xkeyHashtreeInsert (h : Simulates L s) (hs : Represents s g ix) {d : Digest}
    (hstep : XkeyModel.xkeyHashtreeInsert s d = .ok (x, s')) :
    ∃ L', L.xkeyHashtreeInsert d = .ok (x, L') ∧ Simulates L' s' := by
  obtain ⟨k, s₁, free, hnew, hs₁, -⟩ := xkeyHashheadNew_spec hs
  obtain ⟨⟨xkey₁, hashtree₁, octree₁⟩, hnewL, h₁⟩ := h.xkeyHashheadNew hs.hashheads hnew
  obtain rfl : xkey₁ = bare s₁ := h₁.rest
  have hk : k ∉ s₁.hashtree := hs₁.hashheads.not_mem_tree_of_loose (by simp)
  let s₂ : Xkey := { s₁ with digest := Function.update s₁.digest k d }
  have h₂ : Simulates ⟨bare s₂, hashtree₁, octree₁⟩ s₂ := by
    refine ⟨rfl, h₁.hashtree.congr_key fun _ k' hk' => ?_, h₁.octree⟩
    exact Function.update_of_ne (ne_of_mem hk hk') _ _
  obtain ⟨hashtree₂, hinsertL, htree₂⟩ := h₂.insertHash hs₁.hashheads
  rcases OrderedTree.insert_cases s₂.digest k s₂.hashtree with ⟨key, hinsert⟩ | hinsert
  · -- the digest is known
    rw [hinsert] at hinsertL htree₂
    simp only [s₂] at hinsert
    simp only [XkeyModel.xkeyHashtreeInsert, hnew, hinsert, bind, Except.bind] at hstep
    obtain ⟨s₃, hdelete, hstep⟩ := bind_ok hstep
    obtain ⟨_, htouch, hstep⟩ := bind_ok hstep
    obtain ⟨rfl, rfl⟩ : key = x ∧ s₃ = s' := by simpa [pure, Except.pure] using hstep
    have h₃ : Simulates ⟨bare s₂, hashtree₂, octree₁⟩ s₂ := ⟨rfl, htree₂, h₁.octree⟩
    obtain ⟨L₃, hdeleteL, h₃⟩ := h₃.xkeyHashheadDelete hs₁.hashheads hdelete
    have htouchL : L₃.xkey.hashheads.queues.touchElem key = .ok () := by
      rw [h₃.rest]
      exact htouch
    refine ⟨L₃, ?_, h₃⟩
    refine (ok_bind hnewL).trans ((ok_bind hinsertL).trans ?_)
    exact (ok_bind hdeleteL).trans (ok_bind htouchL)
  · rw [hinsert] at hinsertL htree₂
    simp only [s₂] at hinsert
    simp only [XkeyModel.xkeyHashtreeInsert, hnew, hinsert, bind, Except.bind] at hstep
    cases hstep
    exact ⟨⟨bare s₂, hashtree₂, octree₁⟩, (ok_bind hnewL).trans (ok_bind hinsertL), rfl, htree₂,
      h₁.octree⟩

theorem xkeyOctreeInsert (h : Simulates L s) (hs : Represents s g ix) {o : Objcore}
    (hstep : XkeyModel.xkeyOctreeInsert s o = .ok (x, s')) :
    ∃ L', L.xkeyOctreeInsert o = .ok (x, L') ∧ Simulates L' s' := by
  obtain ⟨k, s₁, free, hnew, hs₁, -⟩ := xkeyOcheadNew_spec hs
  obtain ⟨⟨xkey₁, hashtree₁, octree₁⟩, hnewL, h₁⟩ := h.xkeyOcheadNew hs.ocheads hnew
  obtain rfl : xkey₁ = bare s₁ := h₁.rest
  have hk : k ∉ s₁.octree := hs₁.ocheads.not_mem_tree_of_loose (by simp)
  let s₂ : Xkey := { s₁ with ptr := Function.update s₁.ptr k o }
  have h₂ : Simulates ⟨bare s₂, hashtree₁, octree₁⟩ s₂ := by
    refine ⟨rfl, h₁.hashtree, h₁.octree.congr_key fun _ k' hk' => ?_⟩
    exact Function.update_of_ne (ne_of_mem hk hk') _ _
  obtain ⟨octree₂, hinsertL, htree₂⟩ := h₂.insertOc hs₁.ocheads
  rcases OrderedTree.insert_cases s₂.ptr k s₂.octree with ⟨key, hinsert⟩ | hinsert
  · -- the objcore is known
    rw [hinsert] at hinsertL htree₂
    simp only [s₂] at hinsert
    simp only [XkeyModel.xkeyOctreeInsert, hnew, hinsert, bind, Except.bind] at hstep
    obtain ⟨s₃, hdelete, hstep⟩ := bind_ok hstep
    obtain ⟨_, htouch, hstep⟩ := bind_ok hstep
    obtain ⟨rfl, rfl⟩ : key = x ∧ s₃ = s' := by simpa [pure, Except.pure] using hstep
    have h₃ : Simulates ⟨bare s₂, hashtree₁, octree₂⟩ s₂ := ⟨rfl, h₁.hashtree, htree₂⟩
    obtain ⟨L₃, hdeleteL, h₃⟩ := h₃.xkeyOcheadDelete hs₁.ocheads hdelete
    have htouchL : L₃.xkey.ocheads.queues.touchElem key = .ok () := by
      rw [h₃.rest]
      exact htouch
    refine ⟨L₃, ?_, h₃⟩
    refine (ok_bind hnewL).trans ((ok_bind hinsertL).trans ?_)
    exact (ok_bind hdeleteL).trans (ok_bind htouchL)
  · rw [hinsert] at hinsertL htree₂
    simp only [s₂] at hinsert
    simp only [XkeyModel.xkeyOctreeInsert, hnew, hinsert, bind, Except.bind] at hstep
    cases hstep
    exact ⟨⟨bare s₂, hashtree₁, octree₂⟩, (ok_bind hnewL).trans (ok_bind hinsertL), rfl,
      h₁.hashtree, htree₂⟩

theorem xkeyInsert (h : Simulates L s) (hs : Represents s g ix) {o : Objcore} {d : Digest}
    (hstep : XkeyModel.xkeyInsert s o d = .ok s') :
    ∃ L', L.xkeyInsert o d = .ok L' ∧ Simulates L' s' := by
  obtain ⟨ochead, s₁, g₁, hstep₁, hs₁, -⟩ := xkeyOctreeInsert_spec hs o
  obtain ⟨hashhead, s₂, g₂, hstep₂, hs₂, -⟩ := xkeyHashtreeInsert_spec hs₁ d
  obtain ⟨oc, s₃, free, hstep₃, -⟩ := xkeyOcNew_spec hs₂
  obtain ⟨L₁, hL₁, h₁⟩ := h.xkeyOctreeInsert hs hstep₁
  obtain ⟨L₂, hL₂, h₂⟩ := h₁.xkeyHashtreeInsert hs₁ hstep₂
  obtain ⟨hL₃, hhashtree, hoctree, hdigest, hptr, hhashheads, hocheads⟩ := xkeyOcNew_bare hstep₃
  rw [← h₂.rest] at hL₃
  simp only [XkeyModel.xkeyInsert, hstep₁, hstep₂, hstep₃, bind, Except.bind] at hstep
  obtain ⟨q₁, hq₁, hstep⟩ := bind_ok hstep
  obtain ⟨q₂, hq₂, hstep⟩ := bind_ok hstep
  cases hstep
  refine ⟨_, ?_, h₂.frame hhashtree hoctree hdigest hptr hhashheads hocheads⟩
  refine (ok_bind hL₁).trans ((ok_bind hL₂).trans ((ok_bind hL₃).trans ?_))
  exact (ok_bind hq₁).trans (ok_bind hq₂)

theorem removeHash (h : Simulates L s) (hp : HeadsOk s.hashheads s.hashtree free loose)
    (hx : x ∈ s.hashtree) :
    ∃ t', L.hashtree.vrbRemove L.hashFuel () x = .ok (x, t') ∧
      Refines s.digest t' (heads (s.hashtree.erase x) s.hashheads.queues.live) := by
  have hfuel : L.hashFuel = s.hashheads.fresh + 3 := by rw [Linked.hashFuel, h.rest]; rfl
  obtain ⟨t', hremove, ht'⟩ :=
    h.hashtree.remove (h := ()) hx (hfuel ▸ turns_le_fresh (length_le_fresh hp))
  rw [setTree_heads] at ht'
  exact ⟨t', hremove, ht'⟩

theorem removeOc (h : Simulates L s) (hp : HeadsOk s.ocheads s.octree free loose)
    (hx : x ∈ s.octree) :
    ∃ t', L.octree.vrbRemove L.ocFuel () x = .ok (x, t') ∧
      Refines s.ptr t' (heads (s.octree.erase x) s.ocheads.queues.live) := by
  have hfuel : L.ocFuel = s.ocheads.fresh + 3 := by rw [Linked.ocFuel, h.rest]; rfl
  obtain ⟨t', hremove, ht'⟩ :=
    h.octree.remove (h := ()) hx (hfuel ▸ turns_le_fresh (length_le_fresh hp))
  rw [setTree_heads] at ht'
  exact ⟨t', hremove, ht'⟩

theorem xkeyRemoveHashhead (h : Simulates L s)
    (hp : HeadsOk s.hashheads s.hashtree free loose) (hx : x ∈ s.hashtree)
    (hstep : XkeyModel.xkeyRemoveHashhead x s = .ok s') :
    ∃ L', Linked.xkeyRemoveHashhead x L = .ok L' ∧ Simulates L' s' := by
  obtain ⟨_, htouch, hstep⟩ := bind_ok hstep
  have htouchL : Queues.touchHead L.xkey.alive (.hashhead x) = .ok () := by
    rw [h.rest]
    exact htouch
  have hqueues : L.xkey.ocs.queues = s.ocs.queues := by rw [h.rest]; rfl
  by_cases hempty : (s.ocs.queues.first (.hashhead x)).isNone
  · rw [if_pos hempty] at hstep
    obtain ⟨t', hremove, ht'⟩ := h.removeHash hp hx
    have h₁ : Simulates { L with hashtree := t' }
        { s with hashtree := s.hashtree.erase x } := ⟨h.rest, ht', h.octree⟩
    obtain ⟨L', hdelete, h'⟩ := h₁.xkeyHashheadDelete (hp.detach hx) hstep
    refine ⟨L', (ok_bind htouchL).trans ?_, h'⟩
    rw [hqueues, if_pos hempty]
    exact (ok_bind hremove).trans hdelete
  · rw [if_neg hempty] at hstep
    cases hstep
    refine ⟨L, (ok_bind htouchL).trans ?_, h⟩
    rw [hqueues, if_neg hempty]
    rfl

theorem xkeyRemoveOc (h : Simulates L s) (hs : Represents s g ix) {ochead oc : Nat}
    (hoc : oc ∈ g.ochead ochead) (hstep : XkeyModel.xkeyRemoveOc ochead oc s = .ok s') :
    ∃ L', Linked.xkeyRemoveOc ochead oc L = .ok L' ∧ Simulates L' s' := by
  obtain ⟨k, -, hk, hpk, -, -⟩ := hs.ochead_link ochead oc hoc
  have htree := hs.mem_hashtree hpk
  obtain ⟨xkey, hashtree, octree⟩ := L
  obtain rfl : xkey = bare s := h.rest
  obtain ⟨_, htouch, hstep⟩ := bind_ok hstep
  simp only [hk] at hstep
  obtain ⟨q₁, hq₁, hstep⟩ := bind_ok hstep
  obtain ⟨s₁, hs₁, hstep⟩ := bind_ok hstep
  obtain ⟨q₂, hq₂, hstep⟩ := bind_ok hstep
  let s₀ : Xkey := { s with
    hashhead := Function.update s.hashhead oc none, ocs := { s.ocs with queues := q₁ } }
  have h₀ : Simulates ⟨bare s₀, hashtree, octree⟩ s₀ := ⟨rfl, h.hashtree, h.octree⟩
  obtain ⟨L₁, hL₁, h₁⟩ := h₀.xkeyRemoveHashhead hs.hashheads htree hs₁
  obtain ⟨xkey₁, hashtree₁, octree₁⟩ := L₁
  obtain rfl : xkey₁ = bare s₁ := h₁.rest
  obtain ⟨hdelete, ocs, rfl⟩ := xkeyOcDelete_bare hstep
  refine ⟨⟨bare _, hashtree₁, octree₁⟩, ?_, rfl, h₁.hashtree, h₁.octree⟩
  refine (ok_bind htouch).trans ?_
  have hk' : (bare s).hashhead oc = some k := hk
  simp only [hk']
  refine (ok_bind hq₁).trans ((ok_bind hL₁).trans ((ok_bind hq₂).trans ?_))
  exact ok_bind hdelete

theorem xkeyRemoveLoop {ochead n : Nat} {ps : List OcPtr} {o : Objcore} (h : Simulates L s)
    (hs : Represents s g ix) (hps : g.ochead ochead = ps) (hptr : s.ptr ochead = (o : Nat))
    (hne : ∀ k ∈ s.hashtree, g.hashhead k ≠ [])
    (hstep : XkeyModel.xkeyRemoveLoop ochead n ps.head? s = .ok s') :
    ∃ L', Linked.xkeyRemoveLoop ochead n ps.head? L = .ok L' ∧ Simulates L' s' := by
  induction ps generalizing L s g ix n with
  | nil =>
      obtain rfl : s = s' := by cases n <;> exact Except.ok.inj hstep
      exact ⟨L, by cases n <;> rfl, h⟩
  | cons p ps ih =>
      cases n with
      | zero => cases hstep
      | succ n =>
          have hp : p ∈ g.ochead ochead := by simp [hps]
          have hq := hs.ochead_queue ochead (hs.ocheads.live_tree (hs.mem_octree hp))
          rw [hps] at hq
          obtain ⟨_, htouch, hstep⟩ := bind_ok hstep
          obtain ⟨s₁, hs₁, hstep⟩ := bind_ok hstep
          obtain ⟨L₁, hL₁, h₁⟩ := h.xkeyRemoveOc hs hp hs₁
          obtain ⟨s₁', g₁, hs₁', hrep, hochead, -, -, -, -, hptr₁, hne₁⟩ :=
            xkeyRemoveOc_spec hs hps hptr hne
          obtain rfl : s₁ = s₁' := Except.ok.inj (hs₁.symm.trans hs₁')
          rw [hq.next_eq] at hstep
          obtain ⟨L₂, hL₂, h₂⟩ := ih h₁ hrep (by simp [hochead]) (by rw [hptr₁, hptr]) hne₁ hstep
          refine ⟨L₂, ?_, h₂⟩
          have hqueues : L.xkey.ocs.queues = s.ocs.queues := by rw [h.rest]; rfl
          rw [List.head?_cons, Linked.xkeyRemoveLoop, hqueues, hq.next_eq]
          exact (ok_bind htouch).trans ((ok_bind hL₁).trans hL₂)

theorem xkeyRemove {ochead : Nat} {o : Objcore} (h : Simulates L s) (hs : Represents s g ix)
    (hset : Settled s g) (hochead : ochead ∈ s.octree) (hptr : s.ptr ochead = (o : Nat))
    (hstep : XkeyModel.xkeyRemove s ochead = .ok s') :
    ∃ L', L.xkeyRemove ochead = .ok L' ∧ Simulates L' s' := by
  have hq := hs.ochead_queue ochead (hs.ocheads.live_tree hochead)
  obtain ⟨_, htouch, hstep⟩ := bind_ok hstep
  obtain ⟨s₁, hs₁, hstep⟩ := bind_ok hstep
  obtain ⟨_, hcheck, hstep⟩ := bind_ok hstep
  rw [hq.first_eq] at hs₁
  obtain ⟨L₁, hL₁, h₁⟩ := h.xkeyRemoveLoop hs rfl hptr hset.hashhead_nonempty hs₁
  obtain ⟨s₁', g₁, hs₁', hrep, -, -, -, -, hoctree, -⟩ :=
    xkeyRemoveLoop_spec (hs.ocs.length_le_fresh hq) hs hochead rfl hptr hset.hashhead_nonempty
  obtain rfl : s₁ = s₁' := Except.ok.inj (hs₁.symm.trans hs₁')
  have hmem : ochead ∈ s₁.octree := by rwa [hoctree]
  obtain ⟨t', hremove, ht'⟩ := h₁.removeOc hrep.ocheads hmem
  have h₂ : Simulates { L₁ with octree := t' } { s₁ with octree := s₁.octree.erase ochead } :=
    ⟨h₁.rest, h₁.hashtree, ht'⟩
  obtain ⟨L', hdelete, h'⟩ := h₂.xkeyOcheadDelete (hrep.ocheads.detach hmem) hstep
  refine ⟨L', ?_, h'⟩
  have htouchL : L.xkey.ocheads.queues.touchElem ochead = .ok () := by
    rw [h.rest]
    exact htouch
  have hfirst : L.xkey.ocs.queues.first (.ochead ochead) = (g.ochead ochead).head? := by
    rw [h.rest]
    exact hq.first_eq
  have hfresh : L.xkey.ocs.fresh = s.ocs.fresh := by rw [h.rest]; rfl
  have hcheckL : check (L₁.xkey.ocs.queues.first (.ochead ochead)).isNone = .ok () := by
    rw [h₁.rest]
    exact hcheck
  refine (ok_bind htouchL).trans ?_
  rw [hfirst, hfresh]
  exact (ok_bind hL₁).trans ((ok_bind hcheckL).trans ((ok_bind hremove).trans hdelete))

theorem xkeyCbRemove {o : Objcore} (h : Simulates L s) (hs : Represents s g ix)
    (hset : Settled s g) (hstep : XkeyModel.xkeyCbRemove s o = .ok s') :
    ∃ L', L.xkeyCbRemove o = .ok L' ∧ Simulates L' s' := by
  have hlookup := h.xkeyOctreeLookup (length_le_fresh hs.ocheads) o
  obtain ⟨pkey, hfound, hstep⟩ := bind_ok hstep
  rw [hfound] at hlookup
  cases pkey with
  | none =>
      obtain rfl : s = s' := Except.ok.inj hstep
      exact ⟨L, ok_bind hlookup, h⟩
  | some ochead =>
      have hfind : OrderedTree.find s.ptr o s.octree = some ochead := by
        unfold XkeyModel.xkeyOctreeLookup at hfound
        cases hfind : OrderedTree.find s.ptr o s.octree with
        | none => simp [hfind, pure, Except.pure] at hfound
        | some head =>
            simp only [hfind] at hfound
            obtain ⟨_, -, hfound⟩ := bind_ok hfound
            exact Except.ok.inj hfound
      obtain ⟨hmem, hptr⟩ := (OrderedTree.find_eq_some_iff hs.octree).mp hfind
      obtain ⟨L', hL', h'⟩ := h.xkeyRemove hs hset hmem hptr hstep
      exact ⟨L', (ok_bind hlookup).trans hL', h'⟩

theorem call (h : Simulates L s) (hs : Represents s g ix) (hset : Settled s g) (c : Call)
    (hstep : c.run s = .ok s') : ∃ L', L.call c = .ok L' ∧ Simulates L' s' := by
  cases c with
  | insert o d => exact h.xkeyInsert hs hstep
  | cbRemove o => exact h.xkeyCbRemove hs hset hstep

end Simulates

section Purge

variable {sha256 : CString → Digest} {rearm : Rearm} {doSoft : Int} {now : ℚ}

def barePurge (st : Purge) : Purge :=
  { st with xkey := bare st.xkey }

theorem purgeOc_bare (st : Purge) (o : Objcore) :
    purgeOc rearm doSoft now (barePurge st) o = barePurge (purgeOc rearm doSoft now st o) := by
  by_cases hbusy : (st.objects o).busy
  · simp [purgeOc, barePurge, hbusy]
  · by_cases hdead : doSoft ≠ 0 ∧ (st.objects o).exp.ttl ≤ now - (st.objects o).exp.tOrigin
    · simp [purgeOc, barePurge, hbusy, hdead]
    · simp only [purgeOc, barePurge, hbusy, hdead, if_false]
      rfl

theorem purgeLoop_bare (n : Nat) (p : Option OcPtr) (st : Purge) :
    purgeLoop rearm doSoft now n p (barePurge st) =
      (purgeLoop rearm doSoft now n p st).map barePurge := by
  induction n generalizing p st with
  | zero => cases p <;> rfl
  | succ n ih =>
      cases p with
      | none => rfl
      | some p =>
          cases htouch : st.xkey.ocs.queues.touchElem p with
          | error e => simp [purgeLoop, barePurge, bare, htouch, bind, Except.bind, Except.map]
          | ok _ =>
              cases hobjcore : st.xkey.objcore p with
              | none =>
                  simp [purgeLoop, barePurge, bare, htouch, hobjcore, bind, Except.bind,
                    Except.map]
              | some o =>
                  have hrec := ih ((purgeOc rearm doSoft now st o).xkey.ocs.queues.next
                    .listHashhead p) (purgeOc rearm doSoft now st o)
                  rw [← purgeOc_bare] at hrec
                  simpa [purgeLoop, barePurge, bare, htouch, hobjcore, bind, Except.bind] using hrec

theorem purgeLoop_xkey {n : Nat} {p : Option OcPtr} {st st' : Purge}
    (h : purgeLoop rearm doSoft now n p st = .ok st') : st'.xkey = st.xkey := by
  induction n generalizing p st with
  | zero =>
      cases p with
      | none => rw [← Except.ok.inj h]
      | some p => cases h
  | succ n ih =>
      cases p with
      | none => rw [← Except.ok.inj h]
      | some p =>
          obtain ⟨_, -, h⟩ := bind_ok h
          cases hobjcore : st.xkey.objcore p with
          | none => simp [hobjcore] at h
          | some o =>
              simp only [hobjcore] at h
              exact (ih h).trans (purgeOc_xkey rearm doSoft now st o)

theorem purgeKey_bare (h : Simulates L s) (hlen : s.hashtree.length ≤ s.hashheads.fresh)
    (key : CString) {st : Purge} (hst : st.xkey = s) :
    L.purgeKey sha256 rearm doSoft now (barePurge st) key =
      (purgeKey sha256 rearm doSoft now st key).map barePurge := by
  subst hst
  have hlookup := h.xkeyHashtreeLookup hlen (sha256 key)
  cases hfind : xkeyHashtreeLookup st.xkey (sha256 key) with
  | error e => simp [Linked.purgeKey, purgeKey, hlookup, hfind, bind, Except.bind, Except.map]
  | ok pkey =>
      cases pkey with
      | none =>
          simp [Linked.purgeKey, purgeKey, hlookup, hfind, bind, Except.bind, pure, Except.pure,
            Except.map]
      | some k =>
          simp only [Linked.purgeKey, purgeKey, hlookup, hfind, bind, Except.bind, h.rest]
          exact purgeLoop_bare _ _ st

theorem purgeKey_xkey {key : CString} {st st' : Purge}
    (h : purgeKey sha256 rearm doSoft now st key = .ok st') : st'.xkey = st.xkey := by
  obtain ⟨pkey, -, h⟩ := bind_ok h
  cases pkey with
  | none => rw [← Except.ok.inj h]
  | some k => exact purgeLoop_xkey h

theorem foldlM_purgeKey_bare (h : Simulates L s) (hlen : s.hashtree.length ≤ s.hashheads.fresh)
    (keys : List CString) {st : Purge} (hst : st.xkey = s) :
    keys.foldlM (L.purgeKey sha256 rearm doSoft now) (barePurge st) =
      (keys.foldlM (purgeKey sha256 rearm doSoft now) st).map barePurge := by
  induction keys generalizing st with
  | nil => rfl
  | cons key keys ih =>
      simp only [List.foldlM_cons, purgeKey_bare h hlen key hst]
      cases hkey : purgeKey sha256 rearm doSoft now st key with
      | error e => rfl
      | ok st₁ => exact ih ((purgeKey_xkey hkey).trans hst)

/-- A purge finds the same objects. -/
theorem purge_bare (h : Simulates L s) (hlen : s.hashtree.length ≤ s.hashheads.fresh)
    (objects : Objcore → ObjcoreData) (key : Option CString) :
    L.purge sha256 rearm doSoft now objects key =
      (purge sha256 rearm doSoft now (.start s objects) key).map barePurge := by
  have hstart : Purge.start L.xkey objects = barePurge (.start s objects) := by
    rw [h.rest]
    rfl
  cases key with
  | none => simp [Linked.purge, purge, hstart, Except.map]
  | some key =>
      cases key with
      | nil => simp [Linked.purge, purge, hstart, Except.map]
      | cons c key =>
          simp only [Linked.purge, purge, hstart]
          exact foldlM_purgeKey_bare h hlen _ rfl

theorem purge_xkey {st : Purge} {objects : Objcore → ObjcoreData} {key : Option CString}
    (h : purge sha256 rearm doSoft now (.start s objects) key = .ok st) : st.xkey = s := by
  have hkeys : ∀ (keys : List CString) (st₀ : Purge), st₀.xkey = s →
      keys.foldlM (purgeKey sha256 rearm doSoft now) st₀ = .ok st → st.xkey = s := by
    intro keys
    induction keys with
    | nil =>
        intro st₀ hst₀ h
        rw [← Except.ok.inj h, hst₀]
    | cons key keys ih =>
        intro st₀ hst₀ h
        obtain ⟨st₁, hkey, h⟩ := bind_ok h
        exact ih st₁ ((purgeKey_xkey hkey).trans hst₀) h
  rw [purge_eq_foldlM] at h
  exact hkeys _ _ rfl h

end Purge

end VarnishModules.XkeyRefinement
