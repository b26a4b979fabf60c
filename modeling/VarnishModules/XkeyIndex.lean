import VarnishModules.XkeyRemove

/-!
Runs of `xkey_insert` and `xkey_cb_remove`.

No run faults, and in every state one is left in the two indexes agree: each
link is once on the list of its objcore and once on the list of its key.
-/

namespace VarnishModules.XkeyIndex

open VarnishModules.TailQueue
open VarnishModules.ObjectPool
open VarnishModules.XkeyModel
open VarnishModules.XkeyRepresentation
open VarnishModules.XkeyInsert
open VarnishModules.XkeyRemove

inductive Call
  | insert (objcore : Objcore) (digest : Digest)
  | cbRemove (objcore : Objcore)
  deriving DecidableEq

def Call.run (s : Xkey) : Call → Except Fault Xkey
  | .insert o d => xkeyInsert s o d
  | .cbRemove o => xkeyCbRemove s o

/-- The digests of the inserts of each objcore since its last removal. -/
def Call.index (ix : Objcore → List Digest) : Call → Objcore → List Digest
  | .insert o d => Function.update ix o (ix o ++ [d])
  | .cbRemove o => Function.update ix o []

def run (calls : List Call) (s : Xkey) : Except Fault Xkey :=
  calls.foldlM Call.run s

def index (calls : List Call) (ix : Objcore → List Digest) : Objcore → List Digest :=
  calls.foldl Call.index ix

theorem call_spec {s : Xkey} {g : Shape} {ix : Objcore → List Digest}
    (hs : Represents s g ix) (hset : Settled s g) (c : Call) :
    ∃ s' g', c.run s = .ok s' ∧ Represents s' g' (c.index ix) ∧ Settled s' g' ∧
      g'.looseOcs = g.looseOcs := by
  cases c with
  | insert o d => exact xkeyInsert_spec hs hset o d
  | cbRemove o => exact xkeyCbRemove_spec hs hset o

theorem run_spec (calls : List Call) {s : Xkey} {g : Shape} {ix : Objcore → List Digest}
    (hs : Represents s g ix) (hset : Settled s g) :
    ∃ s' g', run calls s = .ok s' ∧ Represents s' g' (index calls ix) ∧ Settled s' g' ∧
      g'.looseOcs = g.looseOcs := by
  induction calls generalizing s g ix with
  | nil => exact ⟨s, g, rfl, hs, hset, rfl⟩
  | cons c calls ih =>
      obtain ⟨s₁, g₁, hstep, hs₁, hset₁, hloose₁⟩ := call_spec hs hset c
      obtain ⟨s₂, g₂, hrun, hs₂, hset₂, hloose₂⟩ := ih hs₁ hset₁
      exact ⟨s₂, g₂, (ok_bind hstep).trans hrun, hs₂, hset₂, hloose₂.trans hloose₁⟩

theorem settled_initial : Settled Xkey.initial Shape.initial :=
  ⟨rfl, rfl, by simp [Xkey.initial], by simp [Xkey.initial]⟩

/-- The number of inserts of the pair since the last removal of the objcore. -/
def insertsSince (calls : List Call) (o : Objcore) (d : Digest) : Nat :=
  (calls.reverse.takeWhile (· ≠ Call.cbRemove o)).count (.insert o d)

theorem count_index (calls : List Call) (o : Objcore) (d : Digest) :
    (index calls (fun _ => []) o).count d = insertsSince calls o d := by
  induction calls using List.reverseRecOn with
  | nil => rfl
  | append_singleton calls c ih =>
      have hindex : index (calls ++ [c]) (fun _ => []) = c.index (index calls fun _ => []) := by
        simp [index]
      rw [hindex]
      simp only [insertsSince, List.reverse_append, List.reverse_singleton, List.singleton_append,
        List.takeWhile_cons]
      cases c with
      | insert o' d' =>
          by_cases ho : o = o'
          · subst ho
            simp only [Call.index, Function.update_self, List.count_append, ih]
            simp [insertsSince, List.count_cons]
          · have hne : (Call.insert o' d' == Call.insert o d) = false := by
              simp [Ne.symm ho]
            simp [Call.index, ho, ih, insertsSince, List.count_cons, hne]
      | cbRemove o' =>
          by_cases ho : o = o'
          · subst ho
            simp [Call.index]
          · simp [Call.index, ho, ih, insertsSince, Ne.symm ho]

/-- What `VTAILQ_FOREACH` visits on a list of `xkey_oc`. -/
def foreachOcs (s : Xkey) (f : OcLink) (c : OcsHead) : Except Fault (List OcPtr) :=
  s.ocs.queues.walk f s.ocs.fresh (s.ocs.queues.first c)

/-- What `VTAILQ_FOREACH` visits on a pool of heads. -/
def foreachPool (p : Pool Unit Unit) : Except Fault (List Nat) :=
  p.queues.walk () p.fresh (p.queues.first ())

/-- The five families of lists of a state. -/
structure Lists where
  ochead : OcheadPtr → List OcPtr
  hashhead : HashheadPtr → List OcPtr
  freeHashheads : List HashheadPtr
  freeOcheads : List OcheadPtr
  freeOcs : List OcPtr

/-- `l` is what a reader of the memory finds. -/
structure Lists.Read (l : Lists) (s : Xkey) : Prop where
  ochead : ∀ h ∈ s.octree, foreachOcs s .listOchead (.ochead h) = .ok (l.ochead h)
  hashhead : ∀ k ∈ s.hashtree, foreachOcs s .listHashhead (.hashhead k) = .ok (l.hashhead k)
  freeHashheads : foreachPool s.hashheads = .ok l.freeHashheads
  freeOcheads : foreachPool s.ocheads = .ok l.freeOcheads
  freeOcs : foreachOcs s .listHashhead .pool = .ok l.freeOcs

/-- The number of links between an objcore and a digest. -/
def Lists.links (l : Lists) (s : Xkey) (o : Objcore) (d : Digest) : Nat :=
  (s.octree.flatMap l.ochead).countP fun p =>
    s.objcore p = some o ∧ (s.hashhead p).map s.digest = some d

/-- The two indexes hold the same links, each once. -/
structure TwoWay (s : Xkey) (l : Lists) : Prop where
  oc_ochead : ∀ p, s.ocs.queues.live p = true → p ∉ l.freeOcs →
    ∃ h ∈ s.octree, (l.ochead h).count p = 1 ∧
      (∀ h' ∈ s.octree, p ∈ l.ochead h' → h' = h) ∧
      ∃ o : Objcore, s.objcore p = some o ∧ s.ptr h = (o : Nat)
  oc_hashhead : ∀ p, s.ocs.queues.live p = true → p ∉ l.freeOcs →
    ∃ k ∈ s.hashtree, (l.hashhead k).count p = 1 ∧
      (∀ k' ∈ s.hashtree, p ∈ l.hashhead k' → k' = k) ∧ s.hashhead p = some k
  ochead_oc : ∀ h ∈ s.octree, ∀ p ∈ l.ochead h,
    s.ocs.queues.live p = true ∧ p ∉ l.freeOcs
  hashhead_oc : ∀ k ∈ s.hashtree, ∀ p ∈ l.hashhead k,
    s.ocs.queues.live p = true ∧ p ∉ l.freeOcs
  octree_head : ∀ h ∈ s.octree, s.ocheads.queues.live h = true ∧ h ∉ l.freeOcheads
  hashtree_head : ∀ k ∈ s.hashtree, s.hashheads.queues.live k = true ∧ k ∉ l.freeHashheads
  ochead_nonempty : ∀ h ∈ s.octree, l.ochead h ≠ []
  hashhead_nonempty : ∀ k ∈ s.hashtree, l.hashhead k ≠ []
  octree_keys : (s.octree.map s.ptr).Nodup
  hashtree_keys : (s.hashtree.map s.digest).Nodup

section

variable {s : Xkey} {g : Shape} {ix : Objcore → List Digest}

def listsOf (g : Shape) : Lists where
  ochead := g.ochead
  hashhead := g.hashhead
  freeHashheads := g.freeHashheads
  freeOcheads := g.freeOcheads
  freeOcs := g.freeOcs

theorem read_listsOf (hs : Represents s g ix) : (listsOf g).Read s where
  ochead h hh := by
    have hq := hs.ochead_queue h (hs.ocheads.live_tree hh)
    exact hq.walk_eq (hs.ocs.length_le_fresh hq)
  hashhead k hk := by
    have hq := hs.hashhead_queue k (hs.hashheads.live_tree hk)
    exact hq.walk_eq (hs.ocs.length_le_fresh hq)
  freeHashheads :=
    hs.hashheads.holds.queue.walk_eq (hs.hashheads.holds.length_le_fresh hs.hashheads.holds.queue)
  freeOcheads :=
    hs.ocheads.holds.queue.walk_eq (hs.ocheads.holds.length_le_fresh hs.ocheads.holds.queue)
  freeOcs := hs.ocs.queue.walk_eq (hs.ocs.length_le_fresh hs.ocs.queue)

theorem twoWay_listsOf (hs : Represents s g ix) (hset : Settled s g) (hloose : g.looseOcs = []) :
    TwoWay s (listsOf g) := by
  have hlinked : ∀ p, s.ocs.queues.live p = true → p ∉ g.freeOcs → ∃ h, p ∈ g.ochead h := by
    intro p hp hfree
    exact ((hs.live p).mp hp).resolve_left (by simp [hloose, hfree])
  refine ⟨?_, ?_, ?_, ?_, ?_, ?_, hset.ochead_nonempty, hset.hashhead_nonempty, ?_, ?_⟩
  · intro p hp hfree
    obtain ⟨h, hh⟩ := hlinked p hp hfree
    have hmem := hs.mem_octree hh
    obtain ⟨-, o, -, -, ho, hptr⟩ := hs.ochead_link h p hh
    refine ⟨h, hmem, ?_, fun h' _ hh' => hs.ochead_unique hh' hh, o, ho, hptr⟩
    exact List.count_eq_one_of_mem (hs.ochead_queue h (hs.ocheads.live_tree hmem)).nodup hh
  · intro p hp hfree
    obtain ⟨h, hh⟩ := hlinked p hp hfree
    obtain ⟨k, -, hk, hpk, -, -⟩ := hs.ochead_link h p hh
    have hmem := hs.mem_hashtree hpk
    refine ⟨k, hmem, ?_, fun k' _ hk' => hs.hashhead_unique hk' hpk, hk⟩
    exact List.count_eq_one_of_mem (hs.hashhead_queue k (hs.hashheads.live_tree hmem)).nodup hpk
  · intro h hh p hp
    exact ⟨(hs.ochead_queue h (hs.ocheads.live_tree hh)).live hp,
      fun hfree => hs.unlinked p (by simp [show p ∈ g.freeOcs from hfree]) h hp⟩
  · intro k hk p hp
    exact ⟨(hs.hashhead_queue k (hs.hashheads.live_tree hk)).live hp,
      fun hfree => hs.free_not_hashhead hp (by simp [show p ∈ g.freeOcs from hfree])⟩
  · intro h hh
    refine ⟨hs.ocheads.live_tree hh, fun hfree => ?_⟩
    have hmem : h ∈ g.freeOcheads ++ g.looseOcheads := List.mem_append_left _ hfree
    exact (List.nodup_append.mp hs.ocheads.nodup).2.2 h hh h hmem rfl
  · intro k hk
    refine ⟨hs.hashheads.live_tree hk, fun hfree => ?_⟩
    have hmem : k ∈ g.freeHashheads ++ g.looseHashheads := List.mem_append_left _ hfree
    exact (List.nodup_append.mp hs.hashheads.nodup).2.2 k hk k hmem rfl
  · exact List.pairwise_map.mpr (hs.octree.imp ne_of_lt)
  · exact List.pairwise_map.mpr (hs.hashtree.imp ne_of_lt)

theorem nodup_ocs (hs : Represents s g ix) : (s.octree.flatMap g.ochead).Nodup := by
  refine List.nodup_flatMap.mpr ⟨fun h hh => ?_, ?_⟩
  · exact (hs.ochead_queue h (hs.ocheads.live_tree hh)).nodup
  · refine hs.octree.nodup.imp fun {h h'} hne => ?_
    exact fun p hp hp' => hne (hs.ochead_unique hp hp')

theorem links_listsOf (hs : Represents s g ix) (o : Objcore) (d : Digest) :
    (listsOf g).links s o d = (ix o).count d := by
  let test : OcPtr → Bool := fun p =>
    s.objcore p = some o ∧ (s.hashhead p).map s.digest = some d
  have hother : ∀ h, s.ptr h ≠ (o : Nat) → (g.ochead h).countP test = 0 := by
    intro h hptr
    rw [List.countP_eq_zero]
    intro p hp htest
    obtain ⟨-, o', -, -, ho', hptr'⟩ := hs.ochead_link h p hp
    obtain ⟨ho, -⟩ : s.objcore p = some o ∧ _ := by simpa [test] using htest
    obtain rfl : o' = o := by simpa [ho'] using ho
    exact hptr hptr'
  have hall : ∀ hs' : List OcheadPtr, (∀ h ∈ hs', s.ptr h ≠ (o : Nat)) →
      (hs'.flatMap g.ochead).countP test = 0 := by
    intro hs' hne
    simp only [List.countP_flatMap, List.sum_eq_zero_iff, List.mem_map, Function.comp_apply]
    rintro n ⟨h, hh, rfl⟩
    exact hother h (hne h hh)
  change (s.octree.flatMap g.ochead).countP test = _
  by_cases hfound : ∃ h ∈ s.octree, s.ptr h = (o : Nat)
  · obtain ⟨h, hh, hptr⟩ := hfound
    obtain ⟨as, bs, hsplit⟩ := List.append_of_mem hh
    have hnodup : (as ++ h :: bs).Nodup := hsplit ▸ hs.octree.nodup
    have hhas : h ∉ as ++ bs := (List.nodup_cons.mp (List.perm_middle.nodup_iff.mp hnodup)).1
    have hne : ∀ h' ∈ as ++ bs, s.ptr h' ≠ (o : Nat) := by
      intro h' hh' hptr'
      have hmem : h' ∈ s.octree := by
        rw [hsplit]
        simp only [List.mem_append, List.mem_cons] at hh' ⊢
        tauto
      exact hhas (hs.octree.key_injOn hmem hh (hptr'.trans hptr.symm) ▸ hh')
    have hcount : (g.ochead h).countP test = (ix o).count d := by
      calc (g.ochead h).countP test
          = (g.ochead h).countP (fun p => keyOf s p = some d) := by
            refine List.countP_congr fun p hp => ?_
            simp [test, hs.objcore_of_mem hp hptr, keyOf]
        _ = ((g.ochead h).map (keyOf s)).count (some d) := by
            simp [List.count, List.countP_map, Function.comp_def, beq_eq_decide]
        _ = (ix o).count d := by
            rw [hs.map_keyOf hh hptr, List.count_map_of_injective _ _ (Option.some_injective _)]
    rw [hsplit, List.flatMap_append, List.flatMap_cons, List.countP_append, List.countP_append,
      hall as fun h' hh' => hne h' (by simp [hh']), hall bs fun h' hh' => hne h' (by simp [hh']),
      hcount]
    simp
  · have hne : ∀ h ∈ s.octree, s.ptr h ≠ (o : Nat) := fun h hh hptr => hfound ⟨h, hh, hptr⟩
    rw [hall _ hne, hs.index_absent o hne]
    rfl

end

theorem run_twoWay (calls : List Call) :
    ∃ s l, run calls Xkey.initial = .ok s ∧ Lists.Read l s ∧ TwoWay s l ∧
      ∀ o d, l.links s o d = insertsSince calls o d := by
  obtain ⟨s, g, hrun, hs, hset, hloose⟩ := run_spec calls represents_initial settled_initial
  refine ⟨s, listsOf g, hrun, read_listsOf hs, twoWay_listsOf hs hset hloose, ?_⟩
  intro o d
  rw [links_listsOf hs, count_index]

end VarnishModules.XkeyIndex
