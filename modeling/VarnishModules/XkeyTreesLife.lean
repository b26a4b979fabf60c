import VarnishModules.XkeyRefinement

/-!
The module with its trees in memory, from load to discard and over again.

A cleanup that leaves a counter above zero leaves a module in which no insert
works any more.  The two descriptions agree on such runs as well: where the
lists of heads fault, so do the trees, and in the same way.
-/

namespace VarnishModules.XkeyTreesLife

open VarnishModules.CStrings
open VarnishModules.TailQueue
open VarnishModules.QueueDrain
open VarnishModules.ObjectPool
open VarnishModules.VtreeModel
open VarnishModules.VtreeMemory
open VarnishModules.VtreeInsert
open VarnishModules.VtreeWalk
open VarnishModules.VtreeSystem (Forest Refines refines_empty)
open VarnishModules.XkeyModel
open VarnishModules.XkeyRepresentation
open VarnishModules.XkeyInsert
open VarnishModules.XkeyIndex
open VarnishModules.XkeyPurge
open VarnishModules.XkeyCleanup
open VarnishModules.XkeyLifeCycle
open VarnishModules.XkeyTrees
open VarnishModules.XkeyRefinement

/-- The second computation faults as the first one does, or its result is related
to that of the first one. -/
def Follows {α β : Type} (R : α → β → Prop) : Except Fault α → Except Fault β → Prop
  | .ok x, b => ∃ y, b = .ok y ∧ R x y
  | .error e, b => b = .error e

section Follows

variable {α β γ δ ι : Type} {R : α → β → Prop} {S : γ → δ → Prop} {a : Except Fault α}
  {b : Except Fault β} {f : α → Except Fault γ} {f' : β → Except Fault δ}

theorem follows_ok {x : α} {y : β} (h : R x y) : Follows R (.ok x) (.ok y) :=
  ⟨y, rfl, h⟩

theorem Follows.bind (h : Follows R a b)
    (hf : ∀ x y, a = .ok x → R x y → Follows S (f x) (f' y)) :
    Follows S (a >>= f) (b >>= f') := by
  cases a with
  | error e =>
      rw [show b = .error e from h]
      rfl
  | ok x =>
      obtain ⟨y, rfl, hxy⟩ := h
      exact hf x y rfl hxy

theorem follows_refl (a : Except Fault α) : Follows Eq a a := by
  cases a with
  | error e => rfl
  | ok x => exact ⟨x, rfl, rfl⟩

theorem follows_foldlM {f : α → ι → Except Fault α} {f' : β → ι → Except Fault β} {xs : List ι}
    {x : α} {y : β} (hf : ∀ i x y, R x y → Follows R (f x i) (f' y i)) (h : R x y) :
    Follows R (xs.foldlM f x) (xs.foldlM f' y) := by
  induction xs generalizing x y with
  | nil => exact follows_ok h
  | cons i xs ih =>
      rw [List.foldlM_cons, List.foldlM_cons]
      exact (hf i x y h).bind fun _ _ _ h' => ih h'

end Follows

section Cleanup

variable {H F E : Type} [DecidableEq H] [DecidableEq F] [DecidableEq E]
  {m m' : Queues H F E} {alive : H → Bool} {f : F} {h : H} {x : E}

theorem store_live {c : Option (Slot H F E)} {v : Option E} (hm : m.store alive c v = .ok m') :
    m'.live = m.live := by
  cases c with
  | none => cases hm
  | some c =>
      obtain ⟨_, -, hm⟩ := bind_ok hm
      rw [← Except.ok.inj hm, Queues.live_write]

theorem remove_live (hm : m.remove alive f h x = .ok m') : m'.live = m.live := by
  unfold Queues.remove at hm
  obtain ⟨_, -, hm⟩ := bind_ok hm
  cases hnext : m.next f x with
  | none =>
      simp only [hnext] at hm
      obtain ⟨_, -, hm⟩ := bind_ok hm
      exact (store_live hm).trans (Queues.live_setLast _ _ _)
  | some y =>
      simp only [hnext] at hm
      obtain ⟨_, -, hm⟩ := bind_ok hm
      exact (store_live hm).trans (Queues.live_setPrev _ _ _ _)

theorem insertHead_live (hm : m.insertHead alive f h x = .ok m') : m'.live = m.live := by
  unfold Queues.insertHead at hm
  obtain ⟨_, -, hm⟩ := bind_ok hm
  obtain ⟨_, -, hm⟩ := bind_ok hm
  cases hnext : (m.write (.next f x) (m.first h)).next f x with
  | none =>
      simp only [hnext] at hm
      rw [← Except.ok.inj hm]
      simp
  | some y =>
      simp only [hnext] at hm
      obtain ⟨_, -, hm⟩ := bind_ok hm
      rw [← Except.ok.inj hm]
      simp

variable {κ : Type} [LinearOrder κ] {key : Nat → κ} {t : Heap Unit Nat} {n : Nat}
  {q : Queues Unit Unit Nat} {L : Linked} {s s' : Xkey} {head : Nat}

/-- Outside the trees a head is freed with its node. -/
theorem drainHeads_follows (ht : Refines key t (heads [] q.live)) :
    Follows (fun q' r => r.1 = q' ∧ Refines key r.2 (heads [] q'.live))
      (drain poolAlive () () n q) (Linked.drainHeads n q t) := by
  induction n generalizing q t with
  | zero =>
      by_cases hfirst : (q.first ()).isNone
      · simp only [drain, Linked.drainHeads, hfirst, if_true]
        exact follows_ok ⟨rfl, ht⟩
      · simp only [drain, Linked.drainHeads, hfirst]
        rfl
  | succ n ih =>
      cases hfirst : q.first () with
      | none =>
          simp only [drain, Linked.drainHeads, hfirst]
          exact follows_ok ⟨rfl, ht⟩
      | some x =>
          simp only [drain, Linked.drainHeads, hfirst]
          refine (follows_refl _).bind fun q₁ _ hq₁ heq => ?_
          subst heq
          refine (follows_refl _).bind fun q₂ _ hq₂ heq => ?_
          subst heq
          obtain ⟨_, htouch, hq₂⟩ := bind_ok hq₂
          have hlive : q₁.live x = true := by
            by_contra hdead
            simp [Queues.touchElem, hdead] at htouch
          have ht₁ : Refines key t (heads [] q₁.live) := refines_congr ht (remove_live hq₁)
          obtain ⟨t', hfree, ht'⟩ := ht₁.free hlive fun _ => List.not_mem_nil
          rw [ok_bind hfree]
          refine ih ?_
          have hforest : heads [] q₂.live =
              { heads [] q₁.live with live := (heads [] q₁.live).live \ {x} } := by
            simp only [heads, Forest.mk.injEq, true_and, ← Except.ok.inj hq₂]
            ext y
            by_cases hy : y = x <;> simp [hy]
          rwa [hforest]

theorem xkeyCleanupHashhead_bare : xkeyCleanupHashhead (bare s) head =
    (xkeyCleanupHashhead s head).map bare := by
  cases htouch : s.hashheads.queues.touchElem head with
  | error e => simp [xkeyCleanupHashhead, bare, htouch, bind, Except.bind, Except.map]
  | ok _ =>
      cases hconcat : s.ocs.queues.concat s.alive .listOchead .pool (.hashhead head) with
      | error e =>
          have hconcat' : s.ocs.queues.concat (bare s).alive .listOchead .pool
            (.hashhead head) = .error e := hconcat
          simp only [bare] at hconcat'
          simp [xkeyCleanupHashhead, bare, htouch, hconcat, hconcat', bind, Except.bind,
            Except.map]
      | ok ocs =>
          have hconcat' : s.ocs.queues.concat (bare s).alive .listOchead .pool
            (.hashhead head) = .ok ocs := hconcat
          simp only [bare] at hconcat'
          cases hinsert : s.hashheads.queues.insertHead poolAlive () () head <;>
            simp [xkeyCleanupHashhead, bare, htouch, hconcat, hconcat', hinsert, bind, Except.bind,
              pure, Except.pure, Except.map]

theorem xkeyCleanupOchead_bare : xkeyCleanupOchead (bare s) head =
    (xkeyCleanupOchead s head).map bare := by
  cases htouch : s.ocheads.queues.touchElem head with
  | error e => simp [xkeyCleanupOchead, bare, htouch, bind, Except.bind, Except.map]
  | ok _ =>
      cases hinsert : s.ocheads.queues.insertHead poolAlive () () head <;>
        simp [xkeyCleanupOchead, bare, htouch, hinsert, bind, Except.bind, pure, Except.pure,
          Except.map]

/-! The bodies of the loops leave the trees alone. -/

theorem cleanupHashhead_follows (h : Simulates L s) :
    Follows (fun s' L' => Simulates L' s' ∧ s'.octree = s.octree ∧ s'.ocheads = s.ocheads)
      (xkeyCleanupHashhead s head) (Linked.xkeyCleanupHashhead head L) := by
  obtain ⟨xkey, hashtree, octree⟩ := L
  obtain rfl : xkey = bare s := h.rest
  simp only [Linked.xkeyCleanupHashhead, xkeyCleanupHashhead_bare]
  cases hbody : xkeyCleanupHashhead s head with
  | error e => rfl
  | ok s' =>
      obtain ⟨_, -, hbody⟩ := bind_ok hbody
      obtain ⟨ocs, -, hbody⟩ := bind_ok hbody
      obtain ⟨q, hinsert, hbody⟩ := bind_ok hbody
      obtain rfl := Except.ok.inj hbody
      exact follows_ok ⟨⟨rfl, refines_congr h.hashtree (insertHead_live hinsert), h.octree⟩, rfl,
        rfl⟩

theorem cleanupOchead_follows (h : Simulates L s) :
    Follows (fun s' L' => Simulates L' s' ∧ s'.hashtree = s.hashtree) (xkeyCleanupOchead s head)
      (Linked.xkeyCleanupOchead head L) := by
  obtain ⟨xkey, hashtree, octree⟩ := L
  obtain rfl : xkey = bare s := h.rest
  simp only [Linked.xkeyCleanupOchead, xkeyCleanupOchead_bare]
  cases hbody : xkeyCleanupOchead s head with
  | error e => rfl
  | ok s' =>
      obtain ⟨_, -, hbody⟩ := bind_ok hbody
      obtain ⟨q, hinsert, hbody⟩ := bind_ok hbody
      obtain rfl := Except.ok.inj hbody
      exact follows_ok ⟨⟨rfl, h.hashtree, refines_congr h.octree (insertHead_live hinsert)⟩, rfl⟩

theorem hashtree_body (x : Nat) (L L' : Linked) (h : Linked.xkeyCleanupHashhead x L = .ok L') :
    L'.hashtree = L.hashtree := by
  obtain ⟨xkey, -, h⟩ := bind_ok h
  cases h
  rfl

theorem octree_body (x : Nat) (L L' : Linked) (h : Linked.xkeyCleanupOchead x L = .ok L') :
    L'.octree = L.octree := by
  obtain ⟨xkey, -, h⟩ := bind_ok h
  cases h
  rfl

theorem refines_vrbInit {tree : List Nat} {live : Nat → Bool}
    (ht : Refines key t (heads tree live)) :
    Refines key (t.vrbInit ()) (heads [] live) := by
  rw [← setTree_heads]
  exact ht.init ()

theorem hashtreeLoop_follows (h : Simulates L s) (hlen : s.hashtree.length ≤ s.hashheads.fresh) :
    Follows (fun s' L' => Simulates L' s' ∧ s'.octree = s.octree ∧ s'.ocheads = s.ocheads)
      (s.hashtree.foldlM xkeyCleanupHashhead s)
      (Heap.vrbForeachDo Linked.hashtree L.hashFuel () Linked.xkeyCleanupHashhead L) := by
  have hfuel : L.hashFuel = s.hashheads.fresh + 3 := by rw [Linked.hashFuel, h.rest]; rfl
  rw [vrbForeachDo_spec hashtree_body (h.hashtree.trees ())
    (show s.hashtree.length < L.hashFuel by omega) (hfuel ▸ turns_le_fresh hlen)]
  refine follows_foldlM (fun head s₁ L₁ h₁ => ?_) ⟨h, rfl, rfl⟩
  obtain ⟨h₁, hoctree, hocheads⟩ := h₁
  have hbody : Follows _ (xkeyCleanupHashhead s₁ head) (Linked.xkeyCleanupHashhead head L₁) :=
    cleanupHashhead_follows h₁
  rwa [hoctree, hocheads] at hbody

theorem octreeLoop_follows (h : Simulates L s) (hlen : s.octree.length ≤ s.ocheads.fresh) :
    Follows (fun s' L' => Simulates L' s' ∧ s'.hashtree = s.hashtree)
      (s.octree.foldlM xkeyCleanupOchead s)
      (Heap.vrbForeachDo Linked.octree L.ocFuel () Linked.xkeyCleanupOchead L) := by
  have hfuel : L.ocFuel = s.ocheads.fresh + 3 := by rw [Linked.ocFuel, h.rest]; rfl
  rw [vrbForeachDo_spec octree_body (h.octree.trees ())
    (show s.octree.length < L.ocFuel by omega) (hfuel ▸ turns_le_fresh hlen)]
  refine follows_foldlM (fun head s₁ L₁ h₁ => ?_) ⟨h, rfl⟩
  obtain ⟨h₁, hhashtree⟩ := h₁
  have hbody : Follows _ (xkeyCleanupOchead s₁ head) (Linked.xkeyCleanupOchead head L₁) :=
    cleanupOchead_follows h₁
  rwa [hhashtree] at hbody

theorem xkeyCleanup_follows (h : Simulates L s) (hlen : s.hashtree.length ≤ s.hashheads.fresh)
    (hlen' : s.octree.length ≤ s.ocheads.fresh) :
    Follows (fun s' L' => Simulates L' s') (xkeyCleanup s) L.xkeyCleanup := by
  unfold xkeyCleanup Linked.xkeyCleanup
  refine (hashtreeLoop_follows h hlen).bind fun s₁ L₁ _ h₁ => ?_
  obtain ⟨h₁, hoctree, hocheads⟩ := h₁
  have h₂ : Simulates { L₁ with hashtree := L₁.hashtree.vrbInit () } { s₁ with hashtree := [] } :=
    ⟨h₁.rest, refines_vrbInit h₁.hashtree, h₁.octree⟩
  refine (octreeLoop_follows h₂ (by simpa [hoctree, hocheads] using hlen')).bind
    fun s₃ L₃ _ h₃ => ?_
  obtain ⟨⟨hrest, hhash, hoc⟩, htree⟩ := h₃
  obtain ⟨xkey, hashtree, octree⟩ := L₃
  obtain rfl : xkey = bare s₃ := hrest
  rw [htree] at hhash
  refine (drainHeads_follows hhash).bind fun q r _ hr => ?_
  obtain ⟨rfl, hhash₁⟩ := hr
  refine (drainHeads_follows (refines_vrbInit hoc)).bind fun q' r' _ hr' => ?_
  obtain ⟨rfl, hoc₁⟩ := hr'
  refine (follows_refl _).bind fun ocs ocs' _ heq => ?_
  subst heq
  refine follows_ok ⟨rfl, ?_, hoc₁⟩
  change Refines s₃.digest r.2 (heads s₃.hashtree r.1.live)
  rwa [htree]

end Cleanup

variable {L : Linked} {s s' : Xkey}

/-- What a cleanup leaves that found a counter above zero. -/
structure Broken (s : Xkey) : Prop where
  hashtree : s.hashtree = []
  octree : s.octree = []
  hashheads : s.hashheads.queues.first () = none
  ocheads : s.ocheads.queues.first () = none
  count : 0 < s.hashheads.count ∨ 0 < s.ocheads.count

theorem new_empty {p : Pool Unit Unit} {onNull : Fault} (hfirst : p.queues.first () = none)
    (hcount : 0 < p.count) : p.new poolAlive () () onNull = .error onNull := by
  simp [Pool.new, hcount, hfirst]

/-- No insert works any more. -/
theorem Broken.insert (hs : Broken s) (h : Simulates L s) (o : Objcore) (d : Digest) :
    ∃ e, xkeyInsert s o d = .error e ∧ L.xkeyInsert o d = .error e := by
  obtain ⟨xkey, hashtree, octree⟩ := L
  obtain rfl : xkey = bare s := h.rest
  by_cases hcount : 0 < s.ocheads.count
  · have hnew : s.ocheads.new poolAlive () () .nullDeref = .error .nullDeref :=
      new_empty hs.ocheads hcount
    refine ⟨.nullDeref, ?_, ?_⟩
    · simp [xkeyInsert, xkeyOctreeInsert, xkeyOcheadNew, hnew, bind, Except.bind]
    · simp [Linked.xkeyInsert, Linked.xkeyOctreeInsert, Linked.xkeyOcheadNew, xkeyOcheadNew, bare,
        hnew, bind, Except.bind]
  · -- the octree takes a new head before the hashtree fails
    have hnew : s.hashheads.new poolAlive () () .assertion = .error .assertion :=
      new_empty hs.hashheads (hs.count.resolve_right hcount)
    let p : Pool Unit Unit := { s.ocheads with
      queues := s.ocheads.queues.alloc s.ocheads.fresh, fresh := s.ocheads.fresh + 1 }
    have hnew' : s.ocheads.new poolAlive () () .nullDeref = .ok (s.ocheads.fresh, true, p) := by
      simp [Pool.new, hcount, p, pure, Except.pure]
    have htree : Refines s.ptr octree (heads [] s.ocheads.queues.live) := hs.octree ▸ h.octree
    let ptr := Function.update (Function.update s.ptr s.ocheads.fresh 0) s.ocheads.fresh o
    have htree' : Refines ptr (octree.put s.ocheads.fresh zeroEntry) (heads [] p.queues.live) := by
      refine (refines_put htree List.not_mem_nil (fun y => ?_) zeroEntry).congr_key fun _ _ hx => ?_
      · by_cases hy : y = s.ocheads.fresh <;> simp [p, Queues.alloc, hy]
      · exact absurd hx List.not_mem_nil
    obtain ⟨octree', hinsert, -⟩ := htree'.insert (h := ()) (e := s.ocheads.fresh)
      (fun k1 k2 => xkeyPtrcmp (ptr k1) (ptr k2)) (by simp [heads, p, Queues.alloc])
      (fun k hk => absurd rfl hk) (xkeyPtrcmp_compares ptr _ _)
      (turns_le_fresh (show ([] : List Nat).length ≤ s.ocheads.fresh + 1 from Nat.zero_le _))
    refine ⟨.assertion, ?_, ?_⟩
    · simp [xkeyInsert, xkeyOctreeInsert, xkeyOcheadNew, hnew', hs.octree, OrderedTree.insert,
        OrderedTree.find, xkeyHashtreeInsert, xkeyHashheadNew, Xkey.setOcQueues, hnew, bind,
        Except.bind, pure, Except.pure]
    · let xkey₁ : Xkey := { (bare s).setOcQueues (s.ocs.queues.init (.ochead s.ocheads.fresh)) with
        ocheads := p, ptr := Function.update s.ptr s.ocheads.fresh 0 }
      let L₁ : Linked := ⟨xkey₁, hashtree, octree.put s.ocheads.fresh zeroEntry⟩
      have hhead : (⟨bare s, hashtree, octree⟩ : Linked).xkeyOcheadNew =
          .ok (s.ocheads.fresh, L₁) := by
        have hnode : newNode (bare s).ocheads.count octree s.ocheads.fresh =
          octree.put s.ocheads.fresh zeroEntry := if_neg hcount
        have hxkey : xkeyOcheadNew (bare s) = .ok (s.ocheads.fresh, xkey₁) := ok_bind hnew'
        simp [Linked.xkeyOcheadNew, hxkey, hnode, L₁, bind, Except.bind, pure, Except.pure]
      let L₂ : Linked := ⟨{ xkey₁ with ptr := ptr }, hashtree, octree'⟩
      have hocL : (⟨bare s, hashtree, octree⟩ : Linked).xkeyOctreeInsert o =
          .ok (s.ocheads.fresh, L₂) := (ok_bind hhead).trans (ok_bind hinsert)
      have hhash : L₂.xkeyHashtreeInsert d = .error .assertion := by
        simp [Linked.xkeyHashtreeInsert, Linked.xkeyHashheadNew, xkeyHashheadNew, L₂, xkey₁, bare,
          Xkey.setOcQueues, hnew, bind, Except.bind]
      refine (ok_bind hocL).trans ?_
      simp [hhash, bind, Except.bind]

theorem Broken.cleanup (hs : Broken s) (hstep : xkeyCleanup s = .ok s') : Broken s' := by
  have hdrain : ∀ {q : Queues Unit Unit Nat} (n : Nat), q.first () = none →
      drain poolAlive () () n q = .ok q := by
    intro q n hfirst
    cases n <;> simp [drain, hfirst]
  unfold xkeyCleanup at hstep
  simp only [hs.hashtree, hs.octree, List.foldlM_nil, pure_bind, hdrain _ hs.hashheads,
    hdrain _ hs.ocheads] at hstep
  obtain ⟨_, hd, hstep⟩ := bind_ok hstep
  obtain rfl := Except.ok.inj hd
  obtain ⟨_, hd, hstep⟩ := bind_ok hstep
  obtain rfl := Except.ok.inj hd
  obtain ⟨ocs, -, hstep⟩ := bind_ok hstep
  obtain rfl := Except.ok.inj hstep
  exact ⟨rfl, rfl, hs.hashheads, hs.ocheads, hs.count⟩

/-- What the module may be in between two events. -/
def Sound (s : Xkey) : Prop :=
  (∃ g ix, Represents s g ix ∧ Settled s g) ∨ Broken s

theorem sound_initial : Sound Xkey.initial :=
  Or.inl ⟨_, _, represents_initial, settled_initial⟩

theorem Sound.length_le (hs : Sound s) :
    s.hashtree.length ≤ s.hashheads.fresh ∧ s.octree.length ≤ s.ocheads.fresh := by
  rcases hs with ⟨g, ix, hs, -⟩ | hs
  · exact ⟨length_le_fresh hs.hashheads, length_le_fresh hs.ocheads⟩
  · simp [hs.hashtree, hs.octree]

theorem Sound.cleanup (hs : Sound s) (hstep : xkeyCleanup s = .ok s') : Sound s' := by
  rcases hs with ⟨g, ix, hs, hset⟩ | hs
  · by_cases hcount : s.hashheads.count = 0 ∧ s.ocheads.count = 0 ∧ s.ocs.count = 0
    · obtain ⟨hhashhead, hochead, hoc⟩ := hcount
      obtain ⟨s₁, g₁, hs₁, hrep, hset₁⟩ := xkeyCleanup_spec hs hset hhashhead hochead hoc
      obtain rfl : s₁ = s' := Except.ok.inj (hs₁.symm.trans hstep)
      exact Or.inl ⟨g₁, _, hrep, hset₁⟩
    · by_cases hfree : g.freeOcs = []
      · obtain ⟨hashheads, ocheads, ocs, log, hs₁, hq, -, hq', -⟩ :=
          xkeyCleanup_unpooled hs hset hfree
        obtain rfl := Except.ok.inj (hs₁.symm.trans hstep)
        have hoc : s.ocs.count = 0 := by simp [hs.ocs.count, hfree]
        refine Or.inr ⟨rfl, rfl, hq.first_eq, hq'.first_eq, ?_⟩
        change 0 < s.hashheads.count ∨ 0 < s.ocheads.count
        omega
      · obtain ⟨e, he⟩ := xkeyCleanup_pooled hs hset hfree
        simp [he] at hstep
  · exact Or.inr (hs.cleanup hstep)

theorem call_follows (h : Simulates L s) (hs : Sound s) (c : Call) :
    Follows (fun s' L' => Simulates L' s' ∧ Sound s') (c.run s) (L.call c) := by
  rcases hs with ⟨g, ix, hs, hset⟩ | hs
  · obtain ⟨s', g', hstep, hrep, hset', -⟩ := call_spec hs hset c
    obtain ⟨L', hL', h'⟩ := h.call hs hset c hstep
    rw [hstep]
    exact ⟨L', hL', h', Or.inl ⟨g', _, hrep, hset'⟩⟩
  · cases c with
    | insert o d =>
        obtain ⟨e, hstep, hL⟩ := hs.insert h o d
        rw [show (Call.insert o d).run s = .error e from hstep]
        exact hL
    | cbRemove o =>
        have hlookup := h.xkeyOctreeLookup (by simp [hs.octree]) o
        have hnone : xkeyOctreeLookup s o = .ok none := by
          simp [xkeyOctreeLookup, hs.octree, OrderedTree.find, pure, Except.pure]
        rw [show (Call.cbRemove o).run s = .ok s from ok_bind hnone]
        exact ⟨L, ok_bind (hlookup.trans hnone), h, Or.inr hs⟩

theorem cleanup_follows (h : Simulates L s) (hs : Sound s) :
    Follows (fun s' L' => Simulates L' s' ∧ Sound s') (xkeyCleanup s) L.xkeyCleanup := by
  obtain ⟨hlen, hlen'⟩ := hs.length_le
  have hfollows := xkeyCleanup_follows h hlen hlen'
  cases hstep : xkeyCleanup s with
  | error e =>
      rw [hstep] at hfollows
      exact hfollows
  | ok s' =>
      rw [hstep] at hfollows
      obtain ⟨L', hL', h'⟩ := hfollows
      exact ⟨L', hL', h', hs.cleanup hstep⟩

theorem simulates_initial : Simulates Linked.initial Xkey.initial := by
  have hempty : heads [] (fun _ => false) = Forest.empty := by simp [heads, Forest.empty]
  exact ⟨rfl, hempty ▸ refines_empty (fun _ => rfl) fun _ => rfl,
    hempty ▸ refines_empty (fun _ => rfl) fun _ => rfl⟩

/-- The two descriptions of the module in between two events. -/
structure Agrees (m : Module) (M : LinkedModule) : Prop where
  linked : Simulates M.linked m.xkey
  sound : Sound m.xkey
  nInit : M.nInit = m.nInit
  xkeyCbHandle : M.xkeyCbHandle = m.xkeyCbHandle
  registered : M.registered = m.registered

section Run

variable {sha256 : CString → Digest} {rearm : Rearm} {m : Module} {M : LinkedModule}

theorem vmodEvent_follows (h : Agrees m M) (handle : ℕ+) (e : VclEvent) :
    Follows Agrees (XkeyLifeCycle.vmodEvent handle m e) (M.vmodEvent handle e) := by
  obtain ⟨linked, nInit, cb, registered⟩ := M
  obtain rfl : nInit = m.nInit := h.nInit
  obtain rfl : cb = m.xkeyCbHandle := h.xkeyCbHandle
  obtain rfl : registered = m.registered := h.registered
  cases e with
  | load =>
      by_cases hzero : m.nInit = 0
      · simp only [XkeyLifeCycle.vmodEvent, LinkedModule.vmodEvent, hzero, if_true]
        exact (follows_refl _).bind fun _ _ _ _ => follows_ok ⟨h.linked, h.sound, rfl, rfl, rfl⟩
      · simp only [XkeyLifeCycle.vmodEvent, LinkedModule.vmodEvent, hzero, if_false]
        exact (follows_refl _).bind fun _ _ _ _ => follows_ok ⟨h.linked, h.sound, rfl, rfl, rfl⟩
  | discard =>
      refine (follows_refl _).bind fun _ _ _ _ => (follows_refl _).bind fun _ _ _ _ => ?_
      by_cases hzero : m.nInit - 1 = 0
      · simp only [hzero, if_true]
        refine (follows_refl _).bind fun _ _ _ _ => ?_
        exact (cleanup_follows h.linked h.sound).bind fun s' L' _ h' =>
          follows_ok ⟨h'.1, h'.2, rfl, rfl, rfl⟩
      · simp only [hzero, if_false]
        exact follows_ok ⟨h.linked, h.sound, rfl, rfl, rfl⟩
  | warm => exact follows_ok h
  | use => exact follows_ok h
  | cold => exact follows_ok h

/-- An event does the same to both. -/
theorem step_follows (h : Agrees m M) (e : Event) :
    Follows Agrees (step sha256 rearm m e) (M.step sha256 rearm e) := by
  cases e with
  | vcl handle e => exact vmodEvent_follows h handle e
  | call c =>
      exact (call_follows h.linked h.sound c).bind fun s' L' _ h' =>
        follows_ok ⟨h'.1, h'.2, h.nInit, h.xkeyCbHandle, h.registered⟩
  | purge objects doSoft now key =>
      have hpurge : M.linked.purge sha256 rearm doSoft now objects key =
          (purge sha256 rearm doSoft now (.start m.xkey objects) key).map barePurge :=
        purge_bare h.linked h.sound.length_le.1 objects key
      cases hst : purge sha256 rearm doSoft now (.start m.xkey objects) key with
      | error e =>
          simp only [step, LinkedModule.step, hpurge, hst]
          rfl
      | ok st =>
          have hxkey := purge_xkey hst
          simp only [step, LinkedModule.step, hpurge, hst]
          refine follows_ok ⟨?_, ?_, h.nInit, h.xkeyCbHandle, h.registered⟩
          · change Simulates ⟨bare st.xkey, M.linked.hashtree, M.linked.octree⟩ st.xkey
            rw [hxkey]
            exact ⟨rfl, h.linked.hashtree, h.linked.octree⟩
          · change Sound st.xkey
            rw [hxkey]
            exact h.sound

theorem run_follows (h : Agrees m M) (es : List Event) :
    Follows Agrees (es.foldlM (step sha256 rearm) m)
      (es.foldlM (LinkedModule.step sha256 rearm) M) :=
  follows_foldlM (fun e _ _ h => step_follows h e) h

theorem agrees_initial : Agrees Module.initial LinkedModule.initial :=
  ⟨simulates_initial, sound_initial, rfl, rfl, rfl⟩

end Run

/-- Whatever the server and the VCLs do, the module with red-black trees in memory
faults where the one with ordered lists of heads does, and in the same way.
Else its trees are walked through in the order of those lists, a head has a node
in memory as long as it is allocated, and a purge makes the same calls. -/
theorem trees_refine_lists (sha256 : CString → Digest) (rearm : Rearm) (es : List Event) :
    Follows (fun m M =>
        M.linked.hashtree.vrbForeach M.linked.hashFuel () = .ok m.xkey.hashtree ∧
        M.linked.octree.vrbForeach M.linked.ocFuel () = .ok m.xkey.octree ∧
        (∀ k, (M.linked.hashtree.entry k).isSome ↔ m.xkey.hashheads.queues.live k = true) ∧
        (∀ h, (M.linked.octree.entry h).isSome ↔ m.xkey.ocheads.queues.live h = true) ∧
        ∀ doSoft now objects key,
          (M.linked.purge sha256 rearm doSoft now objects key).map
              (fun st => (st.calls, st.objects, st.i)) =
            (purge sha256 rearm doSoft now (.start m.xkey objects) key).map
              fun st => (st.calls, st.objects, st.i))
      (es.foldlM (step sha256 rearm) Module.initial)
      (es.foldlM (LinkedModule.step sha256 rearm) LinkedModule.initial) := by
  have hrun : Follows Agrees (es.foldlM (step sha256 rearm) Module.initial)
      (es.foldlM (LinkedModule.step sha256 rearm) LinkedModule.initial) :=
    run_follows agrees_initial es
  cases hm : es.foldlM (step sha256 rearm) Module.initial with
  | error e =>
      rw [hm] at hrun
      exact hrun
  | ok m =>
      rw [hm] at hrun
      obtain ⟨M, hM, h⟩ := hrun
      refine ⟨M, hM, ?_, ?_, h.linked.hashtree.live, h.linked.octree.live, ?_⟩
      · have hlen := h.sound.length_le.1
        have hfuel : M.linked.hashFuel = m.xkey.hashheads.fresh + 3 := by
          rw [Linked.hashFuel, h.linked.rest]
          rfl
        exact (vrbForeach_spec (h.linked.hashtree.trees ())
          (show m.xkey.hashtree.length < M.linked.hashFuel by omega)
          (hfuel ▸ turns_le_fresh hlen)).1
      · have hlen := h.sound.length_le.2
        have hfuel : M.linked.ocFuel = m.xkey.ocheads.fresh + 3 := by
          rw [Linked.ocFuel, h.linked.rest]
          rfl
        exact (vrbForeach_spec (h.linked.octree.trees ())
          (show m.xkey.octree.length < M.linked.ocFuel by omega)
          (hfuel ▸ turns_le_fresh hlen)).1
      · intro doSoft now objects key
        rw [purge_bare h.linked h.sound.length_le.1 objects key]
        cases purge sha256 rearm doSoft now (.start m.xkey objects) key <;> rfl

end VarnishModules.XkeyTreesLife
