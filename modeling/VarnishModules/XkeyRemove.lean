import VarnishModules.XkeyInsert

/-!
`xkey_remove` takes every link of an objcore off both indexes.

The body of its loop leaves a state in which one link is on the list of its
ochead only, so the proof follows the memory through the body and states the
representation again at its end.
-/

namespace VarnishModules.XkeyRemove

open VarnishModules.TailQueue
open VarnishModules.ObjectPool
open VarnishModules.XkeyModel
open VarnishModules.XkeyRepresentation
open VarnishModules.XkeyInsert

variable {s : Xkey} {g : Shape} {ix : Objcore → List Digest}

/-- What `xkey_remove` does to a hashhead whose list is now `xs`. -/
theorem xkeyRemoveHashhead_spec {free loose : List HashheadPtr} {k : HashheadPtr} {xs : List OcPtr}
    (hp : HeadsOk s.hashheads s.hashtree free loose)
    (htree : OrderedTree.IsTree s.digest s.hashtree) (hk : k ∈ s.hashtree)
    (hfirst : s.ocs.queues.first (.hashhead k) = xs.head?) :
    ∃ hashheads hashtree digest free',
      xkeyRemoveHashhead k s = .ok { s with hashheads, hashtree, digest } ∧
      HeadsOk hashheads hashtree free' loose ∧ OrderedTree.IsTree digest hashtree ∧
      (∀ k', k' ∈ hashtree ↔ k' ∈ s.hashtree ∧ (k' = k → xs ≠ [])) ∧
      (∀ k' ∈ hashtree, digest k' = s.digest k') ∧
      (∀ k', hashheads.queues.live k' = true → s.hashheads.queues.live k' = true) := by
  have htouch : Queues.touchHead s.alive (.hashhead k) = .ok () :=
    touchHead_ok (show s.alive (.hashhead k) = true from hp.live_tree hk)
  cases xs with
  | nil =>
      obtain ⟨hashheads, digest, free', hstep, hp', hdigest, hsub⟩ :=
        xkeyHashheadDelete_heads (s := { s with hashtree := s.hashtree.erase k })
          (hp.detach hk) hfirst
      have hdigest' : ∀ k' ∈ s.hashtree.erase k, digest k' = s.digest k' := fun k' hk' =>
        hdigest k' (htree.mem_erase.mp hk').1
      refine ⟨hashheads, s.hashtree.erase k, digest, free', ?_, hp',
        (htree.erase k).congr hdigest', ?_, hdigest', hsub⟩
      · simp [xkeyRemoveHashhead, htouch, hfirst, hstep, bind, Except.bind]
      · intro k'
        rw [htree.mem_erase]
        simp [and_comm]
  | cons x xs =>
      refine ⟨s.hashheads, s.hashtree, s.digest, free, ?_, hp, htree, ?_, fun _ _ => rfl,
        fun _ hl => hl⟩
      · simp [xkeyRemoveHashhead, htouch, hfirst, bind, Except.bind, pure, Except.pure]
      · simp

/-- What is on a list and what is not, after `p` is taken off the list of `a`. -/
theorem mem_update_split {f : Nat → List Nat} {a p : Nat} {ys zs : List Nat}
    (hsplit : f a = ys ++ p :: zs) (hnodup : (f a).Nodup) (hunique : ∀ b, p ∈ f b → b = a)
    (b q : Nat) : q ∈ Function.update f a (ys ++ zs) b ↔ q ∈ f b ∧ q ≠ p := by
  have hp : p ∉ ys ++ zs := by
    rw [hsplit] at hnodup
    exact (List.nodup_cons.mp (List.perm_middle.nodup_iff.mp hnodup)).1
  by_cases hba : b = a
  · subst hba
    rw [Function.update_self, hsplit, List.perm_middle.mem_iff, List.mem_cons]
    constructor
    · exact fun hq => ⟨Or.inr hq, fun heq => hp (heq ▸ hq)⟩
    · exact fun ⟨hq, hne⟩ => hq.resolve_left hne
  · rw [Function.update_of_ne hba]
    exact ⟨fun hq => ⟨hq, fun heq => hba (hunique b (heq ▸ hq))⟩, And.left⟩

theorem mem_update_ochead {h : OcheadPtr} {p : OcPtr} {ps : List OcPtr}
    (hs : Represents s g ix) (hh : g.ochead h = p :: ps) (h' : OcheadPtr) (q : OcPtr) :
    q ∈ Function.update g.ochead h ps h' ↔ q ∈ g.ochead h' ∧ q ≠ p := by
  have hph : p ∈ g.ochead h := by simp [hh]
  have hqh := hs.ochead_queue h (hs.ocheads.live_tree (hs.mem_octree hph))
  exact mem_update_split (show g.ochead h = [] ++ p :: ps from hh) hqh.nodup
    (fun h' hmem => hs.ochead_unique hmem hph) h' q

theorem mem_update_hashhead {k : HashheadPtr} {p : OcPtr} {ys zs : List OcPtr}
    (hs : Represents s g ix) (hsplit : g.hashhead k = ys ++ p :: zs) (k' : HashheadPtr)
    (q : OcPtr) :
    q ∈ Function.update g.hashhead k (ys ++ zs) k' ↔ q ∈ g.hashhead k' ∧ q ≠ p := by
  have hpk : p ∈ g.hashhead k := by simp [hsplit]
  have hqk := hs.hashhead_queue k (hs.hashheads.live_tree (hs.mem_hashtree hpk))
  exact mem_update_split hsplit hqk.nodup (fun k' hmem => hs.hashhead_unique hmem hpk) k' q

/-- The links of `p` are undone: it has left the list of its hashhead `k`, the
list of its ochead `h`, of which it was the first, and both its pointers are
cleared.  What is asked of the heads is what `xkeyRemoveHashhead_spec` gives. -/
theorem unlink {h : OcheadPtr} {k : HashheadPtr} {p : OcPtr} {o : Objcore}
    {ps ys zs free : List OcPtr} {freeHeads hashtree : List HashheadPtr}
    {hashheads : Pool Unit Unit} {digest : HashheadPtr → Digest} {ocs : Pool OcsHead OcLink}
    (hs : Represents s g ix) (hh : g.ochead h = p :: ps) (hptr : s.ptr h = (o : Nat))
    (hk : s.hashhead p = some k) (hsplit : g.hashhead k = ys ++ p :: zs)
    (hheads : HeadsOk hashheads hashtree freeHeads g.looseHashheads)
    (htree : OrderedTree.IsTree digest hashtree)
    (hmem : ∀ k', k' ∈ hashtree ↔ k' ∈ s.hashtree ∧ (k' = k → ys ++ zs ≠ []))
    (hdigest : ∀ k' ∈ hashtree, digest k' = s.digest k')
    (hsub : ∀ k', hashheads.queues.live k' = true → s.hashheads.queues.live k' = true)
    (hholds : Holds poolMax ocs .listHashhead .pool free)
    (hkq : ∀ k', s.hashheads.queues.live k' = true → IsQueue ocs.queues .listHashhead
      (.hashhead k') (Function.update g.hashhead k (ys ++ zs) k'))
    (hhq : ∀ h', s.ocheads.queues.live h' = true → IsQueue ocs.queues .listOchead
      (.ochead h') (Function.update g.ochead h ps h'))
    (hfree : free = p :: g.freeOcs ∨ free = g.freeOcs)
    (hlive : ∀ q, ocs.queues.live q = true ↔
      s.ocs.queues.live q = true ∧ (q = p → p ∈ free))
    (hprev : ∀ q ∈ g.freeOcs,
      ocs.queues.prev .listOchead q = s.ocs.queues.prev .listOchead q)
    (hprevp : ocs.queues.prev .listOchead p = some (.first (.ochead h))) :
    Represents { s with
        hashheads, hashtree, digest, ocs
        hashhead := Function.update s.hashhead p none
        objcore := Function.update s.objcore p none }
      { g with
        ochead := Function.update g.ochead h ps
        hashhead := Function.update g.hashhead k (ys ++ zs)
        freeHashheads := freeHeads
        freeOcs := free }
      (Function.update ix o (ix o).tail) := by
  have hph : p ∈ g.ochead h := by simp [hh]
  have hpk : p ∈ g.hashhead k := by simp [hsplit]
  have hh' : h ∈ s.octree := hs.mem_octree hph
  -- Off `p`, the lists are what they were.
  have hochead := mem_update_ochead hs hh
  have hhashhead := mem_update_hashhead hs hsplit
  have hpfree : p ∉ g.freeOcs ++ g.looseOcs := fun hmem => hs.unlinked p hmem h hph
  have hmemFree : ∀ q, q ∈ free → q = p ∨ q ∈ g.freeOcs := by
    intro q hq
    rcases hfree with rfl | rfl
    · exact List.mem_cons.mp hq
    · exact Or.inr hq
  refine { hs with
    hashheads := hheads, hashtree := htree, ocs := hholds
    hashhead_queue := fun k' hl => hkq k' (hsub k' hl), ochead_queue := hhq
    hashhead_outside := ?_, ochead_outside := ?_, ochead_link := ?_
    hashhead_link := ?_, unlinked_nodup := ?_, unlinked := ?_, live := ?_
    free_cleared := ?_, free_prev := ?_, index := ?_
    index_absent := hs.index_absent_update hh' hptr }
  · intro k' hk'
    by_cases hkk : k' = k
    · subst hkk
      by_contra hne
      exact hk' ((hmem k').mpr ⟨hs.mem_hashtree hpk, fun _ => by simpa using hne⟩)
    · have hout : k' ∉ s.hashtree := fun hin =>
        hk' ((hmem k').mpr ⟨hin, fun heq => absurd heq hkk⟩)
      simpa [hkk] using hs.hashhead_outside k' hout
  · intro h' hout
    have hhh : h' ≠ h := fun heq => hout (heq ▸ hh')
    simpa [hhh] using hs.ochead_outside h' hout
  · intro h' q hq
    obtain ⟨hq, hne⟩ := (hochead h' q).mp hq
    obtain ⟨k', o', hk', hqk, ho', hptr'⟩ := hs.ochead_link h' q hq
    exact ⟨k', o', by simpa [hne] using hk', (hhashhead k' q).mpr ⟨hqk, hne⟩,
      by simpa [hne] using ho', hptr'⟩
  · intro k' q hq
    obtain ⟨hq, hne⟩ := (hhashhead k' q).mp hq
    obtain ⟨hk', h', hqh⟩ := hs.hashhead_link k' q hq
    exact ⟨by simpa [hne] using hk', h', (hochead h' q).mpr ⟨hqh, hne⟩⟩
  · rcases hfree with rfl | rfl
    · exact List.nodup_cons.mpr ⟨hpfree, hs.unlinked_nodup⟩
    · exact hs.unlinked_nodup
  · intro q hq h' hqh
    obtain ⟨hqh, hne⟩ := (hochead h' q).mp hqh
    rcases List.mem_append.mp hq with hq | hq
    · exact hs.unlinked q (by simp [(hmemFree q hq).resolve_left hne]) h' hqh
    · exact hs.unlinked q (by simp [hq]) h' hqh
  · intro q
    rw [hlive, hs.live]
    simp only [hochead]
    by_cases hqp : q = p
    · subst hqp
      have hloose : q ∉ g.looseOcs := fun hmem => hpfree (by simp [hmem])
      simp only [forall_const, ne_eq, not_true_eq_false, and_false, exists_false, or_false,
        List.mem_append, hloose]
      exact ⟨And.right, fun hq => ⟨Or.inr ⟨h, hph⟩, hq⟩⟩
    · have hfree' : q ∈ free ↔ q ∈ g.freeOcs := by
        rcases hfree with rfl | rfl <;> simp [hqp]
      simp [hqp, hfree']
  · intro q hq
    rcases hmemFree q hq with rfl | hq'
    · simp
    · have hne : q ≠ p := fun heq => hpfree (by simp [← heq, hq'])
      simpa [hne] using hs.free_cleared q hq'
  · intro q hq
    rcases hmemFree q hq with rfl | hq'
    · exact ⟨h, hprevp⟩
    · obtain ⟨h', hh'⟩ := hs.free_prev q hq'
      exact ⟨h', (hprev q hq').trans hh'⟩
  · have hkey : ∀ h', ∀ q ∈ g.ochead h', q ≠ p →
        (Function.update s.hashhead p none q).map digest = keyOf s q := by
      intro h' q hq hne
      obtain ⟨k', -, hk', hqk', -, -⟩ := hs.ochead_link h' q hq
      have hk'mem : k' ∈ hashtree := by
        refine (hmem k').mpr ⟨hs.mem_hashtree hqk', ?_⟩
        rintro rfl
        have hq' := (hhashhead k' q).mpr ⟨hqk', hne⟩
        rw [Function.update_self] at hq'
        exact List.ne_nil_of_mem hq'
      simp [keyOf, hne, hk', hdigest k' hk'mem]
    refine hs.index_update hh' hptr ?_ fun h' hhh q hq => ?_
    · have htail : ps.map (keyOf s) = (ix o).tail.map some := by
        have htail := congrArg List.tail (hs.map_keyOf hh' hptr)
        rwa [hh, List.map_cons, List.tail_cons, ← List.map_tail] at htail
      refine (List.map_congr_left fun q hq => ?_).trans htail
      have hmem' := (hochead h q).mp (by simpa using hq)
      exact hkey h q hmem'.1 hmem'.2
    · exact hkey h' q hq fun heq => hhh (hs.ochead_unique (heq ▸ hq) hph)

theorem xkeyRemoveOc_spec {h : OcheadPtr} {p : OcPtr} {ps : List OcPtr} {o : Objcore}
    (hs : Represents s g ix) (hh : g.ochead h = p :: ps) (hptr : s.ptr h = (o : Nat))
    (hne : ∀ k ∈ s.hashtree, g.hashhead k ≠ []) :
    ∃ s' g', xkeyRemoveOc h p s = .ok s' ∧
      Represents s' g' (Function.update ix o (ix o).tail) ∧
      g'.ochead = Function.update g.ochead h ps ∧ g'.looseHashheads = g.looseHashheads ∧
      g'.looseOcheads = g.looseOcheads ∧ g'.looseOcs = g.looseOcs ∧
      s'.octree = s.octree ∧ s'.ptr = s.ptr ∧ (∀ k ∈ s'.hashtree, g'.hashhead k ≠ []) := by
  have hph : p ∈ g.ochead h := by simp [hh]
  obtain ⟨k, -, hk, hpk, -, -⟩ := hs.ochead_link h p hph
  obtain ⟨ys, zs, hsplit⟩ := List.append_of_mem hpk
  have hhtree := hs.mem_octree hph
  have hktree := hs.mem_hashtree hpk
  have hhlive := hs.ocheads.live_tree hhtree
  have hklive := hs.hashheads.live_tree hktree
  have hqh := hs.ochead_queue h hhlive
  have hqk := hs.hashhead_queue k hklive
  have hlive : s.ocs.queues.live p = true := hqk.live hpk
  have hfreeK : ∀ q ∈ g.freeOcs, q ∉ g.hashhead k := fun q hq hmem =>
    hs.free_not_hashhead hmem (by simp [hq])
  have hpfree : p ∉ g.freeOcs := fun hmem => hfreeK p hmem hpk
  have hochead := mem_update_ochead hs hh
  have hhashhead := mem_update_hashhead hs hsplit
  rw [hh] at hqh
  rw [hsplit] at hqk hfreeK
  -- off the list of the hashhead
  let s₀ : Xkey := { s with hashhead := Function.update s.hashhead p none }
  have halive₀ : s₀.alive (.hashhead k) = true := hklive
  obtain ⟨m₁, hstep₁, hq₁, hoff₁, -, -⟩ := remove_spec hqk halive₀
  let s₁ : Xkey := s₀.setOcQueues m₁
  obtain ⟨hashheads, hashtree, digest, freeHeads, hdrop, hheads, htree, hmem, hdigest, hsub⟩ :=
    xkeyRemoveHashhead_spec (s := s₁) hs.hashheads hs.hashtree hktree hq₁.first_eq
  -- off the list of the ochead
  have hqh₁ : IsQueue m₁ .listOchead (.ochead h) (p :: ps) :=
    hqh.frame hoff₁ (by simp) (Or.inl (by simp))
  let s₂ : Xkey := { s₁ with
    hashheads, hashtree, digest, objcore := Function.update s₁.objcore p none }
  have halive₂ : s₂.alive (.ochead h) = true := hhlive
  obtain ⟨m₂, hstep₂, hq₂, hoff₂, -, hprev₂⟩ := remove_head_spec hqh₁ halive₂
  -- into the pool, or freed
  have hlive₂ : m₂.live = s.ocs.queues.live := hoff₂.live.trans hoff₁.live
  have hholds₂ : Holds poolMax { s.ocs with queues := m₂ } .listHashhead .pool g.freeOcs :=
    ⟨(hs.ocs.queue.frame hoff₁ (by simp) (Or.inr hfreeK)).frame hoff₂ (by simp)
      (Or.inl (by simp)), hs.ocs.count, hs.ocs.bound,
      fun x hx => hs.ocs.fresh x (hlive₂ ▸ hx)⟩
  obtain ⟨ocs, free, hstep₃, hholds, hr⟩ := delete_spec hholds₂
    (show (s₂.setOcQueues m₂).alive .pool = true from rfl)
    (show m₂.live p = true from hlive₂ ▸ hlive) hpfree
  have htouch : s.ocs.queues.touchElem p = .ok () := touchElem_ok hlive
  have htouch₂ : m₂.touchElem p = .ok () := touchElem_ok (hlive₂ ▸ hlive)
  refine ⟨_, _, ?_, unlink hs hh hptr hk hsplit hheads htree hmem hdigest hsub hholds
    ?_ ?_ ?_ ?_ ?_ ?_, rfl, rfl, rfl, rfl, rfl, rfl, ?_⟩
  · have hchk : check (s₂.objcore p).isNone = .ok () := by simp [s₂, check]
    refine (ok_bind htouch).trans ?_
    simp only [hk]
    refine (ok_bind hstep₁).trans ((ok_bind hdrop).trans ((ok_bind hstep₂).trans ?_))
    exact (ok_bind htouch₂).trans ((ok_bind hchk).trans (ok_bind hstep₃))
  · intro k' hl
    have hq := forall_isQueue_update (fun _ _ heq => OcsHead.hashhead.inj heq) hs.hashhead_queue
      hoff₁ hq₁ (fun k' hkk q hq hmem' => hkk (hs.hashhead_unique hq (hsplit ▸ hmem'))) k' hl
    refine hr.isQueue (hq.frame hoff₂ (by simp) (Or.inl (by simp))) (by simp)
      (fun hmem' => ((hhashhead k' p).mp hmem').2 rfl) (Or.inr fun q hq' hqfree => ?_)
    exact hs.free_not_hashhead ((hhashhead k' q).mp hq').1 (by simp [hqfree])
  · intro h' hl
    have hq := forall_isQueue_update (fun _ _ heq => OcsHead.ochead.inj heq)
      (fun h' hl => (hs.ochead_queue h' hl).frame hoff₁ (by simp) (Or.inl (by simp))) hoff₂ hq₂
      (fun h' hhh q hq hmem' => hhh (hs.ochead_unique hq (hh ▸ hmem'))) h' hl
    exact hr.isQueue hq (by simp) (fun hmem' => ((hochead h' p).mp hmem').2 rfl)
      (Or.inl (by simp))
  · exact hr.target.imp And.left And.left
  · intro q
    rw [hr.live]
    simp only [hlive₂]
  · intro q hq
    have hqh' : q ∉ p :: ps := fun hmem' => hs.unlinked q (by simp [hq]) h (hh ▸ hmem')
    exact ((hr.prev _ q (Or.inl (by simp))).trans (hoff₂.prev _ q (Or.inr hqh'))).trans
      (hoff₁.prev _ q (Or.inl (by simp)))
  · exact ((hr.prev _ p (Or.inl (by simp))).trans hprev₂).trans hqh₁.segment.2.1
  · intro k' hk'
    obtain ⟨hin, hnonempty⟩ := (hmem k').mp hk'
    by_cases hkk : k' = k
    · simpa [hkk] using hnonempty hkk
    · simpa [hkk] using hne k' hin

theorem index_nil {h : OcheadPtr} {o : Objcore} (hs : Represents s g ix) (hh : h ∈ s.octree)
    (hptr : s.ptr h = (o : Nat)) (hempty : g.ochead h = []) : ix o = [] := by
  have hmap := hs.map_keyOf hh hptr
  rw [hempty, List.map_nil] at hmap
  exact List.map_eq_nil_iff.mp hmap.symm

/-- The loop empties the list of the ochead and nothing else. -/
theorem xkeyRemoveLoop_spec {h : OcheadPtr} {ps : List OcPtr} {o : Objcore} {n : Nat}
    (hn : ps.length ≤ n) (hs : Represents s g ix) (hh : h ∈ s.octree)
    (hps : g.ochead h = ps) (hptr : s.ptr h = (o : Nat))
    (hne : ∀ k ∈ s.hashtree, g.hashhead k ≠ []) :
    ∃ s' g', xkeyRemoveLoop h n ps.head? s = .ok s' ∧
      Represents s' g' (Function.update ix o []) ∧
      g'.ochead = Function.update g.ochead h [] ∧ g'.looseHashheads = g.looseHashheads ∧
      g'.looseOcheads = g.looseOcheads ∧ g'.looseOcs = g.looseOcs ∧
      s'.octree = s.octree ∧ s'.ptr = s.ptr ∧ (∀ k ∈ s'.hashtree, g'.hashhead k ≠ []) := by
  induction ps generalizing s g ix n with
  | nil =>
      have hix : Function.update ix o [] = ix :=
        Function.update_eq_self_iff.mpr (index_nil hs hh hptr hps).symm
      have hochead : Function.update g.ochead h [] = g.ochead :=
        Function.update_eq_self_iff.mpr hps.symm
      refine ⟨s, g, ?_, by rwa [hix], hochead.symm, rfl, rfl, rfl, rfl, rfl, hne⟩
      cases n <;> rfl
  | cons p ps ih =>
      obtain ⟨n, rfl⟩ : ∃ m, n = m + 1 := ⟨n - 1, by simp at hn; omega⟩
      have hq := hs.ochead_queue h (hs.ocheads.live_tree hh)
      rw [hps] at hq
      obtain ⟨s₁, g₁, hstep, hs₁, hochead, hlooseK, hlooseH, hlooseP, hoctree, hptr₁, hne₁⟩ :=
        xkeyRemoveOc_spec hs hps hptr hne
      obtain ⟨s₂, g₂, hloop, hs₂, hochead₂, hlooseK₂, hlooseH₂, hlooseP₂, hoctree₂, hptr₂, hne₂⟩ :=
        ih (n := n) (by simpa using hn) hs₁ (hoctree ▸ hh) (by simp [hochead])
          (by rw [hptr₁, hptr]) hne₁
      refine ⟨s₂, g₂, ?_, by simpa using hs₂, by simp [hochead₂, hochead],
        hlooseK₂.trans hlooseK, hlooseH₂.trans hlooseH, hlooseP₂.trans hlooseP,
        hoctree₂.trans hoctree, hptr₂.trans hptr₁, hne₂⟩
      refine (ok_bind (touchElem_ok (hq.live (by simp)))).trans ?_
      rw [hq.next_eq]
      exact (ok_bind hstep).trans hloop

theorem detachOchead {h : OcheadPtr} (hs : Represents s g ix) (hh : h ∈ s.octree)
    (hempty : g.ochead h = []) :
    Represents { s with octree := s.octree.erase h }
      { g with looseOcheads := h :: g.looseOcheads } ix := by
  have hmem : ∀ h', h' ∈ s.octree.erase h ↔ h' ≠ h ∧ h' ∈ s.octree := fun h' =>
    hs.octree.mem_erase
  refine { hs with
    ocheads := hs.ocheads.detach hh, octree := hs.octree.erase h, ochead_outside := ?_
    index := fun h' hh' => hs.index h' ((hmem h').mp hh').2, index_absent := ?_ }
  · intro h' hh'
    by_cases hhh : h' = h
    · exact hhh ▸ hempty
    · exact hs.ochead_outside h' fun hin => hh' ((hmem h').mpr ⟨hhh, hin⟩)
  · intro o ho
    by_cases hptr : s.ptr h = (o : Nat)
    · exact index_nil hs hh hptr hempty
    · refine hs.index_absent o fun h' hh' => ?_
      by_cases hhh : h' = h
      · exact hhh ▸ hptr
      · exact ho h' ((hmem h').mpr ⟨hhh, hh'⟩)

theorem xkeyRemove_spec {h : OcheadPtr} {o : Objcore} (hs : Represents s g ix)
    (hset : Settled s g) (hh : h ∈ s.octree) (hptr : s.ptr h = (o : Nat)) :
    ∃ s' g', xkeyRemove s h = .ok s' ∧ Represents s' g' (Function.update ix o []) ∧
      Settled s' g' ∧ g'.looseOcs = g.looseOcs := by
  have hlive := hs.ocheads.live_tree hh
  have hq := hs.ochead_queue h hlive
  obtain ⟨s₁, g₁, hloop, hs₁, hochead, hlooseK, hlooseH, hlooseP, hoctree, -, hne⟩ :=
    xkeyRemoveLoop_spec (hs.ocs.length_le_fresh hq) hs hh rfl hptr hset.hashhead_nonempty
  have hh₁ : h ∈ s₁.octree := hoctree ▸ hh
  have hempty : g₁.ochead h = [] := by simp [hochead]
  have hq₁ := hs₁.ochead_queue h (hs₁.ocheads.live_tree hh₁)
  rw [hempty] at hq₁
  have hcheck : check (s₁.ocs.queues.first (.ochead h)).isNone = .ok () := by
    simp [check, hq₁.first_eq]
  obtain ⟨s₂, free, hdelete, hs₂, hoctree₂, hhashtree₂, -, -⟩ :=
    xkeyOcheadDelete_spec (g := g₁) (detachOchead hs₁ hh₁ hempty)
  refine ⟨s₂, _, ?_, hs₂, ⟨hlooseK.trans hset.looseHashheads, hlooseH.trans hset.looseOcheads,
    ?_, ?_⟩, hlooseP⟩
  · refine (ok_bind (touchElem_ok hlive)).trans ?_
    rw [hq.first_eq]
    exact (ok_bind hloop).trans ((ok_bind hcheck).trans hdelete)
  · intro k hk
    exact hne k (hhashtree₂ ▸ hk)
  · intro h' hh'
    have hmem : h' ∈ s₁.octree.erase h := by rwa [hoctree₂] at hh'
    obtain ⟨hhh, hin⟩ := hs₁.octree.mem_erase.mp hmem
    simpa [hochead, hhh] using hset.ochead_nonempty h' (hoctree ▸ hin)

theorem xkeyCbRemove_spec (hs : Represents s g ix) (hset : Settled s g) (o : Objcore) :
    ∃ s' g', xkeyCbRemove s o = .ok s' ∧ Represents s' g' (Function.update ix o []) ∧
      Settled s' g' ∧ g'.looseOcs = g.looseOcs := by
  cases hfind : OrderedTree.find s.ptr o s.octree with
  | none =>
      have hix : ix o = [] := hs.index_absent o (OrderedTree.find_eq_none_iff.mp hfind)
      refine ⟨s, g, ?_, ?_, hset, rfl⟩
      · simp [xkeyCbRemove, xkeyOctreeLookup, hfind, bind, Except.bind, pure, Except.pure]
      · rwa [Function.update_eq_self_iff.mpr hix.symm]
  | some h =>
      obtain ⟨hh, hptr⟩ := (OrderedTree.find_eq_some_iff hs.octree).mp hfind
      obtain ⟨s', g', hstep, hspec⟩ := xkeyRemove_spec hs hset hh hptr
      refine ⟨s', g', ?_, hspec⟩
      simp [xkeyCbRemove, xkeyOctreeLookup, hfind, touchElem_ok (hs.ocheads.live_tree hh), hstep,
        bind, Except.bind, pure, Except.pure]

end VarnishModules.XkeyRemove
