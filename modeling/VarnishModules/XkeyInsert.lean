import VarnishModules.XkeyRepresentation

/-!
`xkey_insert` adds one digest at the end of the digests of its objcore.
-/

namespace VarnishModules.XkeyInsert

open VarnishModules.TailQueue
open VarnishModules.ObjectPool
open VarnishModules.XkeyModel
open VarnishModules.XkeyRepresentation

/-- The shapes differ in their free lists only. -/
structure SameLinks (g g' : Shape) : Prop where
  ochead : g'.ochead = g.ochead
  hashhead : g'.hashhead = g.hashhead
  looseHashheads : g'.looseHashheads = g.looseHashheads
  looseOcheads : g'.looseOcheads = g.looseOcheads
  looseOcs : g'.looseOcs = g.looseOcs

theorem SameLinks.trans {g₁ g₂ g₃ : Shape} (h₁ : SameLinks g₁ g₂) (h₂ : SameLinks g₂ g₃) :
    SameLinks g₁ g₃ where
  ochead := h₂.ochead.trans h₁.ochead
  hashhead := h₂.hashhead.trans h₁.hashhead
  looseHashheads := h₂.looseHashheads.trans h₁.looseHashheads
  looseOcheads := h₂.looseOcheads.trans h₁.looseOcheads
  looseOcs := h₂.looseOcs.trans h₁.looseOcs

variable {s : Xkey} {g : Shape} {ix : Objcore → List Digest}

theorem xkeyOcheadNew_spec (hs : Represents s g ix) :
    ∃ h s' free, xkeyOcheadNew s = .ok (h, s') ∧
      Represents s' { g with freeOcheads := free, looseOcheads := h :: g.looseOcheads } ix ∧
      s'.octree = s.octree ∧ s'.hashtree = s.hashtree := by
  obtain ⟨h, isNew, p, free, hstep, hp, hdead, halive, hlive⟩ := hs.ocheads.new .nullDeref
  have hh : h ∉ s.octree := hp.not_mem_tree_of_loose (by simp)
  cases isNew with
  | false =>
      refine ⟨h, { s with ocheads := p }, free, ?_, hs.setOcheads hp ?_, rfl, rfl⟩
      · simp [xkeyOcheadNew, hstep, bind, Except.bind, pure, Except.pure]
      · intro h' hl
        rcases (hlive h').mp hl with rfl | hl
        · exact hs.ochead_queue h' (halive rfl)
        · exact hs.ochead_queue h' hl
  | true =>
      have hinit := (hs.setPtr hh 0).initOcs (c := .ochead h) (by simp)
        (by rintro h' ⟨⟩; exact hs.ochead_outside h hh) (by simp)
      refine ⟨h, _, free, ?_, hinit.setOcheads hp ?_, rfl, rfl⟩
      · simp [xkeyOcheadNew, hstep, bind, Except.bind, pure, Except.pure, Xkey.setOcQueues]
      · intro h' hl
        rcases (hlive h').mp hl with rfl | hl
        · rw [hs.ochead_outside h' hh]
          exact isQueue_init _ _ _
        · exact hinit.ochead_queue h' hl

theorem xkeyHashheadNew_spec (hs : Represents s g ix) :
    ∃ k s' free, xkeyHashheadNew s = .ok (k, s') ∧
      Represents s' { g with
        freeHashheads := free, looseHashheads := k :: g.looseHashheads } ix ∧
      s'.hashtree = s.hashtree ∧ s'.octree = s.octree ∧ s'.ptr = s.ptr := by
  obtain ⟨k, isNew, p, free, hstep, hp, hdead, halive, hlive⟩ := hs.hashheads.new .assertion
  have hk : k ∉ s.hashtree := hp.not_mem_tree_of_loose (by simp)
  cases isNew with
  | false =>
      refine ⟨k, { s with hashheads := p }, free, ?_, hs.setHashheads hp ?_, rfl, rfl, rfl⟩
      · simp [xkeyHashheadNew, hstep, bind, Except.bind, pure, Except.pure]
      · intro k' hl
        rcases (hlive k').mp hl with rfl | hl
        · exact hs.hashhead_queue k' (halive rfl)
        · exact hs.hashhead_queue k' hl
  | true =>
      have hinit := (hs.setDigest hk Digest.zero).initOcs (c := .hashhead k) (by simp)
        (by simp) (by rintro k' ⟨⟩; exact hs.hashhead_outside k hk)
      refine ⟨k, _, free, ?_, hinit.setHashheads hp ?_, rfl, rfl, rfl⟩
      · simp [xkeyHashheadNew, hstep, bind, Except.bind, pure, Except.pure, Xkey.setOcQueues]
      · intro k' hl
        rcases (hlive k').mp hl with rfl | hl
        · rw [hs.hashhead_outside k' hk]
          exact isQueue_init _ _ _
        · exact hinit.hashhead_queue k' hl

theorem xkeyOcheadDelete_spec {h : OcheadPtr} {loose : List OcheadPtr}
    (hs : Represents s { g with looseOcheads := h :: loose } ix) :
    ∃ s' free, xkeyOcheadDelete s h = .ok s' ∧
      Represents s' { g with freeOcheads := free, looseOcheads := loose } ix ∧
      s'.octree = s.octree ∧ s'.hashtree = s.hashtree ∧
      (∀ h' ∈ s.octree, s'.ptr h' = s.ptr h') ∧
      (∀ h', s'.ocheads.queues.live h' = true → s.ocheads.queues.live h' = true) := by
  have hh : h ∉ s.octree := hs.ocheads.not_mem_tree_of_loose (by simp)
  have hlive : s.ocheads.queues.live h = true := hs.ocheads.live_loose (by simp)
  obtain ⟨p, free, hstep, hp, hsub⟩ := hs.ocheads.delete
  have hempty : s.ocs.queues.first (.ochead h) = none := by
    have hq := hs.ochead_queue h hlive
    rw [hs.ochead_outside h hh] at hq
    exact hq.first_eq
  let ptr := if s.ocheads.count < poolMax then Function.update s.ptr h 0 else s.ptr
  have hptr : Represents { s with ptr } { g with looseOcheads := h :: loose } ix := by
    by_cases hcount : s.ocheads.count < poolMax
    · simpa [ptr, hcount] using hs.setPtr hh 0
    · simpa [ptr, hcount] using hs
  refine ⟨{ s with ptr, ocheads := p }, free, ?_,
    hptr.setOcheads hp (fun h' hl => hs.ochead_queue h' (hsub h' hl)), rfl, rfl, ?_, hsub⟩
  · simp [xkeyOcheadDelete, touchElem_ok hlive, check, hempty, hstep, bind, Except.bind,
      pure, Except.pure, ptr]
  · intro h' hh'
    have hne : h' ≠ h := fun heq => hh (heq ▸ hh')
    by_cases hcount : s.ocheads.count < poolMax <;> simp [ptr, hcount, hne]

/-- What the release of a hashhead does to the heads alone. -/
theorem xkeyHashheadDelete_heads {tree free loose : List HashheadPtr} {k : HashheadPtr}
    (hp : HeadsOk s.hashheads tree free (k :: loose))
    (hempty : s.ocs.queues.first (.hashhead k) = none) :
    ∃ hashheads digest free', xkeyHashheadDelete s k = .ok { s with hashheads, digest } ∧
      HeadsOk hashheads tree free' loose ∧ (∀ k', k' ≠ k → digest k' = s.digest k') ∧
      (∀ k', hashheads.queues.live k' = true → s.hashheads.queues.live k' = true) := by
  have hlive : s.hashheads.queues.live k = true := hp.live_loose (by simp)
  obtain ⟨p, free', hstep, hp', hsub⟩ := hp.delete
  let digest := if s.hashheads.count < poolMax then
    Function.update s.digest k Digest.zero else s.digest
  refine ⟨p, digest, free', ?_, hp', ?_, hsub⟩
  · simp [xkeyHashheadDelete, touchElem_ok hlive, check, hempty, hstep, bind, Except.bind,
      pure, Except.pure, digest]
  · intro k' hne
    by_cases hcount : s.hashheads.count < poolMax <;> simp [digest, hcount, hne]

theorem xkeyHashheadDelete_spec {k : HashheadPtr} {loose : List HashheadPtr}
    (hs : Represents s { g with looseHashheads := k :: loose } ix) :
    ∃ s' free, xkeyHashheadDelete s k = .ok s' ∧
      Represents s' { g with freeHashheads := free, looseHashheads := loose } ix ∧
      s'.hashtree = s.hashtree ∧ s'.octree = s.octree ∧ s'.ptr = s.ptr ∧
      (∀ k' ∈ s.hashtree, s'.digest k' = s.digest k') := by
  have hk : k ∉ s.hashtree := hs.hashheads.not_mem_tree_of_loose (by simp)
  have hempty : s.ocs.queues.first (.hashhead k) = none := by
    have hq := hs.hashhead_queue k (hs.hashheads.live_loose (by simp))
    rw [hs.hashhead_outside k hk] at hq
    exact hq.first_eq
  obtain ⟨p, digest, free, hstep, hp, hdigest, hsub⟩ :=
    xkeyHashheadDelete_heads hs.hashheads hempty
  have hdigest' : ∀ k' ∈ s.hashtree, digest k' = s.digest k' := fun k' hk' =>
    hdigest k' fun heq => hk (heq ▸ hk')
  exact ⟨_, free, hstep, (hs.congrDigest hdigest').setHashheads hp
    (fun k' hl => hs.hashhead_queue k' (hsub k' hl)), rfl, rfl, rfl, hdigest'⟩

/-- A loose head enters the octree under a pointer that is not there yet. -/
theorem attachOchead {h : OcheadPtr} {loose : List OcheadPtr} {o : Objcore}
    (hs : Represents s { g with looseOcheads := h :: loose } ix) (hptr : s.ptr h = (o : Nat))
    (habsent : ∀ h' ∈ s.octree, s.ptr h' ≠ s.ptr h) :
    Represents { s with octree := s.octree.orderedInsert (fun a b => s.ptr a ≤ s.ptr b) h }
      { g with looseOcheads := loose } ix := by
  have hh : h ∉ s.octree := hs.ocheads.not_mem_tree_of_loose (by simp)
  have hperm : (s.octree.orderedInsert (fun a b => s.ptr a ≤ s.ptr b) h).Perm (h :: s.octree) :=
    List.perm_orderedInsert _ _ _
  refine { hs with
    ocheads := hs.ocheads.attach hperm, octree := hs.octree.orderedInsert habsent
    ochead_outside := ?_, index := ?_, index_absent := ?_ }
  · intro h' hh'
    exact hs.ochead_outside h' fun hmem => hh' (hperm.mem_iff.mpr (by simp [hmem]))
  · intro h' hh'
    rcases List.mem_cons.mp (hperm.mem_iff.mp hh') with rfl | hh'
    · have hix : ix o = [] := hs.index_absent o fun h'' hh'' => hptr ▸ habsent h'' hh''
      have hempty : g.ochead h' = [] := hs.ochead_outside h' hh
      exact ⟨o, hptr, by simp [hix, hempty]⟩
    · exact hs.index h' hh'
  · intro o' ho'
    exact hs.index_absent o' fun h' hh' => ho' h' (hperm.mem_iff.mpr (by simp [hh']))

theorem attachHashhead {k : HashheadPtr} {loose : List HashheadPtr}
    (hs : Represents s { g with looseHashheads := k :: loose } ix)
    (habsent : ∀ k' ∈ s.hashtree, s.digest k' ≠ s.digest k) :
    Represents
      { s with hashtree := s.hashtree.orderedInsert (fun a b => s.digest a ≤ s.digest b) k }
      { g with looseHashheads := loose } ix := by
  have hperm : (s.hashtree.orderedInsert (fun a b => s.digest a ≤ s.digest b) k).Perm
      (k :: s.hashtree) := List.perm_orderedInsert _ _ _
  refine { hs with
    hashheads := hs.hashheads.attach hperm, hashtree := hs.hashtree.orderedInsert habsent
    hashhead_outside := ?_ }
  intro k' hk'
  exact hs.hashhead_outside k' fun hmem => hk' (hperm.mem_iff.mpr (by simp [hmem]))

theorem xkeyOctreeInsert_spec (hs : Represents s g ix) (o : Objcore) :
    ∃ h s' g', xkeyOctreeInsert s o = .ok (h, s') ∧ Represents s' g' ix ∧ SameLinks g g' ∧
      h ∈ s'.octree ∧ s'.ptr h = (o : Nat) ∧
      (∀ h' ∈ s'.octree, h' = h ∨ h' ∈ s.octree) ∧ s'.hashtree = s.hashtree := by
  obtain ⟨h, s₁, free, hnew, hs₁, hoctree₁, hhashtree₁⟩ := xkeyOcheadNew_spec hs
  have hh : h ∉ s₁.octree := hs₁.ocheads.not_mem_tree_of_loose (by simp)
  let s₂ : Xkey := { s₁ with ptr := Function.update s₁.ptr h o }
  let g₂ : Shape := { g with freeOcheads := free }
  have hs₂ : Represents s₂ { g₂ with looseOcheads := h :: g.looseOcheads } ix :=
    hs₁.setPtr hh o
  have hptr : s₂.ptr h = (o : Nat) := by simp [s₂]
  by_cases hfound : ∃ h' ∈ s₂.octree, s₂.ptr h' = s₂.ptr h
  · -- The objcore is known: the new head goes back to the pool.
    obtain ⟨h', hh', hkey⟩ := hfound
    obtain ⟨s₃, free', hdelete, hs₃, hoctree₃, hhashtree₃, hptr₃, -⟩ :=
      xkeyOcheadDelete_spec (g := g₂) hs₂
    have hh₃ : h' ∈ s₃.octree := hoctree₃ ▸ hh'
    have htouch := touchElem_ok (hs₃.ocheads.live_tree hh₃)
    refine ⟨h', s₃, _, ?_, hs₃, ⟨rfl, rfl, rfl, rfl, rfl⟩, hh₃, ?_, ?_, ?_⟩
    · have hinsert : OrderedTree.insert (Function.update s₁.ptr h o) h s₁.octree =
          (some h', s₁.octree) := OrderedTree.insert_of_mem hs₂.octree hh' hkey
      simp only [s₂] at hdelete
      simp only [xkeyOctreeInsert, hnew, bind, Except.bind, pure, Except.pure, hinsert, hdelete,
        htouch]
    · rw [hptr₃ h' hh', hkey, hptr]
    · intro h'' hh''
      exact Or.inr (hoctree₁ ▸ (hoctree₃ ▸ hh'' : h'' ∈ s₂.octree))
    · exact hhashtree₃.trans hhashtree₁
  · have habsent : ∀ h' ∈ s₂.octree, s₂.ptr h' ≠ s₂.ptr h := fun h' hh' hkey =>
      hfound ⟨h', hh', hkey⟩
    refine ⟨h, _, _, ?_, attachOchead (g := g₂) hs₂ hptr habsent, ⟨rfl, rfl, rfl, rfl, rfl⟩,
      OrderedTree.mem_orderedInsert.mpr (Or.inl rfl), hptr, ?_, hhashtree₁⟩
    · have hinsert : OrderedTree.insert (Function.update s₁.ptr h o) h s₁.octree =
          (none, _) := OrderedTree.insert_of_absent habsent
      simp only [xkeyOctreeInsert, hnew, bind, Except.bind, pure, Except.pure, hinsert]
      rfl
    · intro h' hh'
      rcases OrderedTree.mem_orderedInsert.mp hh' with rfl | hh'
      · exact Or.inl rfl
      · exact Or.inr (hoctree₁ ▸ hh')

theorem xkeyHashtreeInsert_spec (hs : Represents s g ix) (d : Digest) :
    ∃ k s' g', xkeyHashtreeInsert s d = .ok (k, s') ∧ Represents s' g' ix ∧ SameLinks g g' ∧
      k ∈ s'.hashtree ∧ s'.digest k = d ∧
      (∀ k' ∈ s'.hashtree, k' = k ∨ k' ∈ s.hashtree) ∧
      s'.octree = s.octree ∧ s'.ptr = s.ptr := by
  obtain ⟨k, s₁, free, hnew, hs₁, hhashtree₁, hoctree₁, hptr₁⟩ := xkeyHashheadNew_spec hs
  have hk : k ∉ s₁.hashtree := hs₁.hashheads.not_mem_tree_of_loose (by simp)
  let s₂ : Xkey := { s₁ with digest := Function.update s₁.digest k d }
  let g₂ : Shape := { g with freeHashheads := free }
  have hs₂ : Represents s₂ { g₂ with looseHashheads := k :: g.looseHashheads } ix :=
    hs₁.setDigest hk d
  have hdigest : s₂.digest k = d := by simp [s₂]
  by_cases hfound : ∃ k' ∈ s₂.hashtree, s₂.digest k' = s₂.digest k
  · -- The digest is known: the new head goes back to the pool.
    obtain ⟨k', hk', hkey⟩ := hfound
    obtain ⟨s₃, free', hdelete, hs₃, hhashtree₃, hoctree₃, hptr₃, hdigest₃⟩ :=
      xkeyHashheadDelete_spec (g := g₂) hs₂
    have hk₃ : k' ∈ s₃.hashtree := hhashtree₃ ▸ hk'
    have htouch := touchElem_ok (hs₃.hashheads.live_tree hk₃)
    refine ⟨k', s₃, _, ?_, hs₃, ⟨rfl, rfl, rfl, rfl, rfl⟩, hk₃, ?_, ?_,
      hoctree₃.trans hoctree₁, hptr₃.trans hptr₁⟩
    · have hinsert : OrderedTree.insert (Function.update s₁.digest k d) k s₁.hashtree =
          (some k', s₁.hashtree) := OrderedTree.insert_of_mem hs₂.hashtree hk' hkey
      simp only [s₂] at hdelete
      simp only [xkeyHashtreeInsert, hnew, bind, Except.bind, pure, Except.pure, hinsert, hdelete,
        htouch]
    · rw [hdigest₃ k' hk', hkey, hdigest]
    · intro k'' hk''
      exact Or.inr (hhashtree₁ ▸ (hhashtree₃ ▸ hk'' : k'' ∈ s₂.hashtree))
  · have habsent : ∀ k' ∈ s₂.hashtree, s₂.digest k' ≠ s₂.digest k := fun k' hk' hkey =>
      hfound ⟨k', hk', hkey⟩
    refine ⟨k, _, _, ?_, attachHashhead (g := g₂) hs₂ habsent, ⟨rfl, rfl, rfl, rfl, rfl⟩,
      OrderedTree.mem_orderedInsert.mpr (Or.inl rfl), hdigest, ?_, hoctree₁, hptr₁⟩
    · have hinsert : OrderedTree.insert (Function.update s₁.digest k d) k s₁.hashtree =
          (none, _) := OrderedTree.insert_of_absent habsent
      simp only [xkeyHashtreeInsert, hnew, bind, Except.bind, pure, Except.pure, hinsert]
      rfl
    · intro k' hk'
      rcases OrderedTree.mem_orderedInsert.mp hk' with rfl | hk'
      · exact Or.inl rfl
      · exact Or.inr (hhashtree₁ ▸ hk')

/-- A link taken from the pool or allocated is on no list of the two indexes; it
is loose until `xkey_insert` puts it on two of them. -/
theorem takeOc (hs : Represents s g ix) {ocs : Pool OcsHead OcLink} {p : OcPtr} {isNew : Bool}
    {free : List OcPtr} {hashhead : OcPtr → Option HashheadPtr}
    {objcore : OcPtr → Option Objcore}
    (hholds : Holds poolMax ocs .listHashhead .pool free)
    (ht : Taken s.ocs .listHashhead .pool g.freeOcs p isNew ocs free)
    (hhashhead : ∀ q, q ≠ p → hashhead q = s.hashhead q)
    (hobjcore : ∀ q, q ≠ p → objcore q = s.objcore q) :
    Represents { s with ocs, hashhead, objcore }
      { g with freeOcs := free, looseOcs := p :: g.looseOcs } ix := by
  have hp : ∀ h, ∀ q ∈ g.ochead h, q ≠ p := by
    rintro h q hmem rfl
    rcases ht.source with ⟨hfree, -⟩ | ⟨-, -, -, hdead⟩
    · exact hs.unlinked q (by simp [hfree]) h hmem
    · exact absurd ((hs.live q).mpr (Or.inr ⟨h, hmem⟩)) (by simp [hdead])
  have hp' : ∀ k, ∀ q ∈ g.hashhead k, q ≠ p := fun k q hmem =>
    let ⟨_, h, hh⟩ := hs.hashhead_link k q hmem
    hp h q hh
  have hlinked : ∀ k, ∀ q ∈ g.hashhead k, q ∉ g.freeOcs := fun k q hq hfree =>
    hs.free_not_hashhead hq (by simp [hfree])
  -- What was unlinked before is unlinked now, and `p` on top if it is new.
  have hunlinked : ∀ q, q ∈ free ++ p :: g.looseOcs ↔
      q = p ∨ q ∈ g.freeOcs ++ g.looseOcs := by
    intro q
    rcases ht.source with ⟨hfree, -⟩ | ⟨hfree, rfl, -, -⟩
    · rw [hfree]
      simp only [List.mem_append, List.mem_cons]
      tauto
    · simp [hfree]
  have hnodup : (free ++ p :: g.looseOcs).Nodup := by
    rcases ht.source with ⟨hfree, -⟩ | ⟨hfree, rfl, -, hdead⟩
    · have hnd := hs.unlinked_nodup
      rw [hfree] at hnd
      exact (List.perm_middle.symm : (p :: (free ++ g.looseOcs)).Perm _).nodup_iff.mp hnd
    · have hnd := hs.unlinked_nodup
      rw [hfree] at hnd
      refine List.nodup_cons.mpr ⟨fun hmem => ?_, hnd⟩
      have hlive := (hs.live p).mpr (Or.inl (by simp [hmem]))
      simp [hdead] at hlive
  have hfreeSub : ∀ q ∈ free, q ∈ g.freeOcs ∧ q ≠ p := by
    intro q hq
    rcases ht.source with ⟨hfree, -⟩ | ⟨-, rfl, -, -⟩
    · refine ⟨by simp [hfree, hq], ?_⟩
      rintro rfl
      have hnd := hs.ocs.queue.nodup
      rw [hfree] at hnd
      exact (List.nodup_cons.mp hnd).1 hq
    · simp at hq
  refine { hs with
    ocs := hholds, hashhead_queue := ?_, ochead_queue := ?_, ochead_link := ?_
    hashhead_link := ?_, unlinked_nodup := hnodup, unlinked := ?_, live := ?_
    free_cleared := ?_, free_prev := ?_, index := ?_ }
  · intro k hk
    exact ht.isQueue (hs.hashhead_queue k hk) (by simp) (fun hmem => hp' k p hmem rfl)
      (Or.inr (hlinked k))
  · intro h hh
    exact ht.isQueue (hs.ochead_queue h hh) (by simp) (fun hmem => hp h p hmem rfl)
      (Or.inl (by simp))
  · intro h q hq
    obtain ⟨k, o, hk, hqk, ho, hptr⟩ := hs.ochead_link h q hq
    have hne := hp h q hq
    exact ⟨k, o, (hhashhead q hne).trans hk, hqk, (hobjcore q hne).trans ho, hptr⟩
  · intro k q hq
    obtain ⟨hk, hh⟩ := hs.hashhead_link k q hq
    exact ⟨(hhashhead q (hp' k q hq)).trans hk, hh⟩
  · intro q hq h hmem
    rcases (hunlinked q).mp hq with rfl | hq
    · exact hp h q hmem rfl
    · exact hs.unlinked q hq h hmem
  · intro q
    rw [ht.live, hs.live, hunlinked, or_assoc]
  · intro q hq
    obtain ⟨hfree, hne⟩ := hfreeSub q hq
    obtain ⟨ho, hk⟩ := hs.free_cleared q hfree
    exact ⟨(hobjcore q hne).trans ho, (hhashhead q hne).trans hk⟩
  · intro q hq
    obtain ⟨hfree, hne⟩ := hfreeSub q hq
    obtain ⟨h, hprev⟩ := hs.free_prev q hfree
    exact ⟨h, (ht.prev _ q hne (Or.inl (by simp))).trans hprev⟩
  · intro h hh
    obtain ⟨o, ho, hmap⟩ := hs.index h hh
    refine ⟨o, ho, Eq.trans (List.map_congr_left ?_) hmap⟩
    intro q hq
    simp [keyOf, hhashhead q (hp h q hq)]

theorem xkeyOcNew_spec (hs : Represents s g ix) :
    ∃ p s' free, xkeyOcNew s = .ok (p, s') ∧
      Represents s' { g with freeOcs := free, looseOcs := p :: g.looseOcs } ix ∧
      s'.octree = s.octree ∧ s'.hashtree = s.hashtree ∧ s'.ptr = s.ptr ∧
      s'.digest = s.digest := by
  obtain ⟨p, isNew, ocs, free, hstep, hholds, ht⟩ :=
    new_spec hs.ocs (show s.alive .pool = true from rfl) .nullDeref
  cases isNew with
  | false =>
      refine ⟨p, { s with ocs }, free, ?_,
        takeOc hs hholds ht (fun _ _ => rfl) (fun _ _ => rfl), rfl, rfl, rfl, rfl⟩
      simp [xkeyOcNew, hstep, bind, Except.bind, pure, Except.pure]
  | true =>
      let s' : Xkey := { s with
        ocs, hashhead := Function.update s.hashhead p none
        objcore := Function.update s.objcore p none }
      refine ⟨p, s', free, ?_, takeOc hs hholds ht ?_ ?_, rfl, rfl, rfl, rfl⟩
      · simp [s', xkeyOcNew, hstep, bind, Except.bind, pure, Except.pure]
      · intro q hq
        simp [hq]
      · intro q hq
        simp [hq]

/-- What is on a list and what is not, after `p` is put on the list of `h`. -/
theorem mem_update_append {f : Nat → List Nat} {h : Nat} {p : Nat} (h' q : Nat) :
    q ∈ Function.update f h (f h ++ [p]) h' ↔ q ∈ f h' ∨ (h' = h ∧ q = p) := by
  by_cases heq : h' = h
  · subst heq
    simp
  · simp [heq]

/-- A loose link goes on the lists of an ochead and a hashhead. -/
theorem link {p : OcPtr} {h : OcheadPtr} {k : HashheadPtr} {o : Objcore} {d : Digest}
    (hs : Represents s { g with looseOcs := p :: g.looseOcs } ix)
    (hh : h ∈ s.octree) (hptr : s.ptr h = (o : Nat)) (hk : k ∈ s.hashtree)
    (hdigest : s.digest k = d) :
    ∃ queues₁ queues, s.ocs.queues.insertTail s.alive .listOchead (.ochead h) p = .ok queues₁ ∧
      queues₁.insertTail s.alive .listHashhead (.hashhead k) p = .ok queues ∧
      Represents { s.setOcQueues queues with
          objcore := Function.update s.objcore p (some o)
          hashhead := Function.update s.hashhead p (some k) }
        { g with
          ochead := Function.update g.ochead h (g.ochead h ++ [p])
          hashhead := Function.update g.hashhead k (g.hashhead k ++ [p]) }
        (Function.update ix o (ix o ++ [d])) := by
  have hlive : s.ocs.queues.live p = true := (hs.live p).mpr (Or.inl (by simp))
  have hp : ∀ h', p ∉ g.ochead h' := hs.unlinked p (by simp)
  have hp' : ∀ k', p ∉ g.hashhead k' := fun k' hmem => hs.free_not_hashhead hmem (by simp)
  have hnodup := hs.unlinked_nodup
  have hpfree : p ∉ g.freeOcs := fun hmem =>
    (List.nodup_append.mp hnodup).2.2 p hmem p (by simp) rfl
  have hh' : s.alive (.ochead h) = true := hs.ocheads.live_tree hh
  have hk' : s.alive (.hashhead k) = true := hs.hashheads.live_tree hk
  obtain ⟨m₁, hstep₁, hq₁, hoff₁⟩ := insertTail_spec (hs.ochead_queue h hh') hh' hlive (hp h)
  have hkq : IsQueue m₁ .listHashhead (.hashhead k) (g.hashhead k) :=
    (hs.hashhead_queue k hk').frame hoff₁ (by simp) (Or.inl (by simp))
  obtain ⟨m₂, hstep₂, hq₂, hoff₂⟩ := insertTail_spec hkq hk' (hoff₁.live ▸ hlive) (hp' k)
  have hlive₂ : m₂.live = s.ocs.queues.live := hoff₂.live.trans hoff₁.live
  have hochead := mem_update_append (f := g.ochead) (h := h) (p := p)
  have hhashhead := mem_update_append (f := g.hashhead) (h := k) (p := p)
  let s' : Xkey := { s.setOcQueues m₂ with
    objcore := Function.update s.objcore p (some o)
    hashhead := Function.update s.hashhead p (some k) }
  refine ⟨m₁, m₂, hstep₁, hstep₂, show Represents s' _ _ from { hs with
    ocs := ⟨?_, hs.ocs.count, hs.ocs.bound, fun x hx => hs.ocs.fresh x (hlive₂ ▸ hx)⟩
    hashhead_queue := ?_, ochead_queue := ?_, hashhead_outside := ?_, ochead_outside := ?_
    ochead_link := ?_, hashhead_link := ?_
    unlinked_nodup := (List.nodup_append.mp hnodup).2.1 |> fun hl =>
      hnodup.sublist (List.Sublist.append_left (List.sublist_cons_self p _) _)
    unlinked := ?_, live := ?_, free_cleared := ?_, free_prev := ?_, index := ?_
    index_absent := hs.index_absent_update hh hptr }⟩
  · -- the free list
    have hfree : ∀ q ∈ g.freeOcs, q ∉ p :: g.hashhead k := by
      intro q hq hmem
      rcases List.mem_cons.mp hmem with rfl | hmem
      · exact hpfree hq
      · exact hs.free_not_hashhead hmem (by simp [hq])
    exact (hs.ocs.queue.frame hoff₁ (by simp) (Or.inl (by simp))).frame hoff₂ (by simp)
      (Or.inr hfree)
  · have hdisj : ∀ k', k' ≠ k → ∀ q ∈ g.hashhead k', q ∉ p :: g.hashhead k :=
      fun k' hkk q hq => List.not_mem_cons_of_ne_of_not_mem (fun heq => hp' k' (heq ▸ hq))
        fun hmem => hkk (hs.hashhead_unique hq hmem)
    exact forall_isQueue_update (fun _ _ heq => OcsHead.hashhead.inj heq)
      (fun k' hl => (hs.hashhead_queue k' hl).frame hoff₁ (by simp) (Or.inl (by simp))) hoff₂ hq₂
      hdisj
  · have hdisj : ∀ h', h' ≠ h → ∀ q ∈ g.ochead h', q ∉ p :: g.ochead h :=
      fun h' hhh q hq => List.not_mem_cons_of_ne_of_not_mem (fun heq => hp h' (heq ▸ hq))
        fun hmem => hhh (hs.ochead_unique hq hmem)
    intro h' hl
    have hq := forall_isQueue_update (fun _ _ heq => OcsHead.ochead.inj heq) hs.ochead_queue hoff₁
      hq₁ hdisj h' hl
    exact hq.frame hoff₂ (by simp) (Or.inl (by simp))
  · intro k' hk''
    have hkk : k' ≠ k := fun heq => hk'' (heq ▸ hk)
    simpa [hkk] using hs.hashhead_outside k' hk''
  · intro h' hh''
    have hhh : h' ≠ h := fun heq => hh'' (heq ▸ hh)
    simpa [hhh] using hs.ochead_outside h' hh''
  · intro h' q hq
    rcases (hochead h' q).mp hq with hq | ⟨rfl, rfl⟩
    · obtain ⟨k', o', hk'', hqk, ho', hptr'⟩ := hs.ochead_link h' q hq
      have hne : q ≠ p := fun heq => hp h' (heq ▸ hq)
      exact ⟨k', o', by simpa [s', hne] using hk'', (hhashhead k' q).mpr (Or.inl hqk),
        by simpa [s', hne] using ho', hptr'⟩
    · exact ⟨k, o, by simp [s'], (hhashhead k q).mpr (Or.inr ⟨rfl, rfl⟩), by simp [s'], hptr⟩
  · intro k' q hq
    rcases (hhashhead k' q).mp hq with hq | ⟨rfl, rfl⟩
    · obtain ⟨hk'', h', hqh⟩ := hs.hashhead_link k' q hq
      have hne : q ≠ p := fun heq => hp' k' (heq ▸ hq)
      exact ⟨by simpa [s', hne] using hk'', h', (hochead h' q).mpr (Or.inl hqh)⟩
    · exact ⟨by simp [s'], h, (hochead h q).mpr (Or.inr ⟨rfl, rfl⟩)⟩
  · intro q hq h' hmem
    have hmem' : q ∈ g.freeOcs ++ p :: g.looseOcs := by
      simp only [List.mem_append, List.mem_cons] at hq ⊢
      tauto
    rcases (hochead h' q).mp hmem with hmem | ⟨-, rfl⟩
    · exact hs.unlinked q hmem' h' hmem
    · have hperm : (g.freeOcs ++ q :: g.looseOcs).Perm (q :: (g.freeOcs ++ g.looseOcs)) :=
        List.perm_middle
      exact (List.nodup_cons.mp (hperm.nodup_iff.mp hnodup)).1 hq
  · intro q
    change m₂.live q = true ↔ _
    rw [hlive₂, hs.live]
    simp only [hochead, List.mem_append, List.mem_cons]
    constructor
    · rintro ((hq | rfl | hq) | ⟨h', hq⟩)
      · exact Or.inl (Or.inl hq)
      · exact Or.inr ⟨h, Or.inr ⟨rfl, rfl⟩⟩
      · exact Or.inl (Or.inr hq)
      · exact Or.inr ⟨h', Or.inl hq⟩
    · rintro ((hq | hq) | ⟨h', hq | ⟨-, rfl⟩⟩)
      · exact Or.inl (Or.inl hq)
      · exact Or.inl (Or.inr (Or.inr hq))
      · exact Or.inr ⟨h', hq⟩
      · exact Or.inl (Or.inr (Or.inl rfl))
  · intro q hq
    have hne : q ≠ p := fun heq => hpfree (heq ▸ hq)
    simpa [s', hne] using hs.free_cleared q hq
  · intro q hq
    obtain ⟨h', hprev⟩ := hs.free_prev q hq
    have hne : q ∉ p :: g.ochead h := by
      intro hmem
      rcases List.mem_cons.mp hmem with rfl | hmem
      · exact hpfree hq
      · exact hs.unlinked q (by simp [hq]) h hmem
    exact ⟨h', ((hoff₂.prev _ q (Or.inl (by simp))).trans
      (hoff₁.prev _ q (Or.inr hne))).trans hprev⟩
  · have hkey : ∀ h', ∀ q ∈ g.ochead h', keyOf s' q = keyOf s q := by
      intro h' q hq
      have hne : q ≠ p := fun heq => hp h' (heq ▸ hq)
      simp [keyOf, s', Xkey.setOcQueues, hne]
    have hkeyp : keyOf s' p = some d := by simp [keyOf, s', Xkey.setOcQueues, hdigest]
    refine hs.index_update hh hptr ?_ fun h' _ => hkey h'
    rw [List.map_append, List.map_append, List.map_congr_left (hkey h), hs.map_keyOf hh hptr,
      List.map_singleton, List.map_singleton, hkeyp]

/-- Nothing is in the hands of a running function and no head in a tree is
empty. -/
structure Settled (s : Xkey) (g : Shape) : Prop where
  looseHashheads : g.looseHashheads = []
  looseOcheads : g.looseOcheads = []
  hashhead_nonempty : ∀ k ∈ s.hashtree, g.hashhead k ≠ []
  ochead_nonempty : ∀ h ∈ s.octree, g.ochead h ≠ []

theorem xkeyInsert_spec (hs : Represents s g ix) (hset : Settled s g) (o : Objcore)
    (d : Digest) :
    ∃ s' g', xkeyInsert s o d = .ok s' ∧
      Represents s' g' (Function.update ix o (ix o ++ [d])) ∧ Settled s' g' ∧
      g'.looseOcs = g.looseOcs := by
  obtain ⟨h, s₁, g₁, hstep₁, hs₁, hg₁, hh₁, hptr₁, hoctree₁, hhashtree₁⟩ :=
    xkeyOctreeInsert_spec hs o
  obtain ⟨k, s₂, g₂, hstep₂, hs₂, hg₂, hk₂, hdigest₂, hhashtree₂, hoctree₂, hptr₂⟩ :=
    xkeyHashtreeInsert_spec hs₁ d
  obtain ⟨p, s₃, free, hstep₃, hs₃, hoctree₃, hhashtree₃, hptr₃, hdigest₃⟩ := xkeyOcNew_spec hs₂
  have hg := hg₁.trans hg₂
  let g₃ : Shape := { g₂ with freeOcs := free }
  have hh₃ : h ∈ s₃.octree := by rwa [hoctree₃, hoctree₂]
  have hk₃ : k ∈ s₃.hashtree := by rwa [hhashtree₃]
  have hptr : s₃.ptr h = (o : Nat) := by rw [hptr₃, hptr₂, hptr₁]
  have hdigest : s₃.digest k = d := by rw [hdigest₃, hdigest₂]
  obtain ⟨m₁, m₂, hlink₁, hlink₂, hs'⟩ := link (g := g₃) hs₃ hh₃ hptr hk₃ hdigest
  refine ⟨_, _, ?_, hs', ⟨?_, ?_, ?_, ?_⟩, hg.looseOcs⟩
  · simp only [xkeyInsert, hstep₁, hstep₂, hstep₃, hlink₁, hlink₂, bind, Except.bind, pure,
      Except.pure]
  · exact hg.looseHashheads.trans hset.looseHashheads
  · exact hg.looseOcheads.trans hset.looseOcheads
  · intro k' hk'
    by_cases hkk : k' = k
    · simp [hkk]
    · have hmem : k' ∈ s.hashtree := by
        have hk₂' : k' ∈ s₂.hashtree := hhashtree₃ ▸ hk'
        exact hhashtree₁ ▸ (hhashtree₂ k' hk₂').resolve_left hkk
      simpa [hkk, g₃, hg.hashhead] using hset.hashhead_nonempty k' hmem
  · intro h' hh'
    by_cases hhh : h' = h
    · simp [hhh]
    · have hmem : h' ∈ s.octree := by
        have hh₁' : h' ∈ s₁.octree := hoctree₂ ▸ (hoctree₃ ▸ hh' : h' ∈ s₂.octree)
        exact (hoctree₁ h' hh₁').resolve_left hhh
      simpa [hhh, g₃, hg.ochead] using hset.ochead_nonempty h' hmem

end VarnishModules.XkeyInsert
