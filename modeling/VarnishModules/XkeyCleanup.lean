import VarnishModules.QueueDrain
import VarnishModules.XkeyIndex

/-!
`xkey_cleanup`, which releases everything when the last VCL is discarded.

It moves the lists of the hashheads to the pool and then empties the pool, both
with `list_ochead`, though these lists are threaded on `list_hashhead`.  So the
last loop follows the list of one ochead instead.
-/

namespace VarnishModules.XkeyCleanup

open VarnishModules.TailQueue
open VarnishModules.QueueDrain
open VarnishModules.ObjectPool
open VarnishModules.XkeyModel
open VarnishModules.XkeyRepresentation
open VarnishModules.XkeyInsert
open VarnishModules.XkeyIndex

/-- The body of the loop over the hashtree. -/
def xkeyCleanupHashhead (s : Xkey) (hashhead : HashheadPtr) : Except Fault Xkey := do
  s.hashheads.queues.touchElem hashhead
  let ocs ← s.ocs.queues.concat s.alive .listOchead .pool (.hashhead hashhead)
  let heads ← s.hashheads.queues.insertHead poolAlive () () hashhead
  return { s with
    ocs := { s.ocs with queues := ocs }
    hashheads := { s.hashheads with queues := heads } }

/-- The body of the loop over the octree. -/
def xkeyCleanupOchead (s : Xkey) (ochead : OcheadPtr) : Except Fault Xkey := do
  s.ocheads.queues.touchElem ochead
  let heads ← s.ocheads.queues.insertHead poolAlive () () ochead
  return { s with ocheads := { s.ocheads with queues := heads } }

def xkeyCleanup (s : Xkey) : Except Fault Xkey := do
  let s ← s.hashtree.foldlM xkeyCleanupHashhead s
  let s := { s with hashtree := [] }
  let s ← s.octree.foldlM xkeyCleanupOchead s
  let s := { s with octree := [] }
  let heads ← drain poolAlive () () s.hashheads.fresh s.hashheads.queues
  let s := { s with hashheads := { s.hashheads with queues := heads } }
  let heads ← drain poolAlive () () s.ocheads.fresh s.ocheads.queues
  let s := { s with ocheads := { s.ocheads with queues := heads } }
  let ocs ← drain s.alive .listOchead .pool s.ocs.fresh s.ocs.queues
  return s.setOcQueues ocs

/-- What the first loop has made of the links: the lists `done` are behind each
other on the list of the pool, as far as the forward links go. -/
structure Gathered (m₀ : Queues OcsHead OcLink OcPtr) (lists : HashheadPtr → List OcPtr)
    (free done : List OcPtr) (ks : List HashheadPtr) (m : Queues OcsHead OcLink OcPtr) :
    Prop where
  live : m.live = m₀.live
  freed : m.freed = m₀.freed
  next : m.next .listOchead = m₀.next .listOchead
  first : m.first .pool = done.head?
  last : m.last .pool = some (endSlot .listHashhead (.first .pool) done)
  rest : ∀ k ∈ ks, m.first (.hashhead k) = (lists k).head? ∧
    m.last (.hashhead k) = some (endSlot .listHashhead (.first (.hashhead k)) (lists k))
  prev_free : ∀ p ∈ free, m.prev .listOchead p = m₀.prev .listOchead p
  prev_first : free = [] → ∀ p ∈ done.head?, m.prev .listOchead p = some (.first .pool)
  done_live : ∀ p ∈ done, m.live p = true

theorem Gathered.concat {m₀ m : Queues OcsHead OcLink OcPtr}
    {lists : HashheadPtr → List OcPtr} {free done : List OcPtr} {k : HashheadPtr}
    {ks : List HashheadPtr} {alive : OcsHead → Bool}
    (hm : Gathered m₀ lists free done (k :: ks) m) (hks : k ∉ ks) (hne : lists k ≠ [])
    (hfree : ∀ p ∈ lists k, p ∉ free ∧ p ∉ done) (hlive : ∀ p ∈ lists k, m.live p = true)
    (hpool : alive .pool = true) (hk : alive (.hashhead k) = true) :
    ∃ m', m.concat alive .listOchead .pool (.hashhead k) = .ok m' ∧
      Gathered m₀ lists free (done ++ lists k) ks m' := by
  obtain ⟨x, xs, hxs⟩ := List.exists_cons_of_ne_nil hne
  obtain ⟨hfirst, hlast⟩ := hm.rest k (by simp)
  rw [hxs] at hfirst hlast hlive hfree
  have ht : m.touchSlot alive (endSlot OcLink.listHashhead (.first OcsHead.pool) done) = .ok () :=
    touchSlot_endSlot hpool hm.done_live
  have hx := hlive x (by simp)
  -- the cell the splice writes is neither a link of `list_ochead` nor in a hashhead
  have hslot : ∀ c, (∀ p, c ≠ .next OcLink.listHashhead p) → c ≠ .first OcsHead.pool →
      c ≠ endSlot OcLink.listHashhead (.first OcsHead.pool) done := by
    intro c hnext hpool
    rcases endSlot_eq OcLink.listHashhead (.first OcsHead.pool) done with heq | ⟨y, -, heq⟩
    · rwa [heq]
    · rw [heq]
      exact hnext y
  have hend : endSlot OcLink.listHashhead (.first (OcsHead.hashhead k)) (x :: xs) =
      endSlot OcLink.listHashhead (.first OcsHead.pool) (done ++ x :: xs) := by
    rw [endSlot_append]
    rfl
  refine ⟨_, concat_cons hfirst hm.last ht hx hpool hk, ?_⟩
  rw [hxs]
  refine ⟨?_, ?_, ?_, ?_, ?_, ?_, ?_, ?_, ?_⟩
  · simpa [Queues.init] using hm.live
  · simpa [Queues.init] using hm.freed
  · funext p
    simpa [Queues.init, hslot (.next .listOchead p) (by simp) (by simp)] using congrFun hm.next p
  · cases done with
    | nil => simp [Queues.init, endSlot]
    | cons y ys =>
        obtain ⟨z, hz⟩ := endSlot_next (H := OcsHead) OcLink.listHashhead y ys
        simpa [Queues.init, endSlot, hz] using hm.first
  · simp [Queues.init, hlast, hend]
  · intro k' hk'
    have hkk : k' ≠ k := fun heq => hks (heq ▸ hk')
    simpa [Queues.init, hkk, hslot (.first (.hashhead k')) (by simp) (by simp)] using
      hm.rest k' (by simp [hk'])
  · intro p hp
    have hpx : p ≠ x := fun heq => (hfree x (by simp)).1 (heq ▸ hp)
    simpa [Queues.init, hpx] using hm.prev_free p hp
  · intro hnil p hp
    cases done with
    | nil =>
        obtain rfl : x = p := by simpa using hp
        simp [Queues.init, endSlot]
    | cons y ys =>
        obtain rfl : y = p := by simpa using hp
        have hyx : y ≠ x := fun heq => (hfree x (by simp)).2 (by simp [heq])
        simpa [Queues.init, hyx] using hm.prev_first hnil y rfl
  · intro p hp
    rcases List.mem_append.mp hp with hp | hp
    · simpa [Queues.init] using hm.done_live p hp
    · simpa [Queues.init] using hlive p hp

/-- The first loop gathers the lists of the hashheads and puts the heads into
their pool. -/
theorem foldlM_xkeyCleanupHashhead {m₀ : Queues OcsHead OcLink OcPtr}
    {lists : HashheadPtr → List OcPtr} {free done : List OcPtr} {ks xs : List HashheadPtr}
    {s : Xkey} (hm : Gathered m₀ lists free done ks s.ocs.queues) (hks : ks.Nodup)
    (hne : ∀ k ∈ ks, lists k ≠ [])
    (hfree : ∀ k ∈ ks, ∀ p ∈ lists k, p ∉ free ∧ p ∉ done)
    (hdisj : ∀ k ∈ ks, ∀ k' ∈ ks, ∀ p ∈ lists k, p ∈ lists k' → k = k')
    (hlive : ∀ k ∈ ks, ∀ p ∈ lists k, m₀.live p = true)
    (hq : IsQueue s.hashheads.queues () () xs)
    (hheads : ∀ k ∈ ks, s.hashheads.queues.live k = true ∧ k ∉ xs) :
    ∃ m q, ks.foldlM xkeyCleanupHashhead s = .ok { s with
        ocs := { s.ocs with queues := m }, hashheads := { s.hashheads with queues := q } } ∧
      Gathered m₀ lists free (done ++ ks.flatMap lists) [] m ∧
      IsQueue q () () (ks.reverse ++ xs) ∧ q.live = s.hashheads.queues.live ∧
      q.freed = s.hashheads.queues.freed := by
  induction ks generalizing s done xs with
  | nil => exact ⟨_, _, rfl, by simpa using hm, by simpa using hq, rfl, rfl⟩
  | cons k ks ih =>
      obtain ⟨hk, hks'⟩ := List.nodup_cons.mp hks
      obtain ⟨hklive, hkxs⟩ := hheads k (by simp)
      obtain ⟨m, hconcat, hm'⟩ := hm.concat hk (hne k (by simp)) (hfree k (by simp))
        (by simpa [hm.live] using hlive k (by simp)) (show s.alive .pool = true from rfl)
        (show s.alive (.hashhead k) = true from hklive)
      obtain ⟨q, hinsert, hq', hoff⟩ :=
        insertHead_spec hq (show poolAlive () = true from rfl) hklive hkxs
      let s' : Xkey := { s with
        ocs := { s.ocs with queues := m }, hashheads := { s.hashheads with queues := q } }
      have hbody : xkeyCleanupHashhead s k = .ok s' :=
        (ok_bind (touchElem_ok hklive)).trans ((ok_bind hconcat).trans (ok_bind hinsert))
      have hfree' : ∀ k' ∈ ks, ∀ p ∈ lists k', p ∉ free ∧ p ∉ done ++ lists k := by
        intro k' hk' p hp
        obtain ⟨hpfree, hpdone⟩ := hfree k' (by simp [hk']) p hp
        refine ⟨hpfree, fun hmem => ?_⟩
        rcases List.mem_append.mp hmem with hmem | hmem
        · exact hpdone hmem
        · exact hk (hdisj k (by simp) k' (by simp [hk']) p hmem hp ▸ hk')
      obtain ⟨m', q', hloop, hm'', hq'', hlive'', hfreed''⟩ := ih (s := s') hm' hks'
        (fun k' hk' => hne k' (by simp [hk'])) hfree'
        (fun k' hk' k'' hk'' => hdisj k' (by simp [hk']) k'' (by simp [hk'']))
        (fun k' hk' => hlive k' (by simp [hk'])) hq' (by
          intro k' hk'
          obtain ⟨hl, hxs⟩ := hheads k' (by simp [hk'])
          refine ⟨by simpa [s', hoff.live] using hl, ?_⟩
          simpa [hxs] using fun heq : k' = k => hk (heq ▸ hk'))
      refine ⟨m', q', (ok_bind hbody).trans hloop, by simpa using hm'', by simpa using hq'',
        hlive''.trans hoff.live, hfreed''.trans hoff.freed⟩

theorem foldlM_xkeyCleanupOchead {hs xs : List OcheadPtr} {s : Xkey} (hhs : hs.Nodup)
    (hq : IsQueue s.ocheads.queues () () xs)
    (hheads : ∀ h ∈ hs, s.ocheads.queues.live h = true ∧ h ∉ xs) :
    ∃ q, hs.foldlM xkeyCleanupOchead s =
        .ok { s with ocheads := { s.ocheads with queues := q } } ∧
      IsQueue q () () (hs.reverse ++ xs) ∧ q.live = s.ocheads.queues.live ∧
      q.freed = s.ocheads.queues.freed := by
  induction hs generalizing s xs with
  | nil => exact ⟨_, rfl, by simpa using hq, rfl, rfl⟩
  | cons h hs ih =>
      obtain ⟨hh, hhs'⟩ := List.nodup_cons.mp hhs
      obtain ⟨hhlive, hhxs⟩ := hheads h (by simp)
      obtain ⟨q, hinsert, hq', hoff⟩ :=
        insertHead_spec hq (show poolAlive () = true from rfl) hhlive hhxs
      let s' : Xkey := { s with ocheads := { s.ocheads with queues := q } }
      have hbody : xkeyCleanupOchead s h = .ok s' :=
        (ok_bind (touchElem_ok hhlive)).trans (ok_bind hinsert)
      obtain ⟨q', hloop, hq'', hlive'', hfreed''⟩ := ih (s := s') hhs' hq' (by
        intro h' hh'
        obtain ⟨hl, hxs⟩ := hheads h' (by simp [hh'])
        refine ⟨by simpa [s', hoff.live] using hl, ?_⟩
        simpa [hxs] using fun heq : h' = h => hh (heq ▸ hh'))
      exact ⟨q', (ok_bind hbody).trans hloop, by simpa using hq'', hlive''.trans hoff.live,
        hfreed''.trans hoff.freed⟩

/-- Between `m` and `m'` everything that was allocated is freed, once. -/
def FreedOnce {H F E : Type} (m m' : Queues H F E) : Prop :=
  ∃ log, m'.freed = m.freed ++ log ∧ log.Nodup ∧ (∀ x, x ∈ log ↔ m.live x = true) ∧
    ∀ x, m'.live x = false

/-- The heads of one kind are freed from the pool, where the loops have put the
heads of the tree. -/
theorem drain_heads {p : Pool Unit Unit} {tree free : List Nat} {q : Queues Unit Unit Nat}
    (hp : HeadsOk p tree free []) (hq : IsQueue q () () (tree.reverse ++ free))
    (hlive : q.live = p.queues.live) (hfreed : q.freed = p.queues.freed) :
    ∃ q', drain poolAlive () () p.fresh q = .ok q' ∧ IsQueue q' () () [] ∧
      FreedOnce p.queues q' := by
  have hmem : ∀ x, x ∈ tree.reverse ++ free ↔ p.queues.live x = true := by
    intro x
    rw [hp.live]
    simp
  have hn := hp.holds.length_le_of_live hq.nodup fun x hx => (hmem x).mp hx
  obtain ⟨q', hdrain, hq', hfreed', hlive'⟩ :=
    drain_isQueue hq (show poolAlive () = true from rfl) hn
  refine ⟨q', hdrain, hq', tree.reverse ++ free, by rw [hfreed', hfreed], hq.nodup, hmem, ?_⟩
  intro x
  rw [Bool.eq_false_iff, ne_eq, hlive', hmem, hlive]
  tauto

/-- The state in front of the last loop. -/
def headless (s : Xkey) (hashheads ocheads : Queues Unit Unit Nat)
    (ocs : Queues OcsHead OcLink OcPtr) : Xkey :=
  { s with
    hashtree := [], octree := []
    hashheads := { s.hashheads with queues := hashheads }
    ocheads := { s.ocheads with queues := ocheads }
    ocs := { s.ocs with queues := ocs } }

variable {s : Xkey} {g : Shape} {ix : Objcore → List Digest}

theorem xkeyCleanup_eq (hs : Represents s g ix) (hset : Settled s g) :
    ∃ hashheads ocheads m,
      xkeyCleanup s = (do
        let ocs ← drain (headless s hashheads ocheads m).alive .listOchead .pool s.ocs.fresh m
        return headless s hashheads ocheads ocs) ∧
      IsQueue hashheads () () [] ∧ FreedOnce s.hashheads.queues hashheads ∧
      IsQueue ocheads () () [] ∧ FreedOnce s.ocheads.queues ocheads ∧
      Gathered s.ocs.queues g.hashhead g.freeOcs
        (g.freeOcs ++ s.hashtree.flatMap g.hashhead) [] m := by
  have hhashheads := hs.hashheads
  have hocheads := hs.ocheads
  rw [hset.looseHashheads] at hhashheads
  rw [hset.looseOcheads] at hocheads
  have hqueue : ∀ k ∈ s.hashtree,
      IsQueue s.ocs.queues .listHashhead (.hashhead k) (g.hashhead k) := fun k hk =>
    hs.hashhead_queue k (hs.hashheads.live_tree hk)
  have hstart : Gathered s.ocs.queues g.hashhead g.freeOcs g.freeOcs s.hashtree
      s.ocs.queues := by
    refine ⟨rfl, rfl, rfl, hs.ocs.queue.first_eq, hs.ocs.queue.last, ?_, fun _ _ => rfl, ?_,
      fun p hp => hs.ocs.queue.live hp⟩
    · exact fun k hk => ⟨(hqueue k hk).first_eq, (hqueue k hk).last⟩
    · intro hnil p hp
      simp [hnil] at hp
  have hfree : ∀ k ∈ s.hashtree, ∀ p ∈ g.hashhead k, p ∉ g.freeOcs ∧ p ∉ g.freeOcs := by
    intro k _ p hp
    have hp' : p ∉ g.freeOcs := fun hmem => hs.free_not_hashhead hp (by simp [hmem])
    exact ⟨hp', hp'⟩
  have hpoolFree : ∀ k ∈ s.hashtree, k ∉ g.freeHashheads := by
    intro k hk hmem
    exact (List.nodup_append.mp hhashheads.nodup).2.2 k hk k (by simp [hmem]) rfl
  have hpoolFree' : ∀ h ∈ s.octree, h ∉ g.freeOcheads := by
    intro h hh hmem
    exact (List.nodup_append.mp hocheads.nodup).2.2 h hh h (by simp [hmem]) rfl
  obtain ⟨m, q, hloop, hm, hq, hlive, hfreed⟩ :=
    foldlM_xkeyCleanupHashhead hstart hs.hashtree.nodup hset.hashhead_nonempty hfree
      (fun k _ k' _ p hp hp' => hs.hashhead_unique hp hp')
      (fun k hk p hp => (hqueue k hk).live hp) hs.hashheads.holds.queue
      (fun k hk => ⟨hs.hashheads.live_tree hk, hpoolFree k hk⟩)
  obtain ⟨q', hloop', hq', hlive', hfreed'⟩ := foldlM_xkeyCleanupOchead
    (s := { s with
      hashtree := [], ocs := { s.ocs with queues := m }
      hashheads := { s.hashheads with queues := q } })
    hs.octree.nodup hs.ocheads.holds.queue
    (fun h hh => ⟨hs.ocheads.live_tree hh, hpoolFree' h hh⟩)
  obtain ⟨hashheads, hdrain, hempty, honce⟩ := drain_heads hhashheads hq hlive hfreed
  obtain ⟨ocheads, hdrain', hempty', honce'⟩ := drain_heads hocheads hq' hlive' hfreed'
  refine ⟨hashheads, ocheads, m, ?_, hempty, honce, hempty', honce', hm⟩
  refine (ok_bind hloop).trans ((ok_bind hloop').trans ?_)
  exact (ok_bind hdrain).trans (ok_bind hdrain')

/-- A pooled `xkey_oc` still points into the ochead it was on last. -/
theorem xkeyCleanup_pooled (hs : Represents s g ix) (hset : Settled s g)
    (hfree : g.freeOcs ≠ []) : ∃ e, xkeyCleanup s = .error e := by
  obtain ⟨hashheads, ocheads, m, hstep, -, -, -, ⟨-, -, -, -, hdead⟩, hm⟩ :=
    xkeyCleanup_eq hs hset
  obtain ⟨p, ps, hps⟩ := List.exists_cons_of_ne_nil hfree
  obtain ⟨h, hprev⟩ := hs.free_prev p (by simp [hps])
  have hfirst : m.first .pool = some p := by simp [hm.first, hps]
  have hprev' : m.prev .listOchead p = some (.first (.ochead h)) :=
    (hm.prev_free p (by simp [hps])).trans hprev
  obtain ⟨e, he⟩ := drain_stale (n := s.ocs.fresh) hfirst hprev'
    (show (headless s hashheads ocheads m).alive (.ochead h) = false from hdead h)
  exact ⟨e, by rw [hstep, he]; rfl⟩

/-- The forward links of an ochead lead from any of its links on to the end. -/
theorem chain_suffix {m : Queues OcsHead OcLink OcPtr} {h : OcheadPtr} {as : List OcPtr}
    {p : OcPtr} {ps : List OcPtr}
    (hq : IsQueue s.ocs.queues .listOchead (.ochead h) (as ++ p :: ps))
    (hnext : m.next .listOchead = s.ocs.queues.next .listOchead)
    (hlive : m.live = s.ocs.queues.live) (hfirst : m.first .pool = some p) :
    Chain m .listOchead (.first .pool) (p :: ps) := by
  obtain ⟨-, hseg⟩ := segment_append.mp hq.segment
  have hstop := hq.stop
  rw [endSlot_append] at hstop
  obtain ⟨-, hp, htail⟩ := chain_of_segment hseg hstop
  refine ⟨hfirst, by rw [hlive]; exact hp, htail.congr ?_ fun q _ hq => by rw [hlive]; exact hq⟩
  rintro t (rfl | ⟨q, -, rfl⟩)
  · exact congrFun hnext p
  · exact congrFun hnext q

/-- With no `xkey_oc` in the pool the heads are freed, and of the `xkey_oc` the
rest of the list of one ochead from the first link of the first hashhead on. -/
theorem xkeyCleanup_unpooled (hs : Represents s g ix) (hset : Settled s g)
    (hfree : g.freeOcs = []) :
    ∃ hashheads ocheads ocs log, xkeyCleanup s = .ok (headless s hashheads ocheads ocs) ∧
      IsQueue hashheads () () [] ∧ FreedOnce s.hashheads.queues hashheads ∧
      IsQueue ocheads () () [] ∧ FreedOnce s.ocheads.queues ocheads ∧
      IsQueue ocs .listHashhead .pool [] ∧ ocs.freed = s.ocs.queues.freed ++ log ∧
      (∀ p, ocs.live p = true ↔ s.ocs.queues.live p = true ∧ p ∉ log) ∧ log.Nodup ∧
      (s.hashtree = [] ∧ log = [] ∨ ∃ k ks h as, s.hashtree = k :: ks ∧
        g.ochead h = as ++ log ∧ log ≠ [] ∧ log.head? = (g.hashhead k).head?) := by
  obtain ⟨hashheads, ocheads, m, hstep, hq, honce, hq', honce', hm⟩ := xkeyCleanup_eq hs hset
  have hfirst := hm.first
  have hlast := hm.last
  have hprev := hm.prev_first hfree
  simp only [hfree, List.nil_append] at hfirst hlast hprev
  obtain ⟨log, hchain, hnodup, hlive, hprev', hlast', hlog⟩ : ∃ log : List OcPtr,
      Chain m .listOchead (.first .pool) log ∧ log.Nodup ∧
      (∀ p ∈ log, s.ocs.queues.live p = true) ∧
      (∀ p ∈ log.head?, m.prev .listOchead p = some (.first .pool)) ∧
      (m.last .pool = some (.first .pool) ∨ log ≠ []) ∧
      (s.hashtree = [] ∧ log = [] ∨ ∃ k ks h as, s.hashtree = k :: ks ∧
        g.ochead h = as ++ log ∧ log ≠ [] ∧ log.head? = (g.hashhead k).head?) := by
    cases htree : s.hashtree with
    | nil =>
        rw [htree] at hfirst hlast
        exact ⟨[], hfirst, List.nodup_nil, by simp, by simp, Or.inl hlast, Or.inl ⟨rfl, rfl⟩⟩
    | cons k ks =>
        obtain ⟨p, ps, hps⟩ := List.exists_cons_of_ne_nil
          (hset.hashhead_nonempty k (by simp [htree]))
        obtain ⟨-, h, hh⟩ := hs.hashhead_link k p (by simp [hps])
        obtain ⟨as, bs, hsplit⟩ := List.append_of_mem hh
        have hq := hs.ochead_queue h (hs.ocheads.live_tree (hs.mem_octree hh))
        rw [hsplit] at hq
        rw [htree, List.flatMap_cons, hps] at hfirst hprev
        refine ⟨p :: bs, chain_suffix hq hm.next hm.live hfirst,
          (List.nodup_append.mp hq.nodup).2.1, fun q hq' => hq.live (by simp [hq']), ?_,
          Or.inr (by simp), Or.inr ⟨k, ks, h, as, rfl, hsplit, by simp, by simp [hps]⟩⟩
        intro q hq'
        obtain rfl : p = q := by simpa using hq'
        exact hprev p rfl
  obtain ⟨ocs, hdrain, hempty, hfreed, hlive', hlast''⟩ := drain_spec hchain hnodup hprev'
    (show (headless s hashheads ocheads m).alive .pool = true from rfl)
    (hs.ocs.length_le_of_live hnodup hlive)
  refine ⟨hashheads, ocheads, ocs, log, ?_, hq, honce, hq', honce',
    ⟨trivial, hempty, hlast'' hlast', List.nodup_nil⟩, by rw [hfreed, hm.freed], ?_, hnodup, hlog⟩
  · rw [hstep, hdrain]
    rfl
  · intro p
    rw [hlive', hm.live]

/-- `xkey_cleanup` does what it is for: it returns, every head and every
`xkey_oc` is freed, each once, and both trees and the three pools are empty. -/
def ReleasesAll (s : Xkey) : Prop :=
  ∃ s', xkeyCleanup s = .ok s' ∧
    FreedOnce s.hashheads.queues s'.hashheads.queues ∧
    FreedOnce s.ocheads.queues s'.ocheads.queues ∧
    FreedOnce s.ocs.queues s'.ocs.queues ∧
    s'.hashtree = [] ∧ s'.octree = [] ∧ s'.hashheads.queues.first () = none ∧
    s'.ocheads.queues.first () = none ∧ s'.ocs.queues.first .pool = none

/-- No `xkey_oc` is pooled and at most one object is left, whose first link is
also the first one of the least digest. -/
def Releasable (s : Xkey) : Prop :=
  s.ocs.count = 0 ∧ (s.octree = [] ∨ ∃ h k ks, s.octree = [h] ∧ s.hashtree = k :: ks ∧
    s.ocs.queues.first (.ochead h) = s.ocs.queues.first (.hashhead k))

/-- What is freed is all there is exactly if one ochead holds it. -/
theorem log_all_iff (hs : Represents s g ix) (hset : Settled s g) (hfree : g.freeOcs = [])
    (hloose : g.looseOcs = []) {log : List OcPtr}
    (hlog : s.hashtree = [] ∧ log = [] ∨ ∃ k ks h as, s.hashtree = k :: ks ∧
      g.ochead h = as ++ log ∧ log ≠ [] ∧ log.head? = (g.hashhead k).head?) :
    (∀ p, p ∈ log ↔ s.ocs.queues.live p = true) ↔ Releasable s := by
  have hlive : ∀ p, s.ocs.queues.live p = true ↔ ∃ h, p ∈ g.ochead h := by
    intro p
    simp [hs.live, hfree, hloose]
  have hcount : s.ocs.count = 0 := by simp [hs.ocs.count, hfree]
  have hnone : s.hashtree = [] ↔ s.octree = [] := by
    constructor
    · intro htree
      refine List.eq_nil_iff_forall_not_mem.mpr fun h hh => ?_
      obtain ⟨p, ps, hps⟩ := List.exists_cons_of_ne_nil (hset.ochead_nonempty h hh)
      obtain ⟨k, -, -, hpk, -, -⟩ := hs.ochead_link h p (by simp [hps])
      simpa [htree] using hs.mem_hashtree hpk
    · intro htree
      refine List.eq_nil_iff_forall_not_mem.mpr fun k hk => ?_
      obtain ⟨p, ps, hps⟩ := List.exists_cons_of_ne_nil (hset.hashhead_nonempty k hk)
      obtain ⟨-, h, hh⟩ := hs.hashhead_link k p (by simp [hps])
      simpa [htree] using hs.mem_octree hh
  have hfirstH : ∀ h ∈ s.octree, s.ocs.queues.first (.ochead h) = (g.ochead h).head? :=
    fun h hh => (hs.ochead_queue h (hs.ocheads.live_tree hh)).first_eq
  have hfirstK : ∀ k ∈ s.hashtree, s.ocs.queues.first (.hashhead k) = (g.hashhead k).head? :=
    fun k hk => (hs.hashhead_queue k (hs.hashheads.live_tree hk)).first_eq
  rcases hlog with ⟨htree, rfl⟩ | ⟨k, ks, h, as, htree, hsplit, hne, hhead⟩
  · have hoctree := hnone.mp htree
    refine ⟨fun _ => ⟨hcount, Or.inl hoctree⟩, fun _ p => ?_⟩
    rw [hlive]
    simp only [List.not_mem_nil, false_iff, not_exists]
    intro h hh
    simpa [hoctree] using hs.mem_octree hh
  · obtain ⟨p, ps, rfl⟩ := List.exists_cons_of_ne_nil hne
    have hph : p ∈ g.ochead h := by simp [hsplit]
    have hh := hs.mem_octree hph
    have hnodup := (hs.ochead_queue h (hs.ocheads.live_tree hh)).nodup
    rw [hsplit] at hnodup
    have hpas : p ∉ as := fun hmem => (List.nodup_append.mp hnodup).2.2 p hmem p (by simp) rfl
    constructor
    · intro hall
      have hin : ∀ h' q, q ∈ g.ochead h' → q ∈ p :: ps := fun h' q hq =>
        (hall q).mpr ((hlive q).mpr ⟨h', hq⟩)
      have hone : ∀ h' ∈ s.octree, h' = h := by
        intro h' hh'
        obtain ⟨q, qs, hqs⟩ := List.exists_cons_of_ne_nil (hset.ochead_nonempty h' hh')
        have hq := hin h' q (by simp [hqs])
        exact hs.ochead_unique (by simp [hqs]) (hsplit ▸ List.mem_append_right as hq)
      have hnil : as = [] := by
        refine List.eq_nil_iff_forall_not_mem.mpr fun q hq => ?_
        have hq' := hin h q (by simp [hsplit, hq])
        exact (List.nodup_append.mp hnodup).2.2 q hq q hq' rfl
      have hoctree : s.octree = [h] := by
        have hnd := hs.octree.nodup
        cases hoct : s.octree with
        | nil => simp [hoct] at hh
        | cons a l =>
            rw [hoct] at hone hnd
            have hl : l = [] := by
              refine List.eq_nil_iff_forall_not_mem.mpr fun b hb => ?_
              have hba : b = a := (hone b (by simp [hb])).trans (hone a (by simp)).symm
              exact (List.nodup_cons.mp hnd).1 (hba ▸ hb)
            rw [hl, hone a (by simp)]
      refine ⟨hcount, Or.inr ⟨h, k, ks, hoctree, htree, ?_⟩⟩
      rw [hfirstH h hh, hfirstK k (by simp [htree]), ← hhead, hsplit, hnil]
      rfl
    · rintro ⟨-, hoctree | ⟨h', k', ks', hoctree, htree', hfirst⟩⟩
      · simp [hoctree] at hh
      · obtain rfl : h = h' := by simpa [hoctree] using hh
        obtain ⟨rfl, -⟩ : k = k' ∧ ks = ks' := by simpa [htree] using htree'
        rw [hfirstH h hh, hfirstK k (by simp [htree]), ← hhead, hsplit] at hfirst
        have hnil : as = [] := by
          cases as with
          | nil => rfl
          | cons a as =>
              obtain rfl : a = p := by simpa using hfirst
              exact absurd (by simp) hpas
        intro q
        rw [hlive]
        constructor
        · exact fun hq => ⟨h, by simpa [hsplit, hnil] using hq⟩
        · rintro ⟨h', hq⟩
          obtain rfl : h' = h := by simpa [hoctree] using hs.mem_octree hq
          simpa [hsplit, hnil] using hq

theorem releasesAll_iff (hs : Represents s g ix) (hset : Settled s g)
    (hloose : g.looseOcs = []) : ReleasesAll s ↔ Releasable s := by
  by_cases hfree : g.freeOcs = []
  · obtain ⟨hashheads, ocheads, ocs, log, hstep, hq, honce, hq', honce', hempty, hfreed, hlive,
      hnodup, hlog⟩ := xkeyCleanup_unpooled hs hset hfree
    rw [← log_all_iff hs hset hfree hloose hlog]
    constructor
    · rintro ⟨s', hstep', -, -, ⟨log', hfreed', -, hall, -⟩, -⟩
      obtain rfl : headless s hashheads ocheads ocs = s' := by simpa [hstep] using hstep'
      have heq : log = log' := List.append_cancel_left (hfreed.symm.trans hfreed')
      rwa [heq]
    · intro hall
      refine ⟨_, hstep, honce, honce', ⟨log, hfreed, hnodup, hall, fun p => ?_⟩, rfl,
        rfl, hq.first_eq, hq'.first_eq, hempty.first_eq⟩
      change ocs.live p = false
      rw [Bool.eq_false_iff, ne_eq, hlive, hall]
      tauto
  · obtain ⟨e, he⟩ := xkeyCleanup_pooled hs hset hfree
    constructor
    · rintro ⟨s', hstep, -⟩
      simp [he] at hstep
    · rintro ⟨hcount, -⟩
      rw [hs.ocs.count, List.length_eq_zero_iff] at hcount
      exact absurd hcount hfree

/-- Over the runs of `xkey_insert` and `xkey_cb_remove`. -/
theorem run_releasesAll_iff (calls : List Call) :
    ∃ s, run calls Xkey.initial = .ok s ∧ (ReleasesAll s ↔ Releasable s) := by
  obtain ⟨s, g, hrun, hs, hset, hloose⟩ := run_spec calls represents_initial settled_initial
  exact ⟨s, hrun, releasesAll_iff hs hset hloose⟩

/-- An object that came and went: the link that waits in the pool points into
the ochead, which is freed before it. -/
theorem not_releasesAll_after_remove :
    ∃ s, run [.insert 1 Digest.zero, .cbRemove 1] Xkey.initial = .ok s ∧
      xkeyCleanup s = .error .useAfterFree ∧ ¬ ReleasesAll s := by
  let calls : List Call := [.insert 1 Digest.zero, .cbRemove 1]
  obtain ⟨s, g, hrun, -⟩ := run_spec calls represents_initial settled_initial
  have hfault : (match run calls Xkey.initial >>= xkeyCleanup with
      | .ok _ => none
      | .error e => some e) = some Fault.useAfterFree := by
    decide
  rw [ok_bind hrun] at hfault
  have hcleanup : xkeyCleanup s = .error .useAfterFree := by
    cases hc : xkeyCleanup s with
    | ok s' => simp [hc] at hfault
    | error e => simpa [hc] using hfault
  refine ⟨s, hrun, hcleanup, ?_⟩
  rintro ⟨s', hstep, -⟩
  simp [hcleanup] at hstep

end VarnishModules.XkeyCleanup
