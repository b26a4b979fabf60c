import VarnishModules.XkeyCleanup
import VarnishModules.XkeyPurge

/-!
The module from the first VCL that loads it to the last one that is discarded,
and over again.

`xkey_cleanup` empties the pools but leaves their counters, so after a reload a
counter may promise an object that the list does not have.
-/

namespace VarnishModules.XkeyLifeCycle

open VarnishModules.CStrings
open VarnishModules.TailQueue
open VarnishModules.ObjectPool
open VarnishModules.XkeyModel
open VarnishModules.XkeyRepresentation
open VarnishModules.XkeyInsert
open VarnishModules.XkeyRemove
open VarnishModules.XkeyIndex
open VarnishModules.XkeyPurge
open VarnishModules.XkeyCleanup

/-- The statics of the file, and the handles under which the server calls
`xkey_cb`. -/
structure Module where
  xkey : Xkey
  nInit : Int
  xkeyCbHandle : Nat
  registered : List Nat

def Module.initial : Module where
  xkey := Xkey.initial
  nInit := 0
  xkeyCbHandle := 0
  registered := []

inductive VclEvent
  | load
  | warm
  | use
  | cold
  | discard
  deriving DecidableEq

/-- `handle` is what `EXP_Register_Callback` returns, if it is called. -/
def vmodEvent (handle : ℕ+) (m : Module) : VclEvent → Except Fault Module
  | .load => do
      let m := if m.nInit = 0 then
          { m with xkeyCbHandle := handle, registered := (handle : Nat) :: m.registered }
        else m
      check (m.xkeyCbHandle ≠ 0)
      return { m with nInit := m.nInit + 1 }
  | .discard => do
      check (0 < m.nInit)
      let m := { m with nInit := m.nInit - 1 }
      check (m.xkeyCbHandle ≠ 0)
      if m.nInit = 0 then
        let m := { m with
          xkeyCbHandle := 0, registered := m.registered.erase m.xkeyCbHandle }
        check (m.xkeyCbHandle = 0)
        let xkey ← xkeyCleanup m.xkey
        return { m with xkey }
      else
        return m
  | _ => return m

/-- A VCL event, one key of an insert callback, a remove callback or a purge,
which finds the objects in some state. -/
inductive Event
  | vcl (handle : ℕ+) (e : VclEvent)
  | call (c : Call)
  | purge (objects : Objcore → ObjcoreData) (doSoft : Int) (now : ℚ) (key : Option CString)

section

variable (sha256 : CString → Digest) (rearm : Rearm)

def step (m : Module) : Event → Except Fault Module
  | .vcl handle e => vmodEvent handle m e
  | .call c => do
      let xkey ← c.run m.xkey
      return { m with xkey }
  | .purge objects doSoft now key => do
      let st ← purge sha256 rearm doSoft now (.start m.xkey objects) key
      return { m with xkey := st.xkey }

/-- The number of loaded VCLs after the event, when there were `n`. -/
def loaded (n : Nat) : Event → Nat
  | .vcl _ .load => n + 1
  | .vcl _ .discard => n - 1
  | _ => n

/-- There are no more discards than loads, and the callbacks and purges come
while a VCL is loaded. -/
def Admissible : Nat → List Event → Prop
  | _, [] => True
  | n, e :: es =>
      (match e with
        | .vcl _ .discard => 0 < n
        | .vcl _ _ => True
        | _ => 0 < n) ∧ Admissible (loaded n e) es

/-- The counter of a pool is the length of its list. -/
def Counts (list : Except Fault (List Nat)) (count : Nat) : Prop :=
  ∃ xs, list = .ok xs ∧ count = xs.length ∧ count ≤ poolMax

/-- What should hold whenever `n` VCLs are loaded. -/
structure Ok (n : Nat) (m : Module) : Prop where
  nInit : m.nInit = n
  registered : m.registered ≠ [] ↔ 0 < m.nInit
  nHashhead : Counts (foreachPool m.xkey.hashheads) m.xkey.hashheads.count
  nOchead : Counts (foreachPool m.xkey.ocheads) m.xkey.ocheads.count
  nOc : Counts (foreachOcs m.xkey .listHashhead .pool) m.xkey.ocs.count

/-- No event of the run faults, and it should hold in every state. -/
def AlwaysOk : Nat → List Event → Module → Prop
  | n, [], m => Ok n m
  | n, e :: es, m => Ok n m ∧ ∃ m', step sha256 rearm m e = .ok m' ∧ AlwaysOk (loaded n e) es m'

/-- The discard of the last VCL finds the three counters at zero. -/
def Cleared (m : Module) : Event → Prop
  | .vcl _ .discard => m.nInit = 1 →
      m.xkey.hashheads.count = 0 ∧ m.xkey.ocheads.count = 0 ∧ m.xkey.ocs.count = 0
  | _ => True

def AlwaysCleared : List Event → Module → Prop
  | [], _ => True
  | e :: es, m => Cleared m e ∧
      match step sha256 rearm m e with
      | .ok m' => AlwaysCleared es m'
      | .error _ => True

end

/-- Between two events the memory is that of the two indexes; links that were
leaked are loose. -/
structure Inv (n : Nat) (m : Module) : Prop where
  index : ∃ g ix, Represents m.xkey g ix ∧ Settled m.xkey g
  nInit : m.nInit = n
  registered : m.registered = if n = 0 then [] else [m.xkeyCbHandle]
  handle : 0 < n → m.xkeyCbHandle ≠ 0

theorem inv_initial : Inv 0 Module.initial where
  index := ⟨_, _, represents_initial, settled_initial⟩
  nInit := rfl
  registered := rfl
  handle h := absurd h (lt_irrefl _)

theorem Inv.ok {n : Nat} {m : Module} (hm : Inv n m) : Ok n m := by
  obtain ⟨g, ix, hs, -⟩ := hm.index
  have hread := read_listsOf hs
  refine ⟨hm.nInit, ?_, ⟨_, hread.freeHashheads, hs.hashheads.holds.count, ?_⟩,
    ⟨_, hread.freeOcheads, hs.ocheads.holds.count, ?_⟩,
    ⟨_, hread.freeOcs, hs.ocs.count, ?_⟩⟩
  · rw [hm.nInit, hm.registered]
    by_cases hn : n = 0
    · simp [hn]
    · simp [hn, Nat.pos_of_ne_zero hn]
  · exact hs.hashheads.holds.count.trans_le hs.hashheads.holds.bound
  · exact hs.ocheads.holds.count.trans_le hs.ocheads.holds.bound
  · exact hs.ocs.count.trans_le hs.ocs.bound

theorem headsOk_nil {p : Pool Unit Unit} {q : Queues Unit Unit Nat} (hq : IsQueue q () () [])
    (hcount : p.count = 0) (honce : FreedOnce p.queues q) :
    HeadsOk { p with queues := q } [] [] [] := by
  obtain ⟨-, -, -, -, hdead⟩ := honce
  refine ⟨⟨hq, hcount, Nat.zero_le _, ?_⟩, List.nodup_nil, ?_⟩
  · intro x hx
    simp [hdead x] at hx
  · intro x
    simp [hdead x]

/-- With the counters at zero the cleanup leaves an empty index, and as loose
links the ones it has not freed. -/
theorem xkeyCleanup_spec {s : Xkey} {g : Shape} {ix : Objcore → List Digest}
    (hs : Represents s g ix) (hset : Settled s g) (hhashhead : s.hashheads.count = 0)
    (hochead : s.ocheads.count = 0) (hoc : s.ocs.count = 0) :
    ∃ s' g', xkeyCleanup s = .ok s' ∧ Represents s' g' (fun _ => []) ∧ Settled s' g' := by
  have hfree : g.freeOcs = [] := by
    rw [hs.ocs.count, List.length_eq_zero_iff] at hoc
    exact hoc
  obtain ⟨hashheads, ocheads, ocs, log, hstep, hq, honce, hq', honce', hempty, -, hlive, -, -⟩ :=
    xkeyCleanup_unpooled hs hset hfree
  have hfresh : ∀ x, ocs.live x = true → x < s.ocs.fresh := fun x hx =>
    hs.ocs.fresh x ((hlive x).mp hx).1
  let leaked := (List.range s.ocs.fresh).filter fun p => ocs.live p
  have hleaked : ∀ p, p ∈ leaked ↔ ocs.live p = true := by
    intro p
    simp only [leaked, List.mem_filter, List.mem_range, and_iff_right_iff_imp]
    exact hfresh p
  refine ⟨_, { Shape.initial with looseOcs := leaked }, hstep, ?_,
    ⟨rfl, rfl, by simp [headless], by simp [headless]⟩⟩
  have hheads := headsOk_nil hq hhashhead honce
  have hheads' := headsOk_nil hq' hochead honce'
  refine
    { hashheads := hheads, ocheads := hheads', hashtree := OrderedTree.isTree_nil
      octree := OrderedTree.isTree_nil, ocs := ⟨hempty, hoc, Nat.zero_le _, hfresh⟩
      hashhead_queue := ?_, ochead_queue := ?_, hashhead_outside := fun _ _ => rfl
      ochead_outside := fun _ _ => rfl, ochead_link := by simp [Shape.initial]
      hashhead_link := by simp [Shape.initial]
      unlinked_nodup := List.nodup_range.filter _, unlinked := by simp [Shape.initial]
      live := ?_, free_cleared := by simp [Shape.initial], free_prev := by simp [Shape.initial]
      index := by simp [headless], index_absent := fun _ _ => rfl }
  · intro k hk
    exact absurd ((hheads.live k).mp hk) (by simp)
  · intro h hh
    exact absurd ((hheads'.live h).mp hh) (by simp)
  · intro p
    change ocs.live p = true ↔ _
    simpa [Shape.initial] using (hleaked p).symm

/-- With a counter above zero the cleanup faults, or leaves a counter that is
not the length of its list. -/
theorem xkeyCleanup_breaks {s : Xkey} {g : Shape} {ix : Objcore → List Digest}
    (hs : Represents s g ix) (hset : Settled s g)
    (hcount : ¬(s.hashheads.count = 0 ∧ s.ocheads.count = 0 ∧ s.ocs.count = 0)) :
    (∃ e, xkeyCleanup s = .error e) ∨ ∃ s', xkeyCleanup s = .ok s' ∧
      ¬(Counts (foreachPool s'.hashheads) s'.hashheads.count ∧
        Counts (foreachPool s'.ocheads) s'.ocheads.count) := by
  by_cases hfree : g.freeOcs = []
  · obtain ⟨hashheads, ocheads, ocs, log, hstep, hq, -, hq', -⟩ :=
      xkeyCleanup_unpooled hs hset hfree
    have hempty : ∀ {q : Queues Unit Unit Nat} {count fresh : Nat}, IsQueue q () () [] →
        Counts (foreachPool ⟨q, count, fresh⟩) count → count = 0 := by
      rintro q count fresh hq ⟨xs, hxs, hlen, -⟩
      have hwalk : foreachPool ⟨q, count, fresh⟩ = .ok [] := hq.walk_eq (Nat.zero_le _)
      obtain rfl : [] = xs := by simpa [hwalk] using hxs
      exact hlen
    refine Or.inr ⟨_, hstep, ?_⟩
    rintro ⟨hhashhead, hochead⟩
    exact hcount ⟨hempty hq hhashhead, hempty hq' hochead, by simp [hs.ocs.count, hfree]⟩
  · exact Or.inl (xkeyCleanup_pooled hs hset hfree)

section

variable {sha256 : CString → Digest} {rearm : Rearm} {n : Nat} {m : Module}

theorem Inv.load (hm : Inv n m) (handle : ℕ+) :
    ∃ m', vmodEvent handle m .load = .ok m' ∧ Inv (n + 1) m' := by
  by_cases hn : n = 0
  · subst hn
    have hzero : m.nInit = 0 := hm.nInit
    refine ⟨{ m with
      xkeyCbHandle := handle, registered := (handle : Nat) :: m.registered
      nInit := m.nInit + 1 }, ?_, hm.index, ?_, ?_, fun _ => handle.ne_zero⟩
    · simp [vmodEvent, hzero, check, bind, Except.bind, pure, Except.pure]
    · simp [hzero]
    · simp [hm.registered]
  · have hpos : m.nInit ≠ 0 := by
      rw [hm.nInit]
      exact_mod_cast hn
    have hhandle := hm.handle (Nat.pos_of_ne_zero hn)
    refine ⟨{ m with nInit := m.nInit + 1 }, ?_, hm.index, ?_, ?_, fun _ => hhandle⟩
    · simp [vmodEvent, hpos, hhandle, check, bind, Except.bind, pure, Except.pure]
    · simp [hm.nInit]
    · simp [hm.registered, hn]

/-- The discard of a VCL runs the cleanup if it was the last one. -/
theorem Inv.discard (hm : Inv (n + 1) m) (handle : ℕ+) :
    (n ≠ 0 → ∃ m', vmodEvent handle m .discard = .ok m' ∧ Inv n m') ∧
    (n = 0 → vmodEvent handle m .discard = (do
      let xkey ← xkeyCleanup m.xkey
      return ⟨xkey, 0, 0, []⟩)) := by
  have hpos : 0 < m.nInit := by
    rw [hm.nInit]
    exact_mod_cast Nat.succ_pos n
  have hhandle := hm.handle (Nat.succ_pos n)
  have hpred : m.nInit - 1 = n := by simp [hm.nInit]
  constructor
  · intro hn
    have hne : m.nInit - 1 ≠ 0 := by
      rw [hpred]
      exact_mod_cast hn
    refine ⟨{ m with nInit := m.nInit - 1 }, ?_, hm.index, hpred, ?_, fun _ => hhandle⟩
    · simp [vmodEvent, hpos, hne, hhandle, check, bind, Except.bind, pure, Except.pure]
    · simp [hm.registered, hn]
  · rintro rfl
    have hzero : m.nInit - 1 = 0 := hpred
    have hregistered : m.registered = [m.xkeyCbHandle] := by simp [hm.registered]
    simp [vmodEvent, hpos, hzero, hhandle, hregistered, check, bind, Except.bind, pure,
      Except.pure]

/-- An admissible event keeps the invariant, if it is not the discard of the
last VCL with a counter above zero. -/
theorem Inv.event (sha256 : CString → Digest) (rearm : Rearm) (hm : Inv n m) {e : Event}
    (he : Admissible n [e]) (hclear : Cleared m e) :
    ∃ m', step sha256 rearm m e = .ok m' ∧ Inv (loaded n e) m' := by
  obtain ⟨g, ix, hs, hset⟩ := hm.index
  cases e with
  | vcl handle e =>
      cases e with
      | load => exact hm.load handle
      | warm => exact ⟨m, rfl, hm⟩
      | use => exact ⟨m, rfl, hm⟩
      | cold => exact ⟨m, rfl, hm⟩
      | discard =>
          obtain ⟨k, rfl⟩ : ∃ k, n = k + 1 := ⟨n - 1, by have := he.1; omega⟩
          obtain ⟨hmore, hlast⟩ := hm.discard handle
          by_cases hk : k = 0
          · subst hk
            obtain ⟨hhashhead, hochead, hoc⟩ := hclear (by simpa using hm.nInit)
            obtain ⟨s', g', hstep, hs', hset'⟩ :=
              xkeyCleanup_spec hs hset hhashhead hochead hoc
            exact ⟨_, (hlast rfl).trans (ok_bind hstep), ⟨g', _, hs', hset'⟩, rfl, rfl,
              fun h => absurd h (lt_irrefl _)⟩
          · exact hmore hk
  | call c =>
      obtain ⟨s', g', hstep, hs', hset', -⟩ := call_spec hs hset c
      exact ⟨{ m with xkey := s' }, ok_bind hstep, ⟨g', _, hs', hset'⟩, hm.nInit,
        hm.registered, hm.handle⟩
  | purge objects doSoft now key =>
      obtain ⟨os, -, hpurge⟩ := purge_spec sha256 hs key
      have hst := hpurge rearm doSoft now (.start m.xkey objects) rfl
      refine ⟨_, ok_bind hst, ⟨g, ix, ?_, ?_⟩, hm.nInit, hm.registered, hm.handle⟩
      · simpa [Purge.start] using hs
      · simpa [Purge.start] using hset

theorem Inv.not_cleared (hm : Inv n m) {e : Event} (he : Admissible n [e])
    (hclear : ¬ Cleared m e) {m' : Module} (hstep : step sha256 rearm m e = .ok m') :
    ¬ Ok (loaded n e) m' := by
  obtain ⟨g, ix, hs, hset⟩ := hm.index
  cases e with
  | call c => exact absurd trivial hclear
  | purge objects doSoft now key => exact absurd trivial hclear
  | vcl handle e =>
      cases e with
      | load => exact absurd trivial hclear
      | warm => exact absurd trivial hclear
      | use => exact absurd trivial hclear
      | cold => exact absurd trivial hclear
      | discard =>
          obtain ⟨hone, hcount⟩ := Classical.not_imp.mp hclear
          obtain ⟨k, rfl⟩ : ∃ k, n = k + 1 := ⟨n - 1, by have := he.1; omega⟩
          have hk : k = 0 := by
            have := hm.nInit
            omega
          have hdiscard := (hm.discard handle).2 hk
          have hstep' : vmodEvent handle m .discard = .ok m' := hstep
          rw [hdiscard] at hstep'
          rintro hok
          rcases xkeyCleanup_breaks hs hset hcount with ⟨e, he⟩ | ⟨s', hs', hbreak⟩
          · simp [he, bind, Except.bind] at hstep'
          · rw [ok_bind hs'] at hstep'
            obtain rfl : (⟨s', 0, 0, []⟩ : Module) = m' := by simpa [pure, Except.pure] using hstep'
            exact hbreak ⟨hok.nHashhead, hok.nOchead⟩

theorem alwaysOk_iff {es : List Event} (hm : Inv n m) (hes : Admissible n es) :
    AlwaysOk sha256 rearm n es m ↔ AlwaysCleared sha256 rearm es m := by
  induction es generalizing n m with
  | nil => exact ⟨fun _ => trivial, fun _ => hm.ok⟩
  | cons e es ih =>
      obtain ⟨he, hes⟩ := hes
      by_cases hclear : Cleared m e
      · obtain ⟨m', hstep, hm'⟩ := hm.event sha256 rearm ⟨he, trivial⟩ hclear
        have hrest := ih hm' hes
        simp only [AlwaysOk, AlwaysCleared, hstep, Except.ok.injEq, exists_eq_left']
        exact ⟨fun h => ⟨hclear, hrest.mp h.2⟩, fun h => ⟨hm.ok, hrest.mpr h.2⟩⟩
      · refine ⟨fun h => ?_, fun h => absurd h.1 hclear⟩
        obtain ⟨-, m', hstep, hok⟩ := h
        have hok' : Ok (loaded n e) m' := by
          cases es with
          | nil => exact hok
          | cons e' es => exact hok.1
        exact absurd hok' (hm.not_cleared ⟨he, trivial⟩ hclear hstep)

theorem AlwaysOk.run {es : List Event} (h : AlwaysOk sha256 rearm n es m) :
    ∃ m', es.foldlM (step sha256 rearm) m = .ok m' := by
  induction es generalizing n m with
  | nil => exact ⟨m, rfl⟩
  | cons e es ih =>
      obtain ⟨-, m₁, hstep, hrest⟩ := h
      obtain ⟨m', hrun⟩ := ih hrest
      exact ⟨m', (ok_bind hstep).trans hrun⟩

instance : (e : Event) → Decidable (Cleared m e)
  | .vcl _ .discard => inferInstanceAs (Decidable (m.nInit = 1 →
      m.xkey.hashheads.count = 0 ∧ m.xkey.ocheads.count = 0 ∧ m.xkey.ocs.count = 0))
  | .vcl _ .load | .vcl _ .warm | .vcl _ .use | .vcl _ .cold => .isTrue trivial
  | .call _ | .purge _ _ _ _ => .isTrue trivial

instance decidableAlwaysCleared :
    (es : List Event) → (m : Module) → Decidable (AlwaysCleared sha256 rearm es m)
  | [], _ => .isTrue trivial
  | e :: es, m =>
      have : Decidable (match step sha256 rearm m e with
          | .ok m' => AlwaysCleared sha256 rearm es m'
          | .error _ => True) :=
        match step sha256 rearm m e with
        | .ok m' => decidableAlwaysCleared es m'
        | .error _ => .isTrue trivial
      inferInstanceAs (Decidable (Cleared m e ∧ _))

end

/-- The life cycle is sound exactly in the runs in which the discard of the last
VCL always finds the counters of the pools at zero. -/
theorem lifeCycle_iff (sha256 : CString → Digest) (rearm : Rearm) (es : List Event)
    (hes : Admissible 0 es) :
    AlwaysOk sha256 rearm 0 es Module.initial ↔
      AlwaysCleared sha256 rearm es Module.initial :=
  alwaysOk_iff inv_initial hes

/-- One object with one key, and a reload. -/
theorem lifeCycle_iff_reload :
    AlwaysOk sha256Table setExp 0 [.vcl 1 .load, .call (.insert 1 Digest.zero), .vcl 1 .discard,
      .vcl 1 .load, .call (.insert 2 Digest.zero)] Module.initial :=
  (lifeCycle_iff sha256Table setExp _ (by simp [Admissible, loaded])).mpr (by decide)

/-- The second insert of a pair leaves two heads in the pools; after a reload
the counter still promises an ochead. -/
theorem not_alwaysOk_reload :
    let es : List Event := [.vcl 1 .load, .call (.insert 1 Digest.zero),
      .call (.insert 1 Digest.zero), .vcl 1 .discard, .vcl 1 .load,
      .call (.insert 1 Digest.zero)]
    Admissible 0 es ∧
      es.foldlM (step sha256Table setExp) Module.initial = .error .nullDeref ∧
      ¬ AlwaysOk sha256Table setExp 0 es Module.initial := by
  intro es
  have hfault : (match es.foldlM (step sha256Table setExp) Module.initial with
      | .ok _ => none
      | .error e => some e) = some Fault.nullDeref := by
    decide
  have hrun : es.foldlM (step sha256Table setExp) Module.initial = .error .nullDeref := by
    cases hc : es.foldlM (step sha256Table setExp) Module.initial with
    | ok m => simp [hc] at hfault
    | error e => simpa [hc] using hfault
  refine ⟨by simp [es, Admissible, loaded], hrun, fun h => ?_⟩
  obtain ⟨m, hm⟩ := h.run
  simp [hrun] at hm

end VarnishModules.XkeyLifeCycle
