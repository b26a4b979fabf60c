import VarnishModules.SaintmodeLedger

/-!
The threads of `SaintmodeHeap` on lists.

A call takes effect at one point: where it looks at the object without the lock, where it holds
the lock, or where it finds that there is nothing to lock.
-/

namespace VarnishModules.SaintmodeThreads

open VarnishModules.TailQueue
open VarnishModules.SaintmodeModel (Backend Saintmode SaintmodeObjs Trouble Method Busyobj Message
  Config)
open VarnishModules.SaintmodeVerdict (Check Threads)
open VarnishModules.SaintmodeHeap
open VarnishModules.SaintmodeLedger

/-! The lists. -/

/-- What takes effect. -/
inductive Op
  | verdict (a : SaintmodeVerdict.Action)
  | count (sm : ℕ)

/-- What goes to the log. -/
def message (σ : Threads) : SaintmodeVerdict.Action → Option Message
  | .blacklist method bo expires => some (SaintmodeModel.vmodBlacklist σ.smObjs method bo expires).1
  | .isHealthy i method req => do
      let sm ← σ.smObjs[i]?
      let digest := if method = .recv ∨ method = .hash then none else some req.digest
      (SaintmodeModel.isDigestHealthy sm digest req.tPrev).2.1
  | .enter _ _ _ _ _ _ => none
  | .check thread _ _ => do
      let c ← σ.checks thread
      let sm ← σ.smObjs[c.sm]?
      let bo ← c.bo
      (SaintmodeModel.isDigestHealthy sm (some bo.digest) bo.tPrev).2.1

def effect (σ : Threads) : Op → Option (Output × Threads)
  | .verdict a => (SaintmodeVerdict.step σ a).map fun r => (⟨r.1, none, message σ a⟩, r.2)
  | .count i => σ.smObjs[i]?.map fun sm =>
      (⟨none, some (SaintmodeModel.vmodSaintmodeBlacklistCount sm), none⟩, σ)

/-- What takes effect with an action. -/
def op (M : Memory) : Action → Option Op
  | .blacklist thread method bo expires =>
      (M.vmodBlacklist thread method bo expires).1.map fun _ =>
        .verdict (.blacklist method bo expires)
  | .insert thread =>
      match M.threads thread with
      | .insert _ bo expires _ => some (.verdict (.blacklist .backendResponse bo expires))
      | _ => none
  | .count i => some (.count i)
  | .isHealthy _ i method req => some (.verdict (.isHealthy i method req))
  | .enter thread i asker bo real up => some (.verdict (.enter thread i asker bo real up))
  | .check thread real up => some (.verdict (.check thread real up))
  | .release _ => none

/-! What the memory stands for. -/

def readBack (M : Memory) (trs : List ℕ) (sm : Sm) : Saintmode :=
  ⟨sm.be, sm.threshold, sm.nTrouble, trs.map M.trouble⟩

/-- A thread with what it holds. -/
def Runs (M : Memory) (check : Option Check) (own : List ℕ) : Thread → Prop
  | .idle => check = none ∧ own = []
  | .insert i bo expires tp => check = none ∧ own = [tp] ∧
      M.findSm bo.directorResp = some i ∧ M.trouble tp = ⟨bo.digest, bo.tPrev + expires⟩
  | .check c => check = some c ∧ own = []
  | .release tr => check = none ∧ Chained M.queues tr own

structure Holds (M : Memory) (σ : Threads) (lists : Head → List ℕ) : Prop where
  owned : Owned M.queues M.fresh lists
  bound : ∀ i, M.smList.length ≤ i → lists (.troublelist i) = []
  smObjs : ∀ i, σ.smObjs[i]? = (M.smList[i]?).map (readBack M (lists (.troublelist i)))
  threads : ∀ t, Runs M (σ.checks t) (lists (.pruned t)) (M.threads t)

variable {M M' : Memory} {σ σ' : Threads} {lists : Head → List ℕ} {check : Option Check}
  {own : List ℕ} {t : Thread} {i thread : ℕ} {sm : Sm} {digest : Option Digest} {now : ℚ}
  {a : Action} {be : Backend}

theorem Runs.congr (h : Runs M check own t) (hbe : ∀ be, M'.findSm be = M.findSm be)
    (htrouble : ∀ x ∈ own, M'.trouble x = M.trouble x)
    (hnext : ∀ x ∈ own, M'.queues.next () x = M.queues.next () x) : Runs M' check own t := by
  cases t with
  | idle => exact h
  | insert i bo expires tp =>
      obtain ⟨hcheck, rfl, hfind, htp⟩ := h
      exact ⟨hcheck, rfl, (hbe _).trans hfind, (htrouble tp (by simp)).trans htp⟩
  | check c => exact h
  | release tr => exact ⟨h.1, h.2.congr hnext⟩

theorem Runs.of_nil (h : Runs M check [] t) (M' : Memory) : Runs M' check [] t := by
  cases t with
  | idle => exact h
  | insert i bo expires tp => exact absurd h.2.1 (by simp)
  | check c => exact h
  | release tr => exact h

theorem findSm_eq_of_map (h : M'.smList.map Sm.be = M.smList.map Sm.be) (be : Backend) :
    M'.findSm be = M.findSm be := by
  have hmap : ∀ M : Memory, M.findSm be = (M.smList.map Sm.be).findIdx? (fun b => b = be) := by
    intro M
    rw [List.findIdx?_map]
    rfl
  rw [hmap, hmap, h]

theorem map_be_set {l : List Sm} (hsm : l[i]? = some sm) (nTrouble : UInt32) :
    (l.set i { sm with nTrouble }).map Sm.be = l.map Sm.be := by
  apply List.ext_getElem?
  intro j
  rw [List.map_set, List.getElem?_set]
  split_ifs with hj hi
  · rw [← hj, List.getElem?_map, hsm]
    rfl
  · rw [← hj, List.getElem?_eq_none (not_lt.mp hi)]
  · rfl

theorem Holds.map_be (h : Holds M σ lists) :
    σ.smObjs.map Saintmode.be = M.smList.map Sm.be := by
  apply List.ext_getElem?
  intro i
  rw [List.getElem?_map, List.getElem?_map, h.smObjs i, Option.map_map]
  rfl

theorem Holds.findSm (h : Holds M σ lists) (be : Backend) :
    SaintmodeModel.findSm σ.smObjs be = M.findSm be := by
  have hmap : (σ.smObjs.map Saintmode.be).findIdx? (fun b => b = be) =
      (M.smList.map Sm.be).findIdx? (fun b => b = be) := by
    rw [h.map_be]
  rw [List.findIdx?_map, List.findIdx?_map] at hmap
  exact hmap

theorem Holds.eq_nil_iff (h : Holds M σ lists) : σ.smObjs = [] ↔ M.smList = [] := by
  rw [← List.map_eq_nil_iff (f := Saintmode.be), h.map_be, List.map_eq_nil_iff]

theorem Holds.getElem? (h : Holds M σ lists) (hsm : M.smList[i]? = some sm) :
    σ.smObjs[i]? = some (readBack M (lists (.troublelist i)) sm) := by
  rw [h.smObjs i, hsm, Option.map_some]

theorem Holds.idle (h : Holds M σ lists) (ht : M.threads thread = .idle) :
    σ.checks thread = none ∧ lists (.pruned thread) = [] := by
  have hruns := h.threads thread
  rw [ht] at hruns
  exact hruns

/-- The entries of one thread or object are not those of another thread. -/
theorem Holds.notMem (h : Holds M σ lists) {k : Head} {t x : ℕ} (hk : k ≠ .pruned t)
    (hx : x ∈ lists k) : x ∉ lists (.pruned t) :=
  h.owned.notMem_of_ne hk hx

/-! The steps. -/

/-- A thread exchanges entries with an object, under its lock. -/
theorem Holds.exchange (h : Holds M σ lists) (hsm : M.smList[i]? = some sm) {m' : Links}
    {xs' own' : List ℕ} (nTrouble : UInt32) (t : Thread)
    (hperm : (xs' ++ own').Perm (lists (.troublelist i) ++ lists (.pruned thread)))
    (hq' : IsQueue m' () (.troublelist i) xs')
    (hm' : Untouched [.troublelist i, .pruned thread]
      (lists (.troublelist i) ++ lists (.pruned thread)) M.queues m')
    (hruns : ∀ M' : Memory, M'.queues = m' → Runs M' none own' t) :
    Holds { M with
        queues := m'
        smList := M.smList.set i { sm with nTrouble }
        threads := Function.update M.threads thread t }
      ⟨σ.smObjs.set i ⟨sm.be, sm.threshold, nTrouble, xs'.map M.trouble⟩,
        Function.update σ.checks thread none⟩
      (Function.update (Function.update lists (.troublelist i) xs') (.pruned thread) own') := by
  let lists' := Function.update (Function.update lists (.troublelist i) xs') (.pruned thread) own'
  have hi : i < M.smList.length := (List.getElem?_eq_some_iff.mp hsm).1
  have hi' : i < σ.smObjs.length := (List.getElem?_eq_some_iff.mp (h.getElem? hsm)).1
  have htroublelist : lists' (.troublelist i) = xs' := by simp [lists']
  have hpruned : lists' (.pruned thread) = own' := by simp [lists']
  have hother : ∀ k, k ≠ .troublelist i → k ≠ .pruned thread → lists' k = lists k :=
    fun k hk hk' => by simp [lists', hk, hk']
  have haway : ∀ k, k ≠ .troublelist i → k ≠ .pruned thread → ∀ x ∈ lists k,
      x ∉ lists (.troublelist i) ++ lists (.pruned thread) := by
    intro k hk hk' x hx hmem
    rcases List.mem_append.mp hmem with hmem | hmem
    · exact hk (h.owned.unique x k _ hx hmem)
    · exact hk' (h.owned.unique x k _ hx hmem)
  change Holds _ _ lists'
  constructor
  · refine h.owned.move (a := .troublelist i) (b := .pruned thread) (by simp) hother ?_ hm'.live
      hm'.freed ?_
    · rw [htroublelist, hpruned]
      exact hperm
    · intro j
      by_cases hj : j = i
      · subst hj
        rw [htroublelist]
        exact hq'
      · have hne : Head.troublelist j ≠ .troublelist i := by simpa using hj
        rw [hother _ hne (by simp)]
        exact hm'.isQueue (by simpa using hj) (haway _ hne (by simp)) (h.owned.queue j)
  · intro j hj
    have hj : M.smList.length ≤ j := by simpa using hj
    rw [hother _ (by simp only [ne_eq, Head.troublelist.injEq]; omega) (by simp)]
    exact h.bound j hj
  · intro j
    rw [List.getElem?_set, List.getElem?_set]
    by_cases hj : i = j
    · subst hj
      rw [if_pos rfl, if_pos rfl, if_pos hi, if_pos hi', htroublelist]
      rfl
    · rw [if_neg hj, if_neg hj, hother _ (by simpa using Ne.symm hj) (by simp)]
      exact h.smObjs j
  · intro t'
    by_cases ht : t' = thread
    · subst ht
      rw [hpruned]
      simp only [Function.update_self]
      refine hruns _ ?_
      rfl
    · have hne : Head.pruned t' ≠ .pruned thread := by simpa using ht
      rw [hother _ (by simp) hne]
      simp only [Function.update_of_ne ht]
      exact (h.threads t').congr (fun be => findSm_eq_of_map (map_be_set hsm nTrouble) be)
        (fun _ _ => rfl) fun x hx => hm'.next x (haway _ (by simp) hne x hx)

/-- A check leaves the object as it does on lists, and the thread with what has expired. -/
theorem isDigestHealthy_spec (h : Holds M σ lists) (hown : lists (.pruned thread) = [])
    (hsm : M.smList[i]? = some sm) (digest : Option Digest) (now : ℚ) :
    let r := SaintmodeModel.isDigestHealthy (readBack M (lists (.troublelist i)) sm) digest now
    ∃ M' lists', M.isDigestHealthy thread i sm digest now = .ok (r.1, r.2.1, M') ∧
      Holds M' ⟨σ.smObjs.set i r.2.2, Function.update σ.checks thread none⟩ lists' := by
  intro r
  have hinit := agreeOff_init M.queues () (.pruned thread)
  have hq : IsQueue (M.queues.init (.pruned thread)) () (.troublelist i)
      ([] ++ lists (.troublelist i)) :=
    (h.owned.queue i).frame hinit (by simp) (Or.inr fun _ _ => List.not_mem_nil)
  have hlength : (lists (.troublelist i)).length ≤ M.fuel :=
    (h.owned.length_le _).trans (Nat.le_succ _)
  obtain ⟨m', xs', own', hloop, hmap, hq', hown', hperm, hm'⟩ :=
    pruneLoop_spec M.trouble digest now sm.nTrouble hq (isQueue_init M.queues () (.pruned thread))
      (fun _ _ => List.not_mem_nil) hlength
  have hfirst : (M.queues.init (.pruned thread)).first (.troublelist i) =
      (lists (.troublelist i)).head? := hq.first_eq
  have htouched : Untouched [.troublelist i, .pruned thread]
      (lists (.troublelist i) ++ lists (.pruned thread)) M.queues m' :=
    ((untouched_of_agreeOff hinit (by simp)).mono (List.nil_subset _)).trans
      (hm'.mono (by simp [hown]))
  have hobject : r.2.2 = ⟨sm.be, sm.threshold, r.2.2.nTrouble, xs'.map M.trouble⟩ := by
    rw [hmap]
    rfl
  rw [hobject]
  refine ⟨_, _, ?_, h.exchange hsm r.2.2.nTrouble (.release (m'.first (.pruned thread)))
    (hown ▸ hperm) hq' htouched ?_⟩
  · rw [Memory.isDigestHealthy, hfirst, hloop]
    rfl
  · rintro M' rfl
    exact ⟨rfl, chained_of_isQueue hown'⟩

/-- `vmod_blacklist` up to the lock is not seen by the others. -/
theorem alloc_spec (h : Holds M σ lists) (ht : M.threads thread = .idle) {bo : Busyobj}
    (expires : ℚ) (hfind : M.findSm bo.directorResp = some i) :
    Holds ((M.newTrouble ⟨bo.digest, bo.tPrev + expires⟩).setThread thread
        (.insert i bo expires M.fresh)) σ
      (Function.update lists (.pruned thread) [M.fresh]) := by
  obtain ⟨hcheck, hown⟩ := h.idle ht
  have hne : ∀ {k x}, x ∈ lists k → x ≠ M.fresh := by
    rintro k x hx rfl
    exact lt_irrefl _ (h.owned.lt_fresh hx)
  have htrouble : ∀ {k x}, x ∈ lists k →
      Function.update M.trouble M.fresh ⟨bo.digest, bo.tPrev + expires⟩ x = M.trouble x :=
    fun hx => Function.update_of_ne (hne hx) _ _
  refine ⟨h.owned.alloc hown, ?_, ?_, ?_⟩
  · intro j hj
    rw [Function.update_of_ne (by simp)]
    exact h.bound j hj
  · intro j
    rw [Function.update_of_ne (by simp), h.smObjs j]
    refine congrArg (fun f => Option.map f M.smList[j]?) (funext fun sm => ?_)
    exact congrArg (Saintmode.mk _ _ _) (List.map_congr_left fun x hx => (htrouble hx).symm)
  · intro t
    by_cases heq : t = thread
    · subst heq
      simp only [Memory.setThread, Memory.newTrouble, Function.update_self]
      exact ⟨hcheck, rfl, hfind, Function.update_self _ _ _⟩
    · simp only [Memory.setThread, Memory.newTrouble, Function.update_of_ne heq]
      rw [Function.update_of_ne (by simpa using heq)]
      refine (h.threads t).congr (fun _ => rfl) (fun x hx => htrouble hx) fun x hx => ?_
      simp [Queues.alloc, hne hx]

/-- With the lock held, `vmod_blacklist` puts the entry on the list. -/
theorem insertTrouble_spec (h : Holds M σ lists) {bo : Busyobj} {expires : ℚ} {tp : ℕ}
    (ht : M.threads thread = .insert i bo expires tp) (hsm : M.smList[i]? = some sm) :
    ∃ M' lists', M.insertTrouble i sm tp = .ok M' ∧
      Holds (M'.setThread thread .idle)
        { σ with smObjs := σ.smObjs.modify i fun sm =>
            SaintmodeModel.insertTrouble sm ⟨bo.digest, bo.tPrev + expires⟩ } lists' := by
  have hruns := h.threads thread
  rw [ht] at hruns
  obtain ⟨hcheck, hown, -, htrouble⟩ := hruns
  have htp : tp ∈ lists (.pruned thread) := by simp [hown]
  obtain ⟨m', hinsert, hq', hm'⟩ := insertHead_spec (h.owned.queue i) (alive_eq _)
    ((h.owned.live tp).mpr ⟨_, htp⟩) (h.owned.notMem_of_ne (by simp) htp)
  have htouched : Untouched [.troublelist i, .pruned thread]
      (lists (.troublelist i) ++ lists (.pruned thread)) M.queues m' :=
    (untouched_of_agreeOff hm' (by simp)).mono (by simp [hown])
  have hperm : (tp :: lists (.troublelist i) ++ []).Perm
      (lists (.troublelist i) ++ lists (.pruned thread)) := by
    rw [hown, List.append_nil]
    exact (List.perm_append_singleton tp _).symm
  have hholds := h.exchange hsm (sm.nTrouble + 1) .idle hperm hq' htouched
    fun _ _ => ⟨rfl, rfl⟩
  have hmodify : (σ.smObjs.modify i fun sm =>
      SaintmodeModel.insertTrouble sm ⟨bo.digest, bo.tPrev + expires⟩) =
        σ.smObjs.set i ⟨sm.be, sm.threshold, sm.nTrouble + 1,
          (tp :: lists (.troublelist i)).map M.trouble⟩ := by
    rw [List.modify_eq_set_getElem?, h.getElem? hsm, List.map_cons, htrouble]
    rfl
  have hchecks : Function.update σ.checks thread none = σ.checks :=
    Function.update_eq_self_iff.mpr hcheck.symm
  rw [hchecks] at hholds
  rw [hmodify]
  refine ⟨{ M with
    queues := m'
    smList := M.smList.set i { sm with nTrouble := sm.nTrouble + 1 } }, _, ?_, hholds⟩
  rw [Memory.insertTrouble, hinsert]
  rfl

/-- A thread that frees what it has taken off is not seen by the others. -/
theorem releaseNext_spec (h : Holds M σ lists) {tr : ℕ}
    (ht : M.threads thread = .release (some tr)) :
    ∃ M' lists', M.releaseNext thread tr = .ok M' ∧ Holds M' σ lists' := by
  have hruns := h.threads thread
  rw [ht] at hruns
  obtain ⟨hcheck, hchain⟩ := hruns
  cases hown : lists (.pruned thread) with
  | nil =>
      rw [hown] at hchain
      exact absurd hchain (by simp [Chained])
  | cons x own =>
      rw [hown] at hchain
      obtain ⟨heq, htail⟩ := hchain
      obtain rfl := Option.some.inj heq
      have hmem : tr ∈ lists (.pruned thread) := by simp [hown]
      obtain ⟨m', hfree, hnext, hm'⟩ := h.owned.free hmem
      rw [hown, List.erase_cons_head] at hm'
      refine ⟨{ M with
          queues := m'
          threads := Function.update M.threads thread (.release (M.queues.next () tr)) },
        _, ?_, hm', ?_, ?_, ?_⟩
      · rw [Memory.releaseNext, touchElem_ok ((h.owned.live tr).mpr ⟨_, hmem⟩)]
        simp only [hfree, bind, Except.bind]
        rfl
      · intro j hj
        rw [Function.update_of_ne (by simp)]
        exact h.bound j hj
      · intro j
        rw [Function.update_of_ne (by simp)]
        exact h.smObjs j
      · intro t
        by_cases heq : t = thread
        · subst heq
          simp only [Function.update_self]
          exact ⟨hcheck, htail.congr fun y _ => congrFun (congrFun hnext ()) y⟩
        · simp only [Function.update_of_ne heq]
          rw [Function.update_of_ne (by simpa using heq)]
          exact (h.threads t).congr (fun _ => rfl) (fun _ _ => rfl)
            fun y _ => congrFun (congrFun hnext ()) y

/-- A thread that holds nothing goes on. -/
theorem setThread_spec (h : Holds M σ lists) (hown : lists (.pruned thread) = [])
    (check : Option Check) (hruns : Runs M check [] t) :
    Holds (M.setThread thread t) { σ with checks := Function.update σ.checks thread check }
      lists := by
  refine ⟨h.owned, h.bound, h.smObjs, fun t' => ?_⟩
  by_cases heq : t' = thread
  · subst heq
    simp only [Memory.setThread, Function.update_self, hown]
    exact hruns.of_nil _
  · simp only [Memory.setThread, Function.update_of_ne heq]
    exact (h.threads t').congr (fun _ => rfl) (fun _ _ => rfl) fun _ _ => rfl

theorem whenIdle_inv {r : Option (Except Fault (Output × Memory))}
    {x : Except Fault (Output × Memory)} (h : M.whenIdle thread r = some x) :
    M.threads thread = .idle ∧ r = some x := by
  unfold Memory.whenIdle at h
  split at h
  · exact ⟨‹_›, h⟩
  · cases h

/-- The memory does what the lists do, where the action takes effect, and nothing else. -/
def Does (M : Memory) (σ : Threads) (a : Action) (o : Output) (M' : Memory) : Prop :=
  (op M a = none ∧ o = Output.none ∧ ∃ lists, Holds M' σ lists) ∨
    ∃ p σ', op M a = some p ∧ effect σ p = some (o, σ') ∧ ∃ lists, Holds M' σ' lists

variable {x : Except Fault (Output × Memory)}

/-- A call of `vmod_blacklist` that comes back before the lock. -/
theorem does_refused (h : Holds M σ lists) {method : Method} {bo : Busyobj} {expires : ℚ}
    {vsl : Message} (hmemory : M.vmodBlacklist thread method bo expires = (some vsl, M))
    (hlists : SaintmodeModel.vmodBlacklist σ.smObjs method bo expires = (vsl, σ.smObjs)) :
    Does M σ (.blacklist thread method bo expires) ⟨none, none, some vsl⟩ M := by
  refine Or.inr ⟨.verdict (.blacklist method bo expires), σ, ?_, ?_, lists, h⟩
  · rw [op, hmemory]
    rfl
  · rw [effect, message, SaintmodeVerdict.step, hlists]
    rfl

theorem act_blacklist (h : Holds M σ lists) {method : Method} {bo : Busyobj} {expires : ℚ}
    (hact : M.act (.blacklist thread method bo expires) = some x) :
    ∃ o M', x = .ok (o, M') ∧ Does M σ (.blacklist thread method bo expires) o M' := by
  obtain ⟨hidle, heq⟩ := whenIdle_inv hact
  have hx : x = .ok (⟨none, none, (M.vmodBlacklist thread method bo expires).1⟩,
      (M.vmodBlacklist thread method bo expires).2) := (Option.some.inj heq).symm
  have hrefused : ∀ vsl, M.vmodBlacklist thread method bo expires = (some vsl, M) →
      SaintmodeModel.vmodBlacklist σ.smObjs method bo expires = (vsl, σ.smObjs) →
      ∃ o M', x = .ok (o, M') ∧ Does M σ (.blacklist thread method bo expires) o M' := by
    intro vsl hmemory hlists
    rw [hmemory] at hx
    exact ⟨_, _, hx, does_refused h hmemory hlists⟩
  by_cases hnil : M.smList = []
  · apply hrefused .notConfigured
    · rw [Memory.vmodBlacklist, if_pos hnil]
    · rw [SaintmodeModel.vmodBlacklist, if_pos (h.eq_nil_iff.mpr hnil)]
  have hnil' : σ.smObjs ≠ [] := mt h.eq_nil_iff.mp hnil
  by_cases hmethod : method = .backendResponse
  swap
  · apply hrefused .outsideBackendResponse
    · rw [Memory.vmodBlacklist, if_neg hnil, if_pos hmethod]
    · rw [SaintmodeModel.vmodBlacklist, if_neg hnil', if_pos hmethod]
  cases hfind : M.findSm bo.directorResp with
  | none =>
      apply hrefused .notConfiguredForBackend
      · rw [Memory.vmodBlacklist, if_neg hnil, if_neg (not_not.mpr hmethod), hfind]
      · rw [SaintmodeModel.vmodBlacklist, if_neg hnil', if_neg (not_not.mpr hmethod), h.findSm,
          hfind]
  | some i =>
      have hmemory : M.vmodBlacklist thread method bo expires =
          (none, (M.newTrouble ⟨bo.digest, bo.tPrev + expires⟩).setThread thread
            (.insert i bo expires M.fresh)) := by
        rw [Memory.vmodBlacklist, if_neg hnil, if_neg (not_not.mpr hmethod), hfind]
      rw [hmemory] at hx
      refine ⟨_, _, hx, Or.inl ⟨?_, rfl, _, alloc_spec h hidle expires hfind⟩⟩
      rw [op, hmemory]
      rfl

theorem act_insert (h : Holds M σ lists) (hact : M.act (.insert thread) = some x) :
    ∃ o M', x = .ok (o, M') ∧ Does M σ (.insert thread) o M' := by
  cases ht : M.threads thread with
  | insert i bo expires tp =>
      simp only [Memory.act, ht] at hact
      obtain ⟨sm, hsm, rfl⟩ := Option.map_eq_some_iff.mp hact
      obtain ⟨M', lists', hinsert, h'⟩ := insertTrouble_spec h ht hsm
      have hruns := h.threads thread
      rw [ht] at hruns
      obtain ⟨-, -, hfind, -⟩ := hruns
      have hbe : sm.be = bo.directorResp := by
        obtain ⟨hi, hbe, -⟩ := List.findIdx?_eq_some_iff_getElem.mp hfind
        obtain ⟨_, rfl⟩ := List.getElem?_eq_some_iff.mp hsm
        simpa using hbe
      have hnil : σ.smObjs ≠ [] := by
        intro hnil
        have hsm' := h.getElem? hsm
        rw [hnil] at hsm'
        exact absurd hsm' (by simp)
      have hlists : SaintmodeModel.vmodBlacklist σ.smObjs .backendResponse bo expires =
          (.putOnBlacklist bo.directorResp expires, σ.smObjs.modify i fun sm =>
            SaintmodeModel.insertTrouble sm ⟨bo.digest, bo.tPrev + expires⟩) := by
        rw [SaintmodeModel.vmodBlacklist, if_neg hnil, if_neg (by simp), h.findSm, hfind]
      have hop : op M (.insert thread) =
          some (.verdict (.blacklist .backendResponse bo expires)) := by
        simp only [op, ht]
      refine ⟨⟨none, none, some (.putOnBlacklist sm.be expires)⟩, _, ?_,
        Or.inr ⟨_, _, hop, ?_, lists', h'⟩⟩
      · rw [hinsert]
        rfl
      · rw [effect, message, SaintmodeVerdict.step, hlists, hbe]
        rfl
  | idle => simp [Memory.act, ht] at hact
  | check c => simp [Memory.act, ht] at hact
  | release tr => simp [Memory.act, ht] at hact

theorem act_isHealthy (h : Holds M σ lists) {method : Method} {req : SaintmodeModel.Req}
    (hact : M.act (.isHealthy thread i method req) = some x) :
    ∃ o M', x = .ok (o, M') ∧ Does M σ (.isHealthy thread i method req) o M' := by
  obtain ⟨hidle, heq⟩ := whenIdle_inv hact
  obtain ⟨sm, hsm, rfl⟩ := Option.map_eq_some_iff.mp heq
  obtain ⟨hcheck, hown⟩ := h.idle hidle
  obtain ⟨M', lists', hrun, h'⟩ := isDigestHealthy_spec h hown hsm
    (if method = .recv ∨ method = .hash then none else some req.digest) req.tPrev
  rw [Function.update_eq_self_iff.mpr hcheck.symm] at h'
  refine ⟨_, M', ok_bind hrun, Or.inr ⟨_, _, rfl, ?_, lists', h'⟩⟩
  rw [effect, message, SaintmodeVerdict.step, h.getElem? hsm]
  rfl

theorem act_check (h : Holds M σ lists) {real : ℚ} {up : Bool}
    (hact : M.act (.check thread real up) = some x) :
    ∃ o M', x = .ok (o, M') ∧ Does M σ (.check thread real up) o M' := by
  cases ht : M.threads thread with
  | check c =>
      simp only [Memory.act, ht] at hact
      obtain ⟨sm, hsm, rfl⟩ := Option.map_eq_some_iff.mp hact
      have hruns := h.threads thread
      rw [ht] at hruns
      obtain ⟨hcheck, hown⟩ := hruns
      obtain ⟨M', lists', hrun, h'⟩ := isDigestHealthy_spec h hown hsm (c.bo.map Busyobj.digest)
        (c.bo.elim real Busyobj.tPrev)
      refine ⟨_, M', ok_bind hrun, Or.inr ⟨_, _, rfl, ?_, lists', h'⟩⟩
      simp only [effect, message, SaintmodeVerdict.step, hcheck, Option.bind_eq_bind,
        Option.bind_some, h.getElem? hsm]
      cases hbo : c.bo with
      | none => rfl
      | some bo => rfl
  | idle => simp [Memory.act, ht] at hact
  | insert i bo expires tp => simp [Memory.act, ht] at hact
  | release tr => simp [Memory.act, ht] at hact

theorem act_enter (h : Holds M σ lists) {asker : SaintmodeVerdict.Asker} {bo : Option Busyobj}
    {real : ℚ} {up : Bool} (hact : M.act (.enter thread i asker bo real up) = some x) :
    ∃ o M', x = .ok (o, M') ∧ Does M σ (.enter thread i asker bo real up) o M' := by
  obtain ⟨hidle, heq⟩ := whenIdle_inv hact
  obtain ⟨sm, hsm, rfl⟩ := Option.map_eq_some_iff.mp heq
  obtain ⟨hcheck, hown⟩ := h.idle hidle
  by_cases hfast : sm.threshold = 0 ∨ sm.nTrouble = 0
  · rw [if_pos hfast]
    refine ⟨_, _, rfl, Or.inr ⟨_, σ, rfl, ?_, lists, h⟩⟩
    simp only [effect, message, SaintmodeVerdict.step, hcheck, Option.isSome_none, h.getElem? hsm,
      readBack, hfast, if_true, Bool.false_eq_true, if_false, Option.map_some]
  · rw [if_neg hfast]
    refine ⟨_, _, rfl, Or.inr ⟨_, _, rfl, ?_, lists,
      setThread_spec h hown (some ⟨i, asker, bo⟩) ⟨rfl, rfl⟩⟩⟩
    simp only [effect, message, SaintmodeVerdict.step, hcheck, Option.isSome_none, h.getElem? hsm,
      readBack, hfast, Bool.false_eq_true, if_false, Option.map_some]
    rfl

theorem act_release (h : Holds M σ lists) (hact : M.act (.release thread) = some x) :
    ∃ o M', x = .ok (o, M') ∧ Does M σ (.release thread) o M' := by
  cases ht : M.threads thread with
  | release tr =>
      have hruns := h.threads thread
      rw [ht] at hruns
      obtain ⟨hcheck, hchain⟩ := hruns
      cases tr with
      | none =>
          simp only [Memory.act, ht] at hact
          obtain rfl := Option.some.inj hact
          have hown : lists (.pruned thread) = [] := by
            cases hown : lists (.pruned thread) with
            | nil => rfl
            | cons y own =>
                rw [hown] at hchain
                exact absurd hchain (by simp [Chained])
          have h' : Holds (M.setThread thread .idle)
              { σ with checks := Function.update σ.checks thread none } lists :=
            setThread_spec h hown none ⟨rfl, rfl⟩
          rw [Function.update_eq_self_iff.mpr hcheck.symm] at h'
          exact ⟨_, _, rfl, Or.inl ⟨rfl, rfl, lists, h'⟩⟩
      | some tr =>
          simp only [Memory.act, ht] at hact
          obtain rfl := Option.some.inj hact
          obtain ⟨M', lists', hrelease, h'⟩ := releaseNext_spec h ht
          exact ⟨Output.none, M', by rw [hrelease]; rfl, Or.inl ⟨rfl, rfl, lists', h'⟩⟩
  | idle => simp [Memory.act, ht] at hact
  | insert i bo expires tp => simp [Memory.act, ht] at hact
  | check c => simp [Memory.act, ht] at hact

theorem act_does (h : Holds M σ lists) (hact : M.act a = some x) :
    ∃ o M', x = .ok (o, M') ∧ Does M σ a o M' := by
  cases a with
  | blacklist thread method bo expires => exact act_blacklist h hact
  | insert thread => exact act_insert h hact
  | count i =>
      obtain ⟨sm, hsm, rfl⟩ := Option.map_eq_some_iff.mp hact
      refine ⟨_, _, rfl, Or.inr ⟨_, σ, rfl, ?_, lists, h⟩⟩
      rw [effect, h.getElem? hsm]
      rfl
  | isHealthy thread i method req => exact act_isHealthy h hact
  | enter thread i asker bo real up => exact act_enter h hact
  | check thread real up => exact act_check h hact
  | release thread => exact act_release h hact

end VarnishModules.SaintmodeThreads
