import VarnishModules.SaintmodeThreads

/-!
Whole runs of `SaintmodeHeap`.

Whatever the threads do, the calls have the effects of calls made one after the other, and
the entries are all accounted for.
-/

namespace VarnishModules.SaintmodeLinear

open VarnishModules.TailQueue
open VarnishModules.SaintmodeModel (Backend Saintmode Trouble Config)
open VarnishModules.SaintmodeVerdict (Threads)
open VarnishModules.SaintmodeCount (fetchAt tile)
open VarnishModules.SaintmodeHeap
open VarnishModules.SaintmodeLedger
open VarnishModules.SaintmodeThreads

/-- What takes effect in a run. -/
def ops (es : List Event) : List Op :=
  es.filterMap fun e => op e.before e.input

/-- What is put out where something takes effect. -/
def outputs (es : List Event) : List (Except Fault Output) :=
  es.filterMap fun e => (op e.before e.input).map fun _ => e.output

/-- The entries on a list, or in the hands of a thread. -/
def holding (M : Memory) : Head → Except Fault (List ℕ)
  | .troublelist i => M.queues.walk () M.fuel (M.queues.first (.troublelist i))
  | .pruned thread =>
      match M.threads thread with
      | .idle => .ok []
      | .insert _ _ _ tp => .ok [tp]
      | .check _ => .ok []
      | .release tr => M.queues.walk () M.fuel tr

/-- A run on lists that does the same, and leaves what the memory holds. -/
structure Linearizes (config : Config) (es : List Event) (M : Memory)
    (fs : List (Machine.Event Threads Op Output)) (σ : Threads) : Prop where
  run : Machine.run effect (ops es) (SaintmodeVerdict.start config) = some (fs, σ)
  outputs : outputs es = fs.map fun f => .ok f.output
  length : σ.smObjs.length = M.smList.length
  object : ∀ i sm, σ.smObjs[i]? = some sm →
    M.smList[i]? = some ⟨sm.be, sm.threshold, sm.nTrouble⟩ ∧ M.troublelist i = .ok sm.troublelist

/-- An entry that is allocated is in one place, and once; another one that has been
allocated has been freed, once. -/
structure Accounted (M : Memory) (lists : Head → List ℕ) : Prop where
  holding : ∀ k, holding M k = .ok (lists k)
  nodup : ∀ k, (lists k).Nodup
  live : ∀ x, M.queues.live x = true ↔ ∃! k, x ∈ lists k
  freed : ∀ x, x < M.fresh ↔ (M.queues.live x = true ↔ x ∉ M.queues.freed)
  freed_nodup : M.queues.freed.Nodup

variable {M M' : Memory} {σ σ' : Threads} {lists : Head → List ℕ} {a : Action} {as : List Action}
  {es : List Event} {config : Config} {r : Except Fault Output} {i thread : ℕ}

/-! The start. -/

theorem vmodSaintmodeInit_holds (h : Holds M σ fun _ => []) (be : Backend) (threshold : Int64) :
    Holds (M.vmodSaintmodeInit be threshold)
      { σ with smObjs := σ.smObjs ++ [SaintmodeModel.vmodSaintmodeInit be threshold] }
      fun _ => [] := by
  have hlength : σ.smObjs.length = M.smList.length := by
    rw [← List.length_map (f := Saintmode.be), h.map_be, List.length_map]
  constructor
  · constructor
    · intro i
      by_cases hi : i = M.smList.length
      · subst hi
        exact isQueue_init M.queues () _
      · exact (h.owned.queue i).frame (agreeOff_init M.queues () _) (by simpa using hi)
          (Or.inr fun _ _ => List.not_mem_nil)
    · exact h.owned.nodup
    · exact h.owned.unique
    · exact h.owned.live
    · exact h.owned.allocated
    · exact h.owned.freed
    · exact h.owned.freed_nodup
  · exact fun _ _ => rfl
  · intro i
    simp only [Memory.vmodSaintmodeInit, List.getElem?_append, hlength]
    split_ifs with hi
    · exact h.smObjs i
    · cases hk : i - M.smList.length with
      | zero => rfl
      | succ k => rfl
  · exact fun t => (h.threads t).of_nil _

theorem foldl_holds (h : Holds M σ fun _ => []) (config : Config) :
    Holds (config.foldl (fun M c => M.vmodSaintmodeInit c.1 c.2) M)
      { σ with smObjs := σ.smObjs ++ SaintmodeModel.init config } fun _ => [] := by
  induction config generalizing M σ with
  | nil =>
      rw [SaintmodeModel.init, List.map_nil, List.append_nil]
      exact h
  | cons c config ih =>
      have hrest := ih (vmodSaintmodeInit_holds h c.1 c.2)
      rw [List.append_assoc] at hrest
      exact hrest

theorem holds_start (config : Config) :
    Holds (Memory.start config) (SaintmodeVerdict.start config) fun _ => [] := by
  have hempty : Holds ⟨Queues.empty, fun _ => ⟨Digest.zero, 0⟩, 0, [], fun _ => .idle⟩
      ⟨[], fun _ => none⟩ fun _ => [] := by
    refine ⟨⟨fun i => ?_, ?_, ?_, ?_, ?_, ?_, ?_⟩, ?_, ?_, ?_⟩
    · exact ⟨trivial, rfl, rfl, List.nodup_nil⟩
    · exact fun _ => List.nodup_nil
    · exact fun x h k hx _ => absurd hx List.not_mem_nil
    · simp [Queues.empty]
    · simp [Queues.empty]
    · simp [Queues.empty]
    · exact List.nodup_nil
    · exact fun _ _ => rfl
    · exact fun _ => rfl
    · exact fun _ => ⟨rfl, rfl⟩
  exact foldl_holds hempty config

/-! The runs. -/

theorem step_does (h : Holds M σ lists) (hstep : M.step a = some (r, M')) :
    ∃ o, r = .ok o ∧ Does M σ a o M' := by
  obtain ⟨x, hact, heq⟩ := Option.map_eq_some_iff.mp hstep
  obtain ⟨o, M₁, rfl, hdoes⟩ := act_does h hact
  obtain ⟨rfl, rfl⟩ := Prod.mk.inj heq
  exact ⟨o, rfl, hdoes⟩

/-- No step faults, and what the steps put out comes from the lists. -/
theorem run_does (h : Holds M σ lists) (hrun : Machine.run Memory.step as M = some (es, M')) :
    (∀ e ∈ es, ∃ o, e.output = .ok o ∧ (op e.before e.input = none → o = Output.none)) ∧
      ∃ fs σ' lists', Machine.run effect (ops es) σ = some (fs, σ') ∧
        outputs es = fs.map (fun f => .ok f.output) ∧ Holds M' σ' lists' := by
  induction as generalizing M σ lists es with
  | nil =>
      obtain ⟨rfl, rfl⟩ := Prod.mk.inj (Option.some.inj hrun)
      exact ⟨by simp, [], σ, lists, rfl, rfl, h⟩
  | cons a as ih =>
      obtain ⟨r, M₁, es, hstep, hrest, rfl⟩ := Machine.run_cons_inv hrun
      obtain ⟨o, rfl, ⟨hop, ho, lists₁, h₁⟩ | ⟨p, σ₁, hop, heffect, lists₁, h₁⟩⟩ :=
        step_does h hstep
      · obtain ⟨hes, fs, σ', lists', hfs, houtputs, h'⟩ := ih h₁ hrest
        have hops : ops (⟨M, a, .ok o⟩ :: es) = ops es := List.filterMap_cons_none hop
        have hcons : outputs (⟨M, a, .ok o⟩ :: es) = outputs es :=
          List.filterMap_cons_none (by simp [hop])
        rw [hops, hcons]
        exact ⟨List.forall_mem_cons.mpr ⟨⟨o, rfl, fun _ => ho⟩, hes⟩, fs, σ', lists', hfs,
          houtputs, h'⟩
      · obtain ⟨hes, fs, σ', lists', hfs, houtputs, h'⟩ := ih h₁ hrest
        have hops : ops (⟨M, a, .ok o⟩ :: es) = p :: ops es := List.filterMap_cons_some hop
        have hcons : outputs (⟨M, a, .ok o⟩ :: es) = .ok o :: outputs es :=
          List.filterMap_cons_some (by simp [hop])
        have hloud : op M a = none → o = Output.none :=
          fun hnone => absurd (hop.symm.trans hnone) (by simp)
        rw [hops, hcons, houtputs]
        exact ⟨List.forall_mem_cons.mpr ⟨⟨o, rfl, hloud⟩, hes⟩, ⟨σ, p, o⟩ :: fs, σ', lists',
          Machine.run_cons heffect hfs, rfl, h'⟩

theorem run_holds (hrun : run config as = some (es, M)) : ∃ σ lists, Holds M σ lists := by
  obtain ⟨-, -, σ, lists, -, -, h⟩ := run_does (holds_start config) hrun
  exact ⟨σ, lists, h⟩

theorem walk_troublelist (h : Holds M σ lists) (i : ℕ) :
    M.queues.walk () M.fuel (M.queues.first (.troublelist i)) = .ok (lists (.troublelist i)) :=
  walk_chained (chained_of_isQueue (h.owned.queue i)) (fun x hx => (h.owned.live x).mpr ⟨_, hx⟩)
    ((h.owned.length_le _).trans (Nat.le_succ _))

/-- Whatever the threads do, no step follows a pointer that is `NULL` or dangling and no
loop goes on for ever. The calls take effect one after the other and say what they say
on lists, and the lists in memory are the ones these calls leave. -/
theorem threads_linearize (hrun : run config as = some (es, M)) :
    (∀ e ∈ es, ∃ o, e.output = .ok o ∧ (op e.before e.input = none → o = Output.none)) ∧
      ∃ fs σ, Linearizes config es M fs σ := by
  obtain ⟨hes, fs, σ, lists, hfs, houtputs, h⟩ := run_does (holds_start config) hrun
  refine ⟨hes, fs, σ, hfs, houtputs, ?_, ?_⟩
  · rw [← List.length_map (f := Saintmode.be), h.map_be, List.length_map]
  · intro i sm hsm
    rw [h.smObjs i] at hsm
    obtain ⟨s, hs, rfl⟩ := Option.map_eq_some_iff.mp hsm
    refine ⟨hs, ?_⟩
    rw [Memory.troublelist, walk_troublelist h i]
    rfl

/-- Two fetches put an object on the list, and a third one checks it when one entry has expired. -/
def sampleActions : List Action :=
  [.blacklist 0 .backendResponse (fetchAt 0) 1, .blacklist 1 .backendResponse (fetchAt 0) 10,
    .insert 1, .insert 0, .enter 2 0 .healthy (some (fetchAt 5)) 5 true, .count 0,
    .check 2 5 true, .blacklist 0 .recv (fetchAt 6) 1, .release 2, .count 0, .release 2]

theorem threads_linearize_sample : ∃ es M, run tile sampleActions = some (es, M) ∧
    (∀ e ∈ es, ∃ o, e.output = .ok o ∧ (op e.before e.input = none → o = Output.none)) ∧
      ∃ fs σ, Linearizes tile es M fs σ := by
  have hsome : (run tile sampleActions).isSome := by decide +kernel
  obtain ⟨⟨es, M⟩, hrun⟩ := Option.isSome_iff_exists.mp hsome
  exact ⟨es, M, hrun, threads_linearize hrun⟩

/-! The entries. -/

theorem holding_eq (h : Holds M σ lists) (k : Head) : holding M k = .ok (lists k) := by
  cases k with
  | troublelist i => exact walk_troublelist h i
  | pruned thread =>
      have hruns := h.threads thread
      have hlive : ∀ x ∈ lists (.pruned thread), M.queues.live x = true :=
        fun x hx => (h.owned.live x).mpr ⟨_, hx⟩
      have hlength : (lists (.pruned thread)).length ≤ M.fuel :=
        (h.owned.length_le _).trans (Nat.le_succ _)
      cases ht : M.threads thread with
      | idle =>
          rw [ht] at hruns
          simp only [holding, ht, hruns.2]
      | insert i bo expires tp =>
          rw [ht] at hruns
          simp only [holding, ht, hruns.2.1]
      | check c =>
          rw [ht] at hruns
          simp only [holding, ht, hruns.2]
      | release tr =>
          rw [ht] at hruns
          simp only [holding, ht]
          exact walk_chained hruns.2 hlive hlength

theorem vmodSaintmodeFini_owned (H : Owned M.queues M.fresh lists)
    (hown : lists (.pruned thread) = []) (i : ℕ) :
    ∃ M', M.vmodSaintmodeFini i = .ok M' ∧ M'.fresh = M.fresh ∧
      Owned M'.queues M'.fresh (Function.update lists (.troublelist i) []) := by
  have hlength : (lists (.troublelist i)).length ≤ M.fuel :=
    (H.length_le _).trans (Nat.le_succ _)
  obtain ⟨m', hloop, H'⟩ := finiLoop_spec H hown hlength
  refine ⟨{ M with queues := m' }, ?_, rfl, H'⟩
  rw [Memory.vmodSaintmodeFini, (H.queue i).first_eq, hloop]
  rfl

theorem foldlM_fini (H : Owned M.queues M.fresh lists) (hown : lists (.pruned thread) = [])
    (is : List ℕ) :
    ∃ M' lists', is.foldlM Memory.vmodSaintmodeFini M = .ok M' ∧ M'.fresh = M.fresh ∧
      Owned M'.queues M'.fresh lists' ∧
      ∀ k, lists' k = if ∃ i ∈ is, k = .troublelist i then [] else lists k := by
  induction is generalizing M lists with
  | nil => exact ⟨M, lists, rfl, rfl, H, by simp⟩
  | cons i is ih =>
      obtain ⟨M₁, hfini, hfresh, H₁⟩ := vmodSaintmodeFini_owned H hown i
      obtain ⟨M', lists', hrest, hfresh', H', hlists'⟩ := ih H₁ (by simp [hown])
      refine ⟨M', lists', ?_, hfresh'.trans hfresh, H', fun k => ?_⟩
      · rw [List.foldlM_cons, ok_bind hfini]
        exact hrest
      · rw [hlists' k]
        by_cases hk : k = .troublelist i
        · simp [hk]
        · simp [hk]

/-- Whatever the threads do, the entries are accounted for. When all threads are done, the
end of the VCL frees what is left. -/
theorem entries_accounted (hrun : run config as = some (es, M)) :
    (∃ lists, Accounted M lists) ∧
      ((∀ t, M.threads t = .idle) → ∃ M', M.discard = .ok M' ∧
        (∀ x, M'.queues.live x = false) ∧ M'.queues.freed.Perm (List.range M.fresh)) := by
  obtain ⟨σ, lists, h⟩ := run_holds hrun
  refine ⟨⟨lists, holding_eq h, h.owned.nodup, fun x => ?_, fun x => ?_, h.owned.freed_nodup⟩,
    fun hidle => ?_⟩
  · rw [h.owned.live x]
    constructor
    · rintro ⟨k, hk⟩
      exact ⟨k, hk, fun k' hk' => h.owned.unique x k' k hk' hk⟩
    · rintro ⟨k, hk, -⟩
      exact ⟨k, hk⟩
  · rw [h.owned.allocated x]
    have hfreed := h.owned.freed x
    cases hlive : M.queues.live x with
    | true =>
        have hx : x ∉ M.queues.freed := fun hx => absurd (hfreed hx) (by simp [hlive])
        simp [hx]
    | false => simp
  · obtain ⟨M', lists', hdiscard, hfresh, H', hlists'⟩ :=
      foldlM_fini h.owned (h.idle (hidle 0)).2 (List.range M.smList.length)
    have hnil : ∀ k, lists' k = [] := by
      intro k
      rw [hlists' k]
      split_ifs with hk
      · rfl
      · cases k with
        | troublelist i => exact h.bound i (not_lt.mp fun hi => hk ⟨i, List.mem_range.mpr hi, rfl⟩)
        | pruned t => exact (h.idle (hidle t)).2
    have hdead : ∀ x, M'.queues.live x = false := by
      intro x
      cases hlive : M'.queues.live x with
      | false => rfl
      | true =>
          obtain ⟨k, hk⟩ := (H'.live x).mp hlive
          exact absurd (hnil k ▸ hk) List.not_mem_nil
    refine ⟨M', hdiscard, hdead, ?_⟩
    refine (List.perm_ext_iff_of_nodup H'.freed_nodup List.nodup_range).mpr fun x => ?_
    rw [List.mem_range, ← hfresh, H'.allocated x, hdead x]
    simp

theorem entries_accounted_sample : ∃ es M, run tile sampleActions = some (es, M) ∧
    (∃ lists, Accounted M lists) ∧
      ((∀ t, M.threads t = .idle) → ∃ M', M.discard = .ok M' ∧
        (∀ x, M'.queues.live x = false) ∧ M'.queues.freed.Perm (List.range M.fresh)) := by
  have hsome : (run tile sampleActions).isSome := by decide +kernel
  obtain ⟨⟨es, M⟩, hrun⟩ := Option.isSome_iff_exists.mp hsome
  exact ⟨es, M, hrun, entries_accounted hrun⟩

end VarnishModules.SaintmodeLinear
