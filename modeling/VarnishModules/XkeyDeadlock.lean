import VarnishModules.XkeyLocks

/-!
When threads can wait for each other: a DISCARD against the delivery of an event.
-/

namespace VarnishModules.XkeyDeadlock

open VarnishModules.XkeyModel
open VarnishModules.XkeyCleanup
open VarnishModules.XkeyLifeCycle
open VarnishModules.WaitGraph
open VarnishModules.XkeyLocks

variable {ι : Type}

/-- The thread is in `xkey_cb`, or about to be, and has the mutex still to lock or unlock. -/
def InCallback : Worker → Prop
  | .inRead (_ + 1) | .wantMtx _ | .inMtx _ => True
  | _ => False

/-- The last VCL is not discarded while an event is in `xkey_cb`, and none that locks the mutex
comes in before the subscriber is off the list. -/
def Careful (σ : Server ι) : Action ι → Prop
  | .deregister => ∀ i, ¬ InCallback (σ.worker i)
  | .getRead i => (∃ n, σ.worker i = .wantRead (n + 1)) → σ.cli ≠ .wantWrite .discard
  | _ => True

variable {σ σ' : Server ι} {a : Action ι} {i : ι} {n : Nat} {e : VclEvent}

/-! Deadlocks. -/

theorem hasDeadlock_of (hcli : σ.cli = .wantWrite e) (hworker : σ.worker i = .wantMtx n) :
    σ.HasDeadlock := by
  have hlist : WaitsFor σ.asks σ.keeps none (some i) := by
    refine ⟨by simp, .write, ?_, ?_⟩
    · simp [Server.asks, hcli]
    · simp [Server.keeps, hworker, Worker.HoldsRead]
  have hmtx : WaitsFor σ.asks σ.keeps (some i) none := by
    refine ⟨by simp, .mtx, ?_, ?_⟩
    · simp [Server.asks, hworker]
    · simp [Server.keeps, hcli, Cli.HoldsMtx]
  exact ⟨_, deadlocked_pair hlist hmtx⟩

/-- The mutex comes after the list. -/
def mtxLast : Lock → Bool
  | .mtx => true
  | _ => false

/-- The mutex comes before the list. -/
def mtxFirst : Lock → Bool
  | .mtx => false
  | _ => true

theorem order_of_cli (hcli : ∀ e, σ.cli ≠ .wantWrite e) :
    ∀ t, ∀ r ∈ σ.asks t, ∀ r', σ.keeps t r' → mtxLast r' < mtxLast r := by
  intro t r hr r' hkeeps
  cases t with
  | none =>
      cases hσ : σ.cli <;> simp only [Server.asks, hσ, reduceCtorEq, Option.mem_def] at hr
      · cases r' <;> simp [Server.keeps, hσ, Cli.HoldsMtx] at hkeeps
      · exact absurd hσ (hcli _)
  | some i =>
      cases hσ : σ.worker i <;> simp only [Server.asks, hσ, reduceCtorEq, Option.mem_def] at hr
      · cases r' <;> simp [Server.keeps, hσ, Worker.HoldsMtx, Worker.HoldsRead] at hkeeps
      · obtain rfl := Option.some.inj hr
        cases r' <;> simp [Server.keeps, hσ, Worker.HoldsMtx, mtxLast] at hkeeps ⊢
      · cases r' <;> simp [Server.keeps, hσ, Worker.HoldsMtx, Worker.HoldsRead] at hkeeps

theorem order_of_worker (hworker : ∀ i n, σ.worker i ≠ .wantMtx n) :
    ∀ t, ∀ r ∈ σ.asks t, ∀ r', σ.keeps t r' → mtxFirst r' < mtxFirst r := by
  intro t r hr r' hkeeps
  cases t with
  | none =>
      cases hσ : σ.cli <;> simp only [Server.asks, hσ, reduceCtorEq, Option.mem_def] at hr
      · cases r' <;> simp [Server.keeps, hσ, Cli.HoldsMtx] at hkeeps
      · obtain rfl := Option.some.inj hr
        cases r' <;> simp [Server.keeps, hσ, mtxFirst] at hkeeps ⊢
  | some i =>
      cases hσ : σ.worker i <;> simp only [Server.asks, hσ, reduceCtorEq, Option.mem_def] at hr
      · cases r' <;> simp [Server.keeps, hσ, Worker.HoldsMtx, Worker.HoldsRead] at hkeeps
      · exact absurd hσ (hworker i _)
      · cases r' <;> simp [Server.keeps, hσ, Worker.HoldsMtx, Worker.HoldsRead] at hkeeps

/-- Threads wait for each other just when the CLI thread waits for the list and one in `xkey_cb`
for the mutex. -/
theorem hasDeadlock_iff : σ.HasDeadlock ↔
    (∃ e, σ.cli = .wantWrite e) ∧ ∃ i n, σ.worker i = .wantMtx n := by
  constructor
  · rintro ⟨s, hs⟩
    by_contra hnot
    rcases not_and_or.mp hnot with hcli | hworker
    · push Not at hcli
      exact not_deadlocked_of_order mtxLast (order_of_cli hcli) hs
    · push Not at hworker
      exact not_deadlocked_of_order mtxFirst (order_of_worker hworker) hs
  · rintro ⟨⟨e, hcli⟩, i, n, hworker⟩
    exact hasDeadlock_of hcli hworker

/-! Every run. -/

/-- The subscriber is on the list while a VCL is loaded, but for the moments of change. -/
def CliOk (σ : Server ι) : Prop :=
  match σ.cli with
  | .wantWrite e =>
      σ.nInit = 0 ∧ (e = .load ∨ e = .discard) ∧ σ.registered = decide (e = .discard)
  | .inWrite e => σ.nInit = 0 ∧ (e = .load ∨ e = .discard) ∧ σ.registered = decide (e = .load)
  | _ => σ.registered = decide (0 < σ.nInit)

structure Inv (σ : Server ι) : Prop where
  cli : CliOk σ
  /-- Only a subscriber on the list is called. -/
  quiet : σ.registered = false → ∀ i, ¬ InCallback (σ.worker i)
  exclusive : σ.cli.HoldsMtx → ∀ i, ¬ (σ.worker i).HoldsMtx

theorem inv_initial : Inv (Server.initial : Server ι) where
  cli := rfl
  quiet _ _ := id
  exclusive h := h.elim

theorem holdsRead_of_inCallback {w : Worker} (hw : InCallback w) : w.HoldsRead := by
  cases w <;> first | exact hw.elim | trivial

theorem Inv.cli_at {x : Cli} (h : Inv σ) (hcli : σ.cli = x) : CliOk { σ with cli := x } :=
  hcli ▸ h.cli

theorem Inv.goOn {x : Cli} (h : Inv σ) (hmtx : σ.cli.HoldsMtx)
    (hok : CliOk { σ with cli := x, nInit := n }) : Inv { σ with cli := x, nInit := n } :=
  ⟨hok, h.quiet, fun _ => h.exclusive hmtx⟩

section

variable [DecidableEq ι] {w : Worker}

theorem forall_setWorker {P : Worker → Prop} (h : ∀ j, P (σ.worker j)) (hw : P w) :
    ∀ j, P ((σ.setWorker i w).worker j) :=
  (Function.forall_update_iff σ.worker fun _ v => P v).mpr ⟨hw, fun j _ => h j⟩

theorem Inv.setWorker (h : Inv σ) (hcallback : σ.registered = false → ¬ InCallback w)
    (hmtx : σ.cli.HoldsMtx → ¬ w.HoldsMtx) : Inv (σ.setWorker i w) where
  cli := h.cli
  quiet hreg := forall_setWorker (P := fun v => ¬ InCallback v) (h.quiet hreg) (hcallback hreg)
  exclusive hcli := forall_setWorker (P := fun v => ¬ v.HoldsMtx) (h.exclusive hcli) (hmtx hcli)

theorem Inv.continue (h : Inv σ) (hi : InCallback (σ.worker i))
    (hmtx : σ.cli.HoldsMtx → ¬ w.HoldsMtx) : Inv (σ.setWorker i w) :=
  h.setWorker (fun hreg => absurd hi (h.quiet hreg i)) hmtx

theorem Inv.step (h : Inv σ) (hstep : Step σ a σ') : Inv σ' := by
  cases hstep with
  | deliver e hi => exact h.setWorker (fun _ => id) fun _ => id
  | getRead hi hfree =>
      refine h.setWorker (fun hreg => ?_) fun _ => id
      rw [hreg]
      exact id
  | callLock hi => exact h.continue (by rw [hi]; trivial) fun _ => id
  | getMtx hi hfree => exact h.continue (by rw [hi]; trivial) fun hcli => absurd hcli hfree.1
  | unlock hi => exact h.continue (by rw [hi]; trivial) fun _ => id
  | endRead hi => exact h.setWorker (fun _ => id) fun _ => id
  | purge hi => exact h.setWorker (fun _ => id) fun _ => id
  | purgeGetMtx hi hfree => exact h.setWorker (fun _ => id) fun hcli => absurd hcli hfree.1
  | purgeUnlock hi => exact h.setWorker (fun _ => id) fun _ => id
  | event e he hcli =>
      have hok := h.cli_at hcli
      exact ⟨hok, h.quiet, fun hmtx => hmtx.elim⟩
  | cliGetMtx hcli hfree =>
      have hok := h.cli_at hcli
      exact ⟨hok, h.quiet, fun _ => hfree.2⟩
  | loadAgain hcli hinit =>
      have hok : σ.registered = decide (0 < σ.nInit) := h.cli_at hcli
      refine h.goOn (by rw [hcli]; trivial) ?_
      simp [CliOk, hok, Nat.pos_of_ne_zero hinit]
  | register hcli hinit =>
      have hok : σ.registered = decide (0 < σ.nInit) := h.cli_at hcli
      refine h.goOn (by rw [hcli]; trivial) ?_
      simp [CliOk, hok, hinit]
  | discardOne hcli hinit =>
      have hok : σ.registered = decide (0 < σ.nInit) := h.cli_at hcli
      refine h.goOn (by rw [hcli]; trivial) ?_
      have hbefore : 0 < σ.nInit := by omega
      have hafter : 0 < σ.nInit - 1 := by omega
      simp [CliOk, hok, hbefore, hafter]
  | deregister hcli hinit =>
      have hok : σ.registered = decide (0 < σ.nInit) := h.cli_at hcli
      refine h.goOn (by rw [hcli]; trivial) ?_
      simp [CliOk, hok, hinit]
  | cliGetWrite hcli hfree =>
      obtain ⟨hinit, he, -⟩ := h.cli_at hcli
      have hexclusive := h.exclusive (by rw [hcli]; trivial)
      refine ⟨⟨hinit, he, rfl⟩, fun _ i hi => ?_, fun _ => hexclusive⟩
      exact hfree i (holdsRead_of_inCallback hi)
  | @cliEndWrite e hcli =>
      obtain ⟨hinit, -, hregistered⟩ :
        σ.nInit = 0 ∧ (e = .load ∨ e = .discard) ∧ σ.registered = decide (e = .load) :=
        h.cli_at hcli
      refine h.goOn (by rw [hcli]; trivial) ?_
      by_cases he : e = .load
      · simp [CliOk, hinit, hregistered, he]
      · simp [CliOk, hinit, hregistered, he]
  | cliUnlock hcli =>
      have hok := h.cli_at hcli
      exact ⟨hok, h.quiet, fun hmtx => hmtx.elim⟩

theorem inv_of_reachable {allowed : Server ι → Action ι → Prop} (h : Reachable allowed σ) :
    Inv σ := by
  induction h with
  | refl => exact inv_initial
  | tail _ hstep ih =>
      obtain ⟨a, -, hstep⟩ := hstep
      exact ih.step hstep

/-! The CLI thread by itself does what `vmod_event` does. -/

/-- The states the threads may come to. -/
def Leads (σ σ' : Server ι) : Prop :=
  Relation.ReflTransGen (fun σ σ' => ∃ a, Step σ a σ') σ σ'

theorem Leads.next (h : Leads σ σ') {σ'' : Server ι} (hstep : Step σ' a σ'') : Leads σ σ'' :=
  h.tail ⟨a, hstep⟩

theorem Leads.inv (h : Leads σ σ') (hinv : Inv σ) : Inv σ' := by
  induction h with
  | refl => exact hinv
  | tail _ hstep ih =>
      obtain ⟨a, hstep⟩ := hstep
      exact ih.step hstep

/-- No other thread is in the way of the CLI thread. -/
structure Alone (σ : Server ι) : Prop where
  idle : σ.cli = .idle
  mtx : ∀ i, ¬ (σ.worker i).HoldsMtx
  read : ∀ i, ¬ (σ.worker i).HoldsRead

theorem Alone.getMtx (h : Alone σ) (he : e = .load ∨ e = .discard) :
    Leads σ { σ with cli := .inMtx e } := by
  have hfirst : Leads σ { σ with cli := .wantMtx e } := .single ⟨_, .event e he h.idle⟩
  exact hfirst.next (.cliGetMtx rfl ⟨id, h.mtx⟩)

theorem Alone.load (h : Alone σ) :
    ∃ σ', Leads σ σ' ∧ σ'.cli = .idle ∧ σ'.nInit = σ.nInit + 1 := by
  have hfirst := h.getMtx (.inl rfl)
  by_cases hinit : σ.nInit = 0
  · have hwant := hfirst.next (.register rfl hinit)
    have hwrite := hwant.next (.cliGetWrite rfl h.read)
    have hleave := hwrite.next (.cliEndWrite rfl)
    exact ⟨_, hleave.next (.cliUnlock rfl), rfl, rfl⟩
  · have hleave := hfirst.next (.loadAgain rfl hinit)
    exact ⟨_, hleave.next (.cliUnlock rfl), rfl, rfl⟩

theorem Alone.discard (h : Alone σ) (hloaded : σ.nInit = n + 1) :
    ∃ σ', Leads σ σ' ∧ σ'.cli = .idle ∧ σ'.nInit = n := by
  have hfirst := h.getMtx (.inr rfl)
  cases n with
  | zero =>
      have hwant := hfirst.next (.deregister rfl hloaded)
      have hwrite := hwant.next (.cliGetWrite rfl h.read)
      have hleave := hwrite.next (.cliEndWrite rfl)
      exact ⟨_, hleave.next (.cliUnlock rfl), rfl, rfl⟩
  | succ n =>
      have hmany : 1 < σ.nInit := by omega
      have hleave := hfirst.next (.discardOne rfl hmany)
      refine ⟨_, hleave.next (.cliUnlock rfl), rfl, ?_⟩
      change σ.nInit - 1 = n + 1
      omega

theorem counts_of_vmodEvent {m m' : Module} {handle : ℕ+} (hm : XkeyLifeCycle.Inv n m)
    (he : e = .load ∨ e = .discard) (h : vmodEvent handle m e = .ok m') :
    ∃ n', (e = .load → n' = n + 1) ∧ (e = .discard → n = n' + 1) ∧
      m'.nInit = n' ∧ (m'.registered ≠ [] ↔ 0 < n') := by
  have hregistered : ∀ {k : Nat}, XkeyLifeCycle.Inv k m' → (m'.registered ≠ [] ↔ 0 < k) := by
    intro k hm'
    have hok := hm'.ok.registered
    rw [hm'.nInit, Int.natCast_pos] at hok
    exact hok
  rcases he with rfl | rfl
  · obtain ⟨m₁, h₁, hm₁⟩ := hm.load handle
    obtain rfl : m₁ = m' := Except.ok.inj (h₁.symm.trans h)
    exact ⟨n + 1, fun _ => rfl, by simp, hm₁.nInit, hregistered hm₁⟩
  · cases n with
    | zero =>
        have hzero : ¬ 0 < m.nInit := by simp [hm.nInit]
        simp [vmodEvent, check, hzero, bind, Except.bind] at h
    | succ n =>
        refine ⟨n, by simp, fun _ => rfl, ?_⟩
        obtain ⟨hmany, hlast⟩ := hm.discard handle
        by_cases hn : n = 0
        · rw [hlast hn] at h
          cases hclean : xkeyCleanup m.xkey with
          | error fault => simp [hclean, bind, Except.bind] at h
          | ok xkey =>
              obtain rfl : (⟨xkey, 0, 0, []⟩ : Module) = m' := by
                simpa [hclean, bind, Except.bind, pure, Except.pure] using h
              simp [hn]
        · obtain ⟨m₁, h₁, hm₁⟩ := hmany hn
          obtain rfl : m₁ = m' := Except.ok.inj (h₁.symm.trans h)
          exact ⟨hm₁.nInit, hregistered hm₁⟩

/-- The count of the VCLs and the list of subscribers are those after the event. -/
theorem vmodEvent_leads {m m' : Module} {handle : ℕ+} (hm : XkeyLifeCycle.Inv n m)
    (hinv : Inv σ) (halone : Alone σ) (hloaded : σ.nInit = n) (he : e = .load ∨ e = .discard)
    (h : vmodEvent handle m e = .ok m') :
    ∃ σ', Leads σ σ' ∧ σ'.cli = .idle ∧ m'.nInit = σ'.nInit ∧
      (σ'.registered = true ↔ m'.registered ≠ []) := by
  obtain ⟨n', hload, hdiscard, hcount, hregistered⟩ := counts_of_vmodEvent hm he h
  obtain ⟨σ', hleads, hidle, hloaded'⟩ : ∃ σ', Leads σ σ' ∧ σ'.cli = .idle ∧ σ'.nInit = n' := by
    rcases he with rfl | rfl
    · rw [hload rfl, ← hloaded]
      exact halone.load
    · exact halone.discard (hloaded.trans (hdiscard rfl))
  have hok : σ'.registered = decide (0 < σ'.nInit) := (hleads.inv hinv).cli_at hidle
  refine ⟨σ', hleads, hidle, ?_, ?_⟩
  · rw [hcount, hloaded']
  · rw [hregistered, hok, hloaded', decide_eq_true_eq]

/-! Careful runs. -/

/-- While the DISCARD waits for the list, nothing is in `xkey_cb`. -/
def Safe (σ : Server ι) : Prop :=
  σ.cli = .wantWrite .discard → ∀ i, ¬ InCallback (σ.worker i)

theorem Safe.setWorker (h : Safe σ) (hw : σ.cli = .wantWrite .discard → ¬ InCallback w) :
    Safe (σ.setWorker i w) := by
  intro hcli
  exact forall_setWorker (P := fun v => ¬ InCallback v) (h hcli) (hw hcli)

/-- Where a thread is in the callback, the DISCARD does not wait. -/
theorem Safe.continue (h : Safe σ) (hi : InCallback (σ.worker i)) : Safe (σ.setWorker i w) :=
  h.setWorker fun hcli => absurd hi (h hcli i)

omit [DecidableEq ι] in
theorem safe_of_cli (hcli : σ.cli ≠ .wantWrite .discard) : Safe σ :=
  fun h => absurd h hcli

theorem Safe.step (h : Safe σ) (hcareful : Careful σ a) (hstep : Step σ a σ') : Safe σ' := by
  cases hstep with
  | deliver e hi => exact h.setWorker fun _ => id
  | @getRead i n hi hfree =>
      refine h.setWorker fun hcli => ?_
      cases n with
      | zero => simp [InCallback]
      | succ n => exact absurd hcli (hcareful ⟨n, hi⟩)
  | callLock hi => exact h.continue (by rw [hi]; trivial)
  | getMtx hi hfree => exact h.continue (by rw [hi]; trivial)
  | unlock hi => exact h.continue (by rw [hi]; trivial)
  | endRead hi => exact h.setWorker fun _ => id
  | purge hi => exact h.setWorker fun _ => id
  | purgeGetMtx hi hfree => exact h.setWorker fun _ => id
  | purgeUnlock hi => exact h.setWorker fun _ => id
  | deregister hcli hinit => exact fun _ => hcareful
  | register hcli hinit => exact safe_of_cli (by simp)
  | event e he hcli => exact safe_of_cli (by simp)
  | cliGetMtx hcli hfree => exact safe_of_cli (by simp)
  | loadAgain hcli hinit => exact safe_of_cli (by simp)
  | discardOne hcli hinit => exact safe_of_cli (by simp)
  | cliGetWrite hcli hfree => exact safe_of_cli (by simp)
  | cliEndWrite hcli => exact safe_of_cli (by simp)
  | cliUnlock hcli => exact safe_of_cli (by simp)

theorem safe_of_reachable (h : Reachable Careful σ) : Safe σ := by
  induction h with
  | refl => exact safe_of_cli (by simp [Server.initial])
  | tail _ hstep ih =>
      obtain ⟨a, hcareful, hstep⟩ := hstep
      exact ih.step hcareful hstep

omit [DecidableEq ι] in
theorem not_hasDeadlock (hinv : Inv σ) (hsafe : Safe σ) : ¬ σ.HasDeadlock := by
  rw [hasDeadlock_iff]
  rintro ⟨⟨e, hcli⟩, i, n, hworker⟩
  have hi : InCallback (σ.worker i) := by
    rw [hworker]
    trivial
  obtain ⟨-, rfl | rfl, hregistered⟩ := hinv.cli_at hcli
  · -- the list does not have the subscriber yet
    exact hinv.quiet hregistered i hi
  · exact hsafe hcli i hi

/-- No state of a careful run has threads that wait for each other. -/
theorem reachable_noDeadlock (h : Reachable Careful σ) : ¬ σ.HasDeadlock :=
  not_hasDeadlock (inv_of_reachable h) (safe_of_reachable h)

theorem reachable_load :
    Reachable Careful (⟨1, true, .idle, fun _ => .idle⟩ : Server ι) := by
  have h₀ : Reachable Careful (Server.initial : Server ι) := .refl
  have h₁ := h₀.next (.event .load (.inl rfl) rfl) trivial
  have h₂ := h₁.next (.cliGetMtx rfl ⟨id, fun _ => id⟩) trivial
  have h₃ := h₂.next (.register rfl rfl) trivial
  have h₄ := h₃.next (.cliGetWrite rfl fun _ => id) trivial
  have h₅ := h₄.next (.cliEndWrite rfl) trivial
  exact h₅.next (.cliUnlock rfl) trivial

end

/-- The VCL is discarded when the event of an object has been delivered. -/
theorem reachable_noDeadlock_afterEvent : ∃ σ : Server Unit,
    Reachable Careful σ ∧ σ.cli = .wantWrite .discard ∧ ¬ σ.HasDeadlock := by
  have h₀ := reachable_load (ι := Unit)
  have h₁ := h₀.next (.deliver (i := ()) .remove rfl) trivial
  have h₂ := h₁.next (.getRead (i := ()) (n := 1) rfl fun _ => nofun) fun _ => nofun
  have h₃ := h₂.next (.callLock (i := ()) (n := 0) rfl) trivial
  have h₄ := h₃.next (.getMtx (i := ()) (n := 0) rfl ⟨id, fun _ => id⟩) trivial
  have h₅ := h₄.next (.unlock (i := ()) (n := 0) rfl) trivial
  have h₆ := h₅.next (.event .discard (.inr rfl) rfl) trivial
  have h₇ := h₆.next (.cliGetMtx rfl ⟨id, fun _ => id⟩) trivial
  have h₈ := h₇.next (.deregister rfl rfl) fun _ => id
  exact ⟨_, h₈, rfl, reachable_noDeadlock h₈⟩

/-- The VCL is discarded when the event of an object is about to be delivered. -/
theorem not_noDeadlock_discard : ¬ ∀ σ : Server Unit,
    Reachable (fun _ _ => True) σ → ¬ σ.HasDeadlock := by
  intro h
  have h₀ := (reachable_load (ι := Unit)).mono fun _ _ _ => trivial
  have h₁ := h₀.next (.deliver (i := ()) .remove rfl) trivial
  have h₂ := h₁.next (.getRead (i := ()) (n := 1) rfl fun _ => nofun) trivial
  have h₃ := h₂.next (.event .discard (.inr rfl) rfl) trivial
  have h₄ := h₃.next (.cliGetMtx rfl ⟨id, fun _ => id⟩) trivial
  have h₅ := h₄.next (.deregister rfl rfl) trivial
  have h₆ := h₅.next (.callLock (i := ()) (n := 0) rfl) trivial
  exact h _ h₆ (hasDeadlock_of rfl (i := ()) rfl)

section

variable [DecidableEq ι]

/-! Careless steps. -/

/-- A thread in the callback goes on until it waits for the mutex. -/
theorem leads_of_inCallback (hcli : σ.cli = .wantWrite e) (hi : InCallback (σ.worker i))
    (hmtx : ¬ (σ.worker i).HoldsMtx) :
    ∃ σ', Leads σ σ' ∧ σ'.HasDeadlock := by
  cases hworker : σ.worker i with
  | inRead n =>
      rw [hworker] at hi
      cases n with
      | zero => exact hi.elim
      | succ n =>
          have hnext := σ.setWorker_self i (.wantMtx n)
          exact ⟨_, .single ⟨_, .callLock hworker⟩, hasDeadlock_of hcli hnext⟩
  | wantMtx n => exact ⟨σ, .refl, hasDeadlock_of hcli hworker⟩
  | inMtx n =>
      rw [hworker] at hmtx
      exact absurd trivial hmtx
  | idle | wantRead n | purgeWantMtx | purgeInMtx =>
      rw [hworker] at hi
      exact hi.elim

/-- After any other step the threads may come to wait for each other. -/
theorem leads_of_not_careful {allowed : Server ι → Action ι → Prop} (h : Reachable allowed σ)
    (hstep : Step σ a σ') (hcareless : ¬ Careful σ a) :
    ∃ σ'', Leads σ' σ'' ∧ σ''.HasDeadlock := by
  have hinv := inv_of_reachable h
  cases hstep with
  | deregister hcli hinit =>
      simp only [Careful, not_forall, not_not] at hcareless
      obtain ⟨i, hi⟩ := hcareless
      have hmtx := hinv.exclusive (by rw [hcli]; trivial) i
      exact leads_of_inCallback (e := .discard) rfl hi hmtx
  | @getRead i n hi hfree =>
      simp only [Careful, Classical.not_imp, not_not] at hcareless
      obtain ⟨⟨k, hk⟩, hcli⟩ := hcareless
      obtain ⟨-, -, hregistered⟩ := hinv.cli_at hcli
      obtain rfl : n = k + 1 := by
        rw [hi] at hk
        exact Worker.wantRead.inj hk
      have hworker : (σ.setWorker i (.inRead (if σ.registered then k + 1 else 0))).worker i =
          .inRead (k + 1) := by
        rw [Server.setWorker_self, hregistered]
        rfl
      refine leads_of_inCallback (i := i) hcli ?_ ?_
      · rw [hworker]
        trivial
      · rw [hworker]
        exact id
  | _ => exact absurd trivial hcareless

end

end VarnishModules.XkeyDeadlock
