import VarnishModules.WaitGraph
import VarnishModules.XkeyLifeCycle

/-!
The two locks under `vmod_xkey.c`: its own mutex, and the lock of the list of
subscribers in the server.

The server holds its lock for reading while it calls `xkey_cb`, and takes it for
writing to add a subscriber to the list or to take one off.
-/

namespace VarnishModules.XkeyLocks

open VarnishModules.CStrings
open VarnishModules.XkeyTokens
open VarnishModules.XkeyLifeCycle
open VarnishModules.WaitGraph

/-- An event of an object that is delivered to the subscribers. -/
inductive ObjectEvent
  | insert (hdrs : List CString)
  | remove

/-- How often `xkey_cb` locks the mutex: once for each key, or once. -/
def ObjectEvent.lockings : ObjectEvent → Nat
  | insert hdrs => (objectKeys hdrs).toOption.elim 0 List.length
  | remove => 1

/-- Where a thread is that delivers events or purges. The number is that of the lockings
still to come. -/
inductive Worker
  | idle
  | wantRead (lockings : Nat)
  | inRead (lockings : Nat)
  | wantMtx (lockings : Nat)
  | inMtx (lockings : Nat)
  | purgeWantMtx
  | purgeInMtx

/-- Where the CLI thread is in `vmod_event`. -/
inductive Cli
  | idle
  | wantMtx (e : VclEvent)
  | inMtx (e : VclEvent)
  | wantWrite (e : VclEvent)
  | inWrite (e : VclEvent)
  | leaving

structure Server (ι : Type) where
  nInit : Nat
  /-- `xkey_cb` is on the list of subscribers. -/
  registered : Bool
  cli : Cli
  worker : ι → Worker

inductive Lock
  | mtx
  | read
  | write

def Worker.HoldsMtx : Worker → Prop
  | inMtx _ | purgeInMtx => True
  | _ => False

def Worker.HoldsRead : Worker → Prop
  | inRead _ | wantMtx _ | inMtx _ => True
  | _ => False

def Cli.HoldsMtx : Cli → Prop
  | inMtx _ | wantWrite _ | inWrite _ | leaving => True
  | _ => False

namespace Server

variable {ι : Type}

def initial : Server ι where
  nInit := 0
  registered := false
  cli := .idle
  worker := fun _ => .idle

def setWorker [DecidableEq ι] (σ : Server ι) (i : ι) (w : Worker) : Server ι :=
  { σ with worker := Function.update σ.worker i w }

@[simp]
theorem setWorker_self [DecidableEq ι] (σ : Server ι) (i : ι) (w : Worker) :
    (σ.setWorker i w).worker i = w :=
  Function.update_self ..

/-- Nobody holds the mutex. -/
def MtxFree (σ : Server ι) : Prop :=
  ¬ σ.cli.HoldsMtx ∧ ∀ i, ¬ (σ.worker i).HoldsMtx

/-- What a thread is blocked in; there is no number for the CLI thread. -/
def asks (σ : Server ι) : Option ι → Option Lock
  | none =>
      match σ.cli with
      | .wantMtx _ => some .mtx
      | .wantWrite _ => some .write
      | _ => none
  | some i =>
      match σ.worker i with
      | .wantRead _ => some .read
      | .wantMtx _ => some .mtx
      | .purgeWantMtx => some .mtx
      | _ => none

/-- The lock a thread holds keeps others from these. -/
def keeps (σ : Server ι) : Option ι → Lock → Prop
  | none, .mtx => σ.cli.HoldsMtx
  | none, _ => ∃ e, σ.cli = .inWrite e
  | some i, .mtx => (σ.worker i).HoldsMtx
  | some i, .write => (σ.worker i).HoldsRead
  | some _, .read => False

/-- Some threads wait for each other. -/
def HasDeadlock (σ : Server ι) : Prop :=
  ∃ s, Deadlocked σ.asks σ.keeps s

end Server

inductive Action (ι : Type)
  | deliver (i : ι)
  | getRead (i : ι)
  | callLock (i : ι)
  | getMtx (i : ι)
  | unlock (i : ι)
  | endRead (i : ι)
  | purge (i : ι)
  | purgeGetMtx (i : ι)
  | purgeUnlock (i : ι)
  | event (e : VclEvent)
  | cliGetMtx
  | loadAgain
  | register
  | discardOne
  | deregister
  | cliGetWrite
  | cliEndWrite
  | cliUnlock

/-- The steps of the threads, from one point where they may be blocked to the next. -/
inductive Step {ι : Type} [DecidableEq ι] (σ : Server ι) : Action ι → Server ι → Prop
  | deliver {i : ι} (e : ObjectEvent) (h : σ.worker i = .idle) :
      Step σ (.deliver i) (σ.setWorker i (.wantRead e.lockings))
  | getRead {i : ι} {n : Nat} (h : σ.worker i = .wantRead n) (hfree : ∀ e, σ.cli ≠ .inWrite e) :
      -- other subscribers do not lock the mutex
      Step σ (.getRead i) (σ.setWorker i (.inRead (if σ.registered then n else 0)))
  | callLock {i : ι} {n : Nat} (h : σ.worker i = .inRead (n + 1)) :
      Step σ (.callLock i) (σ.setWorker i (.wantMtx n))
  | getMtx {i : ι} {n : Nat} (h : σ.worker i = .wantMtx n) (hfree : σ.MtxFree) :
      Step σ (.getMtx i) (σ.setWorker i (.inMtx n))
  | unlock {i : ι} {n : Nat} (h : σ.worker i = .inMtx n) :
      Step σ (.unlock i) (σ.setWorker i (.inRead n))
  | endRead {i : ι} (h : σ.worker i = .inRead 0) :
      Step σ (.endRead i) (σ.setWorker i .idle)
  | purge {i : ι} (h : σ.worker i = .idle) :
      Step σ (.purge i) (σ.setWorker i .purgeWantMtx)
  | purgeGetMtx {i : ι} (h : σ.worker i = .purgeWantMtx) (hfree : σ.MtxFree) :
      Step σ (.purgeGetMtx i) (σ.setWorker i .purgeInMtx)
  | purgeUnlock {i : ι} (h : σ.worker i = .purgeInMtx) :
      Step σ (.purgeUnlock i) (σ.setWorker i .idle)
  | event (e : VclEvent) (he : e = .load ∨ e = .discard) (h : σ.cli = .idle) :
      Step σ (.event e) { σ with cli := .wantMtx e }
  | cliGetMtx {e : VclEvent} (h : σ.cli = .wantMtx e) (hfree : σ.MtxFree) :
      Step σ .cliGetMtx { σ with cli := .inMtx e }
  | loadAgain (h : σ.cli = .inMtx .load) (hinit : σ.nInit ≠ 0) :
      Step σ .loadAgain { σ with cli := .leaving, nInit := σ.nInit + 1 }
  | register (h : σ.cli = .inMtx .load) (hinit : σ.nInit = 0) :
      Step σ .register { σ with cli := .wantWrite .load }
  | discardOne (h : σ.cli = .inMtx .discard) (hinit : 1 < σ.nInit) :
      Step σ .discardOne { σ with cli := .leaving, nInit := σ.nInit - 1 }
  | deregister (h : σ.cli = .inMtx .discard) (hinit : σ.nInit = 1) :
      Step σ .deregister { σ with cli := .wantWrite .discard, nInit := 0 }
  | cliGetWrite {e : VclEvent} (h : σ.cli = .wantWrite e)
      (hfree : ∀ i, ¬ (σ.worker i).HoldsRead) :
      Step σ .cliGetWrite { σ with cli := .inWrite e, registered := decide (e = .load) }
  | cliEndWrite {e : VclEvent} (h : σ.cli = .inWrite e) :
      Step σ .cliEndWrite { σ with
        cli := .leaving
        nInit := if e = .load then σ.nInit + 1 else σ.nInit }
  | cliUnlock (h : σ.cli = .leaving) :
      Step σ .cliUnlock { σ with cli := .idle }

/-- The states that runs with the given steps lead to. -/
def Reachable {ι : Type} [DecidableEq ι] (allowed : Server ι → Action ι → Prop)
    (σ : Server ι) : Prop :=
  Relation.ReflTransGen (fun σ σ' => ∃ a, allowed σ a ∧ Step σ a σ') Server.initial σ

section

variable {ι : Type} [DecidableEq ι] {allowed allowed' : Server ι → Action ι → Prop}
  {σ σ' : Server ι} {a : Action ι}

theorem Reachable.next (h : Reachable allowed σ) (hstep : Step σ a σ') (ha : allowed σ a) :
    Reachable allowed σ' :=
  h.tail ⟨a, ha, hstep⟩

theorem Reachable.mono (hallowed : ∀ σ a, allowed σ a → allowed' σ a) (h : Reachable allowed σ) :
    Reachable allowed' σ := by
  induction h with
  | refl => exact .refl
  | tail _ hstep ih =>
      obtain ⟨a, ha, hstep⟩ := hstep
      exact ih.next hstep (hallowed _ a ha)

end

end VarnishModules.XkeyLocks
