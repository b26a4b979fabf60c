import VarnishModules.VtreeWalk

/-!
A client of the trees, over whole runs.

The client allocates and frees elements and hands them to the trees of several
heads.  It keeps to the rules: an element in a tree is neither freed nor handed
to another tree, and only an element of a tree is removed from it.  What it then
sees is a family of ordered sets.
-/

set_option linter.unusedSectionVars false

namespace VarnishModules.VtreeSystem

open VarnishModules.RedBlackTree
open VarnishModules.TailQueue (Fault ok_bind)
open VarnishModules.VtreeModel
open VarnishModules.VtreeMemory
open VarnishModules.VtreeInsert
open VarnishModules.VtreeRemove
open VarnishModules.VtreeWalk

inductive Op (H E K : Type)
  | init (h : H)
  | malloc (e : E)
  | free (e : E)
  | insert (h : H) (e : E)
  | remove (h : H) (e : E)
  | find (h : H) (k : K)
  | nfind (h : H) (k : K)
  | min (h : H)
  | max (h : H)
  | foreach (h : H)
  | foreachReverse (h : H)
  | removeIf (h : H) (q : E → Bool)

inductive Answer (E : Type)
  | done
  | elm (e : Option E)
  | elms (es : List E)
  deriving DecidableEq

variable {H E K κ : Type} [DecidableEq H] [DecidableEq E] [LinearOrder κ]

/-- `malloc` leaves the entry as it happens to be. -/
def malloc (m : Heap H E) (e : E) (n : Entry E) : Heap H E :=
  m.put e n

/-- An operation on the links. -/
def step (cmp : E → E → Int) (cmpKey : K → E → Int) (fuel : ℕ) (junk : Entry E) (m : Heap H E) :
    Op H E K → Except Fault (Answer E × Heap H E)
  | .init h => .ok (.done, m.vrbInit h)
  | .malloc e => .ok (.done, malloc m e junk)
  | .free e => do return (.done, ← m.free e)
  | .insert h e => do
      let (old, m) ← m.vrbInsert fuel cmp h e
      return (.elm old, m)
  | .remove h e => do
      let (e, m) ← m.vrbRemove fuel h e
      return (.elm (some e), m)
  | .find h k => do return (.elm (← m.vrbFind fuel cmpKey h k), m)
  | .nfind h k => do return (.elm (← m.vrbNfind fuel cmpKey h k), m)
  | .min h => do return (.elm (← m.vrbMin fuel h), m)
  | .max h => do return (.elm (← m.vrbMax fuel h), m)
  | .foreach h => do return (.elms (← m.vrbForeach fuel h), m)
  | .foreachReverse h => do return (.elms (← m.vrbForeachReverse fuel h), m)
  | .removeIf h q => do return (.done, ← m.vrbForeachSafe fuel h (removeIf fuel h q))

def run (cmp : E → E → Int) (cmpKey : K → E → Int) (fuel : ℕ) (junk : Entry E) :
    List (Op H E K) → Heap H E → Except Fault (List (Answer E) × Heap H E)
  | [], m => .ok ([], m)
  | op :: ops, m => do
      let (a, m) ← step cmp cmpKey fuel junk m op
      let (as, m) ← run cmp cmpKey fuel junk ops m
      return (a :: as, m)

/-- The ordered sets, and the elements that are allocated. -/
structure Forest (H E : Type) where
  trees : H → List E
  live : Set E

namespace Forest

def empty : Forest H E where
  trees := fun _ => []
  live := ∅

def setTree (F : Forest H E) (h : H) (xs : List E) : Forest H E :=
  { F with trees := Function.update F.trees h xs }

/-- An operation on the ordered sets, by the rules. -/
inductive Step (key : E → κ) (keyOf : K → κ) :
    Forest H E → Op H E K → Answer E → Forest H E → Prop
  | init {F : Forest H E} (h : H) : Step key keyOf F (.init h) .done (F.setTree h [])
  | malloc {F : Forest H E} {e : E} :
      e ∉ F.live → Step key keyOf F (.malloc e) .done { F with live := insert e F.live }
  | free {F : Forest H E} {e : E} : e ∈ F.live → (∀ h, e ∉ F.trees h) →
      Step key keyOf F (.free e) .done { F with live := F.live \ {e} }
  | insert {F : Forest H E} {h : H} {e : E} : e ∈ F.live → (∀ k, k ≠ h → e ∉ F.trees k) →
      Step key keyOf F (.insert h e) (.elm (OrderedTree.insert key e (F.trees h)).1)
        (F.setTree h (OrderedTree.insert key e (F.trees h)).2)
  | remove {F : Forest H E} {h : H} {e : E} : e ∈ F.trees h →
      Step key keyOf F (.remove h e) (.elm (some e)) (F.setTree h ((F.trees h).erase e))
  | find {F : Forest H E} (h : H) (k : K) :
      Step key keyOf F (.find h k) (.elm (OrderedTree.find key (keyOf k) (F.trees h))) F
  | nfind {F : Forest H E} (h : H) (k : K) : Step key keyOf F (.nfind h k)
      (.elm ((F.trees h).find? fun x => decide (keyOf k ≤ key x))) F
  | min {F : Forest H E} (h : H) : Step key keyOf F (.min h) (.elm (F.trees h).head?) F
  | max {F : Forest H E} (h : H) : Step key keyOf F (.max h) (.elm (F.trees h).getLast?) F
  | foreach {F : Forest H E} (h : H) : Step key keyOf F (.foreach h) (.elms (F.trees h)) F
  | foreachReverse {F : Forest H E} (h : H) :
      Step key keyOf F (.foreachReverse h) (.elms (F.trees h).reverse) F
  | removeIf {F : Forest H E} (h : H) (q : E → Bool) : Step key keyOf F (.removeIf h q) .done
      { F.setTree h ((F.trees h).filter fun e => !q e) with
        live := F.live \ {e | e ∈ F.trees h ∧ q e} }

inductive Run (key : E → κ) (keyOf : K → κ) :
    Forest H E → List (Op H E K) → List (Answer E) → Forest H E → Prop
  | nil (F : Forest H E) : Run key keyOf F [] [] F
  | cons {F F' F'' : Forest H E} {op : Op H E K} {ops : List (Op H E K)} {a : Answer E}
      {as : List (Answer E)} :
      Step key keyOf F op a F' → Run key keyOf F' ops as F'' →
        Run key keyOf F (op :: ops) (a :: as) F''

end Forest

/-- The memory holds the trees of the forest: red-black trees that share no
element, of allocated elements. -/
structure Refines (key : E → κ) (m : Heap H E) (F : Forest H E) : Prop where
  trees : ∀ h, Represents key m h (F.trees h)
  disjoint : ∀ h k, h ≠ k → ∀ x ∈ F.trees h, x ∉ F.trees k
  live : ∀ e, (m.entry e).isSome ↔ e ∈ F.live

variable {key : E → κ} {keyOf : K → κ} {cmp : E → E → Int} {cmpKey : K → E → Int} {fuel : ℕ}
  {junk : Entry E} {m m' : Heap H E} {F F' : Forest H E} {op : Op H E K} {a : Answer E} {h k : H}
  {e : E} {xs : List E}

theorem refines_empty (hroot : ∀ h, m.root h = none) (hentry : ∀ e, m.entry e = none) :
    Refines key m (Forest.empty : Forest H E) where
  trees h := represents_nil (hroot h)
  disjoint _ _ _ _ hx := absurd hx List.not_mem_nil
  live e := by simp [hentry, Forest.empty]

theorem Refines.congr_key {key' : E → κ} (hm : Refines key m F)
    (hkey : ∀ h, ∀ x ∈ F.trees h, key' x = key x) : Refines key' m F :=
  ⟨fun h => (hm.trees h).congr_key (hkey h), hm.disjoint, hm.live⟩

@[simp] theorem trees_setTree_self : (F.setTree h xs).trees h = xs := by
  simp [Forest.setTree]

theorem trees_setTree_of_ne (hk : k ≠ h) : (F.setTree h xs).trees k = F.trees k := by
  simp [Forest.setTree, hk]

/-- One tree changes, among its own elements and `e`, which is in no other
tree. -/
theorem Refines.setTree (hm : Refines key m F) (hxs : Represents key m' h xs)
    (hw : Within {h} {y | y = e ∨ y ∈ F.trees h} m m') (he : ∀ k, k ≠ h → e ∉ F.trees k)
    (hsub : ∀ x ∈ xs, x = e ∨ x ∈ F.trees h) : Refines key m' (F.setTree h xs) where
  trees k := by
    by_cases hk : k = h
    · subst hk
      rwa [trees_setTree_self]
    · rw [trees_setTree_of_ne hk]
      refine (hm.trees k).within hw (by simpa using hk) fun x hx hmem => ?_
      rcases hmem with rfl | hmem
      · exact he k hk hx
      · exact hm.disjoint k h hk x hx hmem
  disjoint j k hjk x hx hx' := by
    by_cases hj : j = h
    · subst hj
      rw [trees_setTree_self] at hx
      rw [trees_setTree_of_ne hjk.symm] at hx'
      rcases hsub x hx with rfl | hx
      · exact he k hjk.symm hx'
      · exact hm.disjoint j k hjk x hx hx'
    · rw [trees_setTree_of_ne hj] at hx
      by_cases hk : k = h
      · subst hk
        rw [trees_setTree_self] at hx'
        rcases hsub x hx' with rfl | hx'
        · exact he j hj hx
        · exact hm.disjoint j k hjk x hx hx'
      · rw [trees_setTree_of_ne hk] at hx'
        exact hm.disjoint j k hjk x hx hx'
  live x := by
    rw [hw.live x]
    exact hm.live x

theorem mem_insert_snd (key : E → κ) (e : E) (xs : List E) {x : E}
    (hx : x ∈ (OrderedTree.insert key e xs).2) : x = e ∨ x ∈ xs := by
  unfold OrderedTree.insert at hx
  split at hx
  · exact Or.inr hx
  · exact OrderedTree.mem_orderedInsert.mp hx

theorem Refines.init (hm : Refines key m F) (h : H) :
    Refines key (m.vrbInit h) (F.setTree h []) where
  trees k := by
    by_cases hk : k = h
    · subst hk
      rw [trees_setTree_self]
      exact represents_nil (Function.update_self _ _ _)
    · rw [trees_setTree_of_ne hk]
      exact (hm.trees k).congr (Function.update_of_ne hk _ _) fun _ _ => rfl
  disjoint j k hjk x hx hx' := by
    by_cases hj : j = h
    · subst hj
      simp at hx
    · rw [trees_setTree_of_ne hj] at hx
      by_cases hk : k = h
      · subst hk
        simp at hx'
      · rw [trees_setTree_of_ne hk] at hx'
        exact hm.disjoint j k hjk x hx hx'
  live := hm.live

theorem Refines.malloc (hm : Refines key m F) (he : e ∉ F.live) (n : Entry E) :
    Refines key (m.put e n) { F with live := insert e F.live } where
  trees k := by
    refine (hm.trees k).congr rfl fun x hx => entry_put_of_ne ?_
    rintro rfl
    exact he ((hm.live x).mp ((hm.trees k).isSome hx))
  disjoint := hm.disjoint
  live x := by
    by_cases hx : x = e
    · subst hx
      simp [entry_put_self]
    · rw [entry_put_of_ne hx, hm.live x]
      simp [hx]

theorem Refines.free (hm : Refines key m F) (he : e ∈ F.live) (hnot : ∀ h, e ∉ F.trees h) :
    ∃ m', m.free e = .ok m' ∧ Refines key m' { F with live := F.live \ {e} } := by
  obtain ⟨n, hn⟩ := Option.isSome_iff_exists.mp ((hm.live e).mpr he)
  refine ⟨{ m with entry := Function.update m.entry e none }, by simp [Heap.free, hn], ?_,
    hm.disjoint, ?_⟩
  · refine fun k => (hm.trees k).congr rfl fun x hx => Function.update_of_ne ?_ _ _
    rintro rfl
    exact hnot k hx
  · intro x
    by_cases hx : x = e
    · subst hx
      simp
    · simp [hm.live x, hx]

variable (cmp) in
theorem Refines.insert (hm : Refines key m F) (he : e ∈ F.live)
    (hnot : ∀ k, k ≠ h → e ∉ F.trees k) (hcmp : Compares key (key e) (F.trees h) (cmp e))
    (hfuel : turns (F.trees h).length ≤ fuel) :
    ∃ m', m.vrbInsert fuel cmp h e = .ok ((OrderedTree.insert key e (F.trees h)).1, m') ∧
      Refines key m' (F.setTree h (OrderedTree.insert key e (F.trees h)).2) := by
  obtain ⟨m', hinsert, hm', hw⟩ := vrbInsert_spec (hm.trees h) ((hm.live e).mpr he) hcmp hfuel
  refine ⟨m', hinsert, hm.setTree hm' ?_ hnot fun x hx => mem_insert_snd key e _ hx⟩
  simpa only [List.mem_cons] using hw

theorem Refines.remove (hm : Refines key m F) (he : e ∈ F.trees h)
    (hfuel : turns (F.trees h).length ≤ fuel) :
    ∃ m', m.vrbRemove fuel h e = .ok (e, m') ∧
      Refines key m' (F.setTree h ((F.trees h).erase e)) := by
  obtain ⟨m', hremove, hm', hw⟩ := vrbRemove_spec (hm.trees h) he hfuel
  have hw : Within {h} {y | y = e ∨ y ∈ F.trees h} m m' :=
    hw.mono (Set.Subset.refl _) fun x hx => Or.inr hx
  refine ⟨m', hremove, hm.setTree hm' hw ?_ fun x hx => Or.inr (List.mem_of_mem_erase hx)⟩
  exact fun k hk => hm.disjoint h k hk.symm e he

theorem Refines.removeIf {q : E → Bool} (hm : Refines key m F) (hlen : (F.trees h).length < fuel)
    (hfuel : turns (F.trees h).length ≤ fuel) :
    ∃ m', m.vrbForeachSafe fuel h (removeIf fuel h q) = .ok m' ∧
      Refines key m' { F.setTree h ((F.trees h).filter fun e => !q e) with
        live := F.live \ {e | e ∈ F.trees h ∧ q e} } := by
  obtain ⟨m', hloop, hm', hreap⟩ := vrbForeachSafe_spec (q := q) (hm.trees h) hlen hfuel
  refine ⟨m', hloop, ?_, ?_, ?_⟩
  · intro k
    by_cases hk : k = h
    · subst hk
      simpa [Forest.setTree] using hm'
    · have htree : Represents key m' k (F.trees k) :=
        (hm.trees k).congr (hreap.root k hk) fun x hx => hreap.entry x (hm.disjoint k h hk x hx)
      simpa [Forest.setTree, hk] using htree
  · have hsub : ∀ k, ∀ x ∈ (F.setTree h ((F.trees h).filter fun e => !q e)).trees k,
        x ∈ F.trees k := by
      intro k x hx
      by_cases hk : k = h
      · subst hk
        rw [trees_setTree_self] at hx
        exact List.mem_of_mem_filter hx
      · rwa [trees_setTree_of_ne hk] at hx
    exact fun j k hjk x hx hx' => hm.disjoint j k hjk x (hsub j x hx) (hsub k x hx')
  · intro x
    rw [hreap.live x, hm.live x]
    exact Iff.rfl

theorem turns_le (n : ℕ) : turns n ≤ n + 3 := by
  have hpow : 2 ^ Nat.log 2 (n + 1) ≤ n + 1 := Nat.pow_log_le_self 2 (by omega)
  have hlin : ∀ k : ℕ, 2 * k ≤ 2 ^ k := by
    intro k
    induction k with
    | zero => simp
    | succ k ih =>
        have : 1 ≤ 2 ^ k := Nat.one_le_two_pow
        rw [pow_succ]
        cases k with
        | zero => simp
        | succ k =>
            rw [pow_succ] at *
            omega
  have := hlin (Nat.log 2 (n + 1))
  simp only [turns]
  omega

theorem length_insert_le (key : E → κ) (e : E) (xs : List E) :
    (OrderedTree.insert key e xs).2.length ≤ xs.length + 1 := by
  unfold OrderedTree.insert
  split
  · exact Nat.le_succ _
  · exact (List.orderedInsert_length _ _ _).le

/-- The size of a tree grows by one at most. -/
theorem length_trees_le (hstep : Forest.Step key keyOf F op a F') (h : H) :
    (F'.trees h).length ≤ (F.trees h).length + 1 := by
  have hset : ∀ (k : H) (xs : List E), xs.length ≤ (F.trees k).length + 1 →
      ((F.setTree k xs).trees h).length ≤ (F.trees h).length + 1 := by
    intro k xs hxs
    by_cases hk : h = k
    · subst hk
      rwa [trees_setTree_self]
    · rw [trees_setTree_of_ne hk]
      exact Nat.le_succ _
  cases hstep with
  | init k => exact hset k [] (Nat.zero_le _)
  | insert _ _ => exact hset _ _ (length_insert_le _ _ _)
  | remove _ => exact hset _ _ (List.length_erase_le.trans (Nat.le_succ _))
  | removeIf k q => exact hset k _ ((List.length_filter_le _ _).trans (Nat.le_succ _))
  | _ => exact Nat.le_succ _

section Client

variable (hcmp : ∀ x xs, Compares key (key x) xs (cmp x))
  (hcmpKey : ∀ k xs, Compares key (keyOf k) xs (cmpKey k))
include hcmp hcmpKey

/-- One operation on the links does what it does to the ordered sets. -/
theorem step_spec (junk : Entry E) (hm : Refines key m F) (hstep : Forest.Step key keyOf F op a F')
    (hfuel : ∀ h, (F.trees h).length + 3 ≤ fuel) :
    ∃ m', step cmp cmpKey fuel junk m op = .ok (a, m') ∧ Refines key m' F' := by
  have hturns : ∀ h, turns (F.trees h).length ≤ fuel := fun h => (turns_le _).trans (hfuel h)
  have hlt : ∀ h, (F.trees h).length < fuel := fun h => by have := hfuel h; omega
  cases hstep with
  | init h => exact ⟨m.vrbInit h, rfl, hm.init h⟩
  | malloc he => exact ⟨malloc m _ junk, rfl, hm.malloc he junk⟩
  | free he hnot =>
      obtain ⟨m', hfree, hm'⟩ := hm.free he hnot
      exact ⟨m', by simp [step, bind, Except.bind, hfree, pure, Except.pure], hm'⟩
  | @insert h e he hnot =>
      obtain ⟨m', hinsert, hm'⟩ := hm.insert cmp he hnot (hcmp e _) (hturns h)
      exact ⟨m', by simp [step, bind, Except.bind, hinsert, pure, Except.pure], hm'⟩
  | @remove h e he =>
      obtain ⟨m', hremove, hm'⟩ := hm.remove he (hturns h)
      exact ⟨m', by simp [step, bind, Except.bind, hremove, pure, Except.pure], hm'⟩
  | find h k =>
      have hfind := vrbFind_spec (hm.trees h) (hcmpKey k _) (hturns h)
      exact ⟨m, by simp [step, bind, Except.bind, hfind, pure, Except.pure], hm⟩
  | nfind h k =>
      have hfind := vrbNfind_spec (hm.trees h) (hcmpKey k _) (hturns h)
      exact ⟨m, by simp [step, bind, Except.bind, hfind, pure, Except.pure], hm⟩
  | min h =>
      have hmin := (vrbMinmax_spec (hm.trees h) (hturns h)).1
      exact ⟨m, by simp [step, bind, Except.bind, hmin, pure, Except.pure], hm⟩
  | max h =>
      have hmax := (vrbMinmax_spec (hm.trees h) (hturns h)).2
      exact ⟨m, by simp [step, bind, Except.bind, hmax, pure, Except.pure], hm⟩
  | foreach h =>
      have hvisit := (vrbForeach_spec (hm.trees h) (hlt h) (hturns h)).1
      exact ⟨m, by simp [step, bind, Except.bind, hvisit, pure, Except.pure], hm⟩
  | foreachReverse h =>
      have hvisit := (vrbForeach_spec (hm.trees h) (hlt h) (hturns h)).2
      exact ⟨m, by simp [step, bind, Except.bind, hvisit, pure, Except.pure], hm⟩
  | removeIf h q =>
      obtain ⟨m', hloop, hm'⟩ := hm.removeIf (q := q) (hlt h) (hturns h)
      exact ⟨m', by simp [step, bind, Except.bind, hloop, pure, Except.pure], hm'⟩

/-- Whatever the client does by the rules, it sees the ordered sets, and no
pointer is followed that leads nowhere. -/
theorem run_spec {ops : List (Op H E K)} {as : List (Answer E)} (hm : Refines key m F)
    (hrun : Forest.Run key keyOf F ops as F')
    (hfuel : ∀ h, (F.trees h).length + ops.length + 3 ≤ fuel) :
    ∃ m', run cmp cmpKey fuel junk ops m = .ok (as, m') ∧ Refines key m' F' := by
  induction hrun generalizing m with
  | nil F => exact ⟨m, rfl, hm⟩
  | @cons F F₁ F₂ op ops a as hstep _ ih =>
      simp only [List.length_cons] at hfuel
      obtain ⟨m₁, hop, hm₁⟩ := step_spec hcmp hcmpKey junk hm hstep
        (show ∀ h, _ ≤ fuel from fun h => by have := hfuel h; omega)
      obtain ⟨m₂, hops, hm₂⟩ := ih hm₁ fun h => by
        have := hfuel h
        have := length_trees_le hstep h
        omega
      refine ⟨m₂, ?_, hm₂⟩
      simp [run, bind, Except.bind, hop, hops, pure, Except.pure]

/-- From trees that are initialised empty, the same. -/
theorem run_empty_spec {ops : List (Op H E K)} {as : List (Answer E)}
    (hroot : ∀ h, m.root h = none) (hentry : ∀ e, m.entry e = none)
    (hrun : Forest.Run key keyOf Forest.empty ops as F') (hfuel : ops.length + 3 ≤ fuel) :
    ∃ m', run cmp cmpKey fuel junk ops m = .ok (as, m') ∧ Refines key m' F' := by
  have hm : Refines key m Forest.empty := refines_empty hroot hentry
  exact run_spec hcmp hcmpKey hm hrun fun h => by simpa [Forest.empty] using hfuel

end Client

/-- Two elements with one key. -/
def sampleOps : List (Op Unit ℕ ℕ) :=
  [.malloc 5, .insert () 5, .malloc 15, .insert () 15, .foreach (), .remove () 5, .free 5]

/-- The last digit is the key. -/
def sampleKey (x : ℕ) : ℕ :=
  x % 10

def sampleCmp (x y : ℕ) : Int :=
  (sampleKey x : Int) - sampleKey y

theorem sampleCmp_compares (x : ℕ) (xs : List ℕ) :
    Compares sampleKey (sampleKey x) xs (sampleCmp x) := by
  intro y _
  simp only [sampleCmp]
  omega

theorem sampleOps_run : ∃ F, Forest.Run sampleKey sampleKey Forest.empty sampleOps
    [.done, .elm none, .done, .elm (some 5), .elms [5], .elm (some 5), .done] F := by
  refine ⟨_, .cons (.malloc ?_) (.cons (.insert ?_ ?_) (.cons (.malloc ?_) (.cons (.insert ?_ ?_)
    (.cons (.foreach ()) (.cons (.remove ?_) (.cons (.free ?_ ?_) (.nil _)))))))⟩
  all_goals simp [Forest.empty, Forest.setTree]
  all_goals decide

theorem run_empty_spec_sample : ∃ F m',
    run sampleCmp sampleCmp 10 ⟨none, none, none, .red⟩ sampleOps ⟨fun _ => none, fun _ => none⟩ =
      .ok ([.done, .elm none, .done, .elm (some 5), .elms [5], .elm (some 5), .done], m') ∧
      Refines sampleKey m' F := by
  obtain ⟨F, hrun⟩ := sampleOps_run
  exact ⟨F, run_empty_spec sampleCmp_compares sampleCmp_compares (fun _ => rfl) (fun _ => rfl) hrun
    (by decide)⟩

/-- The operations on a tree of `n` elements need no loop to take more than
`2 * log₂ (n + 1) + 2` turns. -/
theorem turns_suffice {x y : E} {k : K} (hm : Represents key m h xs) (hx : (m.entry x).isSome)
    (hy : y ∈ xs) (hcmp : Compares key (key x) xs (cmp x))
    (hcmpKey : Compares key (keyOf k) xs (cmpKey k)) :
    (∃ m', m.vrbInsert (turns xs.length) cmp h x =
        .ok ((OrderedTree.insert key x xs).1, m') ∧
      Represents key m' h (OrderedTree.insert key x xs).2) ∧
    (∃ m', m.vrbRemove (turns xs.length) h y = .ok (y, m') ∧ Represents key m' h (xs.erase y)) ∧
    m.vrbFind (turns xs.length) cmpKey h k = .ok (OrderedTree.find key (keyOf k) xs) ∧
    m.vrbNfind (turns xs.length) cmpKey h k =
      .ok (xs.find? fun x => decide (keyOf k ≤ key x)) := by
  obtain ⟨m₁, hinsert, hm₁, -⟩ := vrbInsert_spec hm hx hcmp le_rfl
  obtain ⟨m₂, hremove, hm₂, -⟩ := vrbRemove_spec hm hy le_rfl
  exact ⟨⟨m₁, hinsert, hm₁⟩, ⟨m₂, hremove, hm₂⟩, vrbFind_spec hm hcmpKey le_rfl,
    vrbNfind_spec hm hcmpKey le_rfl⟩

theorem exists_neighbours {x : E} (hm : Represents key m h xs)
    (hfuel : turns xs.length ≤ fuel) (hx : x ∈ xs) :
    ∃ next prev, m.vrbNext fuel x = .ok next ∧ m.vrbPrev fuel x = .ok prev ∧
      (∀ y, next = some y ↔ y ∈ xs ∧ OrderedTree.Neighbours key xs x y) ∧
      ∀ y, prev = some y ↔ y ∈ xs ∧ OrderedTree.Neighbours key xs y x := by
  obtain ⟨as, bs, rfl⟩ := List.append_of_mem hx
  obtain ⟨hnext, hprev⟩ := vrbNext_spec hm hfuel
  refine ⟨_, _, hnext, hprev, fun y => ?_, fun y => ?_⟩
  · constructor
    · intro hhead
      have hy : y ∈ as ++ x :: bs := by simp [List.mem_of_mem_head? hhead]
      exact ⟨hy, (hm.sorted.head?_eq_some_iff hy).mp hhead⟩
    · rintro ⟨hy, hnear⟩
      exact (hm.sorted.head?_eq_some_iff hy).mpr hnear
  · constructor
    · intro hlast
      have hy : y ∈ as ++ x :: bs := by simp [List.mem_of_mem_getLast? hlast]
      exact ⟨hy, (hm.sorted.getLast?_eq_some_iff hy).mp hlast⟩
    · rintro ⟨hy, hnear⟩
      exact (hm.sorted.getLast?_eq_some_iff hy).mpr hnear

/-- `VRB_NEXT` and `VRB_PREV` lead to the neighbours in the order of the keys, and
each undoes the other. -/
theorem next_prev_neighbours {x : E} (hm : Represents key m h xs) (hx : x ∈ xs)
    (hfuel : turns xs.length ≤ fuel) :
    ∃ next prev, m.vrbNext fuel x = .ok next ∧ m.vrbPrev fuel x = .ok prev ∧
      (∀ y, next = some y ↔ y ∈ xs ∧ OrderedTree.Neighbours key xs x y) ∧
      (∀ y, prev = some y ↔ y ∈ xs ∧ OrderedTree.Neighbours key xs y x) ∧
      ∀ y ∈ xs, next = some y ↔ m.vrbPrev fuel y = .ok (some x) := by
  have hsucc := exists_neighbours hm hfuel hx
  have hpred : ∀ y ∈ xs, ∃ prev, m.vrbPrev fuel y = .ok prev ∧
      ∀ z, prev = some z ↔ z ∈ xs ∧ OrderedTree.Neighbours key xs z y := by
    intro y hy
    obtain ⟨-, prev, -, hprev, -, hiff⟩ := exists_neighbours hm hfuel hy
    exact ⟨prev, hprev, hiff⟩
  obtain ⟨next, prev, hnext, hprev, hnextIff, hprevIff⟩ := hsucc
  refine ⟨next, prev, hnext, hprev, hnextIff, hprevIff, fun y hy => ?_⟩
  obtain ⟨prev', hprev', hprevIff'⟩ := hpred y hy
  rw [hprev', hnextIff y, Except.ok.injEq, hprevIff' x]
  exact and_congr_left fun _ => ⟨fun _ => hx, fun _ => hy⟩

/-- Three elements, the middle one at the root. -/
def sampleHeap : Heap Unit ℕ where
  root := fun _ => some 2
  entry := fun e =>
    if e = 1 then some ⟨none, none, some 2, .red⟩
    else if e = 2 then some ⟨some 1, some 3, none, .black⟩
    else if e = 3 then some ⟨none, none, some 2, .red⟩
    else if e = 11 then some ⟨none, none, none, .red⟩
    else none

theorem sampleHeap_represents : Represents sampleKey sampleHeap () [1, 2, 3] := by
  refine ⟨by simp [OrderedTree.IsTree, sampleKey],
    .node .black (.node .red .leaf 1 .leaf) 2 (.node .red .leaf 3 .leaf), rfl, ?_, rfl, 1, ?_⟩
  · simp [TreeAt, sampleHeap, ColorTree.ptr]
  · exact .black 2 (.red 1 .leaf .leaf) (.red 3 .leaf .leaf)

theorem turns_suffice_sample :
    (∃ m, sampleHeap.vrbRemove 6 () 3 = .ok (3, m) ∧ Represents sampleKey m () [1, 2]) ∧
      sampleHeap.vrbFind 6 sampleCmp () 12 = .ok (some 2) := by
  obtain ⟨-, hremove, hfind, -⟩ := @turns_suffice Unit ℕ ℕ ℕ _ _ _ sampleKey sampleKey sampleCmp
    sampleCmp sampleHeap () [1, 2, 3] 11 3 12 sampleHeap_represents rfl (by decide)
    (sampleCmp_compares _ _) (sampleCmp_compares _ _)
  exact ⟨hremove, hfind⟩

theorem next_prev_neighbours_sample : ∃ next prev, sampleHeap.vrbNext 6 1 = .ok next ∧
    sampleHeap.vrbPrev 6 1 = .ok prev ∧
    (∀ y, next = some y ↔ y ∈ [1, 2, 3] ∧ OrderedTree.Neighbours sampleKey [1, 2, 3] 1 y) ∧
    (∀ y, prev = some y ↔ y ∈ [1, 2, 3] ∧ OrderedTree.Neighbours sampleKey [1, 2, 3] y 1) ∧
    ∀ y ∈ [1, 2, 3], next = some y ↔ sampleHeap.vrbPrev 6 y = .ok (some 1) :=
  next_prev_neighbours sampleHeap_represents (by decide) (by decide)

end VarnishModules.VtreeSystem
