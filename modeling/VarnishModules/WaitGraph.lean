import Mathlib

/-!
Threads that wait for each other.

A thread may ask for one thing at a time, and keeps others from some things.
-/

namespace VarnishModules.WaitGraph

variable {T R α : Type*}

/-- `t'` keeps `t` from what it asks for. -/
def WaitsFor (asks : T → Option R) (keeps : T → R → Prop) (t t' : T) : Prop :=
  t ≠ t' ∧ ∃ r ∈ asks t, keeps t' r

/-- Each thread of the set waits for another one of it. -/
def Deadlocked (asks : T → Option R) (keeps : T → R → Prop) (s : Set T) : Prop :=
  s.Nonempty ∧ ∀ t ∈ s, ∃ t' ∈ s, WaitsFor asks keeps t t'

variable {asks : T → Option R} {keeps : T → R → Prop} {s : Set T} {t t' : T}

theorem deadlocked_pair (h : WaitsFor asks keeps t t') (h' : WaitsFor asks keeps t' t) :
    Deadlocked asks keeps {t, t'} := by
  refine ⟨⟨t, by simp⟩, fun u hu => ?_⟩
  rcases hu with rfl | rfl
  · exact ⟨t', by simp, h⟩
  · exact ⟨t, by simp, h'⟩

/-- There is no deadlock where each thread asks only for what is above everything it keeps. -/
theorem not_deadlocked_of_order [Preorder α] [WellFoundedGT α] (level : R → α)
    (horder : ∀ t, ∀ r ∈ asks t, ∀ r', keeps t r' → level r' < level r) :
    ¬ Deadlocked asks keeps s := by
  rintro ⟨⟨t, ht⟩, hwaits⟩
  have hnever : ∀ a, ∀ t ∈ s, ∀ r ∈ asks t, level r ≠ a := by
    intro a
    induction a using WellFoundedGT.induction with
    | ind a ih =>
        rintro t ht r hr rfl
        obtain ⟨t', ht', -, r₁, hr₁, hkeeps⟩ := hwaits t ht
        obtain rfl : r = r₁ := Option.mem_unique hr hr₁
        obtain ⟨-, -, -, r', hr', -⟩ := hwaits t' ht'
        exact ih (level r') (horder t' r' hr' r hkeeps) t' ht' r' hr' rfl
  obtain ⟨-, -, -, r, hr, -⟩ := hwaits t ht
  exact hnever (level r) t ht r hr rfl

end VarnishModules.WaitGraph
