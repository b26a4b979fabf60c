import VarnishModules.TailQueue

/-!
Loops that walk a queue and take off the elements that fail a test.

The cursor is moved on before the element at it is taken off.
-/

set_option linter.unusedSectionVars false

namespace VarnishModules.QueueFilter

open VarnishModules.TailQueue

variable {H F E : Type} [DecidableEq H] [DecidableEq F] [DecidableEq E]

/-- `VTAILQ_FOREACH_SAFE(x, h, f, y) { if (!keep(x)) VTAILQ_REMOVE(h, x, f); }` -/
def removeUnless (alive : H → Bool) (f : F) (h : H) (keep : E → Bool) :
    Nat → Option E → Queues H F E → Except Fault (Queues H F E)
  | _, none, m => .ok m
  | 0, some _, _ => .error .outOfFuel
  | n + 1, some x, m => do
      m.touchElem x
      let y := m.next f x
      let m ← if keep x then pure m else m.remove alive f h x
      removeUnless alive f h keep n y m

variable {m m' : Queues H F E} {alive : H → Bool} {f : F} {h : H} {keep : E → Bool} {x : E}
  {xs ys : List E} {n : Nat}

theorem next_eq_head? (hq : IsQueue m f h (ys ++ x :: xs)) :
    m.live x = true ∧ m.next f x = xs.head? := by
  obtain ⟨-, -, -, hlive, hxs⟩ := segment_append.mp hq.segment
  refine ⟨hlive, ?_⟩
  cases xs with
  | nil =>
      have hstop := hq.stop
      rwa [endSlot_append] at hstop
  | cons z zs => exact hxs.1

theorem removeUnless_spec (alive : H → Bool) (keep : E → Bool) (ys : List E)
    (hq : IsQueue m f h (ys ++ xs)) (ha : alive h = true) (hn : xs.length ≤ n) :
    ∃ m', removeUnless alive f h keep n xs.head? m = .ok m' ∧
      IsQueue m' f h (ys ++ xs.filter keep) := by
  induction xs generalizing m ys n with
  | nil =>
      refine ⟨m, ?_, hq⟩
      cases n <;> rfl
  | cons x xs ih =>
      obtain ⟨n, rfl⟩ : ∃ k, n = k + 1 := ⟨n - 1, by simp at hn; omega⟩
      obtain ⟨hlive, hnext⟩ := next_eq_head? hq
      have hn : xs.length ≤ n := by simpa using hn
      cases hkeep : keep x with
      | true =>
          have hq' : IsQueue m f h ((ys ++ [x]) ++ xs) := by simpa using hq
          obtain ⟨m', hrun, hq'⟩ := ih _ hq' hn
          refine ⟨m', ?_, by simpa [hkeep] using hq'⟩
          rw [← hnext] at hrun
          simpa [removeUnless, touchElem_ok hlive, hkeep, bind, Except.bind, pure, Except.pure]
            using hrun
      | false =>
          obtain ⟨m₁, hremove, hq₁, -, -, -⟩ := remove_spec hq ha
          obtain ⟨m', hrun, hq'⟩ := ih _ hq₁ hn
          refine ⟨m', ?_, by simpa [hkeep] using hq'⟩
          rw [← hnext] at hrun
          simpa [removeUnless, touchElem_ok hlive, hkeep, hremove, bind, Except.bind, pure,
            Except.pure] using hrun

theorem removeUnless_of_forall (alive : H → Bool) (ys : List E) (hq : IsQueue m f h (ys ++ xs))
    (hkeep : ∀ x ∈ xs, keep x = true) (hn : xs.length ≤ n) :
    removeUnless alive f h keep n xs.head? m = .ok m := by
  induction xs generalizing ys n with
  | nil => cases n <;> rfl
  | cons x xs ih =>
      obtain ⟨n, rfl⟩ : ∃ k, n = k + 1 := ⟨n - 1, by simp at hn; omega⟩
      obtain ⟨hlive, hnext⟩ := next_eq_head? hq
      have hq' : IsQueue m f h ((ys ++ [x]) ++ xs) := by simpa using hq
      have hrest := ih _ hq' (fun y hy => hkeep y (by simp [hy])) (by simpa using hn)
      rw [← hnext] at hrest
      simpa [removeUnless, touchElem_ok hlive, hkeep x (by simp), bind, Except.bind, pure,
        Except.pure] using hrest

end VarnishModules.QueueFilter
