import VarnishModules.QueueFilter

/-!
Loops that walk a queue up to the first element that passes a test.
-/

set_option linter.unusedSectionVars false

namespace VarnishModules.QueueFind

open VarnishModules.TailQueue

variable {H F E β : Type} [DecidableEq H] [DecidableEq F] [DecidableEq E]

/-- `VTAILQ_FOREACH(x, h, f) { if (test(x)) break; }` -/
def findFirst (m : Queues H F E) (f : F) (test : E → Except Fault Bool) :
    Nat → Option E → Except Fault (Option E)
  | _, none => .ok none
  | 0, some _ => .error .outOfFuel
  | n + 1, some x => do
      m.touchElem x
      let b ← test x
      if b then return some x else findFirst m f test n (m.next f x)

variable {m : Queues H F E} {f : F} {h : H} {test : E → Except Fault Bool} {R : E → β → Prop}
  {p : β → Prop} [DecidablePred p] {x : E} {y : β} {xs pre : List E} {ys : List β} {n : Nat}

/-- The elements up to one that passes, and those behind it, with what they stand for. -/
structure Splits (R : E → β → Prop) (p : β → Prop) (xs : List E) (ys : List β) (xs₁ : List E)
    (x : E) (xs₂ : List E) (ys₁ : List β) (y : β) (ys₂ : List β) : Prop where
  elems : xs = xs₁ ++ x :: xs₂
  values : ys = ys₁ ++ y :: ys₂
  before : List.Forall₂ R xs₁ ys₁
  found : R x y
  after : List.Forall₂ R xs₂ ys₂
  fails : ∀ y' ∈ ys₁, ¬ p y'
  passes : p y

theorem Splits.cons {xs₁ xs₂ : List E} {x' : E} {ys₁ ys₂ : List β} {y' : β}
    (hs : Splits R p xs ys xs₁ x xs₂ ys₁ y ys₂) (hR : R x' y') (hp : ¬ p y') :
    Splits R p (x' :: xs) (y' :: ys) (x' :: xs₁) x xs₂ (y' :: ys₁) y ys₂ where
  elems := congrArg (x' :: ·) hs.elems
  values := congrArg (y' :: ·) hs.values
  before := .cons hR hs.before
  found := hs.found
  after := hs.after
  fails := List.forall_mem_cons.mpr ⟨hp, hs.fails⟩
  passes := hs.passes

theorem Splits.find?_eq {xs₁ xs₂ : List E} {ys₁ ys₂ : List β}
    (hs : Splits R p xs ys xs₁ x xs₂ ys₁ y ys₂) : ys.find? (fun y => decide (p y)) = some y := by
  have hnone : ys₁.find? (fun y => decide (p y)) = none :=
    List.find?_eq_none.mpr fun y' hy' => by simpa using hs.fails y' hy'
  rw [hs.values, List.find?_append, hnone, Option.none_or,
    List.find?_cons_of_pos (by simpa using hs.passes)]

theorem Splits.eraseP_eq {xs₁ xs₂ : List E} {ys₁ ys₂ : List β}
    (hs : Splits R p xs ys xs₁ x xs₂ ys₁ y ys₂) :
    ys.eraseP (fun y => decide (p y)) = ys₁ ++ ys₂ := by
  rw [hs.values, List.eraseP_append_right _ fun y' hy' => by simpa using hs.fails y' hy',
    List.eraseP_cons_of_pos (by simpa using hs.passes)]

theorem findFirst_cons (hq : IsQueue m f h (pre ++ x :: xs)) (htest : test x = .ok (decide (p y)))
    (n : Nat) : findFirst m f test (n + 1) (some x) =
      if p y then .ok (some x) else findFirst m f test n xs.head? := by
  obtain ⟨hlive, hnext⟩ := QueueFilter.next_eq_head? hq
  rw [findFirst, touchElem_ok hlive, htest, hnext]
  by_cases hp : p y
  · simp [hp, bind, Except.bind, pure, Except.pure]
  · simp [hp, bind, Except.bind]

/-- The loop comes to the first element that passes, if there is one. -/
theorem findFirst_spec (hR : List.Forall₂ R xs ys)
    (htest : ∀ x y, R x y → test x = .ok (decide (p y)))
    (hq : IsQueue m f h (pre ++ xs)) (hn : xs.length ≤ n) :
    (findFirst m f test n xs.head? = .ok none ∧ ∀ y ∈ ys, ¬ p y) ∨
      ∃ xs₁ x xs₂ ys₁ y ys₂, Splits R p xs ys xs₁ x xs₂ ys₁ y ys₂ ∧
        findFirst m f test n xs.head? = .ok (some x) := by
  induction hR generalizing pre n with
  | nil =>
      refine Or.inl ⟨?_, by simp⟩
      cases n <;> rfl
  | @cons x y xs ys hxy hR ih =>
      obtain ⟨n, rfl⟩ : ∃ k, n = k + 1 := ⟨n - 1, by simp at hn; omega⟩
      rw [List.head?_cons, findFirst_cons hq (htest x y hxy)]
      by_cases hp : p y
      · rw [if_pos hp]
        exact Or.inr ⟨[], x, xs, [], y, ys, ⟨rfl, rfl, .nil, hxy, hR, by simp, hp⟩, rfl⟩
      · rw [if_neg hp]
        have hq' : IsQueue m f h ((pre ++ [x]) ++ xs) := by simpa using hq
        rcases ih hq' (by simpa using hn) with
          ⟨hfind, hnone⟩ | ⟨xs₁, x', xs₂, ys₁, y', ys₂, hs, hfind⟩
        · exact Or.inl ⟨hfind, List.forall_mem_cons.mpr ⟨hp, hnone⟩⟩
        · exact Or.inr ⟨x :: xs₁, x', xs₂, y :: ys₁, y', ys₂, hs.cons hxy hp, hfind⟩

end VarnishModules.QueueFind
