import Mathlib

/-!
The maximal runs of a list that contain no separator.
-/

namespace VarnishModules.MaximalRuns

variable {α : Type} {sep : α → Bool} {r s pre post : List α}

/-- `r` is a longest stretch of `s` without a separator, and not empty. -/
def IsRun (sep : α → Bool) (r s : List α) : Prop :=
  ∃ pre post, s = pre ++ r ++ post ∧ r ≠ [] ∧ (∀ c ∈ r, sep c = false) ∧
    (∀ c ∈ pre.getLast?, sep c = true) ∧ (∀ c ∈ post.head?, sep c = true)

theorem not_isRun_nil : ¬ IsRun sep r [] := by
  rintro ⟨pre, post, hs, hr, -⟩
  simp at hs
  exact hr hs.2.1

/-- Separators in front belong to no run. -/
theorem isRun_append_left {w : List α} (hw : ∀ c ∈ w, sep c = true) :
    IsRun sep r (w ++ s) ↔ IsRun sep r s := by
  constructor
  · rintro ⟨pre, post, hs, hr, hclear, hpre, hpost⟩
    rw [List.append_assoc, List.append_eq_append_iff] at hs
    rcases hs with ⟨e, rfl, hs⟩ | ⟨e, hwe, hs⟩
    · refine ⟨e, post, by simpa using hs, hr, hclear, ?_, hpost⟩
      intro c hc
      exact hpre c (by simp [List.getLast?_append, Option.mem_def.mp hc])
    · cases e with
      | nil => exact ⟨[], post, by simpa using hs.symm, hr, hclear, by simp, hpost⟩
      | cons x e =>
          -- the run would start inside `w`
          obtain ⟨y, r', rfl⟩ := List.exists_cons_of_ne_nil hr
          obtain rfl : y = x := by simpa using (List.cons.inj hs).1
          exact absurd (hw y (by simp [hwe])) (by simp [hclear y (by simp)])
  · rintro ⟨pre, post, rfl, hr, hclear, hpre, hpost⟩
    refine ⟨w ++ pre, post, by simp, hr, hclear, ?_, hpost⟩
    intro c hc
    rw [List.getLast?_append] at hc
    cases hlast : pre.getLast? with
    | none =>
        rw [hlast] at hc
        exact hw c (List.mem_of_getLast? (by simpa using hc))
    | some x =>
        rw [hlast] at hc
        obtain rfl : x = c := by simpa using hc
        exact hpre x hlast

/-- The first run is what stands before the first separator. -/
theorem isRun_cons_append {t : List α} (ht : t ≠ []) (hclear : ∀ c ∈ t, sep c = false)
    (hs : ∀ c ∈ s.head?, sep c = true) :
    IsRun sep r (t ++ s) ↔ r = t ∨ IsRun sep r s := by
  constructor
  · rintro ⟨pre, post, heq, hr, hrclear, hpre, hpost⟩
    rw [List.append_assoc, List.append_eq_append_iff] at heq
    rcases heq with ⟨e, rfl, heq⟩ | ⟨e, hte, heq⟩
    · refine Or.inr ⟨e, post, by simpa using heq, hr, hrclear, ?_, hpost⟩
      intro c hc
      exact hpre c (by simp [List.getLast?_append, Option.mem_def.mp hc])
    · -- the run starts inside `t`, hence at its beginning
      obtain rfl : pre = [] := by
        cases hlast : pre.getLast? with
        | none => exact List.getLast?_eq_none_iff.mp hlast
        | some x =>
            have hx : x ∈ t := by simp [hte, List.mem_of_getLast? hlast]
            exact absurd (hpre x hlast) (by simp [hclear x hx])
      obtain rfl : t = e := by simpa using hte
      refine Or.inl ?_
      have hstop : ∀ l : List α, (∀ c ∈ l.head?, sep c = true) →
          l.takeWhile (fun c => !sep c) = [] := by
        intro l hl
        cases l with
        | nil => rfl
        | cons x l => simp [hl x rfl]
      have htake := congrArg (List.takeWhile fun c => !sep c) heq
      rw [List.takeWhile_append_of_pos (by simpa using hrclear), hstop post hpost,
        List.takeWhile_append_of_pos (by simpa using hclear), hstop s hs] at htake
      simpa using htake
  · rintro (rfl | ⟨pre, post, rfl, hr, hrclear, hpre, hpost⟩)
    · exact ⟨[], s, by simp, ht, hclear, by simp, hs⟩
    · refine ⟨t ++ pre, post, by simp, hr, hrclear, ?_, hpost⟩
      intro c hc
      rw [List.getLast?_append] at hc
      cases hlast : pre.getLast? with
      | none =>
          -- the run follows `t` at once, but a separator does
          obtain rfl := List.getLast?_eq_none_iff.mp hlast
          obtain ⟨y, r', rfl⟩ := List.exists_cons_of_ne_nil hr
          exact absurd (hs y (by simp)) (by simp [hrclear y (by simp)])
      | some x =>
          rw [hlast] at hc
          obtain rfl : x = c := by simpa using hc
          exact hpre x hlast

/-- A scanner that skips separators and then reads up to the next one finds the
runs one by one. -/
theorem isRun_iff_scan :
    IsRun sep r s ↔ (s.dropWhile sep).takeWhile (fun c => !sep c) ≠ [] ∧
      (r = (s.dropWhile sep).takeWhile (fun c => !sep c) ∨
        IsRun sep r ((s.dropWhile sep).dropWhile fun c => !sep c)) := by
  let b := s.dropWhile sep
  let t := b.takeWhile fun c => !sep c
  let e := b.dropWhile fun c => !sep c
  have hblank : ∀ c ∈ s.takeWhile sep, sep c = true := fun c hc => List.mem_takeWhile_imp hc
  have hclear : ∀ c ∈ t, sep c = false := fun c hc => by simpa using List.mem_takeWhile_imp hc
  have hstop : ∀ c ∈ e.head?, sep c = true := by
    intro c hc
    have hne : e ≠ [] := by
      rintro hnil
      simp [hnil] at hc
    have hhead := List.head_dropWhile_not (fun c => !sep c) hne
    rw [List.head?_eq_some_head hne] at hc
    obtain rfl : e.head hne = c := by simpa using hc
    simpa using hhead
  have hsplit : s = s.takeWhile sep ++ (t ++ e) := by
    simp only [t, e, b, List.takeWhile_append_dropWhile]
  rw [hsplit, isRun_append_left hblank, ← hsplit]
  by_cases ht : t = []
  · have hb : b = [] := by
      cases hbc : b with
      | nil => rfl
      | cons x l =>
          have hbs : s.dropWhile sep = x :: l := hbc
          have hx : sep x = false := by
            have hhead := List.head_dropWhile_not sep (show s.dropWhile sep ≠ [] by rw [hbs]; simp)
            simpa only [hbs, List.head_cons] using hhead
          simp [t, hbc, hx] at ht
    have he : e = [] := by simp [e, hb]
    rw [ht, he]
    simp only [List.append_nil]
    exact ⟨fun h => absurd h not_isRun_nil, fun h => absurd ht h.1⟩
  · rw [isRun_cons_append ht hclear hstop]
    exact ⟨fun h => ⟨ht, h⟩, And.right⟩

end VarnishModules.MaximalRuns
