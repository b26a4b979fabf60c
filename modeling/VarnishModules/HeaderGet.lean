import VarnishModules.HeaderModel

/-!
What `get` tries the expression on, and what it returns.

The matcher drops leading spaces and passes over what is empty then; the getter drops
leading spaces and tabs.
-/

namespace VarnishModules.HeaderGet

open VarnishModules.CStrings
open VarnishModules.HeaderModel

/-- The entry at `u`, if it is one of the header. -/
def occurrenceAt (hp : Http) (hdr : HeaderName) (u : Nat) : Option (Nat × CString) :=
  (hp.hd u).bind fun b => if IsOccurrence hdr b then some (u, b) else none

def occurrences (hdrFirst : ℕ+) (hp : Http) (hdr : HeaderName) : List (Nat × CString) :=
  (List.range' hdrFirst (hp.nhd - hdrFirst)).filterMap (occurrenceAt hp hdr)

/-- The entry `get` returns the value of. -/
def returned (hdrFirst : ℕ+) (hp : Http) (hdr : HeaderName) (re : Regex) :
    Option (Nat × CString) :=
  let u := headerHttpFindhdr hdrFirst hp hdr (some re)
  if u = 0 then none else (hp.hd u).map fun b => (u, b)

/-- The first entry whose value the expression matches is the one that is returned, and the
expression has been tried on its value. -/
def Faithful (hdrFirst : ℕ+) (hp : Http) (hdr : HeaderName) (re : Regex) : Prop :=
  returned hdrFirst hp hdr re =
      (occurrences hdrFirst hp hdr).find? (fun o => re (value hdr o.2)) ∧
    ∀ o ∈ returned hdrFirst hp hdr re, shown hdr o.2 = value hdr o.2

variable {hdrFirst : ℕ+} {hp : Http} {hdr : HeaderName} {re : Regex} {b : CString} {u : Nat}

theorem vmodGet_eq : vmodGet hdrFirst hp hdr re =
    (returned hdrFirst hp hdr re).map fun o => value hdr o.2 := by
  unfold vmodGet returned
  dsimp only
  split_ifs
  · rfl
  · rw [Option.map_map]
    rfl

theorem findhdrLoop_eq (re : Option Regex) (n u : Nat) :
    findhdrLoop hp hdr re n u =
      ((List.range' u n).find? fun u => headerHttpMatch hp u re hdr).getD 0 := by
  induction n generalizing u with
  | zero => rfl
  | succ n ih =>
      rw [findhdrLoop, List.range'_succ, List.find?_cons]
      cases headerHttpMatch hp u re hdr with
      | true => rfl
      | false => exact ih (u + 1)

theorem headerHttpMatch_eq (hp : Http) (u : Nat) :
    headerHttpMatch hp u (some re) hdr =
      (occurrenceAt hp hdr u).any fun o => decide (shown hdr o.2 ≠ []) && re (shown hdr o.2) := by
  unfold occurrenceAt
  cases hb : hp.hd u with
  | none => exact headerHttpMatch_of_none hb
  | some b =>
      rw [headerHttpMatch_of_some hb]
      by_cases hocc : IsOccurrence hdr b
      · simp [Matches, hocc]
      · simp [Matches, hocc]

theorem occurrenceAt_eq_some {o : Nat × CString} (h : occurrenceAt hp hdr u = some o) :
    o.1 = u ∧ hp.hd u = some o.2 := by
  obtain ⟨b, hb, hif⟩ := Option.bind_eq_some_iff.mp h
  split_ifs at hif
  obtain rfl := Option.some.inj hif
  exact ⟨rfl, hb⟩

theorem returned_eq : returned hdrFirst hp hdr re =
    (occurrences hdrFirst hp hdr).find? fun o =>
      decide (shown hdr o.2 ≠ []) && re (shown hdr o.2) := by
  rw [returned, headerHttpFindhdr, findhdrLoop_eq, occurrences, List.find?_filterMap]
  simp only [headerHttpMatch_eq]
  cases hfind : (List.range' hdrFirst (hp.nhd - hdrFirst)).find? fun u =>
      (occurrenceAt hp hdr u).any fun o => decide (shown hdr o.2 ≠ []) && re (shown hdr o.2) with
  | none => rfl
  | some u =>
      have hpos : u ≠ 0 := by
        have hmem := List.mem_of_find?_eq_some hfind
        have hfirst := hdrFirst.pos
        rw [List.mem_range'_1] at hmem
        omega
      have hmatch := List.find?_some hfind
      cases hocc : occurrenceAt hp hdr u with
      | none => simp [hocc] at hmatch
      | some o =>
          obtain ⟨hu, hb⟩ := occurrenceAt_eq_some hocc
          simp only [Option.getD_some, hpos, if_false, hb, Option.map_some, Option.bind_some, hocc]
          rw [← hu]

/-- Two searches find the same element, and it is good, just when the first element that
either of them would take is one both take, and good. -/
theorem find?_eq_and_iff {α : Type*} {p q : α → Bool} {good : α → Prop} {l : List α} :
    l.find? p = l.find? q ∧ (∀ x ∈ l.find? p, good x) ↔
      ∀ x ∈ l.find? fun x => p x || q x, p x = true ∧ q x = true ∧ good x := by
  induction l with
  | nil => simp
  | cons x l ih =>
      cases hp : p x with
      | true =>
          cases hq : q x with
          | true => simp [hp, hq]
          | false =>
              simp only [List.find?_cons_of_pos hp, List.find?_cons, hp, hq, Bool.true_or]
              constructor
              · rintro ⟨heq, -⟩
                have hmem := List.find?_some heq.symm
                rw [hq] at hmem
                exact absurd hmem (by decide)
              · intro h
                exact absurd (h x rfl).2.1 (by simp [hq])
      | false =>
          cases hq : q x with
          | true =>
              simp only [List.find?_cons, hp, hq, Bool.false_or]
              constructor
              · rintro ⟨heq, -⟩
                have hmem := List.find?_some heq
                rw [hp] at hmem
                exact absurd hmem (by decide)
              · intro h
                exact absurd (h x rfl).1 (by simp [hp])
          | false =>
              simp only [List.find?_cons, hp, hq, Bool.or_false]
              exact ih

theorem value_eq_dropWhile_shown (hdr : HeaderName) (b : CString) :
    value hdr b = (shown hdr b).dropWhile isblank := by
  unfold value shown
  induction b.drop hdr.what.length with
  | nil => rfl
  | cons c t ih =>
      by_cases hc : c = 32
      · subst hc
        exact ih
      · rw [List.dropWhile_cons_of_neg (p := (· == 32)) (by simpa using hc)]

/-- After the spaces comes a byte that is not a tab. -/
def Plain (hdr : HeaderName) (b : CString) : Prop :=
  ∃ c ∈ (shown hdr b).head?, c ≠ 9

theorem plain_iff : Plain hdr b ↔ value hdr b ≠ [] ∧ shown hdr b = value hdr b := by
  have hvalue := value_eq_dropWhile_shown hdr b
  cases hshown : shown hdr b with
  | nil =>
      rw [hshown] at hvalue
      simp [Plain, hshown, hvalue]
  | cons c t =>
      have hspace : c ≠ 32 := by
        have hhead := List.head?_dropWhile_not (· == 32) (b.drop hdr.what.length)
        rw [show (b.drop hdr.what.length).dropWhile (· == 32) = c :: t from hshown] at hhead
        simpa using hhead
      rw [hshown] at hvalue
      by_cases htab : c = 9
      · have hlength := (List.dropWhile_suffix (l := t) isblank).length_le
        have hdrop : value hdr b = t.dropWhile isblank := by
          rw [hvalue, htab, List.dropWhile_cons_of_pos (by decide)]
        refine iff_of_false (by simp [Plain, hshown, htab]) fun h => ?_
        have heq := congrArg List.length (h.2.trans hdrop)
        rw [List.length_cons] at heq
        omega
      · have hkeep : value hdr b = c :: t := by
          rw [hvalue, List.dropWhile_cons_of_neg (by simp [isblank, hspace, htab])]
        exact iff_of_true ⟨c, by rw [hshown]; rfl, htab⟩ ⟨by simp [hkeep], hkeep.symm⟩

theorem taken_eq (o : Nat × CString) :
    (decide (shown hdr o.2 ≠ []) && re (shown hdr o.2) || re (value hdr o.2)) =
      (re (shown hdr o.2) || re (value hdr o.2)) := by
  by_cases hempty : shown hdr o.2 = []
  · rw [value_eq_dropWhile_shown, hempty]
    simp
  · simp [hempty]

/-- What `get` returns is right just when the first entry on which the expression matches what is
shown to it or the value, if there is one, has a value with no tab before it. -/
theorem faithful_iff (hdrFirst : ℕ+) (hp : Http) (hdr : HeaderName) (re : Regex) :
    vmodGet hdrFirst hp hdr re = (returned hdrFirst hp hdr re).map (fun o => value hdr o.2) ∧
    (Faithful hdrFirst hp hdr re ↔
      ∀ o ∈ (occurrences hdrFirst hp hdr).find?
          (fun o => re (shown hdr o.2) || re (value hdr o.2)), Plain hdr o.2) := by
  refine ⟨vmodGet_eq, ?_⟩
  rw [Faithful, returned_eq, find?_eq_and_iff]
  simp only [taken_eq]
  refine forall₂_congr fun o ho => ?_
  have hmatch := List.find?_some ho
  rw [plain_iff, Bool.and_eq_true, decide_eq_true_eq]
  constructor
  · rintro ⟨⟨hne, -⟩, -, heq⟩
    exact ⟨heq ▸ hne, heq⟩
  · rintro ⟨hne, heq⟩
    rw [heq, Bool.or_self] at hmatch
    rw [heq]
    exact ⟨⟨hne, hmatch⟩, hmatch, rfl⟩

/-! One header, with a tab before its value. -/

def foo : HeaderName := ⟨str "foo", by decide, by decide⟩

def oneHeader (b : CString) : Http where
  hd := fun u => if u = 5 then some b else none
  hdf := fun _ => 0
  nhd := 6
  shd := 64

/-- `"^bar"`. -/
def startsWithBar : Regex := fun s => s.take 3 = str "bar"

/-- The anchored expression matches the value, and `get` returns nothing. -/
theorem not_faithful_tab :
    occurrences 5 (oneHeader (str "foo:\tbar")) foo = [(5, str "foo:\tbar")] ∧
      value foo (str "foo:\tbar") = str "bar" ∧ startsWithBar (str "bar") = true ∧
      vmodGet 5 (oneHeader (str "foo:\tbar")) foo startsWithBar = none ∧
      ¬ Faithful 5 (oneHeader (str "foo:\tbar")) foo startsWithBar := by
  refine ⟨by decide +kernel, by decide +kernel, by decide +kernel, by decide +kernel,
    fun h => ?_⟩
  have heq : returned 5 (oneHeader (str "foo:\tbar")) foo startsWithBar = none := by
    decide +kernel
  have hfirst : (occurrences 5 (oneHeader (str "foo:\tbar")) foo).find?
      (fun o => startsWithBar (value foo o.2)) = some (5, str "foo:\tbar") := by
    decide +kernel
  exact absurd (heq.symm.trans (h.1.trans hfirst)) (by simp)

end VarnishModules.HeaderGet
