import VarnishModules.CookieModel

/-!
What `vmod_parse` stores, against the grammar of a cookie header.

The scanner reads up to the next `=`, also over semicolons, so pieces without an
`=` become part of the name that follows them.
-/

namespace VarnishModules.CookieParse

open VarnishModules.CStrings
open VarnishModules.CookieModel

/-! The scanner. -/

def strip (s : CString) : CString :=
  s.dropWhile isspace

/-- What stands before each `=` the scanner finds, and the value behind it. -/
def scan (p : CString) : List (CString × CString) :=
  match _hsep : strchr p equals with
  | none => []
  | some sep =>
      (p.takeWhile (· != equals), sep.tail.takeWhile (· != semicolon)) ::
        match _hrest : sep.tail.dropWhile (· != semicolon) with
        | [] => []
        | _ :: rest => scan rest
termination_by p.length
decreasing_by
  have hsep := strchr_length _hsep
  have hrest := (List.dropWhile_suffix (l := sep.tail) (· != semicolon)).length_le
  rw [_hrest] at hrest
  simp only [List.length_cons, List.length_tail] at hrest
  omega

variable {lead value rest p s : CString} {c : UInt8}

theorem takeWhile_append (hs : c ∉ s) : (s ++ c :: rest).takeWhile (· != c) = s := by
  have hall : ∀ x ∈ s, (x != c) = true := fun x hx => by
    simpa using fun heq : x = c => hs (heq ▸ hx)
  rw [List.takeWhile_append_of_pos hall]
  simp

theorem dropWhile_append (hs : c ∉ s) : (s ++ c :: rest).dropWhile (· != c) = c :: rest := by
  have hall : ∀ x ∈ s, (x != c) = true := fun x hx => by
    simpa using fun heq : x = c => hs (heq ▸ hx)
  rw [List.dropWhile_append_of_pos hall]
  simp

theorem takeWhile_eq (hs : c ∉ s) : s.takeWhile (· != c) = s :=
  List.takeWhile_eq_self_iff.mpr fun x hx => by simpa using fun heq : x = c => hs (heq ▸ hx)

theorem dropWhile_eq (hs : c ∉ s) : s.dropWhile (· != c) = [] :=
  List.dropWhile_eq_nil_iff.mpr fun x hx => by simpa using fun heq : x = c => hs (heq ▸ hx)

/-- A string is cut at its first `=`, and what follows at its first semicolon. -/
theorem scan_induction {P : CString → Prop} (hnone : ∀ p, equals ∉ p → P p)
    (hlast : ∀ lead value, equals ∉ lead → semicolon ∉ value → P (lead ++ equals :: value))
    (hcons : ∀ lead value rest, equals ∉ lead → semicolon ∉ value → P rest →
      P (lead ++ equals :: (value ++ semicolon :: rest))) (p : CString) : P p := by
  induction hn : p.length using Nat.strong_induction_on generalizing p with
  | _ n ih =>
    by_cases hp : equals ∈ p
    · obtain ⟨lead, tail, rfl, hlead⟩ := List.eq_append_cons_of_mem hp
      by_cases htail : semicolon ∈ tail
      · obtain ⟨value, rest, rfl, hvalue⟩ := List.eq_append_cons_of_mem htail
        refine hcons lead value rest hlead hvalue (ih rest.length ?_ rest rfl)
        simp only [List.length_append, List.length_cons] at hn
        omega
      · exact hlast lead tail hlead htail
    · exact hnone p hp

theorem scan_none (hp : equals ∉ p) : scan p = [] := by
  rw [scan]
  split
  · rfl
  · next heq =>
      rw [strchr_of_not_mem hp] at heq
      simp at heq

theorem scan_last (hlead : equals ∉ lead) (hvalue : semicolon ∉ value) :
    scan (lead ++ equals :: value) = [(lead, value)] := by
  rw [scan]
  split
  · next heq =>
      rw [strchr_append hlead] at heq
      simp at heq
  · next sep heq =>
      rw [strchr_append hlead] at heq
      obtain rfl := Option.some.inj heq
      rw [takeWhile_append hlead, List.tail_cons, takeWhile_eq hvalue]
      split
      · rfl
      · next heq =>
          rw [dropWhile_eq hvalue] at heq
          simp at heq

theorem scan_cons (hlead : equals ∉ lead) (hvalue : semicolon ∉ value) :
    scan (lead ++ equals :: (value ++ semicolon :: rest)) = (lead, value) :: scan rest := by
  rw [scan]
  split
  · next heq =>
      rw [strchr_append hlead] at heq
      simp at heq
  · next sep heq =>
      rw [strchr_append hlead] at heq
      obtain rfl := Option.some.inj heq
      rw [takeWhile_append hlead, List.tail_cons, takeWhile_append hvalue]
      split
      · next heq =>
          rw [dropWhile_append hvalue] at heq
          simp at heq
      · next heq =>
          rw [dropWhile_append hvalue] at heq
          obtain ⟨-, rfl⟩ := List.cons.inj heq
          rfl

theorem strip_append_equals : strip (s ++ equals :: rest) = strip s ++ equals :: rest := by
  induction s with
  | nil => rfl
  | cons x s ih =>
      by_cases hx : isspace x = true
      · simpa [strip, hx] using ih
      · simp [strip, hx]

theorem not_mem_strip (hs : c ∉ s) : c ∉ strip s :=
  fun hc => hs ((List.dropWhile_sublist isspace).mem hc)

theorem parseLoop_eq (p : CString) (i : Nat) (t : Task) :
    parseLoop p i t = (i + (scan p).length,
      (scan p).foldl (fun t nv => vmodSet t (some (strip nv.1)) (some nv.2)) t) := by
  induction p using scan_induction generalizing i t with
  | hnone p hp =>
      have hstrip : strchr (p.dropWhile isspace) equals = none :=
        strchr_of_not_mem (not_mem_strip hp)
      rw [parseLoop, scan_none hp]
      split
      · rfl
      · split
        · rfl
        · next heq =>
            rw [hstrip] at heq
            simp at heq
  | hlast lead value hlead hvalue =>
      have hdrop : (lead ++ equals :: value).dropWhile isspace = strip lead ++ equals :: value :=
        strip_append_equals
      have hstrip : strchr (strip lead ++ equals :: value) equals = some (equals :: value) :=
        strchr_append (not_mem_strip hlead)
      rw [parseLoop, scan_last hlead hvalue, if_neg (by simp), hdrop]
      split
      · next heq =>
          rw [hstrip] at heq
          simp at heq
      · next sep heq =>
          rw [hstrip] at heq
          obtain rfl := Option.some.inj heq
          rw [takeWhile_append (not_mem_strip hlead), List.tail_cons, takeWhile_eq hvalue]
          split
          · rfl
          · next heq =>
              rw [dropWhile_eq hvalue] at heq
              simp at heq
  | hcons lead value rest hlead hvalue ih =>
      have hdrop : (lead ++ equals :: (value ++ semicolon :: rest)).dropWhile isspace =
          strip lead ++ equals :: (value ++ semicolon :: rest) := strip_append_equals
      have hstrip : strchr (strip lead ++ equals :: (value ++ semicolon :: rest)) equals =
          some (equals :: (value ++ semicolon :: rest)) := strchr_append (not_mem_strip hlead)
      rw [parseLoop, scan_cons hlead hvalue, if_neg (by simp), hdrop]
      split
      · next heq =>
          rw [hstrip] at heq
          simp at heq
      · next sep heq =>
          rw [hstrip] at heq
          obtain rfl := Option.some.inj heq
          rw [takeWhile_append (not_mem_strip hlead), List.tail_cons, takeWhile_append hvalue]
          split
          · next heq =>
              rw [dropWhile_append hvalue] at heq
              simp at heq
          · next heq =>
              rw [dropWhile_append hvalue] at heq
              obtain ⟨-, rfl⟩ := List.cons.inj heq
              rw [ih, List.length_cons, List.foldl_cons]
              congr 1
              omega

end VarnishModules.CookieParse
