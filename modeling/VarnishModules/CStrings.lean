import Mathlib

/-!
C strings, as the bytes before the terminating zero, and the functions of
`ctype.h` and `string.h` on them in the C locale.
-/

namespace VarnishModules.CStrings

abbrev CString := List UInt8

def str (s : String) : CString :=
  s.toList.map Char.toUInt8

def isblank (c : UInt8) : Bool :=
  c == 32 || c == 9

def isspace (c : UInt8) : Bool :=
  c == 32 || (9 ≤ c && c ≤ 13)

def tolower (c : UInt8) : UInt8 :=
  if 65 ≤ c ∧ c ≤ 90 then c + 32 else c

/-- The part of the string from the first `c` on. -/
def strchr (s : CString) (c : UInt8) : Option CString :=
  match s.dropWhile (· != c) with
  | [] => none
  | t => some t

def strncasecmp : CString → CString → Nat → Int
  | _, _, 0 => 0
  | [], [], _ + 1 => 0
  | [], b :: _, _ + 1 => -(tolower b).toNat
  | a :: _, [], _ + 1 => (tolower a).toNat
  | a :: as, b :: bs, n + 1 =>
      if tolower a = tolower b then strncasecmp as bs n
      else (tolower a).toNat - (tolower b).toNat

theorem tolower_ne_zero {c : UInt8} (hc : c ≠ 0) : tolower c ≠ 0 := by
  unfold tolower
  split
  · rename_i hletter
    intro h
    have h₁ := UInt8.le_iff_toNat_le.mp hletter.1
    have h₂ := UInt8.le_iff_toNat_le.mp hletter.2
    have h₃ := congrArg UInt8.toNat h
    simp at h₁ h₂ h₃
    omega
  · exact hc

theorem strncasecmp_eq_zero_iff {s t : CString} (ht : (0 : UInt8) ∉ t) :
    strncasecmp s t t.length = 0 ↔ (s.take t.length).map tolower = t.map tolower := by
  induction t generalizing s with
  | nil => simp [strncasecmp]
  | cons b t ih =>
      obtain ⟨hb, ht'⟩ : b ≠ 0 ∧ (0 : UInt8) ∉ t := by
        simpa [eq_comm] using ht
      cases s with
      | nil =>
          have hne := tolower_ne_zero hb
          simp only [strncasecmp, List.length_cons, List.take_nil, List.map_nil, List.map_cons]
          constructor
          · intro h
            have hzero : (tolower b).toNat = 0 := by omega
            exact absurd (UInt8.toNat_inj.mp (by simpa using hzero)) hne
          · intro h
            exact absurd h (by simp)
      | cons a s =>
          by_cases hab : tolower a = tolower b
          · simp [strncasecmp, hab, ih ht']
          · have hne : (tolower a).toNat ≠ (tolower b).toNat := fun h =>
              hab (UInt8.toNat_inj.mp h)
            simp only [strncasecmp, List.length_cons, hab, if_false, List.take_succ_cons,
              List.map_cons, List.cons.injEq, false_and, iff_false]
            omega

theorem strncasecmp_comm (s t : CString) (n : Nat) :
    strncasecmp s t n = -strncasecmp t s n := by
  induction n generalizing s t with
  | zero => simp [strncasecmp]
  | succ n ih =>
      cases s with
      | nil => cases t <;> simp [strncasecmp]
      | cons a s =>
          cases t with
          | nil => simp [strncasecmp]
          | cons b t =>
              by_cases hab : tolower a = tolower b
              · simp only [strncasecmp, hab, if_true]
                exact ih s t
              · simp only [strncasecmp, hab, Ne.symm hab, if_false]
                omega

theorem strchr_append {s t : CString} {c : UInt8} (hc : c ∉ s) :
    strchr (s ++ c :: t) c = some (c :: t) := by
  have hall : ∀ x ∈ s, (x != c) = true := by
    intro x hx
    simpa using fun heq : x = c => hc (heq ▸ hx)
  have hdrop : (s ++ c :: t).dropWhile (· != c) = c :: t := by
    rw [List.dropWhile_append_of_pos hall]
    simp
  simp [strchr, hdrop]

theorem strchr_of_not_mem {s : CString} {c : UInt8} (hc : c ∉ s) : strchr s c = none := by
  have hdrop : s.dropWhile (· != c) = [] :=
    List.dropWhile_eq_nil_iff.mpr fun x hx => by simpa using fun heq : x = c => hc (heq ▸ hx)
  simp [strchr, hdrop]

theorem strchr_length {s t : CString} {c : UInt8} (h : strchr s c = some t) :
    t.length ≤ s.length ∧ t ≠ [] := by
  unfold strchr at h
  split at h
  · simp at h
  · next hne =>
      obtain rfl := Option.some.inj h
      exact ⟨(List.dropWhile_suffix _).length_le, hne⟩

end VarnishModules.CStrings
