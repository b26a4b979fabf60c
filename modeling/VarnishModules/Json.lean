import VarnishModules.CStrings

/-!
JSON texts, by their grammar: the value a text stands for.

The values are strings, arrays and objects; strings are without escapes.
-/

namespace VarnishModules.Json

open VarnishModules.CStrings

inductive Value
  | string (s : CString)
  | array (vs : List Value)
  | object (ms : List (CString × Value))

/-- The bytes stand for themselves between quotation marks. -/
def IsPlain (s : CString) : Prop :=
  ∀ c ∈ s, 32 ≤ c ∧ c < 127 ∧ c ≠ 34 ∧ c ≠ 92

def IsSpace (w : CString) : Prop :=
  ∀ c ∈ w, c = 32 ∨ c = 9 ∨ c = 10 ∨ c = 13

instance (s : CString) : Decidable (IsPlain s) :=
  inferInstanceAs (Decidable (∀ c ∈ s, _))

instance (w : CString) : Decidable (IsSpace w) :=
  inferInstanceAs (Decidable (∀ c ∈ w, _))

def quote (s : CString) : CString :=
  str "\"" ++ s ++ str "\""

mutual

/-- Space is allowed around every value. -/
inductive Denotes : CString → Value → Prop
  | string {s : CString} (hs : IsPlain s) : Denotes (quote s) (.string s)
  | emptyArray {w : CString} (hw : IsSpace w) : Denotes (str "[" ++ w ++ str "]") (.array [])
  | array {t : CString} {vs : List Value} (h : Elements t vs) :
      Denotes (str "[" ++ t ++ str "]") (.array vs)
  | emptyObject {w : CString} (hw : IsSpace w) :
      Denotes (str "\x7b" ++ w ++ str "\x7d") (.object [])
  | object {t : CString} {ms : List (CString × Value)} (h : Members t ms) :
      Denotes (str "\x7b" ++ t ++ str "\x7d") (.object ms)
  | space {w t w' : CString} {v : Value} (hw : IsSpace w) (h : Denotes t v) (hw' : IsSpace w') :
      Denotes (w ++ t ++ w') v

inductive Elements : CString → List Value → Prop
  | one {t : CString} {v : Value} (h : Denotes t v) : Elements t [v]
  | cons {t ts : CString} {v : Value} {vs : List Value} (h : Denotes t v)
      (hs : Elements ts vs) : Elements (t ++ str "," ++ ts) (v :: vs)

inductive Members : CString → List (CString × Value) → Prop
  | one {t : CString} {m : CString × Value} (h : Member t m) : Members t [m]
  | cons {t ts : CString} {m : CString × Value} {ms : List (CString × Value)} (h : Member t m)
      (hs : Members ts ms) : Members (t ++ str "," ++ ts) (m :: ms)

inductive Member : CString → CString × Value → Prop
  | mk {w k w' t : CString} {v : Value} (hw : IsSpace w) (hk : IsPlain k) (hw' : IsSpace w')
      (h : Denotes t v) : Member (w ++ quote k ++ w' ++ str ":" ++ t) (k, v)

end

variable {w w' s s' k t t' : CString} {v : Value}

theorem IsSpace.append (hw : IsSpace w) (hw' : IsSpace w') : IsSpace (w ++ w') :=
  fun c hc => (List.mem_append.mp hc).elim (hw c) (hw' c)

theorem isSpace_nil : IsSpace [] :=
  List.forall_mem_nil _

/-- A member whose value is a string. -/
theorem member_string (hw : IsSpace w) (hk : IsPlain k) (hs : IsPlain s) (hw' : IsSpace w') :
    Member (w ++ quote k ++ str ": " ++ quote s ++ w') (k, .string s) := by
  have hvalue : Denotes (str " " ++ quote s ++ w') (.string s) :=
    .space (by decide +kernel) (.string hs) hw'
  have hcolon : str ": " = str ":" ++ str " " := by decide
  have hmember := Member.mk hw hk isSpace_nil hvalue
  simp only [hcolon, List.append_assoc, List.nil_append] at hmember ⊢
  exact hmember

/-- The digits of a number. -/
def decimal (n : Nat) : CString :=
  (Nat.toDigits 10 n).map Char.toUInt8

theorem isPlain_decimal (n : Nat) : IsPlain (decimal n) := by
  intro c hc
  obtain ⟨d, hd, rfl⟩ := List.mem_map.mp hc
  have hdigit : d.isDigit = true := Nat.isDigit_of_mem_toDigits (by decide) (by decide) hd
  simp only [Char.isDigit, ge_iff_le, Bool.and_eq_true, decide_eq_true_eq,
    UInt32.le_iff_toNat_le] at hdigit
  have htoNat : d.toUInt8.toNat = d.val.toNat % 2 ^ 8 := UInt32.toNat_toUInt8 d.val
  have hlow : '0'.val.toNat = 48 := rfl
  have hhigh : '9'.val.toNat = 57 := rfl
  simp only [UInt8.le_iff_toNat_le, UInt8.lt_iff_toNat_lt, ne_eq, ← UInt8.toNat_inj, htoNat]
  simp only [UInt8.reduceToNat]
  omega

end VarnishModules.Json
