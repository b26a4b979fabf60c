import Mathlib

/-!
Numbers of type `double`: an exact result is rounded to the nearest one, and to
the one with an even last bit if there are two.

From `2 ^ 1024` on a rounded result stands for the infinity of its sign, which
compares with every finite number in the same way.  Zeros have no sign here.
-/

namespace VarnishModules.Doubles

/-- The nearest integer, the even one of two. -/
def roundEven (x : ℚ) : ℤ :=
  let n := ⌊x⌋
  if x - n < 1 / 2 then n
  else if 1 / 2 < x - n then n + 1
  else if n % 2 = 0 then n
  else n + 1

/-- The exponent of the last bit: 53 bits are kept, down to the least subnormal number. -/
def lastBit (x : ℚ) : ℤ :=
  max (Int.log 2 |x| - 52) (-1074)

def nearest (x : ℚ) : ℚ :=
  roundEven (x / 2 ^ lastBit x) * 2 ^ lastBit x

def IsFinite (x : ℚ) : Prop :=
  |x| < 2 ^ 1024

instance (x : ℚ) : Decidable (IsFinite x) :=
  inferInstanceAs (Decidable (_ < _))

/-- The finite numbers of the type, and those beyond its exponents. -/
def IsDouble (x : ℚ) : Prop :=
  ∃ m e : ℤ, |m| < 2 ^ 53 ∧ -1074 ≤ e ∧ x = m * 2 ^ e

theorem roundEven_intCast (n : ℤ) : roundEven n = n := by
  simp [roundEven]

theorem roundEven_nonneg {x : ℚ} (hx : 0 ≤ x) : 0 ≤ roundEven x := by
  have hfloor : 0 ≤ ⌊x⌋ := Int.floor_nonneg.mpr hx
  simp only [roundEven]
  split_ifs <;> omega

theorem nearest_nonneg {x : ℚ} (hx : 0 ≤ x) : 0 ≤ nearest x := by
  have hscaled : 0 ≤ roundEven (x / 2 ^ lastBit x) := roundEven_nonneg (by positivity)
  rw [nearest]
  positivity

/-- A number with few enough bits ends at or before the last bit that is kept. -/
theorem lastBit_le {m e : ℤ} (hm : |m| < 2 ^ 53) (he : -1074 ≤ e) (hne : m ≠ 0) :
    lastBit (m * 2 ^ e) ≤ e := by
  have hpos : (0 : ℚ) < |(m : ℚ) * 2 ^ e| := by positivity
  have hlt : |(m : ℚ) * 2 ^ e| < (2 : ℕ) ^ (53 + e) := by
    rw [abs_mul, abs_of_pos (zpow_pos (by norm_num : (0 : ℚ) < 2) e), Nat.cast_ofNat,
      zpow_add₀ (by norm_num)]
    have hcast : |(m : ℚ)| < 2 ^ (53 : ℤ) := by exact_mod_cast hm
    exact mul_lt_mul_of_pos_right hcast (by positivity)
  have hlog := (Int.lt_zpow_iff_log_lt (by norm_num : 1 < 2) hpos).mp hlt
  exact max_le (by omega) he

/-- What is a double is not rounded. -/
theorem nearest_of_isDouble {x : ℚ} (hx : IsDouble x) : nearest x = x := by
  obtain ⟨m, e, hm, he, rfl⟩ := hx
  rcases eq_or_ne m 0 with rfl | hne
  · simp [nearest, roundEven]
  · obtain ⟨j, hj⟩ := Int.eq_ofNat_of_zero_le (sub_nonneg.mpr (lastBit_le hm he hne))
    have hexp : (2 : ℚ) ^ e = 2 ^ j * 2 ^ lastBit (m * 2 ^ e) := by
      rw [← zpow_natCast, ← zpow_add₀ (by norm_num), ← hj, sub_add_cancel]
    have hscaled : (m : ℚ) * 2 ^ e / 2 ^ lastBit (m * 2 ^ e) = ((m * 2 ^ j : ℤ) : ℚ) := by
      rw [div_eq_iff (by positivity), Int.cast_mul, Int.cast_pow, Int.cast_ofNat, mul_assoc,
        ← hexp]
    rw [nearest, hscaled, roundEven_intCast, ← hscaled, div_mul_cancel₀ _ (by positivity)]

end VarnishModules.Doubles
