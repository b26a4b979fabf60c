import Mathlib

/-!
The 32-byte digests of `vsha256.h`, ordered as `memcmp` orders them.
-/

namespace VarnishModules

structure Digest where
  bytes : List UInt8
  length_eq : bytes.length = 32
  deriving DecidableEq

namespace Digest

theorem byteValues_injective :
    Function.Injective fun d : Digest => d.bytes.map UInt8.toNat := by
  rintro ⟨xs, hxs⟩ ⟨ys, hys⟩ h
  obtain rfl : xs = ys :=
    List.map_injective_iff.mpr (fun _ _ => UInt8.toNat_inj.mp) h
  rfl

/-- `memcmp` compares the bytes as unsigned numbers, the first one first. -/
instance : LinearOrder Digest :=
  LinearOrder.lift' (fun d => d.bytes.map UInt8.toNat) byteValues_injective

/-- A key cleared by `memset`. -/
def zero : Digest := ⟨List.replicate 32 0, by simp⟩

/-- `digest[0]`. -/
def head (d : Digest) : UInt8 := d.bytes.headD 0

/-- The sign of the first difference between two arrays of the same length. -/
def memcmp : List UInt8 → List UInt8 → Int
  | x :: xs, y :: ys => if x = y then memcmp xs ys else (x.toNat : Int) - y.toNat
  | _, _ => 0

variable {xs ys : List UInt8}

/-- `memcmp` orders arrays as lists of numbers are ordered. -/
theorem memcmp_bytes (h : xs.length = ys.length) :
    (memcmp xs ys < 0 ↔ xs.map UInt8.toNat < ys.map UInt8.toNat) ∧
      (0 < memcmp xs ys ↔ ys.map UInt8.toNat < xs.map UInt8.toNat) := by
  induction xs generalizing ys with
  | nil =>
      cases ys with
      | nil => simp [memcmp]
      | cons y ys => simp at h
  | cons x xs ih =>
      cases ys with
      | nil => simp at h
      | cons y ys =>
          simp only [memcmp, List.map_cons, List.cons_lt_cons_iff]
          by_cases hxy : x = y
          · subst hxy
            simpa using ih (by simpa using h)
          · have hne : x.toNat ≠ y.toNat := fun heq => hxy (UInt8.toNat_inj.mp heq)
            simp only [hxy, ↓reduceIte, hne, hne.symm, false_and, or_false]
            omega

theorem memcmp_spec (d d' : Digest) :
    (memcmp d.bytes d'.bytes < 0 ↔ d < d') ∧ (0 < memcmp d.bytes d'.bytes ↔ d' < d) :=
  memcmp_bytes (d.length_eq.trans d'.length_eq.symm)

end Digest

end VarnishModules
