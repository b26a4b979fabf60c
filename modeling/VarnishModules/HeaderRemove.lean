import VarnishModules.HeaderGet

/-!
What `remove` leaves of the headers.

The loop moves what it keeps to the front, over what it has read already.
-/

namespace VarnishModules.HeaderRemove

open VarnishModules.CStrings
open VarnishModules.HeaderModel
open VarnishModules.HeaderGet

/-- The entries at the places from `u` on, each with its flags. -/
def entriesFrom (hp : Http) (u n : Nat) : List (Option CString × UInt8) :=
  (List.range' u n).map fun i => (hp.hd i, hp.hdf i)

def entries (hdrFirst : ℕ+) (hp : Http) : List (Option CString × UInt8) :=
  entriesFrom hp hdrFirst (hp.nhd - hdrFirst)

/-- The entry is there, and it is not one to remove. -/
def kept (hdr : HeaderName) (re : Option Regex) (e : Option CString × UInt8) : Bool :=
  e.1.any fun b => ¬ Matches re hdr b

variable {hdrFirst : ℕ+} {hp hp' : Http} {hdr : HeaderName} {re : Option Regex} {n u v : Nat}

theorem entriesFrom_succ :
    entriesFrom hp u (n + 1) = (hp.hd u, hp.hdf u) :: entriesFrom hp (u + 1) n := by
  rw [entriesFrom, List.range'_succ]
  rfl

theorem entriesFrom_congr
    (h : ∀ i, u ≤ i → i < u + n → hp'.hd i = hp.hd i ∧ hp'.hdf i = hp.hdf i) :
    entriesFrom hp' u n = entriesFrom hp u n := by
  apply List.map_congr_left
  intro i hi
  obtain ⟨hle, hlt⟩ := List.mem_range'_1.mp hi
  rw [(h i hle hlt).1, (h i hle hlt).2]

/-- What the rest of the loop leaves of the entries it still has to read. -/
structure Compacts (hdr : HeaderName) (re : Option Regex) (n u v : Nat) (hp hp' : Http) :
    Prop where
  nhd : hp'.nhd = v + ((entriesFrom hp u n).filter (kept hdr re)).length
  shd : hp'.shd = hp.shd
  before : ∀ i < v, hp'.hd i = hp.hd i ∧ hp'.hdf i = hp.hdf i
  moved : entriesFrom hp' v (hp'.nhd - v) = (entriesFrom hp u n).filter (kept hdr re)

theorem Compacts.skip (hkept : kept hdr re (hp.hd u, hp.hdf u) = false)
    (h : Compacts hdr re n (u + 1) v hp hp') : Compacts hdr re (n + 1) u v hp hp' := by
  have hfilter : (entriesFrom hp u (n + 1)).filter (kept hdr re) =
      (entriesFrom hp (u + 1) n).filter (kept hdr re) := by
    rw [entriesFrom_succ, List.filter_cons_of_neg (by simp [hkept])]
  exact ⟨hfilter ▸ h.nhd, h.shd, h.before, hfilter ▸ h.moved⟩

/-- The entry at `u` has been moved to `v`. -/
theorem Compacts.keep {hp₁ : Http} (hle : v ≤ u) (hkept : kept hdr re (hp.hd u, hp.hdf u) = true)
    (hshd : hp₁.shd = hp.shd) (hv : hp₁.hd v = hp.hd u ∧ hp₁.hdf v = hp.hdf u)
    (hother : ∀ i, i ≠ v → hp₁.hd i = hp.hd i ∧ hp₁.hdf i = hp.hdf i)
    (h : Compacts hdr re n (u + 1) (v + 1) hp₁ hp') : Compacts hdr re (n + 1) u v hp hp' := by
  have hrest : entriesFrom hp₁ (u + 1) n = entriesFrom hp (u + 1) n :=
    entriesFrom_congr fun i hi _ => hother i (by omega)
  have hfilter : (entriesFrom hp u (n + 1)).filter (kept hdr re) =
      (hp.hd u, hp.hdf u) :: (entriesFrom hp₁ (u + 1) n).filter (kept hdr re) := by
    rw [entriesFrom_succ, List.filter_cons_of_pos hkept, hrest]
  have hnhd := h.nhd
  have hlast := h.before v (Nat.lt_succ_self v)
  refine ⟨?_, h.shd.trans hshd, fun i hi => ?_, ?_⟩
  · rw [hfilter, List.length_cons]
    omega
  · have hbefore := h.before i (by omega)
    have hsame := hother i (by omega)
    exact ⟨hbefore.1.trans hsame.1, hbefore.2.trans hsame.2⟩
  · have hcount : hp'.nhd - v = (hp'.nhd - (v + 1)) + 1 := by omega
    rw [hcount, entriesFrom_succ, h.moved, hfilter, hlast.1, hlast.2, hv.1, hv.2]

theorem unsetLoop_spec (hp : Http) (hdr : HeaderName) (re : Option Regex) (n : Nat) (hle : v ≤ u) :
    Compacts hdr re n u v hp (unsetLoop hdr re n u v hp) := by
  induction n generalizing u v hp with
  | zero =>
      refine ⟨rfl, rfl, fun i _ => ⟨rfl, rfl⟩, ?_⟩
      simp [unsetLoop, entriesFrom]
  | succ n ih =>
      rw [unsetLoop]
      cases hb : hp.hd u with
      | none =>
          rw [if_pos rfl]
          exact (ih _ (by omega)).skip (by simp [kept, hb])
      | some b =>
          rw [if_neg (by simp), headerHttpMatch_of_some hb]
          by_cases hmatch : Matches re hdr b
          · rw [if_pos (by simpa using hmatch)]
            exact (ih _ (by omega)).skip (by simp [kept, hb, hmatch])
          · have hkept : kept hdr re (hp.hd u, hp.hdf u) = true := by simp [kept, hb, hmatch]
            rw [if_neg (by simpa using hmatch)]
            split_ifs with hvu
            · refine .keep hle hkept ?_ ?_ ?_ (ih _ (by omega))
              · rfl
              · simp [hb]
              · intro i hi
                simp [hi]
            · obtain rfl : v = u := not_not.mp hvu
              exact .keep hle hkept rfl ⟨rfl, rfl⟩ (fun _ _ => ⟨rfl, rfl⟩) (ih _ (by omega))

theorem unsetLoop_of_forall (h : ∀ e ∈ entriesFrom hp u n, kept hdr re e = true) :
    unsetLoop hdr re n u u hp = { hp with nhd := u + n } := by
  induction n generalizing u with
  | zero => rfl
  | succ n ih =>
      rw [entriesFrom_succ, List.forall_mem_cons] at h
      obtain ⟨hkept, hrest⟩ := h
      cases hb : hp.hd u with
      | none => simp [kept, hb] at hkept
      | some b =>
          have hmatch : ¬ Matches re hdr b := by simpa [kept, hb] using hkept
          rw [unsetLoop, if_neg (by simp [hb]), headerHttpMatch_of_some hb,
            if_neg (by simpa using hmatch), if_neg (by simp), ih hrest]
          simp only [Nat.add_assoc, Nat.add_comm 1]

/-- What is left is neither found by `get` nor removed by another `remove`. -/
theorem vmodGet_of_forall {re : Regex}
    (h : ∀ e ∈ entries hdrFirst hp, kept hdr (some re) e = true) :
    vmodGet hdrFirst hp hdr re = none := by
  have hnone : headerHttpFindhdr hdrFirst hp hdr (some re) = 0 := by
    rw [headerHttpFindhdr, findhdrLoop_eq, List.find?_eq_none.mpr]
    · rfl
    · intro u hu
      have hkept := h _ (List.mem_map_of_mem hu)
      cases hb : hp.hd u with
      | none => simp [headerHttpMatch_of_none hb]
      | some b =>
          rw [headerHttpMatch_of_some hb]
          simpa [kept, hb] using hkept
  rw [vmodGet, hnone]
  rfl

theorem vmodRemove_of_forall {re : Regex} (hfirst : hdrFirst ≤ hp.nhd)
    (h : ∀ e ∈ entries hdrFirst hp, kept hdr (some re) e = true) :
    vmodRemove hdrFirst hp hdr re = hp := by
  rw [vmodRemove, headerHttpUnset, unsetLoop_of_forall h, Nat.add_sub_cancel' hfirst]

/-- `remove` leaves the entries before the first header alone and keeps, in their order and with
their flags, the entries that are there and do not match. -/
theorem remove_exact (hdrFirst : ℕ+) (hp : Http) (hdr : HeaderName) (re : Regex) :
    ∃ hp', hp' = vmodRemove hdrFirst hp hdr re ∧
      (∀ i < (hdrFirst : Nat), hp'.hd i = hp.hd i ∧ hp'.hdf i = hp.hdf i) ∧
      entries hdrFirst hp' = (entries hdrFirst hp).filter (kept hdr (some re)) ∧
      hp'.nhd = hdrFirst + (entries hdrFirst hp').length ∧ hp'.shd = hp.shd ∧
      vmodGet hdrFirst hp' hdr re = none ∧ vmodRemove hdrFirst hp' hdr re = hp' := by
  obtain ⟨hnhd, hshd, hbefore, hmoved⟩ :=
    unsetLoop_spec hp hdr (some re) (hp.nhd - hdrFirst) (le_refl (hdrFirst : Nat))
  have hkept : ∀ e ∈ entries hdrFirst (vmodRemove hdrFirst hp hdr re),
      kept hdr (some re) e = true := by
    intro e he
    rw [entries, vmodRemove, headerHttpUnset, hmoved] at he
    exact (List.mem_filter.mp he).2
  have hlength : (vmodRemove hdrFirst hp hdr re).nhd =
      hdrFirst + (entries hdrFirst (vmodRemove hdrFirst hp hdr re)).length := by
    rw [entries, vmodRemove, headerHttpUnset, hmoved]
    exact hnhd
  refine ⟨_, rfl, hbefore, hmoved, hlength, hshd, vmodGet_of_forall hkept, ?_⟩
  apply vmodRemove_of_forall _ hkept
  omega

end VarnishModules.HeaderRemove
