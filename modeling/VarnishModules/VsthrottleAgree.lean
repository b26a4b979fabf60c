import VarnishModules.VsthrottleCell

/-!
Buckets that no later call can tell apart.

A full bucket is as good as another one, and as none, if they have the same block.
-/

namespace VarnishModules.VsthrottleAgree

open VarnishModules.TokenBucket
open VarnishModules.VsthrottleModel
open VarnishModules.VsthrottleStore
open VarnishModules.VsthrottleCell

def blockOf (x : Option Tbucket) : ℚ :=
  x.elim 0 Tbucket.block

/-- A refill at `t` or later fills the bucket. -/
def Full (limit : ℤ) (t : ℚ) (x : Option Tbucket) : Prop :=
  ∀ b, x = some b → limit ≤ b.tokens + refill b t

/-- Both cells are full, and a collection releases both or none of them, unless there
is no block to lose. -/
structure BothFull (k : Tuple) (t : ℚ) (x y : Option Tbucket) : Prop where
  left : Full k.limit.toInt t x
  right : Full k.limit.toInt t y
  block : blockOf x = blockOf y
  lastUsed : blockOf x ≠ 0 → x.map Tbucket.lastUsed = y.map Tbucket.lastUsed

def Agree (k : Tuple) (t : ℚ) (x y : Option Tbucket) : Prop :=
  x = y ∨ BothFull k t x y

variable {d : Digest} {k : Tuple} {t now : ℚ} {x y : Option Tbucket} {b : Tbucket}

theorem refill_mono {limit : ℤ} {period : ℚ} (hlimit : 0 ≤ limit) (hperiod : 0 < period)
    (hb : Fits limit period t b) (ht : t ≤ now) : refill b t ≤ refill b now := by
  rw [(hb.refill_eq hlimit hperiod (le_refl t)).1, (hb.refill_eq hlimit hperiod ht).1]
  have hcast : (0 : ℚ) ≤ limit := by exact_mod_cast hlimit
  gcongr

theorem full_none {limit : ℤ} : Full limit t none := nofun

theorem full_tbAlloc {limit : ℤ} {period : ℚ} :
    Full limit now (some (tbAlloc d limit period now)) := by
  intro b hb
  obtain rfl := Option.some.inj hb
  simp [tbAlloc, refill, toLong]

theorem Full.mono (hlimit : 0 ≤ k.limit.toInt) (hperiod : 0 < k.period) (hx : CellFits d k t x)
    (h : Full k.limit.toInt t x) (ht : t ≤ now) : Full k.limit.toInt now x := by
  intro b hb
  have hgain := refill_mono hlimit hperiod (hx b hb).toFits ht
  have hfull := h b hb
  omega

theorem full_of_expired (hlimit : 0 ≤ k.limit.toInt) (hperiod : 0 < k.period)
    (hb : Holds d k now b) (h : expired now b = true) : Full k.limit.toInt now (some b) := by
  intro b' hb'
  obtain rfl := Option.some.inj hb'
  have hgain := hb.le_refill_of_expired hlimit hperiod h
  have hnonneg := hb.nonneg
  omega

theorem BothFull.symm (h : BothFull k t x y) : BothFull k t y x :=
  ⟨h.right, h.left, h.block.symm, fun hy => (h.lastUsed (h.block ▸ hy)).symm⟩

theorem Agree.symm (h : Agree k t x y) : Agree k t y x :=
  h.imp Eq.symm BothFull.symm

theorem Agree.block (h : Agree k t x y) : blockOf x = blockOf y := by
  rcases h with rfl | h
  · rfl
  · exact h.block

theorem Agree.mono (hlimit : 0 ≤ k.limit.toInt) (hperiod : 0 < k.period) (hx : CellFits d k t x)
    (hy : CellFits d k t y) (h : Agree k t x y) (ht : t ≤ now) : Agree k now x y :=
  h.imp_right fun h => { h with
    left := h.left.mono hlimit hperiod hx ht
    right := h.right.mono hlimit hperiod hy ht }

theorem agree_none (h : Full k.limit.toInt t x) (hblock : blockOf x = 0) : Agree k t none x :=
  Or.inr ⟨full_none, h, hblock.symm, fun hne => absurd rfl hne⟩

theorem Agree.sweep_left (hlimit : 0 ≤ k.limit.toInt) (hperiod : 0 < k.period)
    (hx : CellFits d k now x) (h : Agree k now x y) (hblock : blockOf x = 0) (collects : Bool) :
    Agree k now (sweep collects now x) y := by
  rcases sweep_cases collects now x with heq | ⟨-, hnone, b, rfl, hb⟩
  · rwa [heq]
  · rw [hnone]
    refine agree_none ?_ (h.block.symm.trans hblock)
    rcases h with rfl | h
    · exact full_of_expired hlimit hperiod (hx b rfl) hb
    · exact h.right

theorem Agree.sweep (hlimit : 0 ≤ k.limit.toInt) (hperiod : 0 < k.period)
    (hx : CellFits d k now x) (hy : CellFits d k now y) (h : Agree k now x y) (collects : Bool) :
    Agree k now (sweep collects now x) (sweep collects now y) := by
  by_cases hblock : blockOf x = 0
  · have hleft := h.sweep_left hlimit hperiod hx hblock collects
    exact (hleft.symm.sweep_left hlimit hperiod hy (h.block ▸ hblock) collects).symm
  · rcases h with rfl | h
    · exact Or.inl rfl
    · cases x with
      | none => exact absurd rfl hblock
      | some b =>
          cases y with
          | none => exact absurd h.block hblock
          | some b' =>
              have hlast : b.lastUsed = b'.lastUsed := Option.some.inj (h.lastUsed hblock)
              have hexpired : expired now b = expired now b' := by
                rw [expired, expired, (hx b rfl).period, (hy b' rfl).period, hlast]
              cases collects with
              | false => exact Or.inr h
              | true =>
                  simp only [VsthrottleCell.sweep, if_true, Option.filter_some, hexpired]
                  split
                  · exact Or.inr h
                  · exact Or.inl rfl

/-! Calls on buckets that agree. -/

theorem Agree.fetch_left (h : Agree k now x y) : Agree k now (some (fetch d k x now)) y := by
  cases x with
  | some b => exact h
  | none =>
      rcases h with rfl | h
      · exact (agree_none full_tbAlloc rfl).symm
      · exact Or.inr ⟨full_tbAlloc, h.right, h.block, fun hne => absurd rfl hne⟩

theorem Agree.fetch (h : Agree k now x y) :
    Agree k now (some (fetch d k x now)) (some (fetch d k y now)) :=
  h.fetch_left.symm.fetch_left.symm

theorem refilled_tokens_of_full (hb : Holds d k now b) (h : Full k.limit.toInt now (some b)) :
    (refilled b now).tokens = k.limit.toInt := by
  rw [refilled, hb.capacity]
  exact min_eq_left (h b rfl)

theorem full_refilled (hlimit : 0 ≤ k.limit.toInt) (hperiod : 0 < k.period)
    (hb : Holds d k now b) (h : Full k.limit.toInt now (some b)) :
    Full k.limit.toInt now (some (refilled b now)) := by
  intro b' hb'
  obtain rfl := Option.some.inj hb'
  have hgain : 0 ≤ refill b now := (hb.refill_eq hlimit hperiod (le_refl now)).2
  have hsame : refill (refilled b now) now = refill b now := rfl
  rw [refilled_tokens_of_full hb h, hsame]
  omega

/-- Two full buckets differ in the time of their last use only. -/
theorem refilled_of_bothFull {b' : Tbucket} (hb : Holds d k now b) (hb' : Holds d k now b')
    (h : BothFull k now (some b) (some b')) :
    refilled b' now = { refilled b now with lastUsed := b'.lastUsed } := by
  have htokens := (refilled_tokens_of_full hb' h.right).trans
    (refilled_tokens_of_full hb h.left).symm
  have hblock : b.block = b'.block := h.block
  have hdigest := hb'.digest.trans hb.digest.symm
  have hperiod := hb'.period.trans hb.period.symm
  have hcapacity := hb'.capacity.trans hb.capacity.symm
  have hrefilled : ∀ x, refilled x now = ⟨x.digest, x.lastUsed, x.period, x.block,
      (refilled x now).tokens, x.capacity⟩ := fun _ => rfl
  rw [hrefilled b', hrefilled b, htokens, hdigest, hperiod, hcapacity, hblock]

/-- A bucket with a token is used, whenever it was used before. -/
theorem denyBucket_congr_lastUsed {block : ℚ} (htokens : 0 < b.tokens) (last : ℚ) :
    denyBucket { b with lastUsed := last } block now = denyBucket b block now := by
  by_cases hblocked : 0 < block ∧ now < b.block
  · rw [denyBucket_blocked hblocked]
    exact denyBucket_blocked hblocked
  · rw [denyBucket_admitted hblocked htokens]
    exact denyBucket_admitted hblocked htokens

theorem denyBucket_of_limit_zero {block : ℚ} (htokens : b.tokens = 0) (hblock : block ≤ 0) :
    denyBucket b block now = (true, b) := by
  rw [denyBucket_empty (fun h => absurd h.1 (not_lt.mpr hblock)) (by omega),
    if_neg (not_lt.mpr hblock)]

theorem BothFull.refilled {b' : Tbucket} (hlimit : 0 ≤ k.limit.toInt) (hperiod : 0 < k.period)
    (hb : Holds d k now b) (hb' : Holds d k now b') (h : BothFull k now (some b) (some b')) :
    BothFull k now (some (refilled b now)) (some (refilled b' now)) :=
  ⟨full_refilled hlimit hperiod hb h.left, full_refilled hlimit hperiod hb' h.right, h.block,
    h.lastUsed⟩

theorem Agree.applyOp (hlimit : 0 ≤ k.limit.toInt) (hperiod : 0 < k.period)
    (hx : CellFits d k now x) (hy : CellFits d k now y) (h : Agree k now x y)
    (hvisible : 0 < k.limit.toInt ∨ k.block ≤ 0) (op : Op) :
    (applyOp k.block (VsthrottleCell.fetch d k x now) op now).1 =
        (applyOp k.block (VsthrottleCell.fetch d k y now) op now).1 ∧
      Agree k now (some (applyOp k.block (VsthrottleCell.fetch d k x now) op now).2)
        (some (applyOp k.block (VsthrottleCell.fetch d k y now) op now).2) := by
  have hb := hx.fetch hlimit
  have hb' := hy.fetch hlimit
  rcases h.fetch (d := d) with heq | hfull
  · rw [Option.some.inj heq]
    exact ⟨rfl, Or.inl rfl⟩
  · generalize VsthrottleCell.fetch d k x now = b at *
    generalize VsthrottleCell.fetch d k y now = b' at *
    have hrefilled := refilled_of_bothFull hb hb' hfull
    have htokens := refilled_tokens_of_full hb hfull.left
    have hblock : b.block = b'.block := hfull.block
    cases op with
    | isDenied =>
        by_cases hpositive : 0 < k.limit.toInt
        · have hdeny : denyBucket { refilled b now with lastUsed := b'.lastUsed } k.block now =
              denyBucket (refilled b now) k.block now :=
            denyBucket_congr_lastUsed (htokens ▸ hpositive) b'.lastUsed
          simp only [VsthrottleCell.applyOp, hrefilled, hdeny]
          exact ⟨trivial, Or.inl rfl⟩
        · have hzero : k.limit.toInt = 0 := by omega
          have hnever := hvisible.resolve_left hpositive
          have htokens' := refilled_tokens_of_full hb' hfull.right
          simp only [VsthrottleCell.applyOp,
            denyBucket_of_limit_zero (htokens.trans hzero) hnever,
            denyBucket_of_limit_zero (htokens'.trans hzero) hnever]
          exact ⟨trivial, Or.inr (hfull.refilled hlimit hperiod hb hb')⟩
    | remaining =>
        refine ⟨?_, Or.inr (hfull.refilled hlimit hperiod hb hb')⟩
        simp only [VsthrottleCell.applyOp, hrefilled]
    | blocked =>
        refine ⟨?_, Or.inr hfull⟩
        simp only [VsthrottleCell.applyOp, hblock]

/-- A refill on one side that adds nothing, or that fills the bucket. -/
theorem Agree.refill_left (hlimit : 0 ≤ k.limit.toInt) (hperiod : 0 < k.period)
    (hb : Holds d k now b) (h : Agree k now (some b) y)
    (hharmless : refill b now = 0 ∨ b.capacity ≤ b.tokens + refill b now) :
    Agree k now (some (refilled b now)) y := by
  have hfull : b.capacity ≤ b.tokens + refill b now → Full k.limit.toInt now (some b) := by
    intro hle b' hb'
    obtain rfl := Option.some.inj hb'
    rwa [← hb.capacity]
  rcases h with rfl | h
  · rcases hharmless with hzero | hle
    · have htokens : min b.capacity (b.tokens + refill b now) = b.tokens := by
        rw [hzero, add_zero, hb.capacity]
        exact min_eq_right hb.le
      rw [TokenBucket.refilled, htokens]
      exact Or.inl rfl
    · exact Or.inr ⟨full_refilled hlimit hperiod hb (hfull hle), hfull hle, rfl, fun _ => rfl⟩
  · exact Or.inr ⟨full_refilled hlimit hperiod hb h.left, h.right, h.block, h.lastUsed⟩

end VarnishModules.VsthrottleAgree
