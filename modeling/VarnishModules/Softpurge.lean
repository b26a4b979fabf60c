import Mathlib.Algebra.Order.Field.Rat
import Mathlib.Data.List.Nodup
import Mathlib.Data.PNat.Defs
import Mathlib.Tactic

/-!
`vmod_softpurge.c`: the objcores of an object head, collected and then rearmed.

Pointers to objcores and to object heads are taken from two types, and the memory behind
the objcores is a function.  `EXP_Rearm` and `HSH_DerefObjCore` are parameters.
-/

namespace VarnishModules.Softpurge

inductive Method
  | hit
  | miss
  | other
  deriving DecidableEq

/-- The flags `OC_F_BUSY` and `DYING`, wherever they are kept, and the rest of what is read. -/
structure Objcore (H : Type*) where
  busy : Bool
  dying : Bool
  objhead : H
  refcnt : Nat
  grace : ℚ
  keep : ℚ

structure Objhead (O : Type*) where
  objcs : List O
  refcnt : Nat
  /-- No objcore is on the queue twice. -/
  nodup : objcs.Nodup

structure RearmCall (O : Type*) where
  objcore : O
  now : ℚ
  ttl : ℚ
  grace : ℚ
  keep : ℚ
  deriving DecidableEq

section

variable {O H : Type*} [DecidableEq O] [DecidableEq H] (sizeofPtr : ℕ+)

/-- `oc->refcnt++` -/
def takeRef (objcores : O → Objcore H) (oc : O) : O → Objcore H :=
  Function.update objcores oc { objcores oc with refcnt := (objcores oc).refcnt + 1 }

/-- The loop over `oh->objcs`, with `spc` bytes of workspace left and the pointers written to
it so far. -/
def collectLoop (oh : H) : List O → Nat → (O → Objcore H) → List O →
    Option ((O → Objcore H) × List O)
  | [], _, objcores, ocp => some (objcores, ocp)
  | oc :: objcs, spc, objcores, ocp =>
      if (objcores oc).objhead ≠ oh then none
      else if (objcores oc).busy then collectLoop oh objcs spc objcores ocp
      else if (objcores oc).dying then collectLoop oh objcs spc objcores ocp
      else if spc < sizeofPtr then some (objcores, ocp)
      else collectLoop oh objcs (spc - sizeofPtr) (takeRef objcores oc) (ocp ++ [oc])

variable (expRearm : (O → Objcore H) → O → ℚ → ℚ → ℚ → ℚ → O → Objcore H)
  (hshDerefObjCore : (O → Objcore H) → O → O → Objcore H)

def rearmLoop (now : ℚ) : List O → (O → Objcore H) → List (RearmCall O) →
    (O → Objcore H) × List (RearmCall O)
  | [], objcores, calls => (objcores, calls)
  | oc :: ocp, objcores, calls =>
      let grace := (objcores oc).grace
      let keep := (objcores oc).keep
      let objcores := hshDerefObjCore (expRearm objcores oc now 0 grace keep) oc
      rearmLoop now ocp objcores (calls ++ [⟨oc, now, 0, grace, keep⟩])

/-- The objcores and the calls of `EXP_Rearm`, or `none` where an assertion fails. -/
def vmodSoftpurge (method : Method) (heads : H → Objhead O) (oh : H) (spc : Nat) (now : ℚ)
    (objcores : O → Objcore H) : Option ((O → Objcore H) × List (RearmCall O)) :=
  if method ≠ .hit ∧ method ≠ .miss then some (objcores, [])
  else if spc < sizeofPtr then none
  else if (heads oh).refcnt = 0 then none
  else
    (collectLoop sizeofPtr oh (heads oh).objcs spc objcores []).map fun r =>
      rearmLoop expRearm hshDerefObjCore now r.2 r.1 []

end

/-- What is done to one objcore is done to no other. -/
def TouchesOnly {O H : Type*} (f : (O → Objcore H) → O → O → Objcore H) : Prop :=
  ∀ objcores oc oc', oc' ≠ oc → f objcores oc oc' = objcores oc'

/-- One call for each objcore of the head that is neither busy nor dying, with its own grace and
keep, and none for any other. -/
structure ReachesAll {O H : Type*} [DecidableEq O] (objcs : List O) (objcores : O → Objcore H)
    (now : ℚ) (calls : List (RearmCall O)) : Prop where
  once : ∀ oc, (calls.map (·.objcore)).count oc =
    if oc ∈ objcs ∧ (objcores oc).busy = false ∧ (objcores oc).dying = false then 1 else 0
  own : ∀ c ∈ calls,
    c = ⟨c.objcore, now, 0, (objcores c.objcore).grace, (objcores c.objcore).keep⟩

def candidates {O H : Type*} (objcores : O → Objcore H) (objcs : List O) : List O :=
  objcs.filter fun oc => !(objcores oc).busy && !(objcores oc).dying

section

variable {O H : Type*} {sizeofPtr : ℕ+} {oh : H}
  {objcs ocp : List O} {objcores : O → Objcore H} {oc oc' : O} {spc : Nat} {now : ℚ}
  {calls : List (RearmCall O)}

theorem mem_candidates :
    oc ∈ candidates objcores objcs ↔
      oc ∈ objcs ∧ (objcores oc).busy = false ∧ (objcores oc).dying = false := by
  simp [candidates]

theorem rearmLoop_calls (now : ℚ) (objcores : O → Objcore H) (calls : List (RearmCall O))
    {expRearm : (O → Objcore H) → O → ℚ → ℚ → ℚ → ℚ → O → Objcore H}
    {hshDerefObjCore : (O → Objcore H) → O → O → Objcore H}
    (hrearm : ∀ now ttl grace keep, TouchesOnly fun objcores oc =>
      expRearm objcores oc now ttl grace keep)
    (hderef : TouchesOnly hshDerefObjCore) (hnodup : ocp.Nodup) :
    (rearmLoop expRearm hshDerefObjCore now ocp objcores calls).2 =
      calls ++ ocp.map fun oc => ⟨oc, now, 0, (objcores oc).grace, (objcores oc).keep⟩ := by
  induction ocp generalizing objcores calls with
  | nil => simp [rearmLoop]
  | cons oc ocp ih =>
      obtain ⟨hoc, hnodup⟩ := List.nodup_cons.mp hnodup
      rw [rearmLoop, ih _ _ hnodup, List.map_cons, List.append_assoc, List.singleton_append]
      congr 2
      apply List.map_congr_left
      intro oc' hoc'
      have hne : oc' ≠ oc := ne_of_mem_of_not_mem hoc' hoc
      have hkeep := hrearm now 0 (objcores oc).grace (objcores oc).keep objcores oc oc' hne
      dsimp only at hkeep ⊢
      rw [hderef _ _ _ hne, hkeep]

variable [DecidableEq O]

theorem takeRef_apply :
    takeRef objcores oc oc' =
      { objcores oc' with refcnt := (takeRef objcores oc oc').refcnt } := by
  unfold takeRef
  rcases eq_or_ne oc' oc with rfl | hne
  · rw [Function.update_self]
  · rw [Function.update_of_ne hne]

@[simp] theorem takeRef_busy : (takeRef objcores oc oc').busy = (objcores oc').busy := by
  rw [takeRef_apply]

@[simp] theorem takeRef_dying : (takeRef objcores oc oc').dying = (objcores oc').dying := by
  rw [takeRef_apply]

@[simp] theorem takeRef_objhead : (takeRef objcores oc oc').objhead = (objcores oc').objhead := by
  rw [takeRef_apply]

@[simp] theorem takeRef_grace : (takeRef objcores oc oc').grace = (objcores oc').grace := by
  rw [takeRef_apply]

@[simp] theorem takeRef_keep : (takeRef objcores oc oc').keep = (objcores oc').keep := by
  rw [takeRef_apply]

theorem takeRef_forall :
    (∀ oc' ∈ objcs, (takeRef objcores oc oc').objhead = oh) ↔
      ∀ oc' ∈ objcs, (objcores oc').objhead = oh := by
  simp

theorem candidates_takeRef :
    candidates (takeRef objcores oc) objcs = candidates objcores objcs := by
  simp [candidates]

/-- As many of the candidates as there is room for are collected. -/
theorem collectLoop_eq [DecidableEq H] (sizeofPtr : ℕ+) (spc : Nat) (ocp : List O)
    (hobjhead : ∀ oc ∈ objcs, (objcores oc).objhead = oh) :
    ∃ objcores', collectLoop sizeofPtr oh objcs spc objcores ocp =
        some (objcores', ocp ++ (candidates objcores objcs).take (spc / sizeofPtr)) ∧
      ∀ oc, (objcores' oc).grace = (objcores oc).grace ∧
        (objcores' oc).keep = (objcores oc).keep := by
  induction objcs generalizing spc objcores ocp with
  | nil => exact ⟨objcores, by simp [collectLoop, candidates], fun _ => ⟨rfl, rfl⟩⟩
  | cons oc objcs ih =>
      obtain ⟨hoc, hobjhead⟩ := List.forall_mem_cons.mp hobjhead
      rw [collectLoop, if_neg (not_not.mpr hoc)]
      cases hbusy : (objcores oc).busy with
      | true => simpa [candidates, hbusy] using ih spc ocp hobjhead
      | false =>
          cases hdying : (objcores oc).dying with
          | true => simpa [candidates, hdying] using ih spc ocp hobjhead
          | false =>
              have hcons : candidates objcores (oc :: objcs) =
                  oc :: candidates objcores objcs :=
                List.filter_cons_of_pos (by simp [hbusy, hdying])
              rw [if_neg (by simp), if_neg (by simp), hcons]
              split_ifs with hspc
              · rw [Nat.div_eq_of_lt hspc]
                exact ⟨objcores, by simp, fun _ => ⟨rfl, rfl⟩⟩
              · obtain ⟨objcores', hloop, hsame⟩ :=
                  ih (spc - sizeofPtr) (ocp ++ [oc]) (takeRef_forall.mpr hobjhead)
                rw [hloop, candidates_takeRef,
                  Nat.div_eq_sub_div sizeofPtr.pos (Nat.le_of_not_lt hspc), List.take_succ_cons,
                  List.append_assoc, List.singleton_append]
                simp only [takeRef_grace, takeRef_keep] at hsame
                exact ⟨objcores', rfl, hsame⟩

theorem reachesAll_map_iff :
    ReachesAll objcs objcores now
        (ocp.map fun oc => ⟨oc, now, 0, (objcores oc).grace, (objcores oc).keep⟩) ↔
      ∀ oc, ocp.count oc = if oc ∈ candidates objcores objcs then 1 else 0 := by
  have hmap : (ocp.map fun oc => (⟨oc, now, 0, (objcores oc).grace, (objcores oc).keep⟩ :
      RearmCall O)).map (·.objcore) = ocp := by
    rw [List.map_map]
    exact List.map_id _
  constructor
  · intro h oc
    have honce := h.once oc
    rw [hmap] at honce
    simpa only [mem_candidates] using honce
  · intro h
    refine ⟨fun oc => ?_, fun c hc => ?_⟩
    · rw [hmap]
      simpa only [mem_candidates] using h oc
    · obtain ⟨oc, -, rfl⟩ := List.mem_map.mp hc
      rfl

/-- A part of a list has all of it only if it is all of it. -/
theorem count_take_iff {l : List O} (hnodup : l.Nodup) (n : Nat) :
    (∀ a, (l.take n).count a = if a ∈ l then 1 else 0) ↔ l.length ≤ n := by
  constructor
  · intro h
    have hsubset : l ⊆ l.take n := by
      intro a ha
      have hcount := h a
      rw [if_pos ha] at hcount
      exact List.count_pos_iff.mp (by omega)
    have hlength := (List.subperm_of_subset hnodup hsubset).length_le
    rw [List.length_take] at hlength
    omega
  · intro h a
    rw [List.take_of_length_le h, hnodup.count]

end

/-- A soft purge reaches each of its candidates just when the workspace has room for a pointer to
each of them. -/
theorem reachesAll_iff {O H : Type*} [DecidableEq O] [DecidableEq H] (sizeofPtr : ℕ+)
    (expRearm : (O → Objcore H) → O → ℚ → ℚ → ℚ → ℚ → O → Objcore H)
    (hshDerefObjCore : (O → Objcore H) → O → O → Objcore H)
    (hrearm : ∀ now ttl grace keep, TouchesOnly fun objcores oc =>
      expRearm objcores oc now ttl grace keep)
    (hderef : TouchesOnly hshDerefObjCore) (method : Method) (heads : H → Objhead O) (oh : H)
    (spc : Nat) (now : ℚ) (objcores : O → Objcore H) (hmethod : method = .hit ∨ method = .miss)
    (hspc : sizeofPtr ≤ spc) (hrefcnt : 0 < (heads oh).refcnt)
    (hobjhead : ∀ oc ∈ (heads oh).objcs, (objcores oc).objhead = oh) :
    ∃ objcores' calls,
      vmodSoftpurge sizeofPtr expRearm hshDerefObjCore method heads oh spc now objcores =
        some (objcores', calls) ∧
      (ReachesAll (heads oh).objcs objcores now calls ↔
        (candidates objcores (heads oh).objcs).length * sizeofPtr ≤ spc) := by
  obtain ⟨objcores₁, hcollect, hsame⟩ :=
    collectLoop_eq sizeofPtr spc [] hobjhead
  rw [List.nil_append] at hcollect
  have hnodup : (candidates objcores (heads oh).objcs).Nodup := (heads oh).nodup.filter _
  have hcalls := rearmLoop_calls now objcores₁ [] hrearm hderef
    (hnodup.sublist (List.take_sublist (spc / sizeofPtr) _))
  simp only [hsame, List.nil_append] at hcalls
  have hresult : vmodSoftpurge sizeofPtr expRearm hshDerefObjCore method heads oh spc now
      objcores = some (rearmLoop expRearm hshDerefObjCore now
        ((candidates objcores (heads oh).objcs).take (spc / sizeofPtr)) objcores₁ []) := by
    have hvalid : ¬ (method ≠ .hit ∧ method ≠ .miss) := by
      rintro ⟨hhit, hmiss⟩
      exact hmethod.elim hhit hmiss
    rw [vmodSoftpurge, if_neg hvalid, if_neg (by omega), if_neg (by omega), hcollect,
      Option.map_some]
  refine ⟨_, _, hresult, ?_⟩
  rw [hcalls, reachesAll_map_iff, count_take_iff hnodup, Nat.le_div_iff_mul_le sizeofPtr.pos]

/-! Four variants of one object, the pointers to them being the first numbers.  One is busy and
one is dying. -/

def variants : Objhead Nat := ⟨[0, 1, 2, 3], 1, by decide⟩

def fresh : Nat → Objcore Unit := fun oc => ⟨oc = 1, oc = 2, (), 1, 10, 60⟩

def setExp (objcores : Nat → Objcore Unit) (oc : Nat) (_now _ttl grace keep : ℚ) :
    Nat → Objcore Unit :=
  Function.update objcores oc { objcores oc with grace, keep }

def dropRef (objcores : Nat → Objcore Unit) (oc : Nat) : Nat → Objcore Unit :=
  Function.update objcores oc { objcores oc with refcnt := (objcores oc).refcnt - 1 }

theorem setExp_touchesOnly (now ttl grace keep : ℚ) :
    TouchesOnly fun objcores oc => setExp objcores oc now ttl grace keep :=
  fun _ _ _ hne => Function.update_of_ne hne _ _

theorem dropRef_touchesOnly : TouchesOnly dropRef :=
  fun _ _ _ hne => Function.update_of_ne hne _ _

theorem reachesAll_iff_twoPointers : ∃ objcores' calls,
    vmodSoftpurge 8 setExp dropRef .hit (fun _ => variants) () 16 5 fresh =
        some (objcores', calls) ∧
      calls.map (·.objcore) = [0, 3] ∧ ReachesAll [0, 1, 2, 3] fresh 5 calls := by
  obtain ⟨objcores', calls, hcall, hiff⟩ := reachesAll_iff 8 setExp dropRef setExp_touchesOnly
    dropRef_touchesOnly .hit (fun _ => variants) () 16 5 fresh (.inl rfl) (by decide) (by decide)
    (fun _ _ => rfl)
  have hcalls : (vmodSoftpurge 8 setExp dropRef .hit (fun _ => variants) () 16 5 fresh).map
      (fun r => r.2.map (·.objcore)) = some [0, 3] := by
    decide +kernel
  rw [hcall] at hcalls
  exact ⟨objcores', calls, hcall, Option.some.inj hcalls, hiff.mpr (by decide)⟩

/-- With room for one pointer the last variant is left as it is. -/
theorem not_reachesAll_onePointer : ∃ objcores' calls,
    vmodSoftpurge 8 setExp dropRef .hit (fun _ => variants) () 8 5 fresh =
        some (objcores', calls) ∧
      calls = [⟨0, 5, 0, 10, 60⟩] ∧ ¬ ReachesAll [0, 1, 2, 3] fresh 5 calls := by
  refine ⟨_, _, rfl, by decide +kernel, fun h => ?_⟩
  exact absurd (h.once 3) (by decide +kernel)

end VarnishModules.Softpurge
