import VarnishModules.Softpurge

/-!
The references that `vmod_softpurge` takes and drops, and the workspace it reserves.

`vmodSoftpurgeTrace` is the function of `Softpurge` with everything it does on the way.
-/

namespace VarnishModules.SoftpurgeRefs

open VarnishModules.Softpurge

inductive Effect (O : Type*)
  | reserve
  | lock
  | ref (oc : O)
  | write (nobj : Nat) (oc : O)
  | unlock
  | rearm (call : RearmCall O)
  | deref (oc : O)
  | release
  deriving DecidableEq

/-- The entries of the array in the workspace. -/
def written {O : Type*} (trace : List (Effect O)) : List O :=
  trace.filterMap fun
    | .write _ oc => some oc
    | _ => none

def rearmed {O : Type*} (trace : List (Effect O)) : List (RearmCall O) :=
  trace.filterMap fun
    | .rearm call => some call
    | _ => none

section

variable {O H : Type*} [DecidableEq O] [DecidableEq H] (sizeofPtr : ℕ+)

def collectTrace (oh : H) : List O → Nat → (O → Objcore H) → List O → List (Effect O) →
    Option ((O → Objcore H) × List O × List (Effect O))
  | [], _, objcores, ocp, trace => some (objcores, ocp, trace)
  | oc :: objcs, spc, objcores, ocp, trace =>
      if (objcores oc).objhead ≠ oh then none
      else if (objcores oc).busy then collectTrace oh objcs spc objcores ocp trace
      else if (objcores oc).dying then collectTrace oh objcs spc objcores ocp trace
      else if spc < sizeofPtr then some (objcores, ocp, trace)
      else collectTrace oh objcs (spc - sizeofPtr) (takeRef objcores oc) (ocp ++ [oc])
        (trace ++ [.ref oc, .write ocp.length oc])

variable (expRearm : (O → Objcore H) → O → ℚ → ℚ → ℚ → ℚ → O → Objcore H)
  (hshDerefObjCore : (O → Objcore H) → O → O → Objcore H)

def rearmTrace (now : ℚ) : List O → (O → Objcore H) → List (Effect O) →
    (O → Objcore H) × List (Effect O)
  | [], objcores, trace => (objcores, trace)
  | oc :: ocp, objcores, trace =>
      let grace := (objcores oc).grace
      let keep := (objcores oc).keep
      let objcores := hshDerefObjCore (expRearm objcores oc now 0 grace keep) oc
      rearmTrace now ocp objcores (trace ++ [.rearm ⟨oc, now, 0, grace, keep⟩, .deref oc])

/-- The objcores and all effects, or `none` where an assertion fails. -/
def vmodSoftpurgeTrace (method : Method) (heads : H → Objhead O) (oh : H) (spc : Nat) (now : ℚ)
    (objcores : O → Objcore H) : Option ((O → Objcore H) × List (Effect O)) :=
  if method ≠ .hit ∧ method ≠ .miss then some (objcores, [])
  else if spc < sizeofPtr then none
  else if (heads oh).refcnt = 0 then none
  else
    (collectTrace sizeofPtr oh (heads oh).objcs spc objcores [] [.reserve, .lock]).map fun r =>
      let (objcores, trace) :=
        rearmTrace expRearm hshDerefObjCore now r.2.1 r.1 (r.2.2 ++ [.unlock])
      (objcores, trace ++ [.release])

end

/-- What a call takes it gives back. -/
structure Balanced {O H : Type*} [DecidableEq O] (sizeofPtr : ℕ+) (spc : Nat)
    (objcores objcores' : O → Objcore H) (trace : List (Effect O)) : Prop where
  room : (written trace).length ≤ spc / sizeofPtr
  inside : ∀ i oc, Effect.write i oc ∈ trace → i < spc / sizeofPtr
  ref : ∀ oc, trace.count (.ref oc) = if oc ∈ written trace then 1 else 0
  deref : ∀ oc, trace.count (.deref oc) = if oc ∈ written trace then 1 else 0
  alive : ∀ oc ∈ written trace, (objcores oc).busy = false ∧ (objcores oc).dying = false
  released : trace = [] ∨ ∃ body, trace = [.reserve] ++ body ++ [.release] ∧
    .reserve ∉ body ∧ .release ∉ body
  refcnt : ∀ oc, 0 < (objcores oc).refcnt → (objcores' oc).refcnt = (objcores oc).refcnt

/-- What the first loop does with the objcores it records. -/
def collected {O : Type*} : List O → Nat → List (Effect O)
  | [], _ => []
  | oc :: ocp, nobj => .ref oc :: .write nobj oc :: collected ocp (nobj + 1)

/-- What the second loop does for its calls. -/
def dropped {O : Type*} : List (RearmCall O) → List (Effect O)
  | [] => []
  | call :: calls => .rearm call :: .deref call.objcore :: dropped calls

/-- The effects of a call that records `ocp`. -/
def effects {O : Type*} (ocp : List O) (calls : List (RearmCall O)) : List (Effect O) :=
  [.reserve] ++ ([.lock] ++ collected ocp 0 ++ [.unlock] ++ dropped calls) ++ [.release]

section

variable {O : Type*} {trace trace' : List (Effect O)} {ocp : List O} {oc : O}

@[simp] theorem written_append :
    written (trace ++ trace') = written trace ++ written trace' :=
  List.filterMap_append

@[simp] theorem rearmed_append :
    rearmed (trace ++ trace') = rearmed trace ++ rearmed trace' :=
  List.filterMap_append

@[simp] theorem written_collected (nobj : Nat) : written (collected ocp nobj) = ocp := by
  induction ocp generalizing nobj with
  | nil => rfl
  | cons oc ocp ih => exact congrArg (oc :: ·) (ih (nobj + 1))

@[simp] theorem rearmed_collected (nobj : Nat) : rearmed (collected ocp nobj) = [] := by
  induction ocp generalizing nobj with
  | nil => rfl
  | cons oc ocp ih => exact ih (nobj + 1)

@[simp] theorem written_dropped (calls : List (RearmCall O)) : written (dropped calls) = [] := by
  induction calls with
  | nil => rfl
  | cons call calls ih => exact ih

@[simp] theorem rearmed_dropped (calls : List (RearmCall O)) :
    rearmed (dropped calls) = calls := by
  induction calls with
  | nil => rfl
  | cons call calls ih => exact congrArg (call :: ·) ih

theorem mem_collected {nobj : Nat} {e : Effect O} (h : e ∈ collected ocp nobj) :
    (∃ oc, e = .ref oc) ∨ ∃ i oc, e = .write i oc ∧ nobj ≤ i ∧ i < nobj + ocp.length := by
  induction ocp generalizing nobj with
  | nil => exact absurd h (by simp [collected])
  | cons oc ocp ih =>
      rw [collected, List.mem_cons, List.mem_cons] at h
      rcases h with rfl | rfl | h
      · exact Or.inl ⟨oc, rfl⟩
      · exact Or.inr ⟨nobj, oc, rfl, le_refl _, by simp⟩
      · rcases ih h with href | ⟨i, oc', rfl, hle, hlt⟩
        · exact Or.inl href
        · exact Or.inr ⟨i, oc', rfl, by omega, by rw [List.length_cons]; omega⟩

theorem mem_dropped {calls : List (RearmCall O)} {e : Effect O} (h : e ∈ dropped calls) :
    (∃ call, e = .rearm call) ∨ ∃ oc, e = .deref oc := by
  induction calls with
  | nil => exact absurd h (by simp [dropped])
  | cons call calls ih =>
      rw [dropped, List.mem_cons, List.mem_cons] at h
      rcases h with rfl | rfl | h
      · exact Or.inl ⟨call, rfl⟩
      · exact Or.inr ⟨call.objcore, rfl⟩
      · exact ih h

@[simp] theorem written_effects (calls : List (RearmCall O)) :
    written (effects ocp calls) = ocp := by
  rw [effects, written_append, written_append, written_append, written_append, written_append,
    written_collected, written_dropped]
  simp [written]

theorem lt_of_write_mem_effects {calls : List (RearmCall O)} {i : Nat}
    (h : .write i oc ∈ effects ocp calls) : i < ocp.length := by
  simp only [effects, List.mem_append, List.mem_singleton, reduceCtorEq, false_or, or_false] at h
  rcases h with h | h
  · rcases mem_collected h with ⟨oc', heq⟩ | ⟨i', oc', heq, -, hlt⟩
    · exact absurd heq (by simp)
    · obtain ⟨rfl, rfl⟩ := Effect.write.inj heq
      omega
  · rcases mem_dropped h with ⟨call, heq⟩ | ⟨oc', heq⟩
    · exact absurd heq (by simp)
    · exact absurd heq (by simp)

/-- The workspace is reserved first and released last, and only then. -/
theorem exists_effects_eq (ocp : List O) (calls : List (RearmCall O)) :
    ∃ body, effects ocp calls = [.reserve] ++ body ++ [.release] ∧
      .reserve ∉ body ∧ .release ∉ body := by
  have hbody : ∀ e ∈ [.lock] ++ collected ocp 0 ++ [.unlock] ++ dropped calls,
      e ≠ .reserve ∧ e ≠ .release := by
    intro e he
    simp only [List.mem_append, List.mem_singleton] at he
    rcases he with ((rfl | he) | rfl) | he
    · simp
    · rcases mem_collected he with ⟨oc, rfl⟩ | ⟨i, oc, rfl, -, -⟩
      · simp
      · simp
    · simp
    · rcases mem_dropped he with ⟨call, rfl⟩ | ⟨oc, rfl⟩
      · simp
      · simp
  exact ⟨_, rfl, fun h => (hbody _ h).1 rfl, fun h => (hbody _ h).2 rfl⟩

variable [DecidableEq O]

@[simp] theorem count_ref_collected (nobj : Nat) :
    (collected ocp nobj).count (.ref oc) = ocp.count oc := by
  induction ocp generalizing nobj with
  | nil => rfl
  | cons oc' ocp ih => simp [collected, List.count_cons, ih]

@[simp] theorem count_deref_dropped (calls : List (RearmCall O)) :
    (dropped calls).count (.deref oc) = (calls.map (·.objcore)).count oc := by
  induction calls with
  | nil => rfl
  | cons call calls ih => simp [dropped, List.count_cons, ih]

@[simp] theorem count_deref_collected (nobj : Nat) :
    (collected ocp nobj).count (.deref oc) = 0 := by
  refine List.count_eq_zero.mpr fun h => ?_
  rcases mem_collected h with ⟨oc', heq⟩ | ⟨i, oc', heq, -, -⟩
  · exact absurd heq (by simp)
  · exact absurd heq (by simp)

@[simp] theorem count_ref_dropped (calls : List (RearmCall O)) :
    (dropped calls).count (.ref oc) = 0 := by
  refine List.count_eq_zero.mpr fun h => ?_
  rcases mem_dropped h with ⟨call, heq⟩ | ⟨oc', heq⟩
  · exact absurd heq (by simp)
  · exact absurd heq (by simp)

theorem count_ref_effects (calls : List (RearmCall O)) :
    (effects ocp calls).count (.ref oc) = ocp.count oc := by
  simp [effects, List.count_append]

theorem count_deref_effects (calls : List (RearmCall O)) :
    (effects ocp calls).count (.deref oc) = (calls.map (·.objcore)).count oc := by
  simp [effects, List.count_append]

end

section

variable {O H : Type*} [DecidableEq O] [DecidableEq H] {sizeofPtr : ℕ+} {oh : H}
  {objcs ocp ocp' : List O} {objcores objcores' : O → Objcore H} {oc : O} {spc : Nat} {now : ℚ}
  {trace trace' : List (Effect O)}

theorem collectTrace_map (trace : List (Effect O)) :
    (collectTrace sizeofPtr oh objcs spc objcores ocp trace).map (fun r => (r.1, r.2.1)) =
      collectLoop sizeofPtr oh objcs spc objcores ocp := by
  induction objcs generalizing spc objcores ocp trace with
  | nil => rfl
  | cons oc objcs ih =>
      rw [collectTrace, collectLoop]
      split_ifs
      · rfl
      · exact ih _
      · exact ih _
      · rfl
      · exact ih _

/-- The first loop takes a reference for each entry it writes. -/
theorem collectTrace_spec
    (h : collectTrace sizeofPtr oh objcs spc objcores ocp trace = some (objcores', ocp', trace')) :
    ∃ entries, ocp' = ocp ++ entries ∧ trace' = trace ++ collected entries ocp.length ∧
      ∀ oc, (objcores' oc).refcnt = (objcores oc).refcnt + entries.count oc := by
  induction objcs generalizing spc objcores ocp trace with
  | nil =>
      obtain ⟨rfl, rfl, rfl⟩ := by simpa [collectTrace] using h
      exact ⟨[], by simp, by simp [collected], by simp⟩
  | cons oc objcs ih =>
      rw [collectTrace] at h
      split_ifs at h
      · exact ih h
      · exact ih h
      · obtain ⟨rfl, rfl, rfl⟩ := by simpa using h
        exact ⟨[], by simp, by simp [collected], by simp⟩
      · obtain ⟨entries, rfl, rfl, hrefcnt⟩ := ih h
        refine ⟨oc :: entries, by simp, by simp [collected], fun oc' => ?_⟩
        rw [hrefcnt, takeRef, List.count_cons]
        rcases eq_or_ne oc' oc with rfl | hne
        · rw [Function.update_self, beq_self_eq_true, if_pos rfl]
          dsimp only
          omega
        · rw [Function.update_of_ne hne, if_neg (by simpa using hne.symm), Nat.add_zero]

end

section

variable {O H : Type*} {oh : H} {ocp : List O} {objcores : O → Objcore H} {oc : O} {now : ℚ}
  {expRearm : (O → Objcore H) → O → ℚ → ℚ → ℚ → ℚ → O → Objcore H}
  {hshDerefObjCore : (O → Objcore H) → O → O → Objcore H}

variable (expRearm hshDerefObjCore) in
/-- The second loop drops a reference on each entry it reads. -/
theorem rearmTrace_spec (now : ℚ) (ocp : List O) (objcores : O → Objcore H)
    (trace : List (Effect O)) :
    ∃ objcores' calls, rearmTrace expRearm hshDerefObjCore now ocp objcores trace =
        (objcores', trace ++ dropped calls) ∧
      calls.map (·.objcore) = ocp ∧
      ∀ calls', rearmLoop expRearm hshDerefObjCore now ocp objcores calls' =
        (objcores', calls' ++ calls) := by
  induction ocp generalizing objcores trace with
  | nil => exact ⟨objcores, [], by simp [rearmTrace, dropped], rfl, by simp [rearmLoop]⟩
  | cons oc ocp ih =>
      obtain ⟨objcores', calls, htrace, hocp, hloop⟩ := ih
        (hshDerefObjCore (expRearm objcores oc now 0 (objcores oc).grace (objcores oc).keep) oc)
        (trace ++ [.rearm ⟨oc, now, 0, (objcores oc).grace, (objcores oc).keep⟩, .deref oc])
      refine ⟨objcores', ⟨oc, now, 0, (objcores oc).grace, (objcores oc).keep⟩ :: calls, ?_,
        congrArg (oc :: ·) hocp, fun calls' => ?_⟩
      · rw [rearmTrace, htrace, List.append_assoc]
        rfl
      · rw [rearmLoop, hloop, List.append_assoc]
        rfl

variable [DecidableEq O]

theorem rearmLoop_refcnt (now : ℚ) (objcores : O → Objcore H)
    (hrearm : ∀ objcores oc now ttl grace keep oc',
      (expRearm objcores oc now ttl grace keep oc').refcnt = (objcores oc').refcnt)
    (hother : ∀ objcores oc oc', oc' ≠ oc →
      (hshDerefObjCore objcores oc oc').refcnt = (objcores oc').refcnt)
    (hdrop : ∀ objcores oc, 1 < (objcores oc).refcnt →
      (hshDerefObjCore objcores oc oc).refcnt + 1 = (objcores oc).refcnt)
    (calls : List (RearmCall O)) (hnodup : ocp.Nodup) (hoc : oc ∈ ocp → 1 < (objcores oc).refcnt) :
    ((rearmLoop expRearm hshDerefObjCore now ocp objcores calls).1 oc).refcnt + ocp.count oc =
      (objcores oc).refcnt := by
  induction ocp generalizing objcores calls with
  | nil => rfl
  | cons oc' ocp ih =>
      obtain ⟨hmem, hnodup⟩ := List.nodup_cons.mp hnodup
      rw [rearmLoop, List.count_cons]
      rcases eq_or_ne oc' oc with rfl | hne
      · have hrest := ih (hshDerefObjCore (expRearm objcores oc' now 0
          (objcores oc').grace (objcores oc').keep) oc') (calls ++
            [⟨oc', now, 0, (objcores oc').grace, (objcores oc').keep⟩]) hnodup
          fun h => absurd h hmem
        have hone := hdrop (expRearm objcores oc' now 0 (objcores oc').grace (objcores oc').keep)
          oc' (by rw [hrearm]; exact hoc List.mem_cons_self)
        rw [hrearm] at hone
        rw [beq_self_eq_true, if_pos rfl, ← Nat.add_assoc, hrest]
        exact hone
      · have hsame := hother (expRearm objcores oc' now 0 (objcores oc').grace
          (objcores oc').keep) oc' oc hne.symm
        rw [hrearm] at hsame
        rw [if_neg (by simpa using hne), Nat.add_zero, ih _ _ hnodup, hsame]
        intro h
        rw [hsame]
        exact hoc (List.mem_cons_of_mem oc' h)

variable [DecidableEq H] {sizeofPtr : ℕ+}

/-- The traced function is that of `Softpurge`. -/
theorem vmodSoftpurgeTrace_map (method : Method) (heads : H → Objhead O) (oh : H) (spc : Nat)
    (now : ℚ) (objcores : O → Objcore H) :
    (vmodSoftpurgeTrace sizeofPtr expRearm hshDerefObjCore method heads oh spc now objcores).map
        (fun r => (r.1, rearmed r.2)) =
      vmodSoftpurge sizeofPtr expRearm hshDerefObjCore method heads oh spc now objcores := by
  rw [vmodSoftpurgeTrace, vmodSoftpurge]
  split_ifs with hmethod hspc hrefcnt
  · rfl
  · rfl
  · rfl
  · rw [← collectTrace_map [.reserve, .lock]]
    cases hcollect : collectTrace sizeofPtr oh (heads oh).objcs spc objcores []
        [.reserve, .lock] with
    | none => rfl
    | some r =>
        obtain ⟨objcores₁, ocp, trace⟩ := r
        obtain ⟨entries, rfl, rfl, -⟩ := collectTrace_spec hcollect
        obtain ⟨objcores', calls, htrace, -, hloop⟩ := rearmTrace_spec expRearm hshDerefObjCore
          now ocp objcores₁ ([.reserve, .lock] ++ collected ocp 0 ++ [.unlock])
        simp only [Option.map_some, List.length_nil, htrace, hloop, rearmed_append,
          rearmed_collected, rearmed_dropped]
        exact congrArg (fun calls => some (objcores', calls)) (List.append_nil calls)

variable (expRearm hshDerefObjCore) in
/-- The entries are candidates, and as many as there is room for. -/
theorem vmodSoftpurgeTrace_eq (method : Method) (heads : H → Objhead O) (spc : Nat)
    (now : ℚ) (objcores : O → Objcore H) (hmethod : method = .hit ∨ method = .miss)
    (hspc : sizeofPtr ≤ spc) (hrefcnt : 0 < (heads oh).refcnt)
    (hobjhead : ∀ oc ∈ (heads oh).objcs, (objcores oc).objhead = oh) :
    ∃ ocp objcores₁ calls,
      vmodSoftpurgeTrace sizeofPtr expRearm hshDerefObjCore method heads oh spc now objcores =
        some ((rearmLoop expRearm hshDerefObjCore now ocp objcores₁ []).1,
          effects ocp calls) ∧
      ocp = (candidates objcores (heads oh).objcs).take (spc / sizeofPtr) ∧
      calls.map (·.objcore) = ocp ∧
      ∀ oc, (objcores₁ oc).refcnt = (objcores oc).refcnt + ocp.count oc := by
  obtain ⟨objcores₁, hloop, -⟩ := collectLoop_eq sizeofPtr spc [] hobjhead
  rw [List.nil_append] at hloop
  generalize (candidates objcores (heads oh).objcs).take (spc / sizeofPtr) = ocp at hloop ⊢
  have hmap := (collectTrace_map [.reserve, .lock]).trans hloop
  obtain ⟨⟨objcores₂, ocp₂, trace⟩, hcollect, heq⟩ := Option.map_eq_some_iff.mp hmap
  obtain ⟨rfl, rfl⟩ := Prod.mk.inj heq
  obtain ⟨_, rfl, rfl, hrefs⟩ := collectTrace_spec hcollect
  obtain ⟨objcores', calls, htrace, hocp, hrearm⟩ := rearmTrace_spec expRearm hshDerefObjCore now
    ocp₂ objcores₂ ([.reserve, .lock] ++ collected ocp₂ 0 ++ [.unlock])
  refine ⟨ocp₂, objcores₂, calls, ?_, rfl, hocp, hrefs⟩
  have hvalid : ¬ (method ≠ .hit ∧ method ≠ .miss) := by
    rintro ⟨hhit, hmiss⟩
    exact hmethod.elim hhit hmiss
  rw [vmodSoftpurgeTrace, if_neg hvalid, if_neg (by omega), if_neg (by omega), hcollect]
  simp only [Option.map_some, List.length_nil, htrace, hrearm]
  simp [effects]

end

theorem balanced_nil {O H : Type*} [DecidableEq O] (sizeofPtr : ℕ+) (spc : Nat)
    (objcores : O → Objcore H) : Balanced sizeofPtr spc objcores objcores [] where
  room := Nat.zero_le _
  inside _ _ h := absurd h (by simp)
  ref _ := rfl
  deref _ := rfl
  alive _ h := absurd h (by simp [written])
  released := Or.inl rfl
  refcnt _ _ := rfl

/-- For any method, a call takes one reference on each objcore it records, drops it again, and
gives its workspace back. -/
theorem vmodSoftpurge_balanced {O H : Type*} [DecidableEq O] [DecidableEq H] (sizeofPtr : ℕ+)
    (expRearm : (O → Objcore H) → O → ℚ → ℚ → ℚ → ℚ → O → Objcore H)
    (hshDerefObjCore : (O → Objcore H) → O → O → Objcore H)
    (hrearm : ∀ objcores oc now ttl grace keep oc',
      (expRearm objcores oc now ttl grace keep oc').refcnt = (objcores oc').refcnt)
    (hother : ∀ objcores oc oc', oc' ≠ oc →
      (hshDerefObjCore objcores oc oc').refcnt = (objcores oc').refcnt)
    (hdrop : ∀ objcores oc, 1 < (objcores oc).refcnt →
      (hshDerefObjCore objcores oc oc).refcnt + 1 = (objcores oc).refcnt)
    (method : Method) (heads : H → Objhead O) (oh : H) (spc : Nat) (now : ℚ)
    (objcores : O → Objcore H) (hspc : sizeofPtr ≤ spc) (hrefcnt : 0 < (heads oh).refcnt)
    (hobjhead : ∀ oc ∈ (heads oh).objcs, (objcores oc).objhead = oh) :
    ∃ objcores' trace,
      vmodSoftpurgeTrace sizeofPtr expRearm hshDerefObjCore method heads oh spc now objcores =
        some (objcores', trace) ∧
      Balanced sizeofPtr spc objcores objcores' trace := by
  by_cases hmethod : method = .hit ∨ method = .miss
  swap
  · exact ⟨objcores, [], if_pos (not_or.mp hmethod), balanced_nil sizeofPtr spc objcores⟩
  obtain ⟨ocp, objcores₁, calls, htrace, hocp, hcalls, hrefs⟩ :=
    vmodSoftpurgeTrace_eq expRearm hshDerefObjCore method heads spc now objcores hmethod hspc
      hrefcnt hobjhead
  have hnodup : ocp.Nodup := by
    rw [hocp]
    exact ((heads oh).nodup.filter _).sublist (List.take_sublist _ _)
  have hlength : ocp.length ≤ spc / sizeofPtr := by
    rw [hocp]
    exact List.length_take_le _ _
  have hcount : ∀ oc, ocp.count oc = if oc ∈ ocp then 1 else 0 := fun oc => hnodup.count
  refine ⟨_, _, htrace, ?_⟩
  constructor
  case room => rwa [written_effects]
  case inside =>
    intro i oc h
    exact (lt_of_write_mem_effects h).trans_le hlength
  case ref =>
    intro oc
    rw [count_ref_effects, written_effects, hcount]
  case deref =>
    intro oc
    rw [count_deref_effects, written_effects, hcalls, hcount]
  case alive =>
    intro oc h
    rw [written_effects, hocp] at h
    exact (mem_candidates.mp (List.mem_of_mem_take h)).2
  case released =>
    exact Or.inr (exists_effects_eq ocp calls)
  case refcnt =>
    intro oc hoc
    have hpos : oc ∈ ocp → 1 < (objcores₁ oc).refcnt := by
      intro hmem
      rw [hrefs, hcount, if_pos hmem]
      omega
    have hafter := rearmLoop_refcnt now objcores₁ hrearm hother hdrop [] hnodup hpos
    rw [hrefs] at hafter
    exact Nat.add_right_cancel hafter

/-- With room for one pointer there are a busy, a dying and an unrecorded variant. -/
theorem vmodSoftpurge_balanced_onePointer : ∃ objcores' trace,
    vmodSoftpurgeTrace 8 setExp dropRef .hit (fun _ => variants) () 8 5 fresh =
        some (objcores', trace) ∧
      trace = effects [0] [⟨0, 5, 0, 10, 60⟩] ∧ Balanced 8 8 fresh objcores' trace := by
  have hrearm : ∀ objcores oc now ttl grace keep oc',
      (setExp objcores oc now ttl grace keep oc').refcnt = (objcores oc').refcnt := by
    intro objcores oc now ttl grace keep oc'
    rcases eq_or_ne oc' oc with rfl | hne
    · rw [setExp, Function.update_self]
    · rw [setExp, Function.update_of_ne hne]
  have hdrop : ∀ objcores oc, 1 < (objcores oc).refcnt →
      (dropRef objcores oc oc).refcnt + 1 = (objcores oc).refcnt := by
    intro objcores oc hrefcnt
    rw [dropRef, Function.update_self]
    exact Nat.sub_add_cancel (by omega)
  obtain ⟨objcores', trace, hcall, hbalanced⟩ := vmodSoftpurge_balanced 8 setExp dropRef hrearm
    (fun objcores oc oc' hne => by rw [dropRef_touchesOnly _ _ _ hne]) hdrop .hit
    (fun _ => variants) () 8 5 fresh (by decide) (by decide) fun _ _ => rfl
  have htrace : (vmodSoftpurgeTrace 8 setExp dropRef .hit (fun _ => variants) () 8 5 fresh).map
      (fun r => r.2) = some (effects [0] [⟨0, 5, 0, 10, 60⟩]) := by
    decide +kernel
  rw [hcall] at htrace
  exact ⟨objcores', trace, hcall, Option.some.inj htrace, hbalanced⟩

end VarnishModules.SoftpurgeRefs
