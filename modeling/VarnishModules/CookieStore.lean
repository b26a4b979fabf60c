import VarnishModules.CookieParse

/-!
The cookies of a task as a map from names to values, in the order of insertion.
-/

namespace VarnishModules.CookieStore

open VarnishModules.CStrings
open VarnishModules.CookieModel
open VarnishModules.CookieParse

/-- The map with a value for a name, in place if the name is there and at the end if not. -/
def put (l : List Cookie) (name value : CString) : List Cookie :=
  if ∃ cookie ∈ l, cookie.name = name then
    l.map fun cookie => if cookie.name = name then { cookie with value } else cookie
  else l ++ [⟨name, value⟩]

structure IsStore (l : List Cookie) : Prop where
  nodup : (l.map Cookie.name).Nodup
  name : ∀ cookie ∈ l, cookie.name ≠ []
  value : ∀ cookie ∈ l, cookie.value ≠ []

def lookup (l : List Cookie) (name : CString) : Option CString :=
  (findCookie l name).map Cookie.value

/-- No argument is missing or empty, and every allocation the call makes succeeds. -/
def setSucceeds (t : Task) (name value : Option CString) : Bool :=
  match name, value with
  | none, _ | some [], _ | _, none | _, some [] => false
  | some name, some _ =>
      if (findCookie t.cookielist name).isSome then t.ws 0 else t.ws 0 && t.ws 1 && t.ws 2

variable {l : List Cookie} {name value : CString}

theorem findCookie_eq_none_iff : findCookie l name = none ↔ ∀ cookie ∈ l, cookie.name ≠ name := by
  simp [findCookie]

theorem findCookie_eq_some {cookie : Cookie} (h : findCookie l name = some cookie) :
    cookie ∈ l ∧ cookie.name = name :=
  ⟨List.mem_of_find?_eq_some h, by simpa using List.find?_some h⟩

theorem isStore_nil : IsStore [] := ⟨List.nodup_nil, by simp, by simp⟩

theorem IsStore.filter (hl : IsStore l) (p : Cookie → Bool) : IsStore (l.filter p) where
  nodup := hl.nodup.sublist (List.filter_sublist.map Cookie.name)
  name cookie h := hl.name cookie (List.mem_of_mem_filter h)
  value cookie h := hl.value cookie (List.mem_of_mem_filter h)

theorem setValue_eq_map (hl : (l.map Cookie.name).Nodup) :
    setValue name value l =
      l.map fun cookie => if cookie.name = name then { cookie with value } else cookie := by
  induction l with
  | nil => rfl
  | cons cookie l ih =>
      rw [List.map_cons, List.nodup_cons] at hl
      rw [setValue, List.map_cons]
      split
      · next heq =>
          have hrest : l.map (fun cookie =>
              if cookie.name = name then { cookie with value } else cookie) = l := by
            refine (List.map_congr_left fun cookie' h' => if_neg ?_).trans (List.map_id' l)
            rintro rfl
            exact hl.1 (heq ▸ List.mem_map_of_mem h')
          rw [hrest]
      · rw [ih hl.2]

theorem map_name_put : (put l name value).map Cookie.name =
    if name ∈ l.map Cookie.name then l.map Cookie.name else l.map Cookie.name ++ [name] := by
  unfold put
  by_cases hmem : ∃ cookie ∈ l, cookie.name = name
  · rw [if_pos hmem, if_pos (List.mem_map.mpr hmem), List.map_map]
    refine List.map_congr_left fun cookie _ => ?_
    simp only [Function.comp_apply]
    split <;> rfl
  · rw [if_neg hmem, if_neg (mt List.mem_map.mp hmem), List.map_append]
    rfl

theorem mem_put {cookie : Cookie} (h : cookie ∈ put l name value) :
    cookie ∈ l ∨ cookie = ⟨name, value⟩ := by
  unfold put at h
  split at h
  · obtain ⟨cookie', h', rfl⟩ := List.mem_map.mp h
    split
    · next heq => exact Or.inr (by rw [← heq])
    · exact Or.inl h'
  · simpa using h

theorem IsStore.put (hl : IsStore l) (hname : name ≠ []) (hvalue : value ≠ []) :
    IsStore (put l name value) where
  nodup := by
    rw [map_name_put]
    split
    · exact hl.nodup
    · next hmem => exact List.nodup_append.mpr ⟨hl.nodup, by simp, fun x hx y hy => by
        obtain rfl := List.mem_singleton.mp hy
        exact fun heq => hmem (heq ▸ hx)⟩
  name cookie h := by
    rcases mem_put h with h | rfl
    · exact hl.name cookie h
    · exact hname
  value cookie h := by
    rcases mem_put h with h | rfl
    · exact hl.value cookie h
    · exact hvalue

theorem lookup_cons {cookie : Cookie} : lookup (cookie :: l) name =
    if cookie.name = name then some cookie.value else lookup l name := by
  unfold lookup findCookie
  by_cases h : cookie.name = name
  · simp [h]
  · simp [h]

theorem lookup_eq_none_iff : lookup l name = none ↔ ∀ cookie ∈ l, cookie.name ≠ name := by
  rw [lookup, Option.map_eq_none_iff, findCookie_eq_none_iff]

theorem lookup_replace (other : CString) :
    lookup (l.map fun cookie =>
        if cookie.name = name then { cookie with value } else cookie) other =
      if name = other then (lookup l other).map fun _ => value else lookup l other := by
  induction l with
  | nil =>
      split
      · rfl
      · rfl
  | cons cookie l ih =>
      rw [List.map_cons, lookup_cons, lookup_cons, ih]
      by_cases h : cookie.name = name
      · by_cases h' : name = other
        · simp [h, h']
        · simp [h, h']
      · by_cases h' : cookie.name = other
        · have hne : name ≠ other := fun heq => h (h'.trans heq.symm)
          simp [h', hne, hne.symm]
        · simp [h, h']

theorem lookup_append_singleton (other : CString) (habsent : ∀ cookie ∈ l, cookie.name ≠ name) :
    lookup (l ++ [⟨name, value⟩]) other = if name = other then some value else lookup l other := by
  induction l with
  | nil => rw [List.nil_append, lookup_cons]
  | cons cookie l ih =>
      rw [List.forall_mem_cons] at habsent
      rw [List.cons_append, lookup_cons, lookup_cons, ih habsent.2]
      by_cases h : cookie.name = other
      · have hne : name ≠ other := fun heq => habsent.1 (h.trans heq.symm)
        simp [h, hne]
      · simp [h]

theorem lookup_put (other : CString) : lookup (put l name value) other =
    if name = other then some value else lookup l other := by
  unfold put
  by_cases hmem : ∃ cookie ∈ l, cookie.name = name
  · rw [if_pos hmem, lookup_replace]
    split
    · next heq =>
        subst heq
        cases hlookup : lookup l name with
        | some _ => rfl
        | none =>
            obtain ⟨cookie, hcookie, hname⟩ := hmem
            exact absurd hname (lookup_eq_none_iff.mp hlookup cookie hcookie)
    · rfl
  · rw [if_neg hmem]
    exact lookup_append_singleton other fun cookie hcookie heq => hmem ⟨cookie, hcookie, heq⟩

theorem lookup_filter (p : CString → Bool) (other : CString) :
    lookup (l.filter fun cookie => p cookie.name) other =
      if p other then lookup l other else none := by
  induction l with
  | nil =>
      split
      · rfl
      · rfl
  | cons cookie l ih =>
      by_cases h : cookie.name = other
      · subst h
        by_cases hp : p cookie.name = true
        · simp [hp, lookup_cons]
        · simpa [hp] using ih
      · by_cases hp : p cookie.name = true
        · simpa [hp, lookup_cons, h] using ih
        · simpa [hp, lookup_cons, h] using ih

/-! What each function does to the map. -/

theorem vmodSet_cookielist (hl : (l.map Cookie.name).Nodup) {t : Task} (ht : t.cookielist = l)
    (name value : Option CString) : (vmodSet t name value).cookielist =
      if setSucceeds t name value then put l (name.getD []) (value.getD []) else l := by
  subst ht
  match name, value with
  | none, _ => rfl
  | some [], _ => rfl
  | some (_ :: _), none => rfl
  | some (_ :: _), some [] => rfl
  | some (a :: as), some (b :: bs) =>
      cases hfind : findCookie t.cookielist (a :: as) with
      | some cookie =>
          have hmem : ∃ cookie ∈ t.cookielist, cookie.name = a :: as :=
            ⟨cookie, findCookie_eq_some hfind⟩
          cases hp : t.ws 0 with
          | true =>
              simp [vmodSet, setSucceeds, hfind, hp, Task.alloc, put, hmem, setValue_eq_map hl]
          | false => simp [vmodSet, setSucceeds, hfind, hp, Task.alloc, Task.log]
      | none =>
          have habsent : ¬ ∃ cookie ∈ t.cookielist, cookie.name = a :: as := by
            rintro ⟨cookie, hcookie, hname⟩
            exact findCookie_eq_none_iff.mp hfind cookie hcookie hname
          cases h₀ : t.ws 0 <;> cases h₁ : t.ws 1 <;> cases h₂ : t.ws 2 <;>
            simp [vmodSet, setSucceeds, hfind, h₀, h₁, h₂, Task.alloc, Task.log, put, habsent]

theorem vmodDelete_cookielist (hl : (l.map Cookie.name).Nodup) {t : Task} (ht : t.cookielist = l)
    (name : CString) : (vmodDelete t (some name)).cookielist =
      if name = [] then l else l.filter fun cookie => cookie.name != name := by
  subst ht
  match name with
  | [] => rfl
  | a :: as =>
      rw [if_neg (by simp)]
      change t.cookielist.eraseP _ = _
      generalize t.cookielist = l at hl
      induction l with
      | nil => rfl
      | cons cookie l ih =>
          rw [List.map_cons, List.nodup_cons] at hl
          by_cases h : cookie.name = a :: as
          · have hrest : l.filter (fun cookie => cookie.name != a :: as) = l :=
              List.filter_eq_self.mpr fun cookie' h' => by
                have hne : cookie'.name ≠ a :: as := fun heq =>
                  hl.1 (h ▸ heq ▸ List.mem_map_of_mem h')
                simpa using hne
            simp [h, hrest]
          · simp [h, ih hl.2]

theorem vmodGet_eq (t : Task) {name : CString} (hname : name ≠ []) :
    vmodGet t (some name) = lookup t.cookielist name := by
  obtain ⟨a, as, rfl⟩ := List.exists_cons_of_ne_nil hname
  rfl

theorem vmodIsset_eq (t : Task) (name : Option CString) :
    vmodIsset t name = (vmodGet t name).isSome := by
  match name with
  | none => rfl
  | some [] => rfl
  | some (_ :: _) => simp [vmodIsset, vmodGet]

/-! Any sequence of calls. -/

inductive Op
  | parse (cookieheader : Option CString)
  | set (name value : Option CString)
  | isset (name : Option CString)
  | get (name : Option CString)
  | delete (name : Option CString)
  | clean
  | filter (blacklist : Option CString)
  | filterExcept (whitelist : Option CString)
  | getString

/-- The task after a call. -/
def Op.run (t : Task) : Op → Task
  | parse cookieheader => vmodParse t cookieheader
  | set name value => vmodSet t name value
  | isset _ => t
  | get _ => t
  | delete name => vmodDelete t name
  | clean => vmodClean t
  | filter blacklist => vmodFilter t blacklist
  | filterExcept whitelist => vmodFilterExcept t whitelist
  | getString => (vmodGetString t).2

/-- A value stored by a set that succeeds, or the removal of all names but those kept. -/
inductive Effect
  | stored (name value : CString)
  | kept (names : CString → Bool)

/-- The value of the last set of the name since its last removal. -/
def lastValue (name : CString) (start : Option CString) (effects : List Effect) :
    Option CString :=
  effects.foldl (fun last effect =>
    match effect with
    | .stored name' value => if name' = name then some value else last
    | .kept names => if names name then last else none) start

def setEffects (t : Task) (name value : Option CString) : List Effect :=
  if setSucceeds t name value then [.stored (name.getD []) (value.getD [])] else []

/-- The sets inside `vmod_parse`. -/
def parseEffects : Task → List (CString × CString) → List Effect
  | _, [] => []
  | t, (lead, value) :: rest =>
      setEffects t (some (strip lead)) (some value) ++
        parseEffects (vmodSet t (some (strip lead)) (some value)) rest

def Op.effects (t : Task) : Op → List Effect
  | parse none | parse (some []) | isset _ | get _ | getString | delete none | delete (some []) =>
      []
  | parse (some p) => .kept (fun _ => false) :: parseEffects (vmodClean t) (scan p)
  | set name value => setEffects t name value
  | delete (some name) => [.kept fun name' => name' != name]
  | clean => [.kept fun _ => false]
  | filter blacklist =>
      [.kept fun name => !((blacklist.map matchlist).getD []).contains name]
  | filterExcept whitelist => [.kept fun name => ((whitelist.map matchlist).getD []).contains name]

def history : Task → List Op → List Effect
  | _, [] => []
  | t, op :: ops => op.effects t ++ history (op.run t) ops

/-- The task keeps its names apart, and its effects say what it holds. -/
structure Tracks (t t' : Task) (effects : List Effect) : Prop where
  store : IsStore t'.cookielist
  lookup : ∀ name, lookup t'.cookielist name = lastValue name (lookup t.cookielist name) effects

variable {t t' t'' : Task} {es fs : List Effect}

theorem tracks_refl (ht : IsStore t.cookielist) (h : t'.cookielist = t.cookielist) :
    Tracks t t' [] :=
  ⟨h ▸ ht, fun name => by rw [h]; rfl⟩

theorem Tracks.append (h : Tracks t t' es) (h' : Tracks t' t'' fs) : Tracks t t'' (es ++ fs) :=
  ⟨h'.store, fun name => by
    rw [h'.lookup, h.lookup]
    exact (List.foldl_append ..).symm⟩

theorem tracks_set (ht : IsStore t.cookielist) (name value : Option CString) :
    Tracks t (vmodSet t name value) (setEffects t name value) := by
  have hset := vmodSet_cookielist ht.nodup rfl name value
  unfold setEffects
  cases hsucceeds : setSucceeds t name value with
  | false =>
      rw [hsucceeds] at hset
      exact tracks_refl ht hset
  | true =>
      rw [hsucceeds, if_pos rfl] at hset
      obtain ⟨hname, hvalue⟩ : name.getD [] ≠ [] ∧ value.getD [] ≠ [] := by
        match name, value, hsucceeds with
        | some (_ :: _), some (_ :: _), _ => simp
      refine ⟨hset ▸ ht.put hname hvalue, fun other => ?_⟩
      rw [hset, lookup_put]
      rfl

theorem tracks_kept (ht : IsStore t.cookielist) (names : CString → Bool)
    (h : t'.cookielist = t.cookielist.filter fun cookie => names cookie.name) :
    Tracks t t' [.kept names] := by
  refine ⟨h ▸ ht.filter _, fun name => ?_⟩
  rw [h, lookup_filter]
  rfl

theorem tracks_parseEffects (ht : IsStore t.cookielist) (pairs : List (CString × CString)) :
    Tracks t (pairs.foldl (fun t nv => vmodSet t (some (strip nv.1)) (some nv.2)) t)
      (parseEffects t pairs) := by
  induction pairs generalizing t with
  | nil => exact tracks_refl ht rfl
  | cons nv pairs ih =>
      have hset := tracks_set ht (some (strip nv.1)) (some nv.2)
      exact hset.append (ih hset.store)

theorem vmodParse_eq_log (t : Task) {p : CString} (hp : p ≠ []) : ∃ msg,
    vmodParse t (some p) =
      ((scan p).foldl (fun t nv => vmodSet t (some (strip nv.1)) (some nv.2))
        (vmodClean t)).log msg := by
  obtain ⟨c, p, rfl⟩ := List.exists_cons_of_ne_nil hp
  have hclean : (if t.cookielist = [] then t else vmodClean t) = vmodClean t := by
    split
    · next hnil => rw [vmodClean, ← hnil]
    · rfl
  refine ⟨s!"cookie: parsed {0 + (scan (c :: p)).length} cookies.", ?_⟩
  simp only [vmodParse, hclean, parseLoop_eq]

theorem vmodParse_cookielist (t : Task) {p : CString} (hp : p ≠ []) :
    (vmodParse t (some p)).cookielist =
      ((scan p).foldl (fun t nv => vmodSet t (some (strip nv.1)) (some nv.2))
        (vmodClean t)).cookielist := by
  obtain ⟨msg, hparse⟩ := vmodParse_eq_log t hp
  rw [hparse]
  rfl

theorem tracks_run (ht : IsStore t.cookielist) (op : Op) : Tracks t (op.run t) (op.effects t) := by
  cases op with
  | parse cookieheader =>
      match cookieheader with
      | none => exact tracks_refl ht rfl
      | some [] => exact tracks_refl ht rfl
      | some (c :: p) =>
          have hclean : Tracks t (vmodClean t) [.kept fun _ => false] :=
            tracks_kept ht _ (List.filter_false _).symm
          have hpairs := tracks_parseEffects hclean.store (scan (c :: p))
          have hparse := vmodParse_cookielist t (List.cons_ne_nil c p)
          refine hclean.append ⟨?_, ?_⟩
          · exact hparse ▸ hpairs.store
          · intro name
            change lookup (vmodParse t (some (c :: p))).cookielist name = _
            rw [hparse]
            exact hpairs.lookup name
  | set name value => exact tracks_set ht name value
  | isset name => exact tracks_refl ht rfl
  | get name => exact tracks_refl ht rfl
  | delete name =>
      match name with
      | none => exact tracks_refl ht rfl
      | some [] => exact tracks_refl ht rfl
      | some (a :: as) =>
          exact tracks_kept ht _ ((vmodDelete_cookielist ht.nodup rfl (a :: as)).trans
            (if_neg (List.cons_ne_nil a as)))
  | clean => exact tracks_kept ht _ (List.filter_false _).symm
  | filter blacklist => exact tracks_kept ht _ (by simp [Op.run, vmodFilter, filterCookies])
  | filterExcept whitelist =>
      exact tracks_kept ht _ (by simp [Op.run, vmodFilterExcept, filterCookies])
  | getString =>
      refine tracks_refl ht ?_
      simp only [Op.run, vmodGetString]
      split <;> rfl

theorem tracks_history (ht : IsStore t.cookielist) (ops : List Op) :
    Tracks t (ops.foldl Op.run t) (history t ops) := by
  induction ops generalizing t with
  | nil => exact tracks_refl ht rfl
  | cons op ops ih =>
      have hop := tracks_run ht op
      exact hop.append (ih hop.store)

/-- The task after any calls from a fresh one. -/
def taskAfter (ws : Nat → Bool) (vsl : List String) (ops : List Op) : Task :=
  ops.foldl Op.run ⟨[], ws, vsl⟩

theorem isStore_taskAfter (ws : Nat → Bool) (vsl : List String) (ops : List Op) :
    IsStore (taskAfter ws vsl ops).cookielist :=
  (tracks_history (t := ⟨[], ws, vsl⟩) isStore_nil ops).store

theorem put_of_mem {cookie : Cookie} {pre post : List Cookie}
    (hl : ((pre ++ cookie :: post).map Cookie.name).Nodup) :
    put (pre ++ cookie :: post) cookie.name value = pre ++ ⟨cookie.name, value⟩ :: post := by
  have hmem : ∃ c ∈ pre ++ cookie :: post, c.name = cookie.name := ⟨cookie, by simp, rfl⟩
  rw [List.map_append, List.map_cons, List.nodup_append] at hl
  obtain ⟨-, hpost, hpre⟩ := hl
  rw [List.nodup_cons] at hpost
  have hkeep : ∀ l : List Cookie, cookie.name ∉ l.map Cookie.name →
      l.map (fun c => if c.name = cookie.name then { c with value } else c) = l := by
    intro l hl
    refine (List.map_congr_left fun c hc => if_neg ?_).trans (List.map_id' l)
    exact fun heq => hl (heq ▸ List.mem_map_of_mem hc)
  rw [put, if_pos hmem, List.map_append, List.map_cons, if_pos rfl, hkeep post hpost.1,
    hkeep pre fun hmem => hpre _ hmem _ List.mem_cons_self rfl]

/-- The cookies are a map in the order of insertion, whichever allocations fail. -/
theorem taskAfter_isMap (ws : Nat → Bool) (vsl : List String) (ops : List Op) :
    ((taskAfter ws vsl ops).cookielist.map Cookie.name).Nodup ∧
      (∀ cookie ∈ (taskAfter ws vsl ops).cookielist, cookie.name ≠ [] ∧ cookie.value ≠ []) ∧
      (∀ name value, setSucceeds (taskAfter ws vsl ops) name value = false →
        (vmodSet (taskAfter ws vsl ops) name value).cookielist =
          (taskAfter ws vsl ops).cookielist) ∧
      (∀ pre cookie post value, (taskAfter ws vsl ops).cookielist = pre ++ cookie :: post →
        setSucceeds (taskAfter ws vsl ops) (some cookie.name) (some value) = true →
        (vmodSet (taskAfter ws vsl ops) (some cookie.name) (some value)).cookielist =
          pre ++ ⟨cookie.name, value⟩ :: post) ∧
      (∀ name value, name ∉ (taskAfter ws vsl ops).cookielist.map Cookie.name →
        setSucceeds (taskAfter ws vsl ops) (some name) (some value) = true →
        (vmodSet (taskAfter ws vsl ops) (some name) (some value)).cookielist =
          (taskAfter ws vsl ops).cookielist ++ [⟨name, value⟩]) ∧
      (∀ name, (vmodDelete (taskAfter ws vsl ops) (some name)).cookielist =
        (taskAfter ws vsl ops).cookielist.filter fun cookie => cookie.name != name) ∧
      (∀ name, vmodIsset (taskAfter ws vsl ops) name =
        (vmodGet (taskAfter ws vsl ops) name).isSome) ∧
      ∀ name, vmodGet (taskAfter ws vsl ops) (some name) =
        lastValue name none (history ⟨[], ws, vsl⟩ ops) := by
  have hstore := isStore_taskAfter ws vsl ops
  have htracks := (tracks_history (t := ⟨[], ws, vsl⟩) isStore_nil ops).lookup
  change ∀ name, lookup (taskAfter ws vsl ops).cookielist name = _ at htracks
  generalize taskAfter ws vsl ops = t at hstore htracks
  refine ⟨hstore.nodup, fun cookie h => ⟨hstore.name cookie h, hstore.value cookie h⟩, ?_, ?_, ?_,
    fun name => ?_, vmodIsset_eq t, fun name => ?_⟩
  · intro name value hfails
    rw [vmodSet_cookielist hstore.nodup rfl, hfails]
    rfl
  · intro pre cookie post value hl hsucceeds
    rw [vmodSet_cookielist hstore.nodup rfl, hsucceeds, if_pos rfl]
    have hnodup := hstore.nodup
    rw [hl] at hnodup ⊢
    exact put_of_mem hnodup
  · intro name value habsent hsucceeds
    rw [vmodSet_cookielist hstore.nodup rfl, hsucceeds, if_pos rfl]
    exact if_neg fun hmem => habsent (List.mem_map.mpr hmem)
  · rw [vmodDelete_cookielist hstore.nodup rfl]
    split
    · next heq =>
        refine (List.filter_eq_self.mpr fun cookie hcookie => ?_).symm
        simpa [heq] using hstore.name cookie hcookie
    · rfl
  · by_cases hname : name = []
    · have hnone : lookup t.cookielist name = none :=
        lookup_eq_none_iff.mpr fun cookie hcookie => hname ▸ hstore.name cookie hcookie
      rw [hname] at hnone ⊢
      exact hnone.symm.trans (htracks [])
    · rw [vmodGet_eq t hname]
      exact htracks name

end VarnishModules.CookieStore
