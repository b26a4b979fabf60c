import VarnishModules.CookieGrammar

/-!
What `vmod_get_string` prints is parsed back to the cookies it was printed from.
-/

namespace VarnishModules.CookieRoundTrip

open VarnishModules.CStrings
open VarnishModules.CookieModel
open VarnishModules.CookieParse
open VarnishModules.CookieStore
open VarnishModules.CookieGrammar

/-- A cookie whose printed form can be read; the name may have semicolons in it. -/
structure IsPrintable (cookie : Cookie) : Prop where
  equals_not_mem : equals ∉ cookie.name
  strip_name : strip cookie.name = cookie.name
  semicolon_not_mem : semicolon ∉ cookie.value

/-- The arguments of a `set` are those of a printable cookie. -/
def Op.IsPrintable : Op → Prop
  | .set (some name) (some value) =>
      equals ∉ name ∧ (∀ c ∈ name.head?, isspace c = false) ∧ semicolon ∉ value
  | _ => True

/-- `get_string` after `parse`, in a fresh task with enough workspace. -/
def reprint (cookieheader : CString) : Option CString :=
  (vmodGetString (vmodParse ⟨[], fun _ => true, []⟩ (some cookieheader))).1

variable {t : Task} {l : List Cookie} {name value s : CString}

/-! Every cookie that is stored is printable. -/

theorem strip_eq_self (hs : ∀ c ∈ s.head?, isspace c = false) : strip s = s := by
  cases s with
  | nil => rfl
  | cons c s => simp [strip, hs c rfl]

theorem strip_strip : strip (strip s) = strip s :=
  List.dropWhile_idempotent isspace s

theorem scan_clear (p : CString) : ∀ nv ∈ scan p, equals ∉ nv.1 ∧ semicolon ∉ nv.2 := by
  induction p using scan_induction with
  | hnone p hp =>
      rw [scan_none hp]
      simp
  | hlast lead value hlead hvalue =>
      rw [scan_last hlead hvalue]
      simp [hlead, hvalue]
  | hcons lead value rest hlead hvalue ih =>
      rw [scan_cons hlead hvalue]
      exact List.forall_mem_cons.mpr ⟨⟨hlead, hvalue⟩, ih⟩

theorem isPrintable_putAll {pairs : List (CString × CString)}
    (hl : ∀ cookie ∈ l, IsPrintable cookie)
    (hpairs : ∀ nv ∈ pairs, IsPrintable ⟨nv.1, nv.2⟩) :
    ∀ cookie ∈ putAll l pairs, IsPrintable cookie := by
  induction pairs generalizing l with
  | nil => exact hl
  | cons nv pairs ih =>
      rw [List.forall_mem_cons] at hpairs
      rw [putAll, List.foldl_cons]
      refine ih ?_ hpairs.2
      split
      · exact hl
      · intro cookie hcookie
        rcases mem_put hcookie with hcookie | rfl
        · exact hl cookie hcookie
        · exact hpairs.1

theorem isPrintable_scan (p : CString) :
    ∀ cookie ∈ putAll [] ((scan p).map fun nv => (strip nv.1, nv.2)), IsPrintable cookie := by
  refine isPrintable_putAll (by simp) fun nv hnv => ?_
  obtain ⟨nv', hnv', rfl⟩ := List.mem_map.mp hnv
  obtain ⟨hlead, hvalue⟩ := scan_clear p nv' hnv'
  exact ⟨not_mem_strip hlead, strip_strip, hvalue⟩

/-- What a run keeps: distinct names, printable cookies, and workspace for more. -/
structure IsSound (t : Task) : Prop where
  roomy : Roomy t
  store : IsStore t.cookielist
  printable : ∀ cookie ∈ t.cookielist, IsPrintable cookie

theorem IsSound.filter {t' : Task} (ht : IsSound t) (hws : t'.ws = t.ws) {p : Cookie → Bool}
    (h : t'.cookielist = t.cookielist.filter p) : IsSound t' where
  roomy n := hws ▸ ht.roomy n
  store := h ▸ ht.store.filter p
  printable cookie hcookie := ht.printable cookie (List.mem_of_mem_filter (h ▸ hcookie))

theorem isSound_of_eq {t' : Task} (ht : IsSound t) (hws : t'.ws = t.ws)
    (h : t'.cookielist = t.cookielist) : IsSound t' :=
  ⟨fun n => hws ▸ ht.roomy n, h ▸ ht.store, h ▸ ht.printable⟩

theorem isSound_set (ht : IsSound t) (hprintable : IsPrintable ⟨name, value⟩) :
    IsSound (vmodSet t (some name) (some value)) := by
  obtain ⟨hroomy, hcookies⟩ := vmodSet_of_roomy ht.roomy ht.store.nodup name value
  have hput : (vmodSet t (some name) (some value)).cookielist =
      putAll t.cookielist [(name, value)] := hcookies
  refine ⟨hroomy, hput ▸ isStore_putAll ht.store _, ?_⟩
  rw [hput]
  exact isPrintable_putAll ht.printable (by simpa using hprintable)

theorem isSound_parse (ht : IsSound t) (cookieheader : Option CString) :
    IsSound (vmodParse t cookieheader) := by
  match cookieheader with
  | none => exact isSound_of_eq ht rfl rfl
  | some [] => exact isSound_of_eq ht rfl rfl
  | some (c :: p) =>
      obtain ⟨msg, hlog⟩ := vmodParse_eq_log t (List.cons_ne_nil c p)
      have hroomy := (foldl_vmodSet_of_roomy (t := vmodClean t) ht.roomy isStore_nil
        (scan (c :: p))).1
      have hparse := vmodParse_of_roomy ht.roomy (List.cons_ne_nil c p)
      refine ⟨?_, hparse ▸ isStore_putAll isStore_nil _, hparse ▸ isPrintable_scan _⟩
      intro n
      rw [hlog]
      exact hroomy n

theorem isSound_run (ht : IsSound t) {op : Op} (hop : Op.IsPrintable op) : IsSound (op.run t) := by
  cases op with
  | parse cookieheader => exact isSound_parse ht cookieheader
  | set name value =>
      match name, value with
      | none, _ => exact ht
      | some [], _ => exact ht
      | some (_ :: _), none => exact ht
      | some (a :: as), some value =>
          obtain ⟨hname, hhead, hvalue⟩ := hop
          exact isSound_set ht ⟨hname, strip_eq_self hhead, hvalue⟩
  | isset name => exact ht
  | get name => exact ht
  | delete name =>
      match name with
      | none => exact ht
      | some [] => exact ht
      | some (a :: as) =>
          exact ht.filter rfl ((vmodDelete_cookielist ht.store.nodup rfl (a :: as)).trans
            (if_neg (List.cons_ne_nil a as)))
  | clean => exact ht.filter rfl (List.filter_false _).symm
  | filter blacklist => exact ht.filter rfl rfl
  | filterExcept whitelist => exact ht.filter rfl rfl
  | getString =>
      have hroomy : Roomy (vmodGetString t).2 := by
        intro n
        simp [vmodGetString, Task.alloc, ht.roomy 0, ht.roomy (n + 1)]
      have hcookies : (vmodGetString t).2.cookielist = t.cookielist := by
        simp [vmodGetString, Task.alloc, ht.roomy 0]
      exact ⟨hroomy, hcookies ▸ ht.store, hcookies ▸ ht.printable⟩

theorem isSound_foldl (ht : IsSound t) {ops : List Op} (hops : ∀ op ∈ ops, Op.IsPrintable op) :
    IsSound (ops.foldl Op.run t) := by
  induction ops generalizing t with
  | nil => exact ht
  | cons op ops ih =>
      rw [List.forall_mem_cons] at hops
      exact ih (isSound_run ht hops.1) hops.2

/-! What is printed is scanned again. -/

/-- A printed cookie that is not the first one. -/
def printNext (cookie : Cookie) : CString :=
  32 :: cookie.name ++ equals :: cookie.value ++ [semicolon]

theorem scan_flatMap_printNext (hl : ∀ cookie ∈ l, IsPrintable cookie) :
    (scan (l.flatMap printNext)).map (fun nv => (strip nv.1, nv.2)) =
      l.map fun cookie => (cookie.name, cookie.value) := by
  induction l with
  | nil => rw [List.flatMap_nil, scan_none (by simp)]; rfl
  | cons cookie l ih =>
      rw [List.forall_mem_cons] at hl
      obtain ⟨⟨hname, hstrip, hvalue⟩, hrest⟩ := hl
      have hlead : equals ∉ 32 :: cookie.name :=
        List.not_mem_cons_of_ne_of_not_mem (by decide) hname
      have hblank : strip (32 :: cookie.name) = cookie.name := hstrip
      have hshape : (cookie :: l).flatMap printNext =
          (32 :: cookie.name) ++ equals :: (cookie.value ++ semicolon :: l.flatMap printNext) := by
        simp [printNext]
      rw [hshape, scan_cons hlead hvalue, List.map_cons, List.map_cons, ih hrest, hblank]

theorem scan_printCookies (hl : ∀ cookie ∈ l, IsPrintable cookie) :
    (scan (printCookies l)).map (fun nv => (strip nv.1, nv.2)) =
      l.map fun cookie => (cookie.name, cookie.value) := by
  cases l with
  | nil => rw [printCookies, scan_none (by simp)]; rfl
  | cons cookie l =>
      rw [List.forall_mem_cons] at hl
      obtain ⟨⟨hname, hstrip, hvalue⟩, hrest⟩ := hl
      have hshape : printCookies (cookie :: l) =
          cookie.name ++ equals :: (cookie.value ++ semicolon :: l.flatMap printNext) := by
        change cookie.name ++ equals :: cookie.value ++ [semicolon] ++ l.flatMap printNext = _
        simp
      rw [hshape, scan_cons hname hvalue, List.map_cons, List.map_cons,
        scan_flatMap_printNext hrest, hstrip]

theorem putAll_eq_append {pre : List Cookie} (hl : IsStore (pre ++ l)) :
    putAll pre (l.map fun cookie => (cookie.name, cookie.value)) = pre ++ l := by
  induction l generalizing pre with
  | nil => simp [putAll]
  | cons cookie l ih =>
      have hmem : cookie ∈ pre ++ cookie :: l := by simp
      have habsent : ¬ ∃ c ∈ pre, c.name = cookie.name := by
        rintro ⟨c, hc, hname⟩
        have hnodup := hl.nodup
        rw [List.map_append, List.nodup_append] at hnodup
        exact hnodup.2.2 c.name (List.mem_map_of_mem hc) cookie.name (by simp) hname
      have hput : put pre cookie.name cookie.value = pre ++ [cookie] := if_neg habsent
      have hshape : pre ++ cookie :: l = (pre ++ [cookie]) ++ l := by simp
      have hne : ¬ (cookie.name = [] ∨ cookie.value = []) :=
        not_or.mpr ⟨hl.name cookie hmem, hl.value cookie hmem⟩
      rw [hshape] at hl ⊢
      rw [List.map_cons, putAll, List.foldl_cons, if_neg hne, hput]
      exact ih hl

theorem vmodParse_printCookies (vsl : List String) (hstore : IsStore l)
    (hl : ∀ cookie ∈ l, IsPrintable cookie) :
    (vmodParse ⟨[], fun _ => true, vsl⟩ (some (printCookies l))).cookielist = l := by
  rw [vmodParse_fresh, scan_printCookies hl]
  exact putAll_eq_append hstore

theorem vmodGetString_of_roomy (ht : Roomy t) :
    (vmodGetString t).1 = some (printCookies t.cookielist) := by
  simp [vmodGetString, Task.alloc, ht 0]

theorem isSound_fresh (vsl : List String) : IsSound ⟨[], fun _ => true, vsl⟩ :=
  ⟨fun _ => rfl, isStore_nil, by simp⟩

/-- Every store reached from a fresh one is parsed back from what is printed of it, and
printing what has been printed changes nothing. -/
theorem taskAfter_roundTrip (vsl vsl' : List String) (ops : List Op)
    (hops : ∀ op ∈ ops, Op.IsPrintable op) :
    (∃ s, (vmodGetString (taskAfter (fun _ => true) vsl ops)).1 = some s ∧
      (vmodParse ⟨[], fun _ => true, vsl'⟩ (some s)).cookielist =
        (taskAfter (fun _ => true) vsl ops).cookielist) ∧
      ∀ cookieheader, ∃ s, reprint cookieheader = some s ∧ reprint s = some s := by
  refine ⟨?_, fun cookieheader => ?_⟩
  · have hsound : IsSound (taskAfter (fun _ => true) vsl ops) :=
      isSound_foldl (isSound_fresh vsl) hops
    exact ⟨_, vmodGetString_of_roomy hsound.roomy,
      vmodParse_printCookies vsl' hsound.store hsound.printable⟩
  · have hsound := isSound_parse (isSound_fresh []) (some cookieheader)
    have hprint := vmodGetString_of_roomy hsound.roomy
    refine ⟨_, hprint, ?_⟩
    have hsound' := isSound_parse (isSound_fresh [])
      (some (printCookies (vmodParse ⟨[], fun _ => true, []⟩ (some cookieheader)).cookielist))
    rw [reprint, vmodGetString_of_roomy hsound'.roomy,
      vmodParse_printCookies [] hsound.store hsound.printable]

/-- A flag swallowed by a name is printed and read again with it. -/
theorem taskAfter_roundTrip_flag :
    (∃ s, (vmodGetString (taskAfter (fun _ => true) []
        [.parse (some (str "a; b=c")), .set (some (str "d")) (some (str "e"))])).1 = some s ∧
      (vmodParse ⟨[], fun _ => true, []⟩ (some s)).cookielist =
        (taskAfter (fun _ => true) []
          [.parse (some (str "a; b=c")), .set (some (str "d")) (some (str "e"))]).cookielist) ∧
      ∀ cookieheader, ∃ s, reprint cookieheader = some s ∧ reprint s = some s := by
  refine taskAfter_roundTrip [] [] _ fun op hop => ?_
  rcases List.mem_cons.mp hop with rfl | hop
  · trivial
  · obtain rfl := List.mem_singleton.mp hop
    refine ⟨by decide, fun c hc => ?_, by decide⟩
    obtain rfl : 100 = c := Option.some.inj hc
    rfl

end VarnishModules.CookieRoundTrip
