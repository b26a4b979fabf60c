import VarnishModules.CookieStore

/-!
The grammar of a cookie header, and which headers `vmod_parse` reads by it.
-/

namespace VarnishModules.CookieGrammar

open VarnishModules.CStrings
open VarnishModules.CookieModel
open VarnishModules.CookieParse
open VarnishModules.CookieStore

def pieces (s : CString) : List CString :=
  s.splitOn semicolon

/-- What stands behind the first `=`. -/
def valueOf (piece : CString) : CString :=
  (piece.dropWhile (· != equals)).tail

/-- A piece without its leading whitespace, cut at the first `=`. -/
def readPiece (piece : CString) : CString × CString :=
  ((strip piece).takeWhile (· != equals), valueOf (strip piece))

def putAll (l : List Cookie) (pairs : List (CString × CString)) : List Cookie :=
  pairs.foldl (fun l nv => if nv.1 = [] ∨ nv.2 = [] then l else put l nv.1 nv.2) l

/-- The pairs of the pieces that have an `=`, in order. -/
def grammarPairs (s : CString) : List (CString × CString) :=
  ((pieces s).filter fun piece => equals ∈ piece).map readPiece

def grammarStore (s : CString) : List Cookie :=
  putAll [] (grammarPairs s)

/-- No piece without an `=` stands before a piece with a value. -/
def NoGlue (ps : List CString) : Prop :=
  ps.IsChain fun a b => equals ∈ a ∨ valueOf b = []

/-- There is enough workspace. -/
def Roomy (t : Task) : Prop :=
  ∀ n, t.ws n = true

variable {t : Task} {lead value rest s : CString}

/-! The pieces the scanner runs over. -/

theorem valueOf_append (hlead : equals ∉ lead) : valueOf (lead ++ equals :: value) = value := by
  rw [valueOf, dropWhile_append hlead]
  rfl

theorem valueOf_eq_nil (hs : equals ∉ s) : valueOf s = [] := by
  rw [valueOf, dropWhile_eq hs]
  rfl

theorem readPiece_append (hlead : equals ∉ lead) :
    readPiece (lead ++ equals :: value) = (strip lead, value) := by
  rw [readPiece, strip_append_equals, takeWhile_append (not_mem_strip hlead),
    valueOf_append (not_mem_strip hlead)]

/-- The last piece of a string takes what follows the string. -/
theorem exists_pieces (s : CString) : ∃ rs l, (rs = [] ↔ semicolon ∉ s) ∧ (rs = [] → l = s) ∧
    semicolon ∉ l ∧ (∀ r ∈ rs ++ [l], ∀ c ∈ r, c ∈ s) ∧
    ∀ t, semicolon ∉ t → pieces (s ++ t) = rs ++ [l ++ t] := by
  induction hn : s.length using Nat.strong_induction_on generalizing s with
  | _ n ih =>
    by_cases hs : semicolon ∈ s
    · obtain ⟨r, s, rfl, hr⟩ := List.eq_append_cons_of_mem hs
      obtain ⟨rs, l, -, -, hl, hmem, hpieces⟩ := ih s.length (by
        rw [← hn, List.length_append, List.length_cons]
        omega) s rfl
      refine ⟨r :: rs, l, by simp, by simp, hl, ?_, ?_⟩
      · intro r' hr' c hc
        rcases List.mem_cons.mp hr' with rfl | hr'
        · simp [hc]
        · simp [hmem r' hr' c hc]
      · intro t ht
        rw [List.append_assoc, List.cons_append, pieces, List.splitOn_append_cons_self,
          List.splitOn_eq_singleton hr]
        exact congrArg (r :: ·) (hpieces t ht)
    · refine ⟨[], s, by simp [hs], fun _ => rfl, hs, by simp, fun t ht => ?_⟩
      rw [pieces, List.splitOn_eq_singleton (by simp [hs, ht])]
      rfl

theorem pieces_append (s rest : CString) :
    pieces (s ++ semicolon :: rest) = pieces s ++ pieces rest :=
  List.splitOn_append_cons_self s rest

theorem pieces_entry_append (lead value rest : CString) :
    pieces (lead ++ equals :: (value ++ semicolon :: rest)) =
      pieces (lead ++ equals :: value) ++ pieces rest := by
  rw [← pieces_append]
  simp

theorem not_mem_of_mem_pieces {c : UInt8} (hs : c ∉ s) : ∀ r ∈ pieces s, c ∉ r := by
  obtain ⟨rs, l, -, -, -, hmem, hpieces⟩ := exists_pieces s
  have heq := hpieces [] (by simp)
  rw [List.append_nil, List.append_nil] at heq
  rw [heq]
  exact fun r hr hc => hs (hmem r hr c hc)

/-- The pieces of what the scanner reads at a time: only the last one has an `=`. -/
theorem exists_pieces_entry (hlead : equals ∉ lead) (hvalue : semicolon ∉ value) :
    ∃ rs l, pieces (lead ++ equals :: value) = rs ++ [l ++ equals :: value] ∧
      (rs = [] ↔ semicolon ∉ lead) ∧ (rs = [] → l = lead) ∧ semicolon ∉ l ∧ equals ∉ l ∧
      ∀ r ∈ rs, equals ∉ r := by
  obtain ⟨rs, l, hrs, hl, hsemicolon, hmem, hpieces⟩ := exists_pieces lead
  have hne : semicolon ∉ equals :: value :=
    List.not_mem_cons_of_ne_of_not_mem (by decide) hvalue
  refine ⟨rs, l, hpieces _ hne, hrs, hl, hsemicolon, ?_, ?_⟩
  · exact fun h => hlead (hmem l (by simp) _ h)
  · exact fun r hr h => hlead (hmem r (by simp [hr]) _ h)

/-- The pair the grammar reads where the scanner reads `nv`. -/
def SameEntry (g nv : CString × CString) : Prop :=
  g.2 = nv.2 ∧ semicolon ∉ g.1 ∧ (semicolon ∉ nv.1 → g.1 = strip nv.1)

theorem grammarPairs_none (hs : equals ∉ s) : grammarPairs s = [] := by
  have hfilter : (pieces s).filter (fun piece => equals ∈ piece) = [] :=
    List.filter_eq_nil_iff.mpr fun r hr => by simpa using not_mem_of_mem_pieces hs r hr
  rw [grammarPairs, hfilter]
  rfl

theorem grammarPairs_append (s rest : CString) :
    grammarPairs (s ++ semicolon :: rest) = grammarPairs s ++ grammarPairs rest := by
  rw [grammarPairs, pieces_append, List.filter_append, List.map_append]
  rfl

theorem exists_grammarPairs_entry (hlead : equals ∉ lead) (hvalue : semicolon ∉ value) :
    ∃ g, grammarPairs (lead ++ equals :: value) = [g] ∧ SameEntry g (lead, value) := by
  obtain ⟨rs, l, hpieces, hrs, hl, hsemicolon, hequals, hclear⟩ := exists_pieces_entry hlead hvalue
  refine ⟨(strip l, value), ?_, rfl, not_mem_strip hsemicolon, fun h => ?_⟩
  · have hfilter : rs.filter (fun piece => equals ∈ piece) = [] :=
      List.filter_eq_nil_iff.mpr fun r hr => by simpa using hclear r hr
    rw [grammarPairs, hpieces, List.filter_append, hfilter, List.nil_append,
      List.filter_cons_of_pos (by simp), List.filter_nil, List.map_singleton,
      readPiece_append hequals]
  · rw [hl (hrs.mpr h)]

theorem forall₂_grammarPairs (p : CString) :
    List.Forall₂ SameEntry (grammarPairs p) (scan p) := by
  induction p using scan_induction with
  | hnone p hp =>
      rw [grammarPairs_none hp, scan_none hp]
      exact List.Forall₂.nil
  | hlast lead value hlead hvalue =>
      obtain ⟨g, hg, hentry⟩ := exists_grammarPairs_entry hlead hvalue
      rw [hg, scan_last hlead hvalue]
      exact List.Forall₂.cons hentry List.Forall₂.nil
  | hcons lead value rest hlead hvalue ih =>
      obtain ⟨g, hg, hentry⟩ := exists_grammarPairs_entry hlead hvalue
      rw [show lead ++ equals :: (value ++ semicolon :: rest) =
        (lead ++ equals :: value) ++ semicolon :: rest by simp, grammarPairs_append, hg]
      rw [show (lead ++ equals :: value) ++ semicolon :: rest =
        lead ++ equals :: (value ++ semicolon :: rest) by simp, scan_cons hlead hvalue]
      exact List.Forall₂.cons hentry ih

theorem isChain_append_singleton {rs : List CString} {q : CString}
    (hrs : ∀ r ∈ rs, equals ∉ r) : NoGlue (rs ++ [q]) ↔ rs = [] ∨ valueOf q = [] := by
  constructor
  · intro h
    rcases List.eq_nil_or_concat rs with rfl | ⟨rs, r, rfl⟩
    · exact Or.inl rfl
    · have hr : equals ∉ r := hrs r (by simp)
      rw [NoGlue, List.concat_eq_append, List.append_assoc, List.singleton_append,
        List.isChain_append_cons_cons] at h
      exact Or.inr (h.2.1.resolve_left hr)
  · rintro (rfl | hq)
    · exact List.isChain_singleton _
    · refine (List.pairwise_of_forall_mem_list fun a _ b hb => ?_).isChain
      rcases List.mem_append.mp hb with hb | hb
      · exact Or.inr (valueOf_eq_nil (hrs b hb))
      · exact Or.inr (List.mem_singleton.mp hb ▸ hq)

/-- A name runs over a semicolon where a piece without an `=` stands before another one. -/
theorem noGlue_pieces_iff (p : CString) :
    NoGlue (pieces p) ↔ ∀ nv ∈ scan p, semicolon ∈ nv.1 → nv.2 = [] := by
  have hentry : ∀ lead value, equals ∉ lead → semicolon ∉ value →
      (NoGlue (pieces (lead ++ equals :: value)) ↔ (semicolon ∈ lead → value = [])) := by
    intro lead value hlead hvalue
    obtain ⟨rs, l, hpieces, hrs, -, -, hequals, hclear⟩ := exists_pieces_entry hlead hvalue
    rw [hpieces, isChain_append_singleton hclear, valueOf_append hequals, hrs]
    tauto
  induction p using scan_induction with
  | hnone p hp =>
      rw [scan_none hp]
      refine iff_of_true ((List.pairwise_of_forall_mem_list fun a _ b hb => ?_).isChain) (by simp)
      exact Or.inr (valueOf_eq_nil (not_mem_of_mem_pieces hp b hb))
  | hlast lead value hlead hvalue =>
      rw [scan_last hlead hvalue, hentry lead value hlead hvalue]
      simp
  | hcons lead value rest hlead hvalue ih =>
      obtain ⟨rs, l, hpieces, -⟩ := exists_pieces_entry hlead hvalue
      have hlast : ∀ x ∈ (pieces (lead ++ equals :: value)).getLast?, equals ∈ x := by
        intro x hx
        rw [hpieces] at hx
        obtain rfl : l ++ equals :: value = x := by simpa using hx
        simp
      have hrest : NoGlue (pieces rest) ↔ ∀ nv ∈ scan rest, semicolon ∈ nv.1 → nv.2 = [] := ih
      rw [scan_cons hlead hvalue, List.forall_mem_cons, ← hentry lead value hlead hvalue, ← hrest,
        pieces_entry_append, NoGlue, List.isChain_append]
      exact ⟨fun h => ⟨h.1, h.2.1⟩, fun h => ⟨h.1, h.2, fun x hx _ _ => Or.inl (hlast x hx)⟩⟩

/-! What is stored if there is enough workspace. -/

theorem vmodSet_of_roomy (ht : Roomy t) (hl : (t.cookielist.map Cookie.name).Nodup)
    (name value : CString) : Roomy (vmodSet t (some name) (some value)) ∧
      (vmodSet t (some name) (some value)).cookielist =
        if name = [] ∨ value = [] then t.cookielist else put t.cookielist name value := by
  refine ⟨?_, ?_⟩
  · match name, value with
    | [], _ => exact ht
    | _ :: _, [] => exact ht
    | a :: as, b :: bs =>
        cases hfind : findCookie t.cookielist (a :: as) with
        | some cookie =>
            intro n
            simp [vmodSet, hfind, Task.alloc, ht 0, ht (n + 1)]
        | none =>
            intro n
            simp [vmodSet, hfind, Task.alloc, ht 0, ht 1, ht 2, ht (n + 1 + 1 + 1)]
  · rw [vmodSet_cookielist hl rfl]
    match name, value with
    | [], _ => simp [setSucceeds]
    | _ :: _, [] => simp [setSucceeds]
    | a :: as, b :: bs => simp [setSucceeds, ht 0, ht 1, ht 2]

theorem isStore_putAll {l : List Cookie} (hl : IsStore l) (pairs : List (CString × CString)) :
    IsStore (putAll l pairs) := by
  induction pairs generalizing l with
  | nil => exact hl
  | cons nv pairs ih =>
      rw [putAll, List.foldl_cons]
      split
      · exact ih hl
      · next hne =>
          rw [not_or] at hne
          exact ih (hl.put hne.1 hne.2)

theorem foldl_vmodSet_of_roomy (ht : Roomy t) (hl : IsStore t.cookielist)
    (pairs : List (CString × CString)) :
    Roomy (pairs.foldl (fun t nv => vmodSet t (some (strip nv.1)) (some nv.2)) t) ∧
      (pairs.foldl (fun t nv => vmodSet t (some (strip nv.1)) (some nv.2)) t).cookielist =
        putAll t.cookielist (pairs.map fun nv => (strip nv.1, nv.2)) := by
  induction pairs generalizing t with
  | nil => exact ⟨ht, rfl⟩
  | cons nv pairs ih =>
      obtain ⟨hroomy, hcookies⟩ := vmodSet_of_roomy ht hl.nodup (strip nv.1) nv.2
      have hstore : IsStore (vmodSet t (some (strip nv.1)) (some nv.2)).cookielist := by
        rw [hcookies]
        exact isStore_putAll hl [(strip nv.1, nv.2)]
      obtain ⟨hroomy', hcookies'⟩ := ih hroomy hstore
      refine ⟨hroomy', ?_⟩
      rw [List.foldl_cons, hcookies', hcookies]
      rfl

/-- A header that is not empty is stored as if the task were fresh. -/
theorem vmodParse_of_roomy (ht : Roomy t) (hs : s ≠ []) : (vmodParse t (some s)).cookielist =
    putAll [] ((scan s).map fun nv => (strip nv.1, nv.2)) := by
  rw [vmodParse_cookielist t hs]
  exact (foldl_vmodSet_of_roomy (t := vmodClean t) ht isStore_nil (scan s)).2

/-- `parse` forgets what the task held, unless there is nothing to parse. -/
theorem vmodParse_forgets_iff (cookieheader : Option CString) :
    (∀ t₁ t₂ : Task, Roomy t₁ → Roomy t₂ →
        (vmodParse t₁ cookieheader).cookielist = (vmodParse t₂ cookieheader).cookielist) ↔
      cookieheader ≠ none ∧ cookieheader ≠ some [] := by
  constructor
  · intro h
    have hdiffer := h ⟨[], fun _ => true, []⟩ ⟨[⟨str "a", str "b"⟩], fun _ => true, []⟩
      (fun _ => rfl) fun _ => rfl
    refine ⟨?_, ?_⟩
    · rintro rfl
      exact absurd hdiffer (by decide)
    · rintro rfl
      exact absurd hdiffer (by decide)
  · rintro ⟨hnone, hempty⟩ t₁ t₂ ht₁ ht₂
    obtain ⟨s, rfl⟩ := Option.ne_none_iff_exists'.mp hnone
    have hs : s ≠ [] := fun heq => hempty (congrArg some heq)
    rw [vmodParse_of_roomy ht₁ hs, vmodParse_of_roomy ht₂ hs]

/-- A cookie of one request line survives an empty header on the next. -/
theorem not_vmodParse_forgets :
    ¬ ∀ t₁ t₂ : Task, Roomy t₁ → Roomy t₂ →
      (vmodParse t₁ (some [])).cookielist = (vmodParse t₂ (some [])).cookielist := by
  intro h
  have hdiffer := h ⟨[⟨str "a", str "b"⟩], fun _ => true, []⟩ ⟨[], fun _ => true, []⟩
    (fun _ => rfl) fun _ => rfl
  exact absurd hdiffer (by decide)

/-! The names that are stored. -/

theorem mem_name_putAll {l : List Cookie} {pairs : List (CString × CString)} {name : CString} :
    name ∈ (putAll l pairs).map Cookie.name ↔
      name ∈ l.map Cookie.name ∨ ∃ nv ∈ pairs, nv.1 ≠ [] ∧ nv.2 ≠ [] ∧ nv.1 = name := by
  induction pairs generalizing l with
  | nil => simp [putAll]
  | cons nv pairs ih =>
      rw [putAll, List.foldl_cons]
      split
      · next hempty =>
          refine ih.trans (or_congr_right ?_)
          rw [List.exists_mem_cons_iff]
          refine (or_iff_right ?_).symm
          rintro ⟨hname, hvalue, -⟩
          exact hempty.elim hname hvalue
      · next hne =>
          rw [not_or] at hne
          refine ih.trans ?_
          rw [map_name_put, List.exists_mem_cons_iff, ← or_assoc]
          refine or_congr_left ?_
          split
          · next hmem =>
              refine ⟨Or.inl, ?_⟩
              rintro (h | ⟨-, -, rfl⟩)
              · exact h
              · exact hmem
          · rw [List.mem_append, List.mem_singleton]
            exact or_congr_right ⟨fun heq => ⟨hne.1, hne.2, heq.symm⟩, fun h => h.2.2.symm⟩

theorem not_mem_of_forall₂ {gs nvs : List (CString × CString)}
    (hpairs : List.Forall₂ SameEntry gs nvs) : ∀ g ∈ gs, semicolon ∉ g.1 := by
  induction hpairs with
  | nil => simp
  | cons hentry _ ih => exact List.forall_mem_cons.mpr ⟨hentry.2.1, ih⟩

theorem semicolon_mem_strip : semicolon ∈ strip s ↔ semicolon ∈ s := by
  constructor
  · exact fun h => (List.dropWhile_sublist isspace).mem h
  · intro h
    rw [← List.takeWhile_append_dropWhile (p := isspace) (l := s), List.mem_append] at h
    refine h.resolve_left fun hspace => ?_
    have hfalse : isspace semicolon = true := List.mem_takeWhile_imp hspace
    exact absurd hfalse (by decide)

theorem putAll_congr {gs nvs : List (CString × CString)} (hpairs : List.Forall₂ SameEntry gs nvs)
    (h : ∀ nv ∈ nvs, semicolon ∈ nv.1 → nv.2 = []) (l : List Cookie) :
    putAll l (nvs.map fun nv => (strip nv.1, nv.2)) = putAll l gs := by
  induction hpairs generalizing l with
  | nil => rfl
  | @cons g nv gs nvs hentry _ ih =>
      rw [List.forall_mem_cons] at h
      obtain ⟨hvalue, -, hname⟩ := hentry
      have hstep : (if strip nv.1 = [] ∨ nv.2 = [] then l else put l (strip nv.1) nv.2) =
          if g.1 = [] ∨ g.2 = [] then l else put l g.1 g.2 := by
        rw [hvalue]
        by_cases hempty : nv.2 = []
        · simp [hempty]
        · rw [hname fun hmem => hempty (h.1 hmem)]
      rw [List.map_cons, putAll, putAll, List.foldl_cons, List.foldl_cons, hstep]
      exact ih h.2 _

theorem vmodParse_fresh (vsl : List String) (s : CString) :
    (vmodParse ⟨[], fun _ => true, vsl⟩ (some s)).cookielist =
      putAll [] ((scan s).map fun nv => (strip nv.1, nv.2)) := by
  by_cases hs : s = []
  · subst hs
    rw [scan_none (by simp)]
    rfl
  · exact vmodParse_of_roomy (fun _ => rfl) hs

/-- `parse` follows the grammar just when no piece without an `=` stands before a piece with
a value. -/
theorem vmodParse_eq_grammarStore_iff (vsl : List String) (s : CString) :
    (vmodParse ⟨[], fun _ => true, vsl⟩ (some s)).cookielist = grammarStore s ↔
      NoGlue (pieces s) := by
  rw [vmodParse_fresh, noGlue_pieces_iff]
  constructor
  · intro heq nv hnv hmem
    by_contra hvalue
    have hname : strip nv.1 ∈ (grammarStore s).map Cookie.name := by
      rw [← heq, mem_name_putAll]
      exact Or.inr ⟨(strip nv.1, nv.2), List.mem_map_of_mem hnv,
        List.ne_nil_of_mem (semicolon_mem_strip.mpr hmem), hvalue, rfl⟩
    rw [grammarStore, mem_name_putAll] at hname
    obtain ⟨g, hg, -, -, hgname⟩ := hname.resolve_left (by simp)
    exact not_mem_of_forall₂ (forall₂_grammarPairs s) g hg
      (hgname ▸ semicolon_mem_strip.mpr hmem)
  · exact fun h => putAll_congr (forall₂_grammarPairs s) h []

/-- A flag in front of a cookie becomes part of its name. -/
theorem not_vmodParse_eq_grammarStore :
    (vmodParse ⟨[], fun _ => true, []⟩ (some (str "a; b=c"))).cookielist ≠
      grammarStore (str "a; b=c") := by
  have hlead : equals ∉ str "a; b" := by decide
  have hvalue : semicolon ∉ str "c" := by decide
  have hscan : scan (str "a; b=c") = [(str "a; b", str "c")] := scan_last hlead hvalue
  rw [vmodParse_fresh, hscan]
  decide

end VarnishModules.CookieGrammar
