import VarnishModules.CookieRoundTrip

/-!
What a filter lets through, as another reader of the header sees it.
-/

namespace VarnishModules.CookieWire

open VarnishModules.CStrings
open VarnishModules.CookieModel
open VarnishModules.CookieParse
open VarnishModules.CookieStore
open VarnishModules.CookieGrammar
open VarnishModules.CookieRoundTrip

/-- What stands between separators, without leading whitespace. -/
def fields (sep : UInt8) (s : CString) : List CString :=
  ((s.splitOn sep).map strip).filter (· ≠ [])

def listNames (list : CString) : List CString :=
  fields comma list

def readName (piece : CString) : CString :=
  piece.takeWhile (· != equals)

/-- The names a reader finds in a header. -/
def readNames (s : CString) : List CString :=
  (fields semicolon s).map readName

/-- No name of the list has a byte in it that a header or a list is cut at. -/
def IsNameList (list : CString) : Prop :=
  ∀ name ∈ listNames list, semicolon ∉ name ∧ equals ∉ name ∧ ∀ c ∈ name, isspace c = false

/-- Pieces without an `=` stand before a piece with a value, and one of them all has a name
of the list. -/
def Smuggles (names ps : List CString) : Prop :=
  ∃ pre rs q post, ps = pre ++ rs ++ q :: post ∧ rs ≠ [] ∧ (∀ r ∈ rs, equals ∉ r) ∧
    valueOf q ≠ [] ∧ ∃ r ∈ rs ++ [q], readName (strip r) ∈ names

/-- What is sent on after the cookies of a header have been filtered. -/
def filtered (s list : CString) : Option CString :=
  (vmodGetString (vmodFilter (vmodParse ⟨[], fun _ => true, []⟩ (some s)) (some list))).1

def filteredExcept (s list : CString) : Option CString :=
  (vmodGetString (vmodFilterExcept (vmodParse ⟨[], fun _ => true, []⟩ (some s)) (some list))).1

variable {s list name value lead rest q : CString} {names ps rs : List CString} {l : List Cookie}
  {sep c : UInt8}

/-! The fields of a list or a header. -/

theorem fields_append (s rest : CString) :
    fields sep (s ++ sep :: rest) = fields sep s ++ fields sep rest := by
  rw [fields, List.splitOn_append_cons_self, List.map_append, List.filter_append]
  rfl

theorem fields_nil : fields sep [] = [] := by
  rfl

theorem fields_cons_self (s : CString) : fields sep (sep :: s) = fields sep s :=
  fields_append [] s

theorem fields_of_not_mem (hs : sep ∉ s) (hne : strip s ≠ []) : fields sep s = [strip s] := by
  rw [fields, List.splitOn_eq_singleton hs, List.map_singleton, List.filter_cons_of_pos (by simpa)]
  rfl

theorem map_strip_splitOn_cons (hsep : isspace sep = false) (hc : isspace c = true)
    (s : CString) : ((c :: s).splitOn sep).map strip = (s.splitOn sep).map strip := by
  have hne : (c == sep) = false := by
    refine beq_eq_false_iff_ne.mpr ?_
    rintro rfl
    rw [hsep] at hc
    exact absurd hc (by decide)
  obtain ⟨p, ps, hsplit⟩ := List.exists_cons_of_ne_nil (List.splitOn_ne_nil sep s)
  have hstrip : strip (c :: p) = strip p := by simp [strip, hc]
  rw [List.splitOn_cons_eq_if_modifyHead, hne, if_neg (by decide), hsplit,
    List.modifyHead_cons, List.map_cons, List.map_cons, hstrip]

theorem map_strip_splitOn_strip (hsep : isspace sep = false) (s : CString) :
    ((strip s).splitOn sep).map strip = (s.splitOn sep).map strip := by
  induction s with
  | nil => rfl
  | cons c s ih =>
      by_cases hc : isspace c = true
      · rw [map_strip_splitOn_cons hsep hc, ← ih]
        simp [strip, hc]
      · simp [strip, hc]

theorem fields_strip (hsep : isspace sep = false) (s : CString) :
    fields sep (strip s) = fields sep s :=
  congrArg (List.filter (· ≠ [])) (map_strip_splitOn_strip hsep s)

theorem matchlist_eq_listNames (list : CString) : matchlist list = listNames list := by
  unfold listNames
  fun_induction matchlist list with
  | case1 p hp =>
      have hstrip : strip p = [] := hp
      rw [← fields_strip (by decide), hstrip]
      rfl
  | case2 p c rest hp q hq ih =>
      have hstrip : strip p = c :: rest := hp
      obtain rfl : c = comma := by
        by_contra hne
        simp [q, hne] at hq
      rw [ih, ← fields_strip (by decide) p, hstrip, fields_cons_self]
  | case3 p c rest hp q hq ih =>
      have hstrip : strip p = c :: rest := hp
      have hspace : isspace c = false := by
        have hhead := List.head_dropWhile_not isspace (show p.dropWhile isspace ≠ [] by simp [hp])
        simpa only [hp, List.head_cons] using hhead
      have hclear : comma ∉ q := fun hmem => absurd (List.mem_takeWhile_imp hmem) (by simp)
      have hself : strip q = q := by
        refine strip_eq_self fun x hx => ?_
        obtain rfl : x = c := by
          rw [List.head?_takeWhile, Option.mem_def, Option.filter_eq_some_iff] at hx
          simpa using hx.1.symm
        exact hspace
      have hfields : fields comma q = [q] := by
        rw [fields_of_not_mem hclear (hself.symm ▸ hq), hself]
      rw [ih, ← fields_strip (by decide) p, hstrip]
      have hcut := List.takeWhile_append_dropWhile (p := (· != comma)) (l := c :: rest)
      cases hdrop : (c :: rest).dropWhile (· != comma) with
      | nil =>
          rw [hdrop, List.append_nil] at hcut
          rw [List.tail_nil, fields_nil, ← hcut]
          exact hfields.symm
      | cons x tail =>
          obtain rfl : x = comma := by
            have hhead := List.head_dropWhile_not (· != comma)
              (show (c :: rest).dropWhile (· != comma) ≠ [] by simp [hdrop])
            simpa only [hdrop, List.head_cons, bne_eq_false_iff_eq] using hhead
          rw [hdrop] at hcut
          rw [List.tail_cons, ← hcut, fields_append]
          exact congrArg (· ++ fields comma tail) hfields.symm

/-! What a reader finds in what is printed. -/

theorem readName_of_not_mem (hs : equals ∉ s) : readName s = s :=
  takeWhile_eq hs

theorem readName_append (hs : equals ∉ s) : readName (s ++ equals :: value) = s :=
  takeWhile_append hs

/-- The names read from a cookie are among the stripped pieces of its name. -/
theorem mem_readNames_cookie (hname : equals ∉ name) (hvalue : semicolon ∉ value) {n : CString} :
    (n ∈ readNames (name ++ equals :: value) → ∃ r ∈ pieces name, strip r = n) ∧
      (n ≠ [] → (∃ r ∈ pieces name, strip r = n) → n ∈ readNames (name ++ equals :: value)) := by
  obtain ⟨rs, q, -, -, -, hmem, hpieces⟩ := exists_pieces name
  have hvalue' : semicolon ∉ equals :: value :=
    List.not_mem_cons_of_ne_of_not_mem (by decide) hvalue
  have hplain := hpieces [] (by simp)
  have hwhole := hpieces (equals :: value) hvalue'
  rw [List.append_nil, List.append_nil] at hplain
  have hrs : ∀ r ∈ rs, equals ∉ r := fun r hr h => hname (hmem r (by simp [hr]) _ h)
  have hq : equals ∉ q := fun h => hname (hmem q (by simp) _ h)
  have hreads : readNames (name ++ equals :: value) =
      (((rs.map strip).filter (· ≠ [])).map readName) ++ [strip q] := by
    rw [readNames, fields, ← pieces, hwhole, List.map_append, List.filter_append,
      List.map_append, List.map_singleton, strip_append_equals,
      List.filter_cons_of_pos (by simp), List.filter_nil, List.map_singleton,
      readName_append (not_mem_strip hq)]
  rw [hreads, hplain]
  constructor
  · intro hn
    rcases List.mem_append.mp hn with hn | hn
    · obtain ⟨r', hr', rfl⟩ := List.mem_map.mp hn
      obtain ⟨r, hr, rfl⟩ := List.mem_map.mp (List.mem_of_mem_filter hr')
      exact ⟨r, by simp [hr], (readName_of_not_mem (not_mem_strip (hrs r hr))).symm⟩
    · exact ⟨q, by simp, (List.mem_singleton.mp hn).symm⟩
  · rintro hne ⟨r, hr, rfl⟩
    rcases List.mem_append.mp hr with hr | hr
    · refine List.mem_append_left _ (List.mem_map.mpr ⟨strip r, ?_, ?_⟩)
      · exact List.mem_filter.mpr ⟨List.mem_map_of_mem hr, by simpa using hne⟩
      · exact readName_of_not_mem (not_mem_strip (hrs r hr))
    · obtain rfl := List.mem_singleton.mp hr
      simp

theorem readNames_append (s rest : CString) :
    readNames (s ++ semicolon :: rest) = readNames s ++ readNames rest := by
  rw [readNames, fields_append, List.map_append]
  rfl

theorem readNames_flatMap_printNext (l : List Cookie) : readNames (l.flatMap printNext) =
    l.flatMap fun cookie => readNames (cookie.name ++ equals :: cookie.value) := by
  induction l with
  | nil => rfl
  | cons cookie l ih =>
      have hshape : (cookie :: l).flatMap printNext =
          (32 :: (cookie.name ++ equals :: cookie.value)) ++ semicolon :: l.flatMap printNext := by
        simp [printNext]
      have hblank : readNames (32 :: (cookie.name ++ equals :: cookie.value)) =
          readNames (cookie.name ++ equals :: cookie.value) :=
        congrArg (fun ps => (ps.filter (· ≠ [])).map readName)
          (map_strip_splitOn_cons (by decide) (by decide) _)
      rw [hshape, readNames_append, hblank, ih, List.flatMap_cons]

theorem readNames_printCookies (l : List Cookie) : readNames (printCookies l) =
    l.flatMap fun cookie => readNames (cookie.name ++ equals :: cookie.value) := by
  cases l with
  | nil => rfl
  | cons cookie l =>
      have hshape : printCookies (cookie :: l) =
          (cookie.name ++ equals :: cookie.value) ++ semicolon :: l.flatMap printNext := by
        change cookie.name ++ equals :: cookie.value ++ [semicolon] ++ l.flatMap printNext = _
        simp
      rw [hshape, readNames_append, readNames_flatMap_printNext, List.flatMap_cons]

/-! The pieces of a header that a name runs over. -/

theorem not_smuggles_of_forall (hps : ∀ p ∈ ps, valueOf p = []) : ¬ Smuggles names ps := by
  rintro ⟨pre, rs, q, post, rfl, -, -, hq, -⟩
  exact hq (hps q (by simp))

theorem equals_mem_of_valueOf (hq : valueOf q ≠ []) : equals ∈ q := by
  by_contra hmem
  exact hq (valueOf_eq_nil hmem)

/-- The first piece with an `=` is the end of the front, or stands in it. -/
theorem split_at_first {front post : List CString} {q' : CString} (hrs : ∀ r ∈ rs, equals ∉ r)
    (hq' : equals ∈ q') (heq : rs ++ q :: ps = front ++ q' :: post) :
    (front = rs ∧ q' = q ∧ post = ps) ∨ ∃ d, front = rs ++ q :: d ∧ ps = d ++ q' :: post := by
  induction rs generalizing front with
  | nil =>
      cases front with
      | nil =>
          obtain ⟨rfl, rfl⟩ := List.cons.inj heq
          exact Or.inl ⟨rfl, rfl, rfl⟩
      | cons x front =>
          obtain ⟨rfl, rfl⟩ := List.cons.inj heq
          exact Or.inr ⟨front, rfl, rfl⟩
  | cons r rs ih =>
      rw [List.forall_mem_cons] at hrs
      cases front with
      | nil =>
          obtain ⟨rfl, -⟩ := List.cons.inj heq
          exact absurd hq' hrs.1
      | cons x front =>
          obtain ⟨rfl, htail⟩ := List.cons.inj heq
          rcases ih hrs.2 htail with ⟨rfl, rfl, rfl⟩ | ⟨d, rfl, rfl⟩
          · exact Or.inl ⟨rfl, rfl, rfl⟩
          · exact Or.inr ⟨d, rfl, rfl⟩

theorem smuggles_append_cons_iff (hrs : ∀ r ∈ rs, equals ∉ r) (hq : equals ∈ q) :
    Smuggles names (rs ++ q :: ps) ↔
      (rs ≠ [] ∧ valueOf q ≠ [] ∧ ∃ r ∈ rs ++ [q], readName (strip r) ∈ names) ∨
        Smuggles names ps := by
  constructor
  · rintro ⟨pre, rs', q', post, heq, hne, hrs', hq', r, hr, hname⟩
    rcases split_at_first hrs (equals_mem_of_valueOf hq') heq with
      ⟨rfl, rfl, rfl⟩ | ⟨d, hfront, rfl⟩
    · refine Or.inl ⟨List.append_ne_nil_of_right_ne_nil _ hne, hq', r, ?_, hname⟩
      rw [List.append_assoc]
      exact List.mem_append_right _ hr
    · -- `q` cannot stand among the pieces without an `=`
      obtain ⟨pre', rfl⟩ : ∃ pre', d = pre' ++ rs' := by
        rcases List.append_eq_append_iff.mp hfront with ⟨e, -, he⟩ | ⟨e, -, he⟩
        · exact absurd hq (hrs' q (by simp [he]))
        · cases e with
          | nil => exact absurd hq (hrs' q (by simp [← (show q :: d = rs' from he)]))
          | cons y e => exact ⟨e, (List.cons.inj he).2⟩
      exact Or.inr ⟨pre', rs', q', post, by simp, hne, hrs', hq', r, hr, hname⟩
  · rintro (⟨hne, hvalue, hname⟩ | ⟨pre, rs', q', post, rfl, h⟩)
    · exact ⟨[], rs, q, ps, by simp, hne, hrs, hvalue, hname⟩
    · exact ⟨rs ++ q :: pre, rs', q', post, by simp, h⟩

theorem smuggles_entry_iff (hlead : equals ∉ lead) (hvalue : semicolon ∉ value)
    (ps : List CString) :
    Smuggles names (pieces (lead ++ equals :: value) ++ ps) ↔
      (semicolon ∈ lead ∧ value ≠ [] ∧ ∃ r ∈ pieces lead, strip r ∈ names) ∨
        Smuggles names ps := by
  obtain ⟨rs, q, hrs, -, -, hmem, hpieces⟩ := exists_pieces lead
  have hvalue' : semicolon ∉ equals :: value :=
    List.not_mem_cons_of_ne_of_not_mem (by decide) hvalue
  have hplain := hpieces [] (by simp)
  rw [List.append_nil, List.append_nil] at hplain
  have hclear : ∀ r ∈ rs, equals ∉ r := fun r hr h => hlead (hmem r (by simp [hr]) _ h)
  have hq : equals ∉ q := fun h => hlead (hmem q (by simp) _ h)
  have hname : (∃ r ∈ rs ++ [q ++ equals :: value], readName (strip r) ∈ names) ↔
      ∃ r ∈ rs ++ [q], strip r ∈ names := by
    have hrest : (∃ r ∈ rs, readName (strip r) ∈ names) ↔ ∃ r ∈ rs, strip r ∈ names :=
      exists_congr fun r => and_congr_right fun hr => by
        rw [readName_of_not_mem (not_mem_strip (hclear r hr))]
    simp only [List.mem_append, or_and_right, exists_or, List.mem_singleton, exists_eq_left,
      strip_append_equals, readName_append (not_mem_strip hq), hrest]
  rw [hpieces _ hvalue', hplain, List.append_assoc, List.singleton_append,
    smuggles_append_cons_iff hclear (by simp), valueOf_append hq, hname, Ne, hrs, not_not]

theorem smuggles_pieces_iff (p : CString) : Smuggles names (pieces p) ↔
    ∃ nv ∈ scan p, semicolon ∈ nv.1 ∧ nv.2 ≠ [] ∧ ∃ r ∈ pieces nv.1, strip r ∈ names := by
  have hnil : ¬ Smuggles names [] := not_smuggles_of_forall (by simp)
  induction p using scan_induction with
  | hnone p hp =>
      rw [scan_none hp]
      refine iff_of_false (not_smuggles_of_forall fun q hq => ?_) (by simp)
      exact valueOf_eq_nil (not_mem_of_mem_pieces hp q hq)
  | hlast lead value hlead hvalue =>
      have hentry : Smuggles names (pieces (lead ++ equals :: value) ++ []) ↔ _ :=
        smuggles_entry_iff hlead hvalue []
      rw [List.append_nil] at hentry
      rw [scan_last hlead hvalue, hentry, or_iff_left hnil]
      simp
  | hcons lead value rest hlead hvalue ih =>
      rw [scan_cons hlead hvalue, pieces_entry_append, smuggles_entry_iff hlead hvalue,
        List.exists_mem_cons_iff]
      exact or_congr_right ih

/-! What is sent on. -/

theorem filtered_eq (s list : CString) : filtered s list =
    some (printCookies ((vmodParse ⟨[], fun _ => true, []⟩ (some s)).cookielist.filter
      fun cookie => cookie.name ∉ listNames list)) := by
  have hroomy := (isSound_parse (isSound_fresh []) (some s)).roomy
  rw [filtered, vmodGetString_of_roomy (t := vmodFilter _ _) hroomy]
  simp [vmodFilter, filterCookies, matchlist_eq_listNames]

theorem filteredExcept_eq (s list : CString) : filteredExcept s list =
    some (printCookies ((vmodParse ⟨[], fun _ => true, []⟩ (some s)).cookielist.filter
      fun cookie => cookie.name ∈ listNames list)) := by
  have hroomy := (isSound_parse (isSound_fresh []) (some s)).roomy
  rw [filteredExcept, vmodGetString_of_roomy (t := vmodFilterExcept _ _) hroomy]
  simp [vmodFilterExcept, filterCookies, matchlist_eq_listNames]

theorem readNames_of_not_mem {cookie : Cookie} (hcookie : IsPrintable cookie)
    (hname : semicolon ∉ cookie.name) {n : CString}
    (hn : n ∈ readNames (cookie.name ++ equals :: cookie.value)) : n = cookie.name := by
  obtain ⟨r, hr, rfl⟩ :=
    (mem_readNames_cookie hcookie.equals_not_mem hcookie.semicolon_not_mem).1 hn
  rw [pieces, List.splitOn_eq_singleton hname, List.mem_singleton] at hr
  rw [hr, hcookie.strip_name]

theorem ne_nil_of_mem_listNames (hname : name ∈ listNames list) : name ≠ [] := by
  simpa using List.of_mem_filter hname

/-- A hidden name is read again from what the filter lets through. -/
theorem exists_mem_readNames_of_scan {nv : CString × CString} (hnv : nv ∈ scan s)
    (hlist : IsNameList list) (hsemicolon : semicolon ∈ nv.1) (hvalue : nv.2 ≠ [])
    {r : CString} (hr : r ∈ pieces nv.1) (hname : strip r ∈ listNames list) :
    strip r ∈ readNames (printCookies
      ((vmodParse ⟨[], fun _ => true, []⟩ (some s)).cookielist.filter
        fun cookie => cookie.name ∉ listNames list)) := by
  have hsound := isSound_parse (isSound_fresh []) (some s)
  have hmem : strip nv.1 ∈
      ((vmodParse ⟨[], fun _ => true, []⟩ (some s)).cookielist).map Cookie.name := by
    rw [vmodParse_fresh, mem_name_putAll]
    exact Or.inr ⟨(strip nv.1, nv.2), List.mem_map_of_mem hnv,
      List.ne_nil_of_mem (semicolon_mem_strip.mpr hsemicolon), hvalue, rfl⟩
  obtain ⟨cookie, hcookie, hcname⟩ := List.mem_map.mp hmem
  have hprintable := hsound.printable cookie hcookie
  have hkept : cookie.name ∉ listNames list := fun h =>
    (hlist _ h).1 (hcname ▸ semicolon_mem_strip.mpr hsemicolon)
  have hpiece : strip r ∈ (pieces cookie.name).map strip := by
    rw [hcname, pieces, map_strip_splitOn_strip (by decide)]
    exact List.mem_map_of_mem hr
  rw [readNames_printCookies]
  refine List.mem_flatMap.mpr ⟨cookie, List.mem_filter.mpr ⟨hcookie, by simpa using hkept⟩, ?_⟩
  exact (mem_readNames_cookie hprintable.equals_not_mem hprintable.semicolon_not_mem).2
    (ne_nil_of_mem_listNames hname) (List.mem_map.mp hpiece)

/-- A name of the list that is read from a cookie with another name is hidden in it. -/
theorem exists_scan_of_mem_readNames {cookie : Cookie} {n : CString}
    (hcookie : cookie ∈ (vmodParse ⟨[], fun _ => true, []⟩ (some s)).cookielist)
    (hn : n ∈ readNames (cookie.name ++ equals :: cookie.value)) (hne : n ≠ cookie.name) :
    ∃ nv ∈ scan s, semicolon ∈ nv.1 ∧ nv.2 ≠ [] ∧ ∃ r ∈ pieces nv.1, strip r = n := by
  have hprintable := (isSound_parse (isSound_fresh []) (some s)).printable cookie hcookie
  have hmem := List.mem_map_of_mem (f := Cookie.name) hcookie
  rw [vmodParse_fresh, mem_name_putAll] at hmem
  obtain ⟨nv', hnv', -, hvalue, hname⟩ := hmem.resolve_left (by simp)
  obtain ⟨nv, hnv, rfl⟩ := List.mem_map.mp hnv'
  have hsemicolon : semicolon ∈ cookie.name := by
    by_contra hclear
    exact hne (readNames_of_not_mem hprintable hclear hn)
  have hpiece : n ∈ (pieces cookie.name).map strip := List.mem_map.mpr
    ((mem_readNames_cookie hprintable.equals_not_mem hprintable.semicolon_not_mem).1 hn)
  rw [← hname, pieces, map_strip_splitOn_strip (by decide)] at hpiece
  rw [← hname] at hsemicolon
  exact ⟨nv, hnv, semicolon_mem_strip.mp hsemicolon, hvalue, List.mem_map.mp hpiece⟩

/-- Both filters hold on the wire just when no name of the list is hidden in a longer one. -/
theorem filtered_iff (s list : CString) (hlist : IsNameList list) :
    ((∃ out, filtered s list = some out ∧ ∀ n ∈ readNames out, n ∉ listNames list) ∧
        ∃ out, filteredExcept s list = some out ∧ ∀ n ∈ readNames out, n ∈ listNames list) ↔
      ¬ Smuggles (listNames list) (pieces s) := by
  rw [filtered_eq, filteredExcept_eq, smuggles_pieces_iff]
  constructor
  · rintro ⟨⟨out, hout, hclear⟩, -⟩ ⟨nv, hnv, hsemicolon, hvalue, r, hr, hname⟩
    obtain rfl := Option.some.inj hout
    exact hclear _ (exists_mem_readNames_of_scan hnv hlist hsemicolon hvalue hr hname) hname
  · intro hsmuggles
    refine ⟨⟨_, rfl, fun n hn hname => ?_⟩, _, rfl, fun n hn => ?_⟩
    · rw [readNames_printCookies] at hn
      obtain ⟨cookie, hcookie, hn⟩ := List.mem_flatMap.mp hn
      obtain ⟨hcookie, hkept⟩ := List.mem_filter.mp hcookie
      have hne : n ≠ cookie.name := fun heq => by simp [← heq, hname] at hkept
      obtain ⟨nv, hnv, hsemicolon, hvalue, r, hr, hrn⟩ :=
        exists_scan_of_mem_readNames hcookie hn hne
      exact hsmuggles ⟨nv, hnv, hsemicolon, hvalue, r, hr, hrn ▸ hname⟩
    · rw [readNames_printCookies] at hn
      obtain ⟨cookie, hcookie, hn⟩ := List.mem_flatMap.mp hn
      obtain ⟨hcookie, hkept⟩ := List.mem_filter.mp hcookie
      have hprintable := (isSound_parse (isSound_fresh []) (some s)).printable cookie hcookie
      have hlisted : cookie.name ∈ listNames list := by simpa using hkept
      rw [readNames_of_not_mem hprintable (hlist _ hlisted).1 hn]
      exact hlisted

theorem isNameList_singleton : IsNameList (str "a") := by
  have hlist : listNames (str "a") = [str "a"] := by rfl
  intro name hname
  rw [hlist] at hname
  obtain rfl := List.mem_singleton.mp hname
  refine ⟨by decide, by decide, fun c hc => ?_⟩
  obtain rfl : c = 97 := List.mem_singleton.mp hc
  rfl

theorem filtered_iff_plain :
    ((∃ out, filtered (str "a=1; b=2") (str "a") = some out ∧
        ∀ n ∈ readNames out, n ∉ listNames (str "a")) ∧
      ∃ out, filteredExcept (str "a=1; b=2") (str "a") = some out ∧
        ∀ n ∈ readNames out, n ∈ listNames (str "a")) ↔
      ¬ Smuggles (listNames (str "a")) (pieces (str "a=1; b=2")) :=
  filtered_iff _ _ isNameList_singleton

/-- A flag on the list is sent on in the name of the cookie behind it. -/
theorem not_filtered : IsNameList (str "a") ∧
    ¬ ∃ out, filtered (str "a; b=c") (str "a") = some out ∧
      ∀ n ∈ readNames out, n ∉ listNames (str "a") := by
  refine ⟨isNameList_singleton, ?_⟩
  rintro ⟨out, hout, hclear⟩
  have hlead : equals ∉ str "a; b" := by decide
  have hvalue : semicolon ∉ str "c" := by decide
  have hscan : scan (str "a; b=c") = [(str "a; b", str "c")] := scan_last hlead hvalue
  rw [filtered_eq, vmodParse_fresh, hscan] at hout
  obtain rfl := Option.some.inj hout
  exact hclear (str "a") (by decide) (by decide)

end VarnishModules.CookieWire
