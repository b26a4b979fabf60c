import VarnishModules.XkeySoftpurge

/-!
The number a purge returns, against the objcores it rearms.
-/

namespace VarnishModules.XkeyCount

open VarnishModules.CStrings
open VarnishModules.XkeyModel
open VarnishModules.XkeyRepresentation
open VarnishModules.XkeyIndex
open VarnishModules.XkeyTokens
open VarnishModules.XkeyPurge
open VarnishModules.XkeySoftpurge

/-- The objcores that have been rearmed. -/
def rearmed (st : Purge) : Finset Objcore :=
  (st.calls.map RearmCall.objcore).toFinset

/-- An `int` that has counted to `n`. -/
def counted (n : ℕ) : Option ℤ :=
  if n < intEnd then some n else none

variable {rearm : Rearm} {doSoft : Int} {now : ℚ} {os : List Objcore} {st : Purge} {o : Objcore}

theorem counted_bind_incr (n : ℕ) : (counted n).bind incr = counted (n + 1) := by
  rw [counted, counted, Nat.cast_succ]
  by_cases hn : (n : ℤ) < intEnd
  · rw [if_pos hn, Option.bind_some, incr]
  · have hsucc : ¬ (n : ℤ) + 1 < intEnd := fun h => hn ((Int.lt_succ n).trans h)
    rw [if_neg hn, if_neg hsucc, Option.bind_none]

theorem purgeOcs_i (hst : st.i = counted st.calls.length) :
    (purgeOcs rearm doSoft now os st).i =
      counted (purgeOcs rearm doSoft now os st).calls.length := by
  induction os generalizing st with
  | nil => exact hst
  | cons o os ih =>
      refine ih ?_
      simp only [purgeOc]
      split_ifs <;> simp [hst, counted_bind_incr]

/-- A counter of the elements of a list is the number of different ones if none comes twice and
there are not too many. -/
theorem counted_length_iff {α : Type} [DecidableEq α] {l : List α} :
    counted l.length = some (l.toFinset.card : ℤ) ↔
      (l.toFinset.card : ℤ) < intEnd ∧ l.Nodup := by
  have hnodup : l.toFinset.card = l.length ↔ l.Nodup :=
    Multiset.toFinset_card_eq_card_iff_nodup
  rw [← hnodup]
  constructor
  · intro h
    by_cases hl : (l.length : ℤ) < intEnd
    · rw [counted, if_pos hl, Option.some.injEq, Nat.cast_inj] at h
      exact ⟨h ▸ hl, h.symm⟩
    · simp [counted, hl] at h
  · rintro ⟨hcard, heq⟩
    rw [heq] at hcard
    rw [counted, if_pos hcard, heq]

/-- What a purge returns is the number of the objcores it rearms if it rearms none twice and
there are not too many. -/
theorem purgeOcs_i_iff (hst : st.calls = []) (hi : st.i = some 0) :
    (purgeOcs rearm doSoft now os st).i =
        some ((rearmed (purgeOcs rearm doSoft now os st)).card : ℤ) ↔
      ((rearmed (purgeOcs rearm doSoft now os st)).card : ℤ) < intEnd ∧
        ((purgeOcs rearm doSoft now os st).calls.map RearmCall.objcore).Nodup := by
  have hstart : st.i = counted st.calls.length := by
    rw [hi, hst]
    rfl
  rw [purgeOcs_i hstart, ← List.length_map RearmCall.objcore]
  exact counted_length_iff

/-- A hard purge rearms an objcore as often as it comes to it. -/
theorem nodup_hard_iff (hst : st.calls = []) :
    ((purgeOcs rearm 0 now os st).calls.map RearmCall.objcore).Nodup ↔
      ∀ o, (st.objects o).busy = false → os.count o ≤ 1 := by
  obtain ⟨hcalls, -⟩ := purgeOcs_hard rearm now os st
  rw [hcalls, hst, List.map_nil, List.nil_append, List.nodup_iff_count_le_one]
  refine forall_congr' fun o => ?_
  cases hbusy : (st.objects o).busy with
  | true =>
      have habsent : o ∉ os.filter fun o => !(st.objects o).busy := fun h => by
        simpa [hbusy] using List.of_mem_filter h
      rw [List.count_eq_zero.mpr habsent]
      simp
  | false => rw [List.count_filter (by simp [hbusy]), eq_self, true_imp_iff]

/-- The number of links between an objcore and the tokens of a string, one token after the
other. -/
def linksSince (sha256 : CString → Digest) (calls : List Call) (key : Option CString)
    (o : Objcore) : Nat :=
  ((keyTokens key).map fun t => insertsSince calls o (sha256 t)).sum

theorem linksUnder_index (sha256 : CString → Digest) (calls : List Call) (key : Option CString)
    (o : Objcore) :
    linksUnder sha256 (index calls fun _ => []) (keyTokens key) o =
      linksSince sha256 calls key o := by
  simp only [linksUnder, linksSince, count_index]

/-- The objcores with an insert. -/
def inserted (calls : List Call) : Finset Objcore :=
  (calls.filterMap fun
    | .insert o _ => some o
    | .cbRemove _ => none).toFinset

theorem mem_inserted {calls : List Call} {d : Digest} (h : 0 < insertsSince calls o d) :
    o ∈ inserted calls := by
  have hmem := (List.takeWhile_sublist _).subset (List.count_pos_iff.mp h)
  exact List.mem_toFinset.mpr
    (List.mem_filterMap.mpr ⟨.insert o d, List.mem_reverse.mp hmem, rfl⟩)

/-- The objcores with a link to a token of the string that are not busy. -/
def linked (sha256 : CString → Digest) (calls : List Call) (objects : Objcore → ObjcoreData)
    (key : Option CString) : Finset Objcore :=
  (inserted calls).filter fun o => (objects o).busy = false ∧ 0 < linksSince sha256 calls key o

theorem mem_linked {sha256 : CString → Digest} {calls : List Call}
    {objects : Objcore → ObjcoreData} {key : Option CString} :
    o ∈ linked sha256 calls objects key ↔
      (objects o).busy = false ∧ 0 < linksSince sha256 calls key o := by
  rw [linked, Finset.mem_filter, and_iff_right_iff_imp]
  rintro ⟨-, hpos⟩
  obtain ⟨n, hn, hne⟩ := List.exists_mem_ne_zero_of_sum_ne_zero hpos.ne'
  obtain ⟨t, -, rfl⟩ := List.mem_map.mp hn
  exact mem_inserted (Nat.pos_of_ne_zero hne)

section Rearmed

variable {sha256 : CString → Digest} {calls : List Call} {objects : Objcore → ObjcoreData}
variable {key : Option CString}

theorem rearmed_hard (hst : st.calls = []) (hos : ∀ o, os.count o = linksSince sha256 calls key o) :
    rearmed (purgeOcs rearm 0 now os st) = linked sha256 calls st.objects key := by
  obtain ⟨hcalls, -⟩ := purgeOcs_hard rearm now os st
  ext o
  rw [rearmed, hcalls, hst, mem_linked, ← hos o, List.count_pos_iff]
  simp [and_comm]

/-- Of those a soft purge rearms the ones whose time to live has not run out. -/
theorem rearmed_soft (hrearm : EndsTtl rearm) (hst : st.calls = [])
    (hos : ∀ o, os.count o = linksSince sha256 calls key o) :
    rearmed (purgeOcs rearm 1 now os st) = (linked sha256 calls st.objects key).filter fun o =>
      now - (st.objects o).exp.tOrigin < (st.objects o).exp.ttl := by
  ext o
  rw [rearmed, List.mem_toFinset, List.mem_map, Finset.mem_filter, mem_linked, ← hos o,
    List.count_pos_iff]
  simp only [mem_purgeOcs_calls hrearm, hst, List.not_mem_nil, false_or, softCall_eq_some_iff]
  constructor
  · rintro ⟨_, ⟨o, ho, hbusy, httl, rfl⟩, rfl⟩
    exact ⟨⟨hbusy, ho⟩, httl⟩
  · rintro ⟨⟨hbusy, ho⟩, httl⟩
    exact ⟨_, ⟨o, ho, hbusy, httl, rfl⟩, rfl⟩

end Rearmed

/-- After any inserts and removals, a hard purge returns the number of objcores it rearms just
when no objcore that is not busy has two links to the tokens and an `int` can count those that
have one.  A soft one does just when an `int` can count the ones it finds with time to live. -/
theorem run_purge_count (sha256 : CString → Digest) (hrearm : EndsTtl rearm) (calls : List Call)
    (objects : Objcore → ObjcoreData) (key : Option CString) (now : ℚ) :
    ∃ s, run calls Xkey.initial = .ok s ∧
      (∃ st, vmodPurge sha256 rearm now (.start s objects) key = .ok st ∧
        (st.i = some ((rearmed st).card : ℤ) ↔
          ((linked sha256 calls objects key).card : ℤ) < intEnd ∧
            ∀ o, (objects o).busy = false → linksSince sha256 calls key o ≤ 1)) ∧
      ∃ st, vmodSoftpurge sha256 rearm now (.start s objects) key = .ok st ∧
        (st.i = some ((rearmed st).card : ℤ) ↔
          (((linked sha256 calls objects key).filter fun o =>
            now - (objects o).exp.tOrigin < (objects o).exp.ttl).card : ℤ) < intEnd) := by
  obtain ⟨s, g, hrun, hs, -, -⟩ := run_spec calls represents_initial settled_initial
  obtain ⟨os, hcount, hpurge⟩ := purge_spec_count sha256 hs key
  have hos : ∀ o, os.count o = linksSince sha256 calls key o := fun o =>
    (hcount o).trans (linksUnder_index sha256 calls key o)
  refine ⟨s, hrun, ⟨_, hpurge rearm 0 now (.start s objects) rfl, ?_⟩,
    _, hpurge rearm 1 now (.start s objects) rfl, ?_⟩
  · rw [purgeOcs_i_iff rfl rfl, rearmed_hard rfl hos, nodup_hard_iff rfl]
    refine and_congr_right' (forall_congr' fun o => ?_)
    rw [hos]
    rfl
  · have hnodup : ((purgeOcs rearm 1 now os (.start s objects)).calls.map
        RearmCall.objcore).Nodup :=
      nodup_soft hrearm (by simp [Purge.start]) (by simp [Purge.start])
    rw [purgeOcs_i_iff rfl rfl, rearmed_soft hrearm rfl hos]
    exact and_iff_left hnodup

theorem keyTokens_oneKey : keyTokens (some (str "a")) = [str "a"] := by
  change tokens (str "a") = _
  rw [tokens_of_some (show xkeyTok (str "a") = some (str "a", []) by decide),
    tokens_of_none (by decide)]

/-- One object with two keys, and one of them. -/
theorem run_purge_count_twoKeys :
    ∃ s, run twoKeys Xkey.initial = .ok s ∧
      (∃ st, vmodPurge sha256Table setExp 5 (.start s fun _ => ⟨false, ⟨10, 0, 0, 0⟩⟩)
          (some (str "a")) = .ok st ∧ st.i = some ((rearmed st).card : ℤ)) ∧
      ∃ st, vmodSoftpurge sha256Table setExp 5 (.start s fun _ => ⟨false, ⟨10, 0, 0, 0⟩⟩)
          (some (str "a")) = .ok st ∧ st.i = some ((rearmed st).card : ℤ) := by
  have hinserted : (inserted twoKeys).card = 1 := by decide
  have hcard : (linked sha256Table twoKeys (fun _ => ⟨false, ⟨10, 0, 0, 0⟩⟩)
      (some (str "a"))).card ≤ 1 := hinserted ▸ Finset.card_filter_le _ _
  obtain ⟨s, hrun, ⟨st, hst, hiff⟩, st', hst', hiff'⟩ :=
    run_purge_count sha256Table endsTtl_setExp twoKeys (fun _ => ⟨false, ⟨10, 0, 0, 0⟩⟩)
      (some (str "a")) 5
  refine ⟨s, hrun, ⟨st, hst, hiff.mpr ⟨?_, fun o _ => ?_⟩⟩, st', hst', hiff'.mpr ?_⟩
  · exact lt_of_le_of_lt (Nat.cast_le.mpr hcard) (by decide)
  · rw [linksSince, keyTokens_oneKey]
    by_cases ho : o = 1
    · rw [ho]
      decide +kernel
    · simp [insertsSince_twoKeys_of_ne ho]
  · exact lt_of_le_of_lt (Nat.cast_le.mpr ((Finset.card_filter_le _ _).trans hcard)) (by decide)

theorem linksSince_twoKeys : linksSince sha256Table twoKeys (some (str "a b")) 1 = 2 := by
  rw [linksSince, keyTokens_twoKeys]
  decide +kernel

/-- A purge of both keys counts the object twice. -/
theorem not_purge_count_twoKeys :
    ∃ s st, run twoKeys Xkey.initial = .ok s ∧
      vmodPurge sha256Table setExp 5 (.start s fun _ => ⟨false, ⟨10, 0, 0, 0⟩⟩)
        (some (str "a b")) = .ok st ∧ st.i ≠ some ((rearmed st).card : ℤ) := by
  obtain ⟨s, g, hrun, hs, -, -⟩ := run_spec twoKeys represents_initial settled_initial
  obtain ⟨os, hcount, hpurge⟩ := purge_spec_count sha256Table hs (some (str "a b"))
  refine ⟨s, _, hrun, hpurge setExp 0 5 (.start s _) rfl, fun heq => ?_⟩
  have hle := (nodup_hard_iff rfl).mp ((purgeOcs_i_iff rfl rfl).mp heq).2 1 rfl
  rw [hcount, linksUnder_index, linksSince_twoKeys] at hle
  exact absurd hle (by decide)

end VarnishModules.XkeyCount
