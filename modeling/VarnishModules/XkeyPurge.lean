import VarnishModules.XkeyIndex
import VarnishModules.XkeyTokens

/-!
`purge` and `softpurge`.

`EXP_Rearm` and SHA256 are parameters: the first one maps the expiry data of an
objcore and the arguments `now`, `ttl`, `grace`, `keep` to the new data.  The
calls of `EXP_Rearm` are recorded with their arguments.
-/

namespace VarnishModules.XkeyPurge

open VarnishModules.CStrings
open VarnishModules.TailQueue
open VarnishModules.XkeyModel
open VarnishModules.XkeyRepresentation
open VarnishModules.XkeyIndex
open VarnishModules.XkeyTokens

structure Exp where
  ttl : ℚ
  tOrigin : ℚ
  grace : ℚ
  keep : ℚ
  deriving DecidableEq

/-- What `purge` reads of an objcore: the flag `OC_F_BUSY` and the expiry data. -/
structure ObjcoreData where
  busy : Bool
  exp : Exp
  deriving DecidableEq

abbrev Rearm := Exp → ℚ → ℚ → ℚ → ℚ → Exp

structure RearmCall where
  objcore : Objcore
  now : ℚ
  ttl : ℚ
  grace : ℚ
  keep : ℚ
  deriving DecidableEq

/-- The least number that is too large for an `int`. -/
def intEnd : ℤ := 2 ^ 31

/-- `i++` on an `int`; it is not defined for the largest one. -/
def incr (i : ℤ) : Option ℤ :=
  if i + 1 < intEnd then some (i + 1) else none

/-- The state of a purge: what it can reach, and its counter, which is lost once it has
overflowed. -/
structure Purge where
  xkey : Xkey
  objects : Objcore → ObjcoreData
  calls : List RearmCall
  i : Option ℤ

def Purge.start (xkey : Xkey) (objects : Objcore → ObjcoreData) : Purge where
  xkey := xkey
  objects := objects
  calls := []
  i := some 0

section

variable (sha256 : CString → Digest) (rearm : Rearm) (doSoft : Int) (now : ℚ)

/-- The body of the loop over the list of a hashhead. -/
def purgeOc (st : Purge) (objcore : Objcore) : Purge :=
  let oc := st.objects objcore
  if oc.busy then st
  else if doSoft ≠ 0 ∧ oc.exp.ttl ≤ now - oc.exp.tOrigin then st
  else
    let call : RearmCall :=
      if doSoft ≠ 0 then ⟨objcore, now, 0, oc.exp.grace, oc.exp.keep⟩
      else ⟨objcore, oc.exp.tOrigin, 0, 0, 0⟩
    let exp := rearm oc.exp call.now call.ttl call.grace call.keep
    { st with
      objects := Function.update st.objects objcore { oc with exp }
      calls := st.calls ++ [call]
      i := st.i.bind incr }

def purgeLoop : Nat → Option OcPtr → Purge → Except Fault Purge
  | _, none, st => .ok st
  | 0, some _, _ => .error .outOfFuel
  | n + 1, some oc, st => do
      st.xkey.ocs.queues.touchElem oc
      match st.xkey.objcore oc with
      | none => .error .assertion
      | some objcore =>
          let st := purgeOc rearm doSoft now st objcore
          purgeLoop n (st.xkey.ocs.queues.next .listHashhead oc) st

/-- What `purge` does for one of its keys. -/
def purgeKey (st : Purge) (key : CString) : Except Fault Purge := do
  match ← xkeyHashtreeLookup st.xkey (sha256 key) with
  | none => return st
  | some hashhead =>
      purgeLoop rearm doSoft now st.xkey.ocs.fresh
        (st.xkey.ocs.queues.first (.hashhead hashhead)) st

/-- A `NULL` or empty string purges nothing. -/
def purge (st : Purge) (key : Option CString) : Except Fault Purge :=
  match key with
  | none => .ok st
  | some [] => .ok st
  | some key => (tokens key).foldlM (purgeKey sha256 rearm doSoft now) st

def vmodPurge (st : Purge) (key : Option CString) : Except Fault Purge :=
  purge sha256 rearm 0 now st key

def vmodSoftpurge (st : Purge) (key : Option CString) : Except Fault Purge :=
  purge sha256 rearm 1 now st key

/-- A purge that comes to these objcores in turn. -/
def purgeOcs (os : List Objcore) (st : Purge) : Purge :=
  os.foldl (purgeOc rearm doSoft now) st

@[simp] theorem purgeOc_xkey (st : Purge) (o : Objcore) :
    (purgeOc rearm doSoft now st o).xkey = st.xkey := by
  simp only [purgeOc]
  split_ifs <;> rfl

@[simp] theorem purgeOcs_xkey (os : List Objcore) (st : Purge) :
    (purgeOcs rearm doSoft now os st).xkey = st.xkey := by
  induction os generalizing st with
  | nil => rfl
  | cons o os ih => exact (ih _).trans (purgeOc_xkey rearm doSoft now st o)

theorem purgeOcs_append (os os' : List Objcore) (st : Purge) :
    purgeOcs rearm doSoft now (os ++ os') st =
      purgeOcs rearm doSoft now os' (purgeOcs rearm doSoft now os st) :=
  List.foldl_append

theorem purgeLoop_eq {m : Queues OcsHead OcLink OcPtr} {c : Slot OcsHead OcLink OcPtr}
    {ps : List OcPtr} {n : Nat} {st : Purge} (hm : st.xkey.ocs.queues = m)
    (hseg : Segment m .listHashhead c ps)
    (hstop : m.read (endSlot .listHashhead c ps) = none) (hn : ps.length ≤ n)
    (hobjcore : ∀ p ∈ ps, ∃ o, st.xkey.objcore p = some o) :
    purgeLoop rearm doSoft now n (m.read c) st =
      .ok (purgeOcs rearm doSoft now (ps.filterMap st.xkey.objcore) st) := by
  induction ps generalizing c n st with
  | nil =>
      rw [show m.read c = none from hstop]
      cases n <;> rfl
  | cons p ps ih =>
      obtain ⟨hread, -, hlive, htail⟩ := hseg
      obtain ⟨n, rfl⟩ : ∃ k, n = k + 1 := ⟨n - 1, by simp at hn; omega⟩
      obtain ⟨o, ho⟩ := hobjcore p (by simp)
      have hm' : (purgeOc rearm doSoft now st o).xkey.ocs.queues = m := by simpa using hm
      have hnext := ih (n := n) hm' htail hstop (by simpa using hn)
        (by simpa using fun q hq => hobjcore q (by simp [hq]))
      rw [hread, List.filterMap_cons_some ho]
      refine (ok_bind (touchElem_ok (hm ▸ hlive))).trans ?_
      simp only [ho, purgeOc_xkey, hm]
      simpa [purgeOcs] using hnext

end

variable (sha256 : CString → Digest) {s : Xkey} {g : Shape} {ix : Objcore → List Digest}

/-- A digest of an objcore has a hashhead with a link to the objcore. -/
theorem exists_link (hs : Represents s g ix) {o : Objcore} {d : Digest} (hd : d ∈ ix o) :
    ∃ k ∈ s.hashtree, s.digest k = d ∧ ∃ p ∈ g.hashhead k, s.objcore p = some o := by
  by_cases hfound : ∃ h ∈ s.octree, s.ptr h = (o : Nat)
  · obtain ⟨h, hh, hptr⟩ := hfound
    have hmem : some d ∈ (ix o).map some := List.mem_map.mpr ⟨d, hd, rfl⟩
    rw [← hs.map_keyOf hh hptr] at hmem
    obtain ⟨p, hp, hkey⟩ := List.mem_map.mp hmem
    obtain ⟨k, -, hk, hpk, -, -⟩ := hs.ochead_link h p hp
    exact ⟨k, hs.mem_hashtree hpk, by simpa [keyOf, hk] using hkey, p, hpk,
      hs.objcore_of_mem hp hptr⟩
  · rw [hs.index_absent o fun h hh hptr => hfound ⟨h, hh, hptr⟩] at hd
    simp at hd

/-- The list of a hashhead leads to each objcore as often as it carries the digest. -/
theorem count_hashhead (hs : Represents s g ix) {k : HashheadPtr} (hk : k ∈ s.hashtree)
    (o : Objcore) :
    ((g.hashhead k).filterMap s.objcore).count o = (ix o).count (s.digest k) := by
  have hnodup := (hs.hashhead_queue k (hs.hashheads.live_tree hk)).nodup
  have hperm : ((g.hashhead k).filter fun p => s.objcore p = some o).Perm
      ((s.octree.flatMap g.ochead).filter fun p =>
        s.objcore p = some o ∧ (s.hashhead p).map s.digest = some (s.digest k)) := by
    refine (List.perm_ext_iff_of_nodup (hnodup.filter _) ((nodup_ocs hs).filter _)).mpr fun p => ?_
    simp only [List.mem_filter, List.mem_flatMap, decide_eq_true_eq]
    constructor
    · rintro ⟨hp, ho⟩
      obtain ⟨hpk, h, hh⟩ := hs.hashhead_link k p hp
      exact ⟨⟨h, hs.mem_octree hh, hh⟩, ho, by rw [hpk]; rfl⟩
    · rintro ⟨⟨h, -, hh⟩, ho, hdigest⟩
      obtain ⟨k', -, hk', hpk', -⟩ := hs.ochead_link h p hh
      rw [hk', Option.map_some, Option.some.injEq] at hdigest
      obtain rfl : k' = k := hs.hashtree.key_injOn (hs.mem_hashtree hpk') hk hdigest
      exact ⟨hpk', ho⟩
  rw [← links_listsOf hs, Lists.links, listsOf, List.countP_eq_length_filter, ← hperm.length_eq,
    List.count, List.countP_filterMap, List.countP_eq_length_filter]
  congr 2
  funext p
  cases s.objcore p with
  | none => simp
  | some o' => simp [beq_eq_decide]

/-- The number of links an objcore has under the keys, one after the other. -/
def linksUnder (ix : Objcore → List Digest) (keys : List CString) (o : Objcore) : Nat :=
  (keys.map fun t => (ix o).count (sha256 t)).sum

theorem linksUnder_pos_iff {keys : List CString} {o : Objcore} :
    0 < linksUnder sha256 ix keys o ↔ ∃ t ∈ keys, sha256 t ∈ ix o := by
  simp [linksUnder, Nat.pos_iff_ne_zero, List.sum_eq_zero_iff, List.count_eq_zero]

theorem purgeKey_spec (hs : Represents s g ix) (key : CString) :
    ∃ os : List Objcore, (∀ o, os.count o = (ix o).count (sha256 key)) ∧
      ∀ rearm doSoft now st, st.xkey = s →
        purgeKey sha256 rearm doSoft now st key = .ok (purgeOcs rearm doSoft now os st) := by
  cases hfind : OrderedTree.find s.digest (sha256 key) s.hashtree with
  | none =>
      refine ⟨[], fun o => ?_, ?_⟩
      · refine (List.count_eq_zero.mpr fun hd => ?_).symm
        obtain ⟨k, hk, hdigest, -⟩ := exists_link hs hd
        exact OrderedTree.find_eq_none_iff.mp hfind k hk hdigest
      · rintro rearm doSoft now st rfl
        simp [purgeKey, xkeyHashtreeLookup, hfind, purgeOcs, bind, Except.bind, pure, Except.pure]
  | some k =>
      obtain ⟨hk, hdigest⟩ := (OrderedTree.find_eq_some_iff hs.hashtree).mp hfind
      have hlive := hs.hashheads.live_tree hk
      have hq := hs.hashhead_queue k hlive
      refine ⟨(g.hashhead k).filterMap s.objcore, fun o => hdigest ▸ count_hashhead hs hk o, ?_⟩
      rintro rearm doSoft now st rfl
      have hobjcore : ∀ p ∈ g.hashhead k, ∃ o, st.xkey.objcore p = some o := by
        intro p hp
        obtain ⟨-, h, hh⟩ := hs.hashhead_link k p hp
        obtain ⟨-, o, -, -, ho, -⟩ := hs.ochead_link h p hh
        exact ⟨o, ho⟩
      have hloop := purgeLoop_eq rearm doSoft now rfl hq.segment hq.stop
        (hs.ocs.length_le_fresh hq) hobjcore
      simpa [purgeKey, xkeyHashtreeLookup, hfind, touchElem_ok hlive, bind, Except.bind, pure,
        Except.pure] using hloop

/-- The tokens of the argument of a purge. -/
def keyTokens (key : Option CString) : List CString :=
  key.elim [] tokens

theorem purge_eq_foldlM (rearm : Rearm) (doSoft : Int) (now : ℚ) (st : Purge)
    (key : Option CString) :
    purge sha256 rearm doSoft now st key =
      (keyTokens key).foldlM (purgeKey sha256 rearm doSoft now) st := by
  cases key with
  | none => rfl
  | some key =>
      cases key with
      | nil => rw [show keyTokens (some []) = [] from tokens_of_none rfl]; rfl
      | cons c key => rfl

theorem foldlM_purgeKey_spec (hs : Represents s g ix) (keys : List CString) :
    ∃ os : List Objcore, (∀ o, os.count o = linksUnder sha256 ix keys o) ∧
      ∀ rearm doSoft now st, st.xkey = s →
        keys.foldlM (purgeKey sha256 rearm doSoft now) st =
          .ok (purgeOcs rearm doSoft now os st) := by
  induction keys with
  | nil => exact ⟨[], by simp [linksUnder], fun _ _ _ _ _ => rfl⟩
  | cons key keys ih =>
      obtain ⟨os, hcount, hkey⟩ := purgeKey_spec sha256 hs key
      obtain ⟨os', hcount', hkeys⟩ := ih
      refine ⟨os ++ os', fun o => ?_, fun rearm doSoft now st hst => ?_⟩
      · rw [List.count_append, hcount, hcount']
        rfl
      · rw [purgeOcs_append]
        exact (ok_bind (hkey rearm doSoft now st hst)).trans
          (hkeys rearm doSoft now _ (by simpa using hst))

/-- A purge comes to each objcore as often as it is linked to one of the keys, and it does not
depend on the state of the objects which ones these are. -/
theorem purge_spec_count (hs : Represents s g ix) (key : Option CString) :
    ∃ os : List Objcore, (∀ o, os.count o = linksUnder sha256 ix (keyTokens key) o) ∧
      ∀ rearm doSoft now st, st.xkey = s →
        purge sha256 rearm doSoft now st key = .ok (purgeOcs rearm doSoft now os st) := by
  obtain ⟨os, hcount, hkeys⟩ := foldlM_purgeKey_spec sha256 hs (keyTokens key)
  exact ⟨os, hcount, fun rearm doSoft now st hst =>
    (purge_eq_foldlM sha256 rearm doSoft now st key).trans (hkeys rearm doSoft now st hst)⟩

theorem purge_spec (hs : Represents s g ix) (key : Option CString) :
    ∃ os : List Objcore, (∀ o, o ∈ os ↔ ∃ t ∈ keyTokens key, sha256 t ∈ ix o) ∧
      ∀ rearm doSoft now st, st.xkey = s →
        purge sha256 rearm doSoft now st key = .ok (purgeOcs rearm doSoft now os st) := by
  obtain ⟨os, hcount, hpurge⟩ := purge_spec_count sha256 hs key
  refine ⟨os, fun o => ?_, hpurge⟩
  rw [← List.count_pos_iff, hcount, linksUnder_pos_iff]

theorem purgeOc_busy (rearm : Rearm) (doSoft : Int) (now : ℚ) (st : Purge) (o o' : Objcore) :
    ((purgeOc rearm doSoft now st o).objects o').busy = (st.objects o').busy := by
  simp only [purgeOc]
  split_ifs
  all_goals first
    | rfl
    | by_cases ho : o' = o <;> simp [ho]

/-- A hard purge rearms each objcore it comes to, unless it is busy. -/
theorem purgeOcs_hard (rearm : Rearm) (now : ℚ) (os : List Objcore) (st : Purge) :
    (purgeOcs rearm 0 now os st).calls.map RearmCall.objcore =
        st.calls.map RearmCall.objcore ++ os.filter (fun o => !(st.objects o).busy) ∧
      ∀ o, (o ∈ os → (st.objects o).busy = true) →
        (purgeOcs rearm 0 now os st).objects o = st.objects o := by
  induction os generalizing st with
  | nil => simp [purgeOcs]
  | cons o os ih =>
      obtain ⟨hcalls, hobjects⟩ := ih (purgeOc rearm 0 now st o)
      simp only [purgeOc_busy] at hcalls hobjects
      by_cases hbusy : (st.objects o).busy = true
      · have hskip : purgeOc rearm 0 now st o = st := by simp [purgeOc, hbusy]
        rw [hskip] at hcalls hobjects
        refine ⟨?_, fun o' ho' => ?_⟩
        · simpa [purgeOcs, hskip, hbusy] using hcalls
        · simpa [purgeOcs, hskip] using hobjects o' fun hmem => ho' (by simp [hmem])
      · refine ⟨?_, fun o' ho' => ?_⟩
        · have hcall : (purgeOc rearm 0 now st o).calls.map RearmCall.objcore =
              st.calls.map RearmCall.objcore ++ [o] := by
            simp [purgeOc, hbusy]
          rw [hcall] at hcalls
          simpa [purgeOcs, hbusy] using hcalls
        · have hne : o' ≠ o := by
            rintro rfl
            exact hbusy (ho' (by simp))
          have hkeep : (purgeOc rearm 0 now st o).objects o' = st.objects o' := by
            simp [purgeOc, hbusy, hne]
          rw [← hkeep]
          exact hobjects o' fun hmem => ho' (by simp [hmem])

/-! Concrete parameters for runs on given inputs. -/

/-- SHA256 of two short keys. -/
def sha256Table (t : CString) : Digest :=
  if t = [97] then
    ⟨[202, 151, 129, 18, 202, 27, 189, 202, 250, 194, 49, 179, 154, 35, 220, 77, 167, 134,
      239, 248, 20, 124, 78, 114, 185, 128, 119, 133, 175, 238, 72, 187], rfl⟩
  else if t = [98] then
    ⟨[62, 35, 232, 22, 0, 57, 89, 74, 51, 137, 79, 101, 100, 225, 177, 52, 139, 189, 122, 0,
      136, 212, 44, 74, 203, 115, 238, 174, 213, 156, 0, 157], rfl⟩
  else Digest.zero

/-- The expiry data after `EXP_Rearm`: the time to live ends `ttl` after `now`. -/
def setExp : Rearm := fun e now ttl grace keep => ⟨now + ttl - e.tOrigin, e.tOrigin, grace, keep⟩

end VarnishModules.XkeyPurge
