import VarnishModules.CStrings
import VarnishModules.MaximalRuns
import VarnishModules.TailQueue

/-!
The keys of an object: the tokens of its `xkey` and `X-HashTwo` headers.
-/

namespace VarnishModules.XkeyTokens

open VarnishModules.CStrings
open VarnishModules.MaximalRuns
open VarnishModules.TailQueue

/-- `xkey_tok` returns the token from `*b` to `*e` and the string at `*e`, or
nothing if there is no token left. -/
def xkeyTok (b : CString) : Option (CString × CString) :=
  let b := b.dropWhile isblank
  let tok := b.takeWhile fun c => !isblank c
  if tok = [] then none else some (tok, b.dropWhile fun c => !isblank c)

theorem xkeyTok_length {b tok e : CString} (h : xkeyTok b = some (tok, e)) :
    e.length < b.length := by
  simp only [xkeyTok] at h
  split at h
  · simp at h
  · rename_i htok
    obtain ⟨rfl, rfl⟩ := Prod.mk.inj (Option.some.inj h)
    have hpos := List.length_pos_of_ne_nil htok
    have hlen := congrArg List.length
      (List.takeWhile_append_dropWhile (p := fun c => !isblank c) (l := b.dropWhile isblank))
    have hle := (List.dropWhile_suffix (l := b) isblank).length_le
    rw [List.length_append] at hlen
    omega

/-- The tokens `while (xkey_tok(&sp, &ep))` runs through. -/
def tokens (sp : CString) : List CString :=
  match _h : xkeyTok sp with
  | none => []
  | some (tok, ep) => tok :: tokens ep
termination_by sp.length
decreasing_by exact xkeyTok_length _h

theorem tokens_of_none {sp : CString} (h : xkeyTok sp = none) : tokens sp = [] := by
  rw [tokens]
  split
  · rfl
  · simp_all

theorem tokens_of_some {sp tok ep : CString} (h : xkeyTok sp = some (tok, ep)) :
    tokens sp = tok :: tokens ep := by
  rw [tokens]
  split
  · simp_all
  · simp_all

theorem mem_tokens_iff {sp r : CString} : r ∈ tokens sp ↔ IsRun isblank r sp := by
  induction sp using tokens.induct with
  | case1 sp h =>
      rw [tokens_of_none h, isRun_iff_scan]
      simp only [xkeyTok] at h
      split at h
      · simp_all
      · simp at h
  | case2 sp tok ep h ih =>
      rw [tokens_of_some h, isRun_iff_scan, List.mem_cons, ih]
      simp only [xkeyTok] at h
      split at h
      · simp at h
      · rename_i htok
        obtain ⟨rfl, rfl⟩ := Prod.mk.inj (Option.some.inj h)
        simp [htok]

def hdrXkey : CString := str "xkey:"
def hdrH2 : CString := str "X-HashTwo:"

/-- The keys of one header line, in the order `xkey_cb_insert` comes to them. -/
def headerKeys (sp : CString) : Except Fault (List CString) :=
  if strncasecmp sp hdrXkey 5 ≠ 0 ∧ strncasecmp sp hdrH2 10 ≠ 0 then
    .ok []
  else
    match strchr sp 58 with
    | none => .error .assertion
    | some sp => .ok (tokens sp.tail)

/-- The keys `xkey_cb_insert` inserts for an object with these header lines. -/
def objectKeys (hdrs : List CString) : Except Fault (List CString) := do
  let keys ← hdrs.mapM headerKeys
  return keys.flatten

/-- A header line with the name `xkey` or `X-HashTwo`, in any case. -/
def IsXkeyHeader (hdr value : CString) : Prop :=
  ∃ name, hdr = name ++ 58 :: value ∧
    (name.map tolower = str "xkey" ∨ name.map tolower = str "x-hashtwo")

theorem tolower_eq_colon {c : UInt8} : tolower c = 58 ↔ c = 58 := by
  unfold tolower
  split
  · rename_i hletter
    have h₁ := UInt8.le_iff_toNat_le.mp hletter.1
    have h₂ := UInt8.le_iff_toNat_le.mp hletter.2
    simp only [← UInt8.toNat_inj]
    simp at h₁ h₂ ⊢
    omega
  · rfl

theorem colon_not_mem {name n : CString} (hn : (58 : UInt8) ∉ n.map tolower)
    (hname : name.map tolower = n.map tolower) : (58 : UInt8) ∉ name := by
  intro hmem
  apply hn
  rw [← hname]
  exact List.mem_map.mpr ⟨58, hmem, rfl⟩

/-- The comparison with a name and a colon reads the name of the header. -/
theorem strncasecmp_header (hdr : CString) {n : CString} (hzero : (0 : UInt8) ∉ n) :
    strncasecmp hdr (n ++ [58]) (n.length + 1) = 0 ↔
      ∃ name value, hdr = name ++ 58 :: value ∧ name.map tolower = n.map tolower := by
  have hlen : (n ++ [58]).length = n.length + 1 := by simp
  rw [← hlen, strncasecmp_eq_zero_iff (by simpa using hzero), hlen]
  constructor
  · intro h
    have hl : n.length < hdr.length := by
      have := congrArg List.length h
      simp at this
      omega
    have hcut : hdr.take (n.length + 1) = hdr.take n.length ++ [hdr[n.length]] :=
      List.take_succ_eq_append_getElem hl
    rw [hcut, List.map_append, List.map_append] at h
    obtain ⟨hname, hcolon⟩ := List.append_inj' h (by simp)
    have hc : hdr[n.length] = 58 := by
      apply tolower_eq_colon.mp
      simpa [show tolower 58 = 58 from rfl] using hcolon
    refine ⟨hdr.take n.length, hdr.drop (n.length + 1), ?_, hname⟩
    rw [← hc, List.getElem_cons_drop, List.take_append_drop]
  · rintro ⟨name, value, rfl, hname⟩
    have hl : name.length = n.length := by simpa using congrArg List.length hname
    rw [← hl, List.take_length_add_append]
    simp [hname]

theorem headerKeys_spec (hdr : CString) :
    ∃ ks, headerKeys hdr = .ok ks ∧
      ∀ k, k ∈ ks ↔ ∃ value, IsXkeyHeader hdr value ∧ IsRun isblank k value := by
  have hxkey := strncasecmp_header hdr (n := str "xkey") (by decide)
  have hh2 := strncasecmp_header hdr (n := str "X-HashTwo") (by decide)
  have hlower : (str "xkey").map tolower = str "xkey" := by decide
  have hlower' : (str "X-HashTwo").map tolower = str "x-hashtwo" := by decide
  have hmatch : ¬(strncasecmp hdr hdrXkey 5 ≠ 0 ∧ strncasecmp hdr hdrH2 10 ≠ 0) ↔
      ∃ value, IsXkeyHeader hdr value := by
    change ¬(strncasecmp hdr (str "xkey" ++ [58]) 5 ≠ 0 ∧
      strncasecmp hdr (str "X-HashTwo" ++ [58]) 10 ≠ 0) ↔ _
    simp only [ne_eq, not_and_or, not_not]
    rw [show (5 : Nat) = (str "xkey").length + 1 from rfl, hxkey,
      show (10 : Nat) = (str "X-HashTwo").length + 1 from rfl, hh2, hlower, hlower']
    constructor
    · rintro (⟨name, value, heq, hname⟩ | ⟨name, value, heq, hname⟩)
      · exact ⟨value, name, heq, Or.inl hname⟩
      · exact ⟨value, name, heq, Or.inr hname⟩
    · rintro ⟨value, name, heq, hname | hname⟩
      · exact Or.inl ⟨name, value, heq, hname⟩
      · exact Or.inr ⟨name, value, heq, hname⟩
  have hchr : ∀ value, IsXkeyHeader hdr value → strchr hdr 58 = some (58 :: value) := by
    rintro value ⟨name, rfl, hname | hname⟩
    · exact strchr_append (colon_not_mem (n := str "xkey") (by decide) (hname.trans hlower.symm))
    · exact strchr_append
        (colon_not_mem (n := str "X-HashTwo") (by decide) (hname.trans hlower'.symm))
  by_cases hfound : ∃ value, IsXkeyHeader hdr value
  · obtain ⟨value, hvalue⟩ := hfound
    refine ⟨tokens value, ?_, fun k => ?_⟩
    · rw [headerKeys, if_neg (hmatch.mpr ⟨value, hvalue⟩), hchr value hvalue]
      rfl
    · rw [mem_tokens_iff]
      constructor
      · exact fun hk => ⟨value, hvalue, hk⟩
      · rintro ⟨value', hvalue', hk⟩
        have heq := (hchr value' hvalue').symm.trans (hchr value hvalue)
        obtain rfl : value' = value := by simpa using heq
        exact hk
  · refine ⟨[], ?_, fun k => ?_⟩
    · rw [headerKeys, if_pos (not_not.mp (mt hmatch.mp hfound))]
    · simp only [List.not_mem_nil, false_iff]
      rintro ⟨value, hvalue, -⟩
      exact hfound ⟨value, hvalue⟩

theorem objectKeys_spec (hdrs : List CString) :
    ∃ ks, objectKeys hdrs = .ok ks ∧
      ∀ k, k ∈ ks ↔ ∃ hdr ∈ hdrs, ∃ value, IsXkeyHeader hdr value ∧ IsRun isblank k value := by
  induction hdrs with
  | nil => exact ⟨[], rfl, by simp⟩
  | cons hdr hdrs ih =>
      obtain ⟨ks, hks, hmem⟩ := headerKeys_spec hdr
      obtain ⟨ks', hks', hmem'⟩ := ih
      obtain ⟨kss, hkss, rfl⟩ : ∃ kss, hdrs.mapM headerKeys = .ok kss ∧ kss.flatten = ks' := by
        cases hm : hdrs.mapM headerKeys with
        | error e => simp [objectKeys, hm, bind, Except.bind] at hks'
        | ok kss =>
            exact ⟨kss, rfl,
              by simpa [objectKeys, hm, bind, Except.bind, pure, Except.pure] using hks'⟩
      refine ⟨ks ++ kss.flatten, ?_, fun k => ?_⟩
      · simp [objectKeys, List.mapM_cons, hks, hkss, bind, Except.bind, pure, Except.pure]
      · rw [List.mem_append, hmem, hmem']
        simp

end VarnishModules.XkeyTokens
