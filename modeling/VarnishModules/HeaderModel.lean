import VarnishModules.CStrings

/-!
Duplicated headers: `vmod_header.c`.

`HTTP_HDR_FIRST`, the regular expressions and the server's `VRT_String` and
`http_SetHeader` are parameters.
-/

namespace VarnishModules.HeaderModel

open VarnishModules.CStrings

def colon : UInt8 := 58

/-- The headers of a message. `Tcheck` lets every entry pass, the empty ones too. -/
structure Http where
  hd : Nat → Option CString
  hdf : Nat → UInt8
  nhd : Nat
  shd : Nat

/-- The name in a `VCL_HEADER`, without the colon that is stored with it. -/
structure HeaderName where
  name : CString
  zero_not_mem : (0 : UInt8) ∉ name
  colon_not_mem : colon ∉ name

/-- The bytes after `hdr[0]`, which is their number. -/
def HeaderName.what (hdr : HeaderName) : CString :=
  hdr.name ++ [colon]

abbrev Regex := CString → Bool

def headerHttpIsHdr (hh : CString) (hdr : HeaderName) : Bool :=
  strncasecmp hdr.what hh hdr.what.length = 0

/-- What the expression is tried on. -/
def shown (hdr : HeaderName) (b : CString) : CString :=
  (b.drop hdr.what.length).dropWhile (· == 32)

/-- What a caller gets to see. -/
def value (hdr : HeaderName) (b : CString) : CString :=
  (b.drop hdr.what.length).dropWhile isblank

def headerHttpMatch (hp : Http) (u : Nat) (re : Option Regex) (hdr : HeaderName) : Bool :=
  match hp.hd u with
  | none => false
  | some b =>
      if !headerHttpIsHdr b hdr then false
      else
        match re with
        | none => true
        | some re => if shown hdr b = [] then false else re (shown hdr b)

section

variable (hdrFirst : ℕ+)

/-- The loop of `header_http_findhdr` with `n` headers to go. -/
def findhdrLoop (hp : Http) (hdr : HeaderName) (re : Option Regex) : Nat → Nat → Nat
  | 0, _ => 0
  | n + 1, u => if headerHttpMatch hp u re hdr then u else findhdrLoop hp hdr re n (u + 1)

def headerHttpFindhdr (hp : Http) (hdr : HeaderName) (re : Option Regex) : Nat :=
  findhdrLoop hp hdr re (hp.nhd - hdrFirst) hdrFirst

def vmodGet (hp : Http) (hdr : HeaderName) (re : Regex) : Option CString :=
  let u := headerHttpFindhdr hdrFirst hp hdr (some re)
  if u = 0 then none else (hp.hd u).map (value hdr)

/-- The loop of `header_http_Unset` with `n` headers to go. -/
def unsetLoop (hdr : HeaderName) (re : Option Regex) : Nat → Nat → Nat → Http → Http
  | 0, _, v, hp => { hp with nhd := v }
  | n + 1, u, v, hp =>
      if hp.hd u = none then unsetLoop hdr re n (u + 1) v hp
      else if headerHttpMatch hp u re hdr then unsetLoop hdr re n (u + 1) v hp
      else if v ≠ u then
        unsetLoop hdr re n (u + 1) (v + 1) { hp with
          hd := Function.update hp.hd v (hp.hd u)
          hdf := Function.update hp.hdf v (hp.hdf u) }
      else unsetLoop hdr re n (u + 1) (v + 1) hp

def headerHttpUnset (hp : Http) (hdr : HeaderName) (re : Option Regex) : Http :=
  unsetLoop hdr re (hp.nhd - hdrFirst) hdrFirst hdrFirst hp

def vmodRemove (hp : Http) (hdr : HeaderName) (re : Regex) : Http :=
  headerHttpUnset hdrFirst hp hdr (some re)

end

/-- A `VCL_HEADER`: one of the messages, and the name. -/
structure Gethdr (M : Type*) where
  place : M
  what : HeaderName

/-- The messages, and the workspace that headers are added from. -/
structure Ctx (M Ws : Type*) where
  http : M → Http
  ws : Ws

section

variable {M Ws : Type*} [DecidableEq M] (hdrFirst : ℕ+)
  (vrtString : Ws → CString → CString → Option (CString × Ws))
  (httpSetHeader : Http → CString → Http)

def vmodAppend (hdr : Gethdr M) (fmt : Option CString) (ctx : Ctx M Ws) : Ctx M Ws :=
  match fmt with
  | none => ctx
  | some p =>
      match vrtString ctx.ws hdr.what.what p with
      | none => ctx
      | some (b, ws) =>
          { http := Function.update ctx.http hdr.place (httpSetHeader (ctx.http hdr.place) b)
            ws }

/-- The loop of `header_http_cphdr`, for at most `fuel` tests of its bound. -/
def cphdrLoop (src dst : Gethdr M) : Nat → Nat → Ctx M Ws → Option (Ctx M Ws)
  | 0, _, _ => none
  | fuel + 1, u, ctx =>
      let hp := ctx.http src.place
      if u < hp.nhd then
        if headerHttpMatch hp u none src.what then
          let p := (hp.hd u).map (value src.what)
          cphdrLoop src dst fuel (u + 1) (vmodAppend vrtString httpSetHeader dst p ctx)
        else cphdrLoop src dst fuel (u + 1) ctx
      else some ctx

def vmodCopy (src dst : Gethdr M) (fuel : Nat) (ctx : Ctx M Ws) : Option (Ctx M Ws) :=
  cphdrLoop vrtString httpSetHeader src dst fuel hdrFirst ctx

end

/-- The entry is one of the header, whatever the case of its name. -/
def IsOccurrence (hdr : HeaderName) (b : CString) : Prop :=
  (b.take hdr.what.length).map tolower = hdr.what.map tolower

instance (hdr : HeaderName) (b : CString) : Decidable (IsOccurrence hdr b) :=
  inferInstanceAs (Decidable (_ = _))

/-- The entry is one of the header, and the expression matches what is shown of it. -/
def Matches (re : Option Regex) (hdr : HeaderName) (b : CString) : Prop :=
  IsOccurrence hdr b ∧ ∀ r ∈ re, shown hdr b ≠ [] ∧ r (shown hdr b) = true

instance (re : Option Regex) (hdr : HeaderName) (b : CString) : Decidable (Matches re hdr b) :=
  inferInstanceAs (Decidable (_ ∧ ∀ r ∈ re, _))

variable {hp : Http} {u : Nat} {re : Option Regex} {hdr : HeaderName} {b : CString}

theorem zero_not_mem_what (hdr : HeaderName) : (0 : UInt8) ∉ hdr.what := by
  intro h
  rcases List.mem_append.mp h with h | h
  · exact hdr.zero_not_mem h
  · exact absurd h (by decide)

theorem headerHttpIsHdr_iff : headerHttpIsHdr b hdr = true ↔ IsOccurrence hdr b := by
  rw [headerHttpIsHdr, decide_eq_true_eq, strncasecmp_comm, neg_eq_zero,
    strncasecmp_eq_zero_iff (zero_not_mem_what hdr)]
  rfl

theorem headerHttpMatch_of_none (h : hp.hd u = none) : headerHttpMatch hp u re hdr = false := by
  rw [headerHttpMatch, h]

theorem headerHttpMatch_of_some (h : hp.hd u = some b) :
    headerHttpMatch hp u re hdr = decide (Matches re hdr b) := by
  rw [headerHttpMatch, h]
  by_cases hocc : IsOccurrence hdr b
  · have his : headerHttpIsHdr b hdr = true := headerHttpIsHdr_iff.mpr hocc
    cases re with
    | none => simp [his, Matches, hocc]
    | some r =>
        by_cases hempty : shown hdr b = []
        · simp [his, Matches, hempty]
        · simp [his, Matches, hocc, hempty]
  · have his : headerHttpIsHdr b hdr = false :=
      Bool.eq_false_iff.mpr fun h => hocc (headerHttpIsHdr_iff.mp h)
    simp [his, Matches, hocc]

end VarnishModules.HeaderModel
