import VarnishModules.HeaderRemove

/-!
Copying a header into a list that may be the one it is read from.

The loop reads the entries that were there when it began, and then those it has added.
-/

namespace VarnishModules.HeaderCopy

open VarnishModules.CStrings
open VarnishModules.HeaderModel
open VarnishModules.HeaderGet
open VarnishModules.HeaderRemove

/-- What `http_SetHeader` does: it adds the header at the end, or loses it when there is no slot
left. -/
structure SetsHeader (httpSetHeader : Http → CString → Http) : Prop where
  full : ∀ hp b, hp.shd ≤ hp.nhd → httpSetHeader hp b = hp
  free : ∀ hp b, hp.nhd < hp.shd → httpSetHeader hp b = { hp with
    hd := Function.update hp.hd hp.nhd (some b)
    hdf := Function.update hp.hdf hp.nhd 0
    nhd := hp.nhd + 1 }

def line (hdr : HeaderName) (v : CString) : CString :=
  hdr.what ++ 32 :: v

/-- What `VRT_String` does, when there is space for the string. -/
def Joins {Ws : Type*} (vrtString : Ws → CString → CString → Option (CString × Ws)) : Prop :=
  ∀ ws h p r, vrtString ws h p = some r → r.1 = h ++ 32 :: p

/-- The workspace after a header for each of the values. -/
def allocate {Ws : Type*} (vrtString : Ws → CString → CString → Option (CString × Ws))
    (h : CString) : List CString → Ws → Option Ws
  | [], ws => some ws
  | v :: values, ws => (vrtString ws h v).bind fun r => allocate vrtString h values r.2

/-- The value of the entry, if it is one of the header. -/
def valueOf (hdr : HeaderName) (e : Option CString × UInt8) : Option CString :=
  e.1.bind fun b => if IsOccurrence hdr b then some (value hdr b) else none

/-- The values of the header, in the order of its occurrences. -/
def values (hdrFirst : ℕ+) (hp : Http) (hdr : HeaderName) : List CString :=
  (entries hdrFirst hp).filterMap (valueOf hdr)

def SameName (hdr hdr' : HeaderName) : Prop :=
  hdr.name.map tolower = hdr'.name.map tolower

instance (hdr hdr' : HeaderName) : Decidable (SameName hdr hdr') :=
  inferInstanceAs (Decidable (_ = _))

/-- One header more for each of the values, in their order, and nothing else. -/
structure Appends {M : Type*} (dst : Gethdr M) (vs : List CString) (http http' : M → Http) :
    Prop where
  others : ∀ m, m ≠ dst.place → http' m = http m
  shd : (http' dst.place).shd = (http dst.place).shd
  nhd : (http' dst.place).nhd = (http dst.place).nhd + vs.length
  earlier : ∀ i < (http dst.place).nhd, (http' dst.place).hd i = (http dst.place).hd i ∧
    (http' dst.place).hdf i = (http dst.place).hdf i
  added : entriesFrom (http' dst.place) (http dst.place).nhd vs.length =
    vs.map fun v => (some (line dst.what v), 0)

section

variable {M : Type*} {dst : Gethdr M} {http http₁ http' : M → Http} {v : CString}
  {vs vs' : List CString}

theorem Appends.nil : Appends dst [] http http :=
  ⟨fun _ _ => rfl, rfl, rfl, fun _ _ => ⟨rfl, rfl⟩, rfl⟩

theorem entriesFrom_add (hp : Http) (u n n' : Nat) :
    entriesFrom hp u (n + n') = entriesFrom hp u n ++ entriesFrom hp (u + n) n' := by
  rw [entriesFrom, entriesFrom, entriesFrom, ← List.map_append, List.range'_append_1]

theorem Appends.trans (h : Appends dst vs http http₁) (h' : Appends dst vs' http₁ http') :
    Appends dst (vs ++ vs') http http' := by
  have hnhd := h.nhd
  refine ⟨fun m hm => (h'.others m hm).trans (h.others m hm), h'.shd.trans h.shd, ?_,
    fun i hi => ?_, ?_⟩
  · rw [h'.nhd, hnhd, List.length_append, Nat.add_assoc]
  · have hfirst := h.earlier i hi
    have hsecond := h'.earlier i (by omega)
    exact ⟨hsecond.1.trans hfirst.1, hsecond.2.trans hfirst.2⟩
  · have hkeep : entriesFrom (http' dst.place) (http dst.place).nhd vs.length =
        entriesFrom (http₁ dst.place) (http dst.place).nhd vs.length :=
      entriesFrom_congr fun i _ hi => h'.earlier i (by omega)
    rw [List.length_append, entriesFrom_add, hkeep, h.added, ← hnhd, h'.added, List.map_append]

theorem Appends.keeps (h : Appends dst vs http http') (m : M) :
    (http m).nhd ≤ (http' m).nhd ∧ (http' m).shd = (http m).shd ∧
      ∀ i < (http m).nhd, (http' m).hd i = (http m).hd i ∧ (http' m).hdf i = (http m).hdf i := by
  by_cases hm : m = dst.place
  · subst hm
    exact ⟨by rw [h.nhd]; omega, h.shd, h.earlier⟩
  · rw [h.others m hm]
    exact ⟨le_refl _, rfl, fun _ _ => ⟨rfl, rfl⟩⟩

theorem Appends.nhd_le {bound : Nat} (h : Appends dst vs http http')
    (hvs : vs = [] ∨ (http dst.place).nhd + vs.length ≤ (http dst.place).shd) (m : M)
    (hnhd : (http m).nhd ≤ bound) (hshd : (http m).shd ≤ bound) : (http' m).nhd ≤ bound := by
  by_cases hm : m = dst.place
  · subst hm
    rw [h.nhd]
    rcases hvs with rfl | hvs
    · exact hnhd
    · exact hvs.trans hshd
  · rw [h.others m hm]
    exact hnhd

theorem Appends.set [DecidableEq M] {httpSetHeader : Http → CString → Http}
    (hset : SetsHeader httpSetHeader) (hfree : (http dst.place).nhd < (http dst.place).shd) :
    Appends dst [v] http (Function.update http dst.place
      (httpSetHeader (http dst.place) (line dst.what v))) := by
  rw [hset.free _ _ hfree]
  refine ⟨fun m hm => Function.update_of_ne hm _ _, ?_, ?_, fun i hi => ?_, ?_⟩
  · simp
  · simp
  · simp [hi.ne]
  · simp [entriesFrom]

end

/-! The header that is added, read back. -/

theorem colon_notMem_map (hdr : HeaderName) : colon ∉ hdr.name.map tolower := by
  intro h
  obtain ⟨c, hc, hlower⟩ := List.mem_map.mp h
  have heq : ∀ c, tolower c = colon → c = colon := by decide +kernel
  exact hdr.colon_not_mem (heq c hlower ▸ hc)

theorem takeWhile_map_name (hdr : HeaderName) (b : CString) :
    (hdr.name.map tolower ++ colon :: b).takeWhile (· != colon) = hdr.name.map tolower := by
  rw [List.takeWhile_append_of_pos, List.takeWhile_cons_of_neg (by simp), List.append_nil]
  intro c hc
  simpa using ne_of_mem_of_not_mem hc (colon_notMem_map hdr)

theorem SameName.length_what {hdr hdr' : HeaderName} (h : SameName hdr hdr') :
    hdr.what.length = hdr'.what.length := by
  have hlength := congrArg List.length h
  simpa [HeaderName.what] using hlength

theorem isOccurrence_line_iff (hdr hdr' : HeaderName) (v : CString) :
    IsOccurrence hdr (line hdr' v) ↔ SameName hdr hdr' := by
  unfold IsOccurrence SameName
  constructor
  · intro h
    have hsplit := congrArg (List.map tolower) (List.take_append_drop hdr.what.length (line hdr' v))
    rw [List.map_append, h] at hsplit
    have hcolon : tolower colon = colon := by decide
    simp only [line, HeaderName.what, List.map_append, List.append_assoc, List.map_cons,
      List.map_nil, List.singleton_append, hcolon] at hsplit
    simpa [takeWhile_map_name] using congrArg (List.takeWhile (· != colon)) hsplit
  · intro h
    rw [line, SameName.length_what h, List.take_left]
    simp only [HeaderName.what, List.map_append, h]

theorem value_line {hdr hdr' : HeaderName} (h : SameName hdr hdr') (v : CString) :
    value hdr (line hdr' v) = v.dropWhile isblank := by
  rw [value, line, h.length_what, List.drop_left, List.dropWhile_cons_of_pos (by decide)]

theorem dropWhile_of_mem_values {hdrFirst : ℕ+} {hp : Http} {hdr : HeaderName} {v : CString}
    (h : v ∈ values hdrFirst hp hdr) : v.dropWhile isblank = v := by
  obtain ⟨e, -, he⟩ := List.mem_filterMap.mp h
  obtain ⟨b, -, hif⟩ := Option.bind_eq_some_iff.mp he
  split_ifs at hif
  obtain rfl := Option.some.inj hif
  exact List.dropWhile_idempotent _ _

/-- Headers added with values of the source are headers of the source with these values, if the
names agree, and of no concern to it otherwise. -/
theorem filterMap_valueOf_lines (hdr hdr' : HeaderName) {vs : List CString}
    (h : ∀ v ∈ vs, v.dropWhile isblank = v) :
    (vs.map fun v => (some (line hdr' v), (0 : UInt8))).filterMap (valueOf hdr) =
      if SameName hdr hdr' then vs else [] := by
  have hline : ∀ v ∈ vs, valueOf hdr (some (line hdr' v), 0) =
      if SameName hdr hdr' then some v else none := by
    intro v hv
    simp only [valueOf, Option.bind_some, isOccurrence_line_iff]
    split_ifs with hsame
    · rw [value_line hsame, h v hv]
    · rfl
  rw [List.filterMap_map]
  refine (List.filterMap_congr hline).trans ?_
  split_ifs
  · exact List.filterMap_some
  · exact List.filterMap_none _

/-- The values of the source in the entries from `u` on. -/
def unread {M : Type*} (src : Gethdr M) (http : M → Http) (u : Nat) : List CString :=
  (entriesFrom (http src.place) u ((http src.place).nhd - u)).filterMap (valueOf src.what)

theorem unread_of_lt {M : Type*} {src : Gethdr M} {http : M → Http} {u : Nat}
    (hu : u < (http src.place).nhd) :
    unread src http u =
      (valueOf src.what ((http src.place).hd u, (http src.place).hdf u)).toList ++
        unread src http (u + 1) := by
  have hcount : (http src.place).nhd - u = (http src.place).nhd - (u + 1) + 1 := by omega
  rw [unread, hcount, entriesFrom_succ, unread]
  cases hvalue : valueOf src.what ((http src.place).hd u, (http src.place).hdf u) with
  | none =>
      rw [List.filterMap_cons_none hvalue]
      rfl
  | some v =>
      rw [List.filterMap_cons_some hvalue]
      rfl

theorem unread_of_le {M : Type*} {src : Gethdr M} {http : M → Http} {u : Nat}
    (hu : (http src.place).nhd ≤ u) : unread src http u = [] := by
  rw [unread, Nat.sub_eq_zero_of_le hu]
  rfl

section

variable {M Ws : Type*} [DecidableEq M]
  {vrtString : Ws → CString → CString → Option (CString × Ws)}
  {httpSetHeader : Http → CString → Http} {src dst : Gethdr M} {ctx ctx' : Ctx M Ws}
  {fuel u n : Nat} {v : CString}

theorem match_eq_valueOf (hp : Http) (hdr : HeaderName) (u : Nat) :
    (if headerHttpMatch hp u none hdr then (hp.hd u).map (value hdr) else none) =
      valueOf hdr (hp.hd u, hp.hdf u) := by
  cases hb : hp.hd u with
  | none => simp [headerHttpMatch_of_none hb, valueOf]
  | some b => simp [headerHttpMatch_of_some hb, valueOf, Matches]

theorem cphdrLoop_succ : cphdrLoop vrtString httpSetHeader src dst (fuel + 1) u ctx =
    if u < (ctx.http src.place).nhd then
      cphdrLoop vrtString httpSetHeader src dst fuel (u + 1)
        (vmodAppend vrtString httpSetHeader dst
          (valueOf src.what ((ctx.http src.place).hd u, (ctx.http src.place).hdf u)) ctx)
    else some ctx := by
  rw [cphdrLoop, ← match_eq_valueOf]
  dsimp only
  split_ifs
  · rfl
  · rfl
  · rfl

theorem cphdrLoop_of_le (hu : (ctx.http src.place).nhd ≤ u) (hfuel : 0 < fuel) :
    cphdrLoop vrtString httpSetHeader src dst fuel u ctx = some ctx := by
  obtain ⟨fuel, rfl⟩ := Nat.exists_eq_succ_of_ne_zero hfuel.ne'
  rw [cphdrLoop_succ, if_neg (by omega)]

theorem vmodAppend_of_eq_none (h : vrtString ctx.ws dst.what.what v = none) :
    vmodAppend vrtString httpSetHeader dst (some v) ctx = ctx := by
  simp [vmodAppend, h]

theorem vmodAppend_of_eq_some (hjoin : Joins vrtString) {r : CString × Ws}
    (h : vrtString ctx.ws dst.what.what v = some r) :
    vmodAppend vrtString httpSetHeader dst (some v) ctx =
      ⟨Function.update ctx.http dst.place
        (httpSetHeader (ctx.http dst.place) (line dst.what v)), r.2⟩ := by
  simp [vmodAppend, h, hjoin _ _ _ _ h, line]

theorem vmodAppend_http_of_full (hset : SetsHeader httpSetHeader)
    (hfull : (ctx.http dst.place).shd ≤ (ctx.http dst.place).nhd) (fmt : Option CString) :
    (vmodAppend vrtString httpSetHeader dst fmt ctx).http = ctx.http := by
  cases fmt with
  | none => rfl
  | some v =>
      cases h : vrtString ctx.ws dst.what.what v with
      | none => rw [vmodAppend_of_eq_none h]
      | some r => simp [vmodAppend, h, hset.full _ _ hfull]

/-- An append adds a header or none, and never one too many. -/
theorem vmodAppend_appends (hset : SetsHeader httpSetHeader) (hjoin : Joins vrtString)
    (dst : Gethdr M) (fmt : Option CString) (ctx : Ctx M Ws) :
    ∃ vs, (vs = [] ∨ (ctx.http dst.place).nhd + vs.length ≤ (ctx.http dst.place).shd) ∧
      Appends dst vs ctx.http (vmodAppend vrtString httpSetHeader dst fmt ctx).http := by
  rcases Nat.lt_or_ge (ctx.http dst.place).nhd (ctx.http dst.place).shd with hfree | hfull
  · cases fmt with
    | none => exact ⟨[], .inl rfl, .nil⟩
    | some v =>
        cases h : vrtString ctx.ws dst.what.what v with
        | none => exact ⟨[], .inl rfl, by rw [vmodAppend_of_eq_none h]; exact .nil⟩
        | some r =>
            rw [vmodAppend_of_eq_some hjoin h]
            exact ⟨[v], .inr hfree, .set hset hfree⟩
  · exact ⟨[], .inl rfl, by rw [vmodAppend_http_of_full hset hfull]; exact .nil⟩

/-- The loop comes to an end, since the list it reads cannot outgrow its slots. -/
theorem exists_cphdrLoop_eq (src dst : Gethdr M) (hset : SetsHeader httpSetHeader)
    (hjoin : Joins vrtString) {bound : Nat} (hnhd : (ctx.http src.place).nhd ≤ bound)
    (hshd : (ctx.http src.place).shd ≤ bound) :
    ∃ ctx', ∀ fuel, bound - u < fuel →
      cphdrLoop vrtString httpSetHeader src dst fuel u ctx = some ctx' := by
  induction hk : bound - u generalizing u ctx with
  | zero => exact ⟨ctx, fun fuel hfuel => cphdrLoop_of_le (by omega) hfuel⟩
  | succ k ih =>
      by_cases hu : u < (ctx.http src.place).nhd
      · obtain ⟨vs, hvs, happ⟩ := vmodAppend_appends hset hjoin dst
          (valueOf src.what ((ctx.http src.place).hd u, (ctx.http src.place).hdf u)) ctx
        obtain ⟨ctx', hctx'⟩ := ih (u := u + 1)
          (happ.nhd_le hvs src.place hnhd hshd)
          ((happ.keeps src.place).2.1.trans_le hshd) (by omega)
        refine ⟨ctx', fun fuel hfuel => ?_⟩
        obtain ⟨fuel, rfl⟩ := Nat.exists_eq_succ_of_ne_zero (Nat.ne_zero_of_lt hfuel)
        rw [cphdrLoop_succ, if_pos hu]
        exact hctx' fuel (by omega)
      · exact ⟨ctx, fun fuel hfuel => cphdrLoop_of_le (by omega) (by omega)⟩

/-- The rounds over `n` entries that were in the list before, with slots and workspace for what
they add. -/
theorem cphdrLoop_add (src : Gethdr M) (fuel : Nat) (hset : SetsHeader httpSetHeader)
    (hjoin : Joins vrtString) {http : M → Http} {ws ws' : Ws}
    (hend : n = 0 ∨ u + n ≤ (http src.place).nhd) {vs : List CString}
    (hvs : (entriesFrom (http src.place) u n).filterMap (valueOf src.what) = vs)
    (hslots : (http dst.place).nhd + vs.length ≤ (http dst.place).shd)
    (hws : allocate vrtString dst.what.what vs ws = some ws') :
    ∃ http', Appends dst vs http http' ∧
      cphdrLoop vrtString httpSetHeader src dst (fuel + n) u ⟨http, ws⟩ =
        cphdrLoop vrtString httpSetHeader src dst fuel (u + n) ⟨http', ws'⟩ := by
  induction n generalizing u http ws vs with
  | zero =>
      obtain rfl : vs = [] := hvs.symm
      obtain rfl := Option.some.inj hws
      exact ⟨http, .nil, rfl⟩
  | succ n ih =>
      have hu : u < (http src.place).nhd := by omega
      have hindex : u + (n + 1) = u + 1 + n := by omega
      rw [entriesFrom_succ] at hvs
      rw [← Nat.add_assoc, cphdrLoop_succ, if_pos hu, hindex]
      cases hvalue : valueOf src.what ((http src.place).hd u, (http src.place).hdf u) with
      | none =>
          rw [List.filterMap_cons_none hvalue] at hvs
          exact ih (by omega) hvs hslots hws
      | some v =>
          rw [List.filterMap_cons_some hvalue] at hvs
          subst hvs
          obtain ⟨r, hr, hrest⟩ := Option.bind_eq_some_iff.mp hws
          rw [List.length_cons] at hslots
          have happ : Appends dst [v] http (Function.update http dst.place
              (httpSetHeader (http dst.place) (line dst.what v))) :=
            .set hset (by omega)
          have hkeep := happ.keeps src.place
          have hshd := happ.shd
          have hnhd := happ.nhd
          rw [List.length_singleton] at hnhd
          have hsame := congrArg (List.filterMap (valueOf src.what))
            (entriesFrom_congr fun i (_ : u + 1 ≤ i) (hi : i < u + 1 + n) =>
              hkeep.2.2 i (by omega))
          rw [vmodAppend_of_eq_some hjoin hr]
          dsimp only
          generalize Function.update http dst.place _ = http₁ at *
          obtain ⟨http', happ', hloop⟩ :=
            ih (u := u + 1) (.inr (by omega)) hsame (by omega) hrest
          exact ⟨http', happ.trans happ', hloop⟩

/-- What every append keeps, the loop keeps. -/
theorem inv_of_cphdrLoop {P : Ctx M Ws → Prop}
    (happend : ∀ ctx fmt, P ctx → P (vmodAppend vrtString httpSetHeader dst fmt ctx))
    (h : cphdrLoop vrtString httpSetHeader src dst fuel u ctx = some ctx') (hP : P ctx) :
    P ctx' := by
  induction fuel generalizing u ctx with
  | zero => simp [cphdrLoop] at h
  | succ fuel ih =>
      rw [cphdrLoop_succ] at h
      split_ifs at h
      · exact ih h (happend _ _ hP)
      · exact Option.some.inj h ▸ hP

theorem nhd_le_of_cphdrLoop (hset : SetsHeader httpSetHeader) (hjoin : Joins vrtString)
    (h : cphdrLoop vrtString httpSetHeader src dst fuel u ctx = some ctx') :
    (ctx.http dst.place).nhd ≤ (ctx'.http dst.place).nhd := by
  refine inv_of_cphdrLoop (P := fun c => (ctx.http dst.place).nhd ≤ (c.http dst.place).nhd)
    (fun c fmt hle => ?_) h (le_refl _)
  obtain ⟨vs, -, happ⟩ := vmodAppend_appends hset hjoin dst fmt c
  exact hle.trans (happ.keeps dst.place).1

theorem http_eq_of_cphdrLoop_of_full
    (h : cphdrLoop vrtString httpSetHeader src dst fuel u ctx = some ctx')
    (hset : SetsHeader httpSetHeader)
    (hfull : (ctx.http dst.place).shd ≤ (ctx.http dst.place).nhd) :
    ctx'.http = ctx.http := by
  refine inv_of_cphdrLoop (P := fun c => c.http = ctx.http) (fun c fmt heq => ?_) h rfl
  exact (vmodAppend_http_of_full hset (by rwa [heq]) fmt).trans heq

theorem http_eq_of_cphdrLoop_of_none
    (h : cphdrLoop vrtString httpSetHeader src dst fuel u ctx = some ctx')
    (hnone : ∀ v ∈ unread src ctx.http u, vrtString ctx.ws dst.what.what v = none) :
    ctx'.http = ctx.http := by
  induction fuel generalizing u with
  | zero => simp [cphdrLoop] at h
  | succ fuel ih =>
      rw [cphdrLoop_succ] at h
      split_ifs at h with hu
      · rw [unread_of_lt hu, List.forall_mem_append] at hnone
        refine ih ?_ hnone.2
        cases hvalue : valueOf src.what
            ((ctx.http src.place).hd u, (ctx.http src.place).hdf u) with
        | none => rwa [hvalue] at h
        | some v =>
            rw [hvalue] at h hnone
            rwa [vmodAppend_of_eq_none (hnone.1 v (List.mem_singleton_self v))] at h
      · rw [Option.some.inj h]

/-- With a slot left, the loop adds nothing only if it has the workspace for nothing. -/
theorem eq_none_of_cphdrLoop
    (h : cphdrLoop vrtString httpSetHeader src dst fuel u ctx = some ctx')
    (hset : SetsHeader httpSetHeader) (hjoin : Joins vrtString)
    (hfree : (ctx.http dst.place).nhd < (ctx.http dst.place).shd)
    (hnhd : (ctx'.http dst.place).nhd = (ctx.http dst.place).nhd) :
    ∀ v ∈ unread src ctx.http u, vrtString ctx.ws dst.what.what v = none := by
  induction fuel generalizing u with
  | zero => simp [cphdrLoop] at h
  | succ fuel ih =>
      rw [cphdrLoop_succ] at h
      split_ifs at h with hu
      · rw [unread_of_lt hu]
        cases hvalue : valueOf src.what
            ((ctx.http src.place).hd u, (ctx.http src.place).hdf u) with
        | none =>
            rw [hvalue] at h
            exact ih h
        | some v =>
            rw [hvalue] at h
            cases hr : vrtString ctx.ws dst.what.what v with
            | none =>
                rw [vmodAppend_of_eq_none hr] at h
                exact List.forall_mem_cons.mpr ⟨hr, ih h⟩
            | some r =>
                rw [vmodAppend_of_eq_some hjoin hr] at h
                have hle := nhd_le_of_cphdrLoop hset hjoin h
                have happ := (Appends.set (v := v) hset hfree).nhd
                rw [List.length_singleton] at happ
                dsimp only at hle
                omega
      · simp [unread_of_le (Nat.le_of_not_lt hu)]

/-- When the loop is through with what was there, it has what it has added before it, if that is
in the same message and under the same name. -/
theorem unread_of_appends {hdrFirst : ℕ+} {http http' : M → Http}
    (h : Appends dst (values hdrFirst (http src.place) src.what) http http') :
    unread src http' (hdrFirst + ((http src.place).nhd - hdrFirst)) =
      if src.place = dst.place ∧ SameName src.what dst.what
      then values hdrFirst (http src.place) src.what else [] := by
  by_cases hplace : src.place = dst.place
  · have hadded := h.added
    have hnhd := h.nhd
    rw [← hplace] at hadded hnhd
    rcases Nat.le_total (http src.place).nhd hdrFirst with hle | hle
    · have hempty : values hdrFirst (http src.place) src.what = [] := by
        rw [values, entries, Nat.sub_eq_zero_of_le hle]
        rfl
      rw [hempty] at hnhd ⊢
      rw [unread_of_le (by rw [hnhd, List.length_nil]; omega), ite_self]
    · have hcount : (http' src.place).nhd - (http src.place).nhd =
          (values hdrFirst (http src.place) src.what).length := by omega
      rw [Nat.add_sub_cancel' hle, unread, hcount, hadded,
        filterMap_valueOf_lines _ _ fun v hv => dropWhile_of_mem_values hv]
      simp [hplace]
  · rw [if_neg fun hboth => hplace hboth.1, unread_of_le]
    rw [h.others _ hplace]
    omega

end

/-- With slots and workspace for one header for each occurrence, `copy` ends, and it adds just
these headers unless it adds them where it finds them again, with a slot left and the workspace
for one of them. -/
theorem copy_iff {M Ws : Type*} [DecidableEq M] (hdrFirst : ℕ+)
    (vrtString : Ws → CString → CString → Option (CString × Ws))
    (httpSetHeader : Http → CString → Http) (hjoin : Joins vrtString)
    (hset : SetsHeader httpSetHeader) (src dst : Gethdr M) (ctx : Ctx M Ws) (ws' : Ws)
    (hslots : (ctx.http dst.place).nhd +
        (values hdrFirst (ctx.http src.place) src.what).length ≤ (ctx.http dst.place).shd)
    (hws : allocate vrtString dst.what.what (values hdrFirst (ctx.http src.place) src.what)
        ctx.ws = some ws') :
    ∃ ctx', (∀ fuel, max (ctx.http src.place).nhd (ctx.http src.place).shd < fuel →
        vmodCopy hdrFirst vrtString httpSetHeader src dst fuel ctx = some ctx') ∧
      (Appends dst (values hdrFirst (ctx.http src.place) src.what) ctx.http ctx'.http ↔
        (src.place = dst.place → SameName src.what dst.what →
          (ctx.http dst.place).nhd + (values hdrFirst (ctx.http src.place) src.what).length =
              (ctx.http dst.place).shd ∨
            ∀ v ∈ values hdrFirst (ctx.http src.place) src.what,
              vrtString ws' dst.what.what v = none)) := by
  obtain ⟨ctx', hctx'⟩ := exists_cphdrLoop_eq (u := hdrFirst) src dst hset hjoin
    (le_max_left (ctx.http src.place).nhd (ctx.http src.place).shd) (le_max_right _ _)
  refine ⟨ctx', fun fuel hfuel => hctx' fuel (by omega), ?_⟩
  obtain ⟨http₁, happ, hloop⟩ := cphdrLoop_add (u := hdrFirst)
    (n := (ctx.http src.place).nhd - hdrFirst) src
    (max (ctx.http src.place).nhd (ctx.http src.place).shd + 1) hset hjoin (by omega)
    (show _ = values hdrFirst (ctx.http src.place) src.what from rfl) hslots hws
  rw [hctx' _ (by omega)] at hloop
  have hunread := unread_of_appends happ
  have hnhd := happ.nhd
  have hshd := happ.shd
  constructor
  · intro h hplace hname
    rw [if_pos ⟨hplace, hname⟩] at hunread
    rcases Nat.lt_or_ge (http₁ dst.place).nhd (http₁ dst.place).shd with hfree | hfull
    · right
      have hnone := eq_none_of_cphdrLoop hloop.symm hset hjoin hfree (h.nhd.trans hnhd.symm)
      rwa [hunread] at hnone
    · left
      omega
  · intro h
    have hhttp : ctx'.http = http₁ := by
      by_cases hboth : src.place = dst.place ∧ SameName src.what dst.what
      · rw [if_pos hboth] at hunread
        rcases h hboth.1 hboth.2 with hfull | hnone
        · exact http_eq_of_cphdrLoop_of_full hloop.symm hset
            (show (http₁ dst.place).shd ≤ (http₁ dst.place).nhd by omega)
        · exact http_eq_of_cphdrLoop_of_none hloop.symm (hunread ▸ hnone)
      · rw [if_neg hboth] at hunread
        exact http_eq_of_cphdrLoop_of_none hloop.symm (by simp [hunread])
    rwa [hhttp]

/-! A message with one header, and a workspace of so many bytes. -/

def bytesString (space : Nat) (h p : CString) : Option (CString × Nat) :=
  let need := h.length + p.length + 2
  if need ≤ space then some (h ++ 32 :: p, space - need) else none

def addHeader (hp : Http) (b : CString) : Http :=
  if hp.nhd < hp.shd then
    { hp with
      hd := Function.update hp.hd hp.nhd (some b)
      hdf := Function.update hp.hdf hp.nhd 0
      nhd := hp.nhd + 1 }
  else hp

theorem bytesString_joins : Joins bytesString := by
  intro ws h p r hr
  unfold bytesString at hr
  dsimp only at hr
  split_ifs at hr
  rw [← Option.some.inj hr]

theorem addHeader_sets : SetsHeader addHeader :=
  ⟨fun _ _ h => if_neg (by omega), fun _ _ h => if_pos h⟩

def upperFoo : HeaderName := ⟨str "FOO", by decide, by decide⟩

def oneMessage (shd : Nat) : Ctx Unit Nat where
  http := fun _ => { oneHeader (str "foo: bar") with shd }
  ws := 1024

/-- With one slot left, for the one header to be copied. -/
theorem copy_iff_upperFoo :
    ∃ ctx', (∀ fuel, 7 < fuel →
        vmodCopy 5 bytesString addHeader ⟨(), foo⟩ ⟨(), upperFoo⟩ fuel (oneMessage 7) =
          some ctx') ∧
      Appends ⟨(), upperFoo⟩ [str "bar"] (oneMessage 7).http ctx'.http := by
  obtain ⟨ctx', hctx', hiff⟩ := copy_iff 5 bytesString addHeader bytesString_joins
    addHeader_sets ⟨(), foo⟩ ⟨(), upperFoo⟩ (oneMessage 7) 1015 (by decide +kernel)
    (by decide +kernel)
  have hvalues : values 5 ((oneMessage 7).http ()) foo = [str "bar"] := by decide +kernel
  dsimp only at hiff
  rw [hvalues] at hiff
  exact ⟨ctx', hctx', hiff.mpr fun _ _ => .inl rfl⟩

/-- With two slots left the one header is copied twice. -/
theorem not_copies_self :
    values 5 ((oneMessage 8).http ()) foo = [str "bar"] ∧
      ((oneMessage 8).http ()).nhd + 1 ≤ ((oneMessage 8).http ()).shd ∧
      allocate bytesString upperFoo.what [str "bar"] (oneMessage 8).ws = some 1015 ∧
      ∃ ctx', vmodCopy 5 bytesString addHeader ⟨(), foo⟩ ⟨(), upperFoo⟩ 9 (oneMessage 8) =
          some ctx' ∧
        (ctx'.http ()).nhd = 8 ∧
        ¬ Appends ⟨(), upperFoo⟩ [str "bar"] (oneMessage 8).http ctx'.http := by
  have hnhd : (vmodCopy 5 bytesString addHeader ⟨(), foo⟩ ⟨(), upperFoo⟩ 9
      (oneMessage 8)).map (fun ctx' => (ctx'.http ()).nhd) = some 8 := by decide +kernel
  obtain ⟨ctx', hctx', heq⟩ := Option.map_eq_some_iff.mp hnhd
  refine ⟨by decide +kernel, by decide, by decide +kernel, ctx', hctx', heq, fun h => ?_⟩
  have hseven := h.nhd
  rw [show (ctx'.http ()).nhd = 8 from heq] at hseven
  exact absurd hseven (by decide)

end VarnishModules.HeaderCopy
