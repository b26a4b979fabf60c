import VarnishModules.BodyaccessModel

/-!
The lines of `log_req_body`, and the buffer they are put together in.
-/

namespace VarnishModules.BodyaccessLog

open VarnishModules.CStrings
open VarnishModules.BodyaccessModel

/-- Pieces that are not empty make up the bytes, each within the limit if there is one. -/
structure IsCut (limit : Nat) (bytes : List UInt8) (pieces : List (List UInt8)) : Prop where
  flatten : pieces.flatten = bytes
  nonempty : ∀ p ∈ pieces, p ≠ []
  le : 0 < limit → ∀ p ∈ pieces, p.length ≤ limit

variable {limit : Nat} {bytes bytes' p : List UInt8} {pieces pieces' : List (List UInt8)}

theorem isCut_nil : IsCut limit [] [] := ⟨rfl, by simp, by simp⟩

theorem IsCut.append (h : IsCut limit bytes pieces) (h' : IsCut limit bytes' pieces') :
    IsCut limit (bytes ++ bytes') (pieces ++ pieces') where
  flatten := by rw [List.flatten_append, h.flatten, h'.flatten]
  nonempty q hq := (List.mem_append.mp hq).elim (h.nonempty q) (h'.nonempty q)
  le hlimit q hq := (List.mem_append.mp hq).elim (h.le hlimit q) (h'.le hlimit q)

theorem isCut_singleton (hp : p ≠ []) (hle : 0 < limit → p.length ≤ limit) :
    IsCut limit p [p] :=
  ⟨by simp, by simpa using hp, by simpa using hle⟩

theorem IsCut.length_le (h : IsCut limit bytes pieces) (hp : p ∈ pieces) :
    p.length ≤ bytes.length := by
  rw [← h.flatten]
  exact (List.sublist_flatten_of_mem hp).length_le

theorem toNat_len (b : Bytes) : b.len.toNat = b.data.length :=
  UInt64.toNat_ofNat_of_lt' b.length_lt

/-- The loop ends, with a cut of the chunk. -/
theorem logLoop_eq (ctx : BodyaccessLogCtx) (buf : UInt64) {len : UInt64} {str : List UInt8}
    (hlen : len.toNat = str.length) :
    ∃ pieces, logLoop ctx buf str len = pieces.map (fun p => ⟨buf, ctx.pfx.data ++ p⟩) ∧
      IsCut ctx.len.toNat str pieces := by
  induction str, len using logLoop.induct ctx with
  | case1 str len hlt size ih =>
      have hpos := UInt64.lt_iff_toNat_lt.mp hlt
      rw [UInt64.toNat_zero] at hpos
      have hsize : size.toNat =
          if ctx.len.toNat = 0 then len.toNat else min ctx.len.toNat len.toNat := toNat_pieceSize
      obtain ⟨pieces, heq, hcut⟩ := ih (by
        rw [toNat_sub_pieceSize, List.length_drop, hlen])
      have hpiece : IsCut ctx.len.toNat (str.take size.toNat) [str.take size.toNat] := by
        refine isCut_singleton (fun hnil => ?_) fun hlimit => ?_
        · have hzero := congrArg List.length hnil
          rw [List.length_take, List.length_nil] at hzero
          split_ifs at hsize <;> omega
        · rw [List.length_take]
          split_ifs at hsize <;> omega
      refine ⟨str.take size.toNat :: pieces, ?_, ?_⟩
      · rw [logLoop, if_pos hlt, List.map_cons, ← heq]
      · have happend := hpiece.append hcut
        rwa [List.take_append_drop] at happend
  | case2 str len hlt =>
      have hpos := mt UInt64.lt_iff_toNat_lt.mpr hlt
      rw [UInt64.toNat_zero] at hpos
      obtain rfl : str = [] := List.eq_nil_of_length_eq_zero (by omega)
      refine ⟨[], ?_, isCut_nil⟩
      rw [logLoop, if_neg hlt, List.map_nil]

/-- No round of the loop writes past the end of the buffer. -/
def Fits (malloc : UInt64 → Bool) (ctx : BodyaccessLogCtx) (chunk : Bytes) : Prop :=
  ∀ lines, bodyaccessLog malloc ctx chunk = some lines →
    ∀ line ∈ lines, line.txtbody.length ≤ line.size.toNat

/-- What `malloc` is meant to be given, as a number that does not wrap. -/
def wanted (ctx : BodyaccessLogCtx) (chunk : Bytes) : Nat :=
  (if ctx.len = 0 then chunk.data.length else ctx.len.toNat) + ctx.pfx.data.length

theorem toNat_bufSize (ctx : BodyaccessLogCtx) (chunk : Bytes) :
    (bufSize ctx chunk.len).toNat = wanted ctx chunk % 2 ^ 64 := by
  have hzero : ctx.len > 0 ↔ ctx.len ≠ 0 := UInt64.pos_iff_ne_zero
  by_cases hlen : ctx.len = 0
  · rw [bufSize, wanted, if_neg (by simp [hlen]), if_pos hlen, UInt64.toNat_add, toNat_len,
      toNat_len]
  · rw [bufSize, wanted, if_pos (hzero.mpr hlen), if_neg hlen, UInt64.toNat_add, toNat_len]

theorem wanted_lt_two_mul (ctx : BodyaccessLogCtx) (chunk : Bytes) :
    wanted ctx chunk < 2 ^ 64 + ctx.pfx.data.length := by
  have hchunk := chunk.length_lt
  have hlen := ctx.len.toNat_lt
  rw [wanted]
  split_ifs <;> omega

theorem fits_iff (malloc : UInt64 → Bool) (ctx : BodyaccessLogCtx) (chunk : Bytes) :
    Fits malloc ctx chunk ↔
      malloc (UInt64.ofNat (wanted ctx chunk)) = false ∨ chunk.data = [] ∨
        wanted ctx chunk < 2 ^ 64 := by
  have hsize := toNat_bufSize ctx chunk
  have hbuf : UInt64.ofNat (wanted ctx chunk) = bufSize ctx chunk.len := by
    apply UInt64.toNat_inj.mp
    rw [hsize, UInt64.toNat_ofNat']
  rw [hbuf]
  cases hmalloc : malloc (bufSize ctx chunk.len) with
  | false =>
      refine iff_of_true (fun lines hlines => ?_) (Or.inl rfl)
      simp [bodyaccessLog, hmalloc] at hlines
  | true =>
      obtain ⟨pieces, hlines, hcut⟩ := logLoop_eq ctx (bufSize ctx chunk.len) (toNat_len chunk)
      have hfits : Fits malloc ctx chunk ↔
          ∀ p ∈ pieces, ctx.pfx.data.length + p.length ≤ wanted ctx chunk % 2 ^ 64 := by
        simp [Fits, bodyaccessLog, hmalloc, hlines, hsize]
      rw [hfits]
      constructor
      · intro h
        refine Or.inr (or_iff_not_imp_left.mpr fun hne => not_le.mp fun hwrap => ?_)
        -- a size that wraps is less than the prefix needs
        have hwanted := wanted_lt_two_mul ctx chunk
        have hpfx := ctx.pfx.length_lt
        cases hpieces : pieces with
        | nil => exact hne (by rw [← hcut.flatten, hpieces, List.flatten_nil])
        | cons p ps =>
            have hp := h p (hpieces ▸ List.mem_cons_self)
            omega
      · rintro (hfalse | hnil | hlt) p hp
        · exact absurd hfalse (by simp)
        · have hle := hcut.length_le hp
          rw [hnil, List.length_nil] at hle
          exact absurd (List.eq_nil_of_length_eq_zero (by omega)) (hcut.nonempty p hp)
        · rw [Nat.mod_eq_of_lt hlt, wanted]
          split_ifs with hlen
          · have hle := hcut.length_le hp
            omega
          · have hpos : 0 < ctx.len.toNat :=
              Nat.pos_of_ne_zero fun hzero => hlen (UInt64.toNat_inj.mp hzero)
            have hle := hcut.le hpos p hp
            omega

/-- The sum of the limit and of the length of the prefix fits a `size_t`. -/
def NoWrap (pfx : Option Bytes) (length : Int64) (chunk : Bytes) : Prop :=
  if 0 < length then length.toInt + (pfx.getD Bytes.empty).data.length < 2 ^ 64
  else if length = 0 then chunk.data.length + (pfx.getD Bytes.empty).data.length < 2 ^ 64
  else ((pfx.getD Bytes.empty).data.length : ℤ) < -length.toInt

theorem wanted_logCtx_lt_iff (pfx : Option Bytes) (length : Int64) (chunk : Bytes) :
    wanted (logCtx pfx length) chunk < 2 ^ 64 ↔ NoWrap pfx length chunk := by
  have hlen : length.toInt = if 2 * length.toUInt64.toNat < 2 ^ 64 then
      (length.toUInt64.toNat : ℤ) else length.toUInt64.toNat - 2 ^ 64 :=
    BitVec.toInt_eq_toNat_cond length.toBitVec
  have hlt := length.toUInt64.toNat_lt
  have hpos : 0 < length ↔ 0 < length.toInt := Int64.lt_iff_toInt_lt
  have hzero : length = 0 ↔ length.toInt = 0 := Int64.toInt_inj.symm
  have hzero' : length.toUInt64 = 0 ↔ length.toUInt64.toNat = 0 := UInt64.toNat_inj.symm
  simp only [wanted, logCtx, NoWrap, hpos, hzero, hzero']
  split_ifs at hlen ⊢ <;> omega

/-- A length that is not negative does not wrap, with objects that a signed size can count. -/
theorem noWrap_of_nonneg {pfx : Option Bytes} {length : Int64} {chunk : Bytes}
    (hlength : 0 ≤ length) (hpfx : (pfx.getD Bytes.empty).data.length < 2 ^ 63)
    (hchunk : chunk.data.length < 2 ^ 63) : NoWrap pfx length chunk := by
  have hnonneg : 0 ≤ length.toInt := Int64.le_iff_toInt_le.mp hlength
  have hpos : 0 < length ↔ 0 < length.toInt := Int64.lt_iff_toInt_lt
  have hzero : length = 0 ↔ length.toInt = 0 := Int64.toInt_inj.symm
  have hlt := length.toInt_lt
  simp only [NoWrap, hpos, hzero]
  split_ifs <;> omega

/-- The buffer is large enough, whatever `malloc` does, just when its size does not wrap. -/
theorem bodyaccessLog_fits_iff (pfx : Option Bytes) (length : Int64) (chunk : Bytes) :
    (∀ malloc, Fits malloc (logCtx pfx length) chunk) ↔
      chunk.data = [] ∨ NoWrap pfx length chunk := by
  rw [← wanted_logCtx_lt_iff]
  constructor
  · intro h
    simpa using (fits_iff (fun _ => true) _ chunk).mp (h fun _ => true)
  · intro h malloc
    exact (fits_iff malloc _ chunk).mpr (Or.inr h)

def pfxPrefix : Bytes := ⟨str "PREFIX:", by decide⟩

def chunkA : Bytes := ⟨str "A", by decide⟩

/-- With a length of -1, eight bytes are written to a buffer of six. -/
theorem not_fits_pfxPrefix :
    ∃ line, bodyaccessLog (fun size => size < 2 ^ 47) (logCtx (some pfxPrefix) (-1)) chunkA =
        some [line] ∧
      line.size = 6 ∧ line.txtbody.length = 8 ∧
      ¬ Fits (fun size => size < 2 ^ 47) (logCtx (some pfxPrefix) (-1)) chunkA := by
  have hlog : bodyaccessLog (fun size => size < 2 ^ 47) (logCtx (some pfxPrefix) (-1)) chunkA =
      some [⟨6, str "PREFIX:A"⟩] := by
    have hend : ∀ rest : List UInt8, logLoop (logCtx (some pfxPrefix) (-1)) 6 rest 0 = [] := by
      intro rest
      rw [logLoop, if_neg (by decide)]
    have hloop : logLoop (logCtx (some pfxPrefix) (-1)) 6 chunkA.data 1 =
        [⟨6, str "PREFIX:A"⟩] := by
      rw [logLoop, if_pos (by decide)]
      dsimp only
      rw [show (1 : UInt64) - pieceSize (logCtx (some pfxPrefix) (-1)) 1 = 0 by decide, hend]
      decide
    rw [← hloop]
    rfl
  refine ⟨_, hlog, rfl, by decide, fun h => ?_⟩
  exact absurd (h _ hlog _ List.mem_cons_self) (by decide)

/-! The lines for a whole body. -/

/-- The lines carry the prefix and the bytes of the body, each within the length if it is not 0. -/
structure LosesNothing (pfx : List UInt8) (length : Int64) (body : List UInt8)
    (lines : List (List UInt8)) : Prop where
  starts : ∀ line ∈ lines, pfx <+: line
  joins : (lines.map (·.drop pfx.length)).flatten = body
  nonempty : ∀ line ∈ lines, line.drop pfx.length ≠ []
  le : 0 < length → ∀ line ∈ lines, ((line.drop pfx.length).length : ℤ) ≤ length.toInt

theorem IsCut.losesNothing {pfx : List UInt8} {length : Int64} {body : List UInt8}
    {pieces : List (List UInt8)} (h : IsCut length.toUInt64.toNat body pieces) :
    LosesNothing pfx length body (pieces.map (pfx ++ ·)) where
  starts line hline := by
    obtain ⟨p, -, rfl⟩ := List.mem_map.mp hline
    exact List.prefix_append pfx p
  joins := by
    rw [List.map_map, ← h.flatten]
    congr 1
    exact (List.map_congr_left fun p _ => List.drop_left).trans (List.map_id _)
  nonempty line hline := by
    obtain ⟨p, hp, rfl⟩ := List.mem_map.mp hline
    rw [List.drop_left]
    exact h.nonempty p hp
  le hlength line hline := by
    obtain ⟨p, hp, rfl⟩ := List.mem_map.mp hline
    have hpos : 0 < length.toInt := Int64.lt_iff_toInt_lt.mp hlength
    have hnat : length.toUInt64.toNat = length.toInt.toNat :=
      Int64.toNat_toUInt64_of_le (Int64.le_of_lt hlength)
    have hle := h.le (by omega) p hp
    rw [List.drop_left]
    omega

/-- The chunks are cut one by one, and their lines are those of the whole. -/
theorem mapM_bodyaccessLog {malloc : UInt64 → Bool} {ctx : BodyaccessLogCtx}
    {chunks : List Bytes} (hmalloc : ∀ chunk ∈ chunks, malloc (bufSize ctx chunk.len) = true) :
    ∃ lines pieces, chunks.mapM (bodyaccessLog malloc ctx) = some lines ∧
      (∀ ls ∈ lines, ∃ chunk ∈ chunks, bodyaccessLog malloc ctx chunk = some ls) ∧
      lines.flatten.map Line.txtbody = pieces.map (ctx.pfx.data ++ ·) ∧
      IsCut ctx.len.toNat (chunks.map Bytes.data).flatten pieces := by
  induction chunks with
  | nil => exact ⟨[], [], rfl, by simp, rfl, isCut_nil⟩
  | cons chunk chunks ih =>
      obtain ⟨hchunk, hchunks⟩ := List.forall_mem_cons.mp hmalloc
      obtain ⟨lines, pieces, hlines, hfrom, htexts, hcut⟩ := ih hchunks
      obtain ⟨pieces', hloop, hcut'⟩ := logLoop_eq ctx (bufSize ctx chunk.len) (toNat_len chunk)
      have hlog : bodyaccessLog malloc ctx chunk =
          some (pieces'.map fun p => ⟨bufSize ctx chunk.len, ctx.pfx.data ++ p⟩) := by
        rw [← hloop, bodyaccessLog, if_pos hchunk]
      refine ⟨(pieces'.map fun p => ⟨bufSize ctx chunk.len, ctx.pfx.data ++ p⟩) :: lines,
        pieces' ++ pieces, ?_, ?_, ?_, hcut'.append hcut⟩
      · rw [List.mapM_cons, hlog, hlines]
        rfl
      · refine List.forall_mem_cons.mpr ⟨⟨chunk, List.mem_cons_self, hlog⟩, fun ls hls => ?_⟩
        obtain ⟨chunk', hmem, heq⟩ := hfrom ls hls
        exact ⟨chunk', List.mem_cons_of_mem chunk hmem, heq⟩
      · rw [List.flatten_cons, List.map_append, List.map_append, htexts, List.map_map]
        rfl

/-- For a length that is not negative the lines of a cached body are cut from all of it, and none
runs out of its buffer, if there is memory for them. -/
theorem vmodLogReqBody_losesNothing (malloc : UInt64 → Bool) (pfx : Option Bytes)
    (length : Int64) (hlength : 0 ≤ length) (body : Iteration)
    (hmalloc : ∀ chunk ∈ body.chunks,
      malloc (bufSize (logCtx pfx length) chunk.len) = true) :
    ∃ lines : List Line, vmodLogReqBody malloc .cached pfx length body =
        some (lines.map Record.debug ++ iterationError body.ret) ∧
      LosesNothing (pfx.getD Bytes.empty).data length body.bytes
        (lines.map Line.txtbody) ∧
      ((pfx.getD Bytes.empty).data.length < 2 ^ 63 →
        (∀ chunk ∈ body.chunks, chunk.data.length < 2 ^ 63) →
        ∀ line ∈ lines, line.txtbody.length ≤ line.size.toNat) := by
  obtain ⟨lines, pieces, hlines, hfrom, htexts, hcut⟩ := mapM_bodyaccessLog hmalloc
  refine ⟨lines.flatten, ?_, ?_, fun hpfx hchunks line hline => ?_⟩
  · rw [vmodLogReqBody, if_neg (by simp), hlines, Option.map_some]
  · rw [htexts]
    exact hcut.losesNothing
  · obtain ⟨ls, hls, hline⟩ := List.mem_flatten.mp hline
    obtain ⟨chunk, hchunk, hlog⟩ := hfrom ls hls
    have hwrap := noWrap_of_nonneg hlength hpfx (hchunks chunk hchunk)
    exact (fits_iff malloc _ chunk).mpr (Or.inr (Or.inr
      ((wanted_logCtx_lt_iff pfx length chunk).mpr hwrap))) ls hlog line hline

/-- A body of 16 bytes in two chunks, with a length of 3. -/
theorem vmodLogReqBody_losesNothing_twoChunks :
    ∃ lines : List Line,
      vmodLogReqBody (fun size => size < 2 ^ 47) .cached (some pfxPrefix) 3
          ⟨[⟨str "1234567890", by decide⟩, ⟨str "ABCDEF", by decide⟩], 0⟩ =
        some (lines.map Record.debug ++ iterationError 0) ∧
      LosesNothing pfxPrefix.data 3 (str "1234567890ABCDEF") (lines.map Line.txtbody) ∧
      (pfxPrefix.data.length < 2 ^ 63 →
        (∀ chunk ∈ [(⟨str "1234567890", by decide⟩ : Bytes), ⟨str "ABCDEF", by decide⟩],
          chunk.data.length < 2 ^ 63) →
        ∀ line ∈ lines, line.txtbody.length ≤ line.size.toNat) :=
  vmodLogReqBody_losesNothing _ (some pfxPrefix) 3 (by decide) _ (by decide)

end VarnishModules.BodyaccessLog
