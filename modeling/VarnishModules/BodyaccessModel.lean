import VarnishModules.CStrings

/-!
The cached body of a request, logged and matched: `vmod_bodyaccess.c`.

`malloc`, the regular expressions and what `VRB_Iterate` delivers are parameters.
-/

namespace VarnishModules.BodyaccessModel

open VarnishModules.CStrings

/-- Bytes in memory: a `size_t` counts them. -/
structure Bytes where
  data : List UInt8
  length_lt : data.length < 2 ^ 64

def Bytes.empty : Bytes := ⟨[], by decide⟩

def Bytes.len (b : Bytes) : UInt64 := UInt64.ofNat b.data.length

/-- The chunks that `VRB_Iterate` hands to its callback, and what it returns. -/
structure Iteration where
  chunks : List Bytes
  ret : Int

def Iteration.bytes (it : Iteration) : List UInt8 :=
  (it.chunks.map Bytes.data).flatten

inductive ReqBodyStatus
  | cached
  | other
  deriving DecidableEq

inductive Method
  | recv
  | other
  deriving DecidableEq

/-- A text for `VSLbt`, and the size of the buffer it is put together in. -/
structure Line where
  size : UInt64
  txtbody : List UInt8
  deriving DecidableEq

inductive Record
  | vclError (text : String)
  | debug (line : Line)
  deriving DecidableEq

structure BodyaccessLogCtx where
  pfx : Bytes
  len : UInt64

section

variable (ctx : BodyaccessLogCtx) (len : UInt64)

/-- What is given to `malloc`. -/
def bufSize : UInt64 :=
  let size := if ctx.len > 0 then ctx.len else len
  size + ctx.pfx.len

/-- What is copied from the body in one round. -/
def pieceSize : UInt64 :=
  if len > ctx.len ∧ ctx.len > 0 then ctx.len else len

variable {ctx len}

theorem toNat_pieceSize :
    (pieceSize ctx len).toNat =
      if ctx.len.toNat = 0 then len.toNat else min ctx.len.toNat len.toNat := by
  simp only [pieceSize, GT.gt, UInt64.lt_iff_toNat_lt, UInt64.toNat_zero]
  split_ifs <;> omega

theorem toNat_sub_pieceSize :
    (len - pieceSize ctx len).toNat = len.toNat - (pieceSize ctx len).toNat := by
  refine UInt64.toNat_sub_of_le _ _ (UInt64.le_iff_toNat_le.mpr ?_)
  rw [toNat_pieceSize]
  split_ifs <;> omega

end

/-- The rounds on one chunk, `len` bytes of which are left in `str`. -/
def logLoop (ctx : BodyaccessLogCtx) (buf : UInt64) (str : List UInt8) (len : UInt64) :
    List Line :=
  if 0 < len then
    let size := pieceSize ctx len
    ⟨buf, ctx.pfx.data ++ str.take size.toNat⟩ ::
      logLoop ctx buf (str.drop size.toNat) (len - size)
  else []
termination_by len.toNat
decreasing_by
  rename_i hlen
  rw [UInt64.lt_iff_toNat_lt, UInt64.toNat_zero] at hlen
  rw [toNat_sub_pieceSize, toNat_pieceSize]
  split_ifs <;> omega

/-- Nothing is returned if there is no memory. -/
def bodyaccessLog (malloc : UInt64 → Bool) (ctx : BodyaccessLogCtx) (chunk : Bytes) :
    Option (List Line) :=
  let size := bufSize ctx chunk.len
  if malloc size then some (logLoop ctx size chunk.data chunk.len) else none

def iterationError (ret : Int) : List Record :=
  if ret < 0 then [.vclError "Iteration on req.body didn't succeed."] else []

/-- The length becomes a `size_t`. -/
def logCtx (pfx : Option Bytes) (length : Int64) : BodyaccessLogCtx :=
  ⟨pfx.getD Bytes.empty, length.toUInt64⟩

def vmodLogReqBody (malloc : UInt64 → Bool) (status : ReqBodyStatus) (pfx : Option Bytes)
    (length : Int64) (body : Iteration) : Option (List Record) :=
  if status ≠ .cached then some [.vclError "Unbuffered req.body"]
  else
    (body.chunks.mapM (bodyaccessLog malloc (logCtx pfx length))).map fun lines =>
      lines.flatten.map .debug ++ iterationError body.ret

def bodyaccessBcat (body : Iteration) : List UInt8 × List Record :=
  (body.chunks.foldl (fun vsb chunk => vsb ++ chunk.data) [], iterationError body.ret)

def vreErrorNomatch : Int := -1

/-- The result, what is logged and what the call site keeps in `priv_call`. -/
structure Rematch (R : Type*) where
  ret : Int
  log : List Record
  priv : Option R

/-- Nothing is returned if the expression is `NULL`. -/
def vmodRematchReqBody {R : Type*} (vreCompile : CString → Option R)
    (vreExec : R → List UInt8 → Int) (status : ReqBodyStatus) (method : Method)
    (priv : Option R) (re : Option CString) (body : Iteration) : Option (Rematch R) :=
  if status ≠ .cached then some ⟨-1, [.vclError "Unbuffered req.body"], priv⟩
  else if method ≠ .recv then
    some ⟨-1, [.vclError "rematch_req_body can be used only in vcl_recv\x7b\x7d"], priv⟩
  else
    re.map fun re =>
      match if priv.isNone then vreCompile re else priv with
      | none => ⟨-1, [.vclError "Regular expression not valid"], none⟩
      | some t =>
          let (vsb, log) := bodyaccessBcat body
          let i := vreExec t vsb
          if i > 0 then ⟨1, log, some t⟩
          else if i = vreErrorNomatch then ⟨0, log, some t⟩
          else ⟨-1, log ++ [.vclError ("Regexp matching returned " ++ toString i)], some t⟩

theorem bodyaccessBcat_eq (body : Iteration) :
    bodyaccessBcat body = (body.bytes, iterationError body.ret) := by
  have hfold : ∀ (chunks : List Bytes) (vsb : List UInt8),
      chunks.foldl (fun vsb chunk => vsb ++ chunk.data) vsb =
        vsb ++ (chunks.map Bytes.data).flatten := by
    intro chunks
    induction chunks with
    | nil => simp
    | cons chunk chunks ih =>
        intro vsb
        rw [List.foldl_cons, ih, List.map_cons, List.flatten_cons, List.append_assoc]
  exact congrArg (·, iterationError body.ret) (hfold body.chunks [])

end VarnishModules.BodyaccessModel
