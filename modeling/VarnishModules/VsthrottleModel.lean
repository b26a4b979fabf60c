import VarnishModules.CStrings
import VarnishModules.Machine
import VarnishModules.OrderedTree
import VarnishModules.TokenBucket

/-!
The partitions of buckets and the three functions on them.

SHA256 and the bytes of a `double` in memory are parameters, and so is the
arithmetic.
-/

namespace VarnishModules.VsthrottleModel

open VarnishModules.CStrings
open VarnishModules.TokenBucket

/-- The least significant `n` bytes of a number, the least one first. -/
def leBytes : Nat → Nat → List UInt8
  | 0, _ => []
  | n + 1, x => UInt8.ofNat x :: leBytes n (x / 256)

structure Hashing where
  sha256 : List UInt8 → Digest
  doubleBytes : ℚ → List UInt8
  length_doubleBytes : ∀ x, (doubleBytes x).length = 8

/-- What a bucket is for. -/
structure Tuple where
  key : CString
  limit : Int64
  period : ℚ
  block : ℚ
  deriving DecidableEq

namespace Hashing

variable (H : Hashing)

def digestInput (k : Tuple) : List UInt8 :=
  k.key ++ leBytes 8 k.limit.toUInt64.toNat ++ H.doubleBytes k.period ++ H.doubleBytes k.block

def doDigest (k : Tuple) : Digest :=
  H.sha256 (H.digestInput k)

/-- SHA256 tells the inputs of these tuples apart, and their durations differ in
their bytes. -/
structure InjectiveOn (T : Set Tuple) : Prop where
  sha256 : Set.InjOn H.sha256 (H.digestInput '' T)
  doubleBytes : Set.InjOn H.doubleBytes {x | ∃ k ∈ T, x = k.period ∨ x = k.block}

end Hashing

/-- `struct vsthrottle`: the buckets of a partition, in the order of the tree. -/
structure Partition where
  buckets : List Tbucket
  gcCount : Nat

abbrev Vsthrottle := UInt8 → Partition

def gcIntvl : Nat := 1000

/-- `digest[0] & N_PART_MASK`. -/
def partOf (digest : Digest) : UInt8 :=
  digest.head &&& 15

/-- Nothing is returned if the insertion finds the digest in the tree. -/
def getBucket (v : Partition) (digest : Digest) (limit : ℤ) (period now : ℚ) :
    Option (Tbucket × Partition) :=
  match OrderedTree.find Tbucket.digest digest v.buckets with
  | some b => some (b, v)
  | none =>
      let b := tbAlloc digest limit period now
      match OrderedTree.insert Tbucket.digest b v.buckets with
      | (some _, _) => none
      | (none, buckets) => some (b, { v with buckets })

/-- The bucket with the digest of `b` becomes `b`. -/
def setBucket (v : Partition) (b : Tbucket) : Partition :=
  { v with buckets := v.buckets.map fun x => if x.digest = b.digest then b else x }

/-- How the module computes with times and tokens: the refill of a bucket, where it is defined,
and the `double` it gets for a sum or a difference. -/
structure Arith where
  calcTokens : Tbucket → ℚ → Option Tbucket
  round : ℚ → ℚ

namespace Arith

/-- Exact arithmetic. -/
def rational : Arith where
  calcTokens := TokenBucket.calcTokens
  round := id

variable (A : Arith)

def expired (now : ℚ) (b : Tbucket) : Bool :=
  b.period < A.round (now - b.lastUsed)

def runGc (now : ℚ) (v : Partition) : Partition :=
  { v with buckets := v.buckets.filter fun x => !A.expired now x }

/-- One more call counts towards the next collection. -/
def countCall (now : ℚ) (v : Partition) : Partition :=
  let v := { v with gcCount := v.gcCount + 1 }
  if v.gcCount = gcIntvl then { A.runGc now v with gcCount := 0 } else v

section

variable (H : Hashing) (vs : Vsthrottle)

def vmodIsDenied (key : Option CString) (limit : Int64) (period block now : ℚ) :
    Option (Bool × Vsthrottle) :=
  match key with
  | none => some (true, vs)
  | some key => do
      let digest := H.doDigest ⟨key, limit, period, block⟩
      let part := partOf digest
      let (b, v) ← getBucket (vs part) digest limit.toInt period now
      let b ← A.calcTokens b now
      let (ret, b) := denyUntil b block now (A.round (now + block))
      let v := A.countCall now (setBucket v b)
      return (ret, Function.update vs part v)

/-- The number of tokens passes through an `unsigned`. -/
def vmodRemaining (key : Option CString) (limit : Int64) (period block now : ℚ) :
    Option (ℤ × Vsthrottle) :=
  match key with
  | none => some (-1, vs)
  | some key => do
      let digest := H.doDigest ⟨key, limit, period, block⟩
      let part := partOf digest
      let (b, v) ← getBucket (vs part) digest limit.toInt period now
      let b ← A.calcTokens b now
      return (b.tokens % 2 ^ 32, Function.update vs part (setBucket v b))

def vmodBlocked (key : Option CString) (limit : Int64) (period block now : ℚ) :
    Option (ℚ × Vsthrottle) :=
  match key with
  | none => some (-1, vs)
  | some key => do
      let digest := H.doDigest ⟨key, limit, period, block⟩
      let part := partOf digest
      let (b, v) ← getBucket (vs part) digest limit.toInt period now
      let ret := A.round (b.block - now)
      return (if ret ≤ 0 then 0 else ret, Function.update vs part v)

end

end Arith

/-! The module in exact arithmetic. -/

def runGc (now : ℚ) (v : Partition) : Partition :=
  Arith.rational.runGc now v

def countCall (now : ℚ) (v : Partition) : Partition :=
  Arith.rational.countCall now v

section

variable (H : Hashing) (vs : Vsthrottle)

def vmodIsDenied (key : Option CString) (limit : Int64) (period block now : ℚ) :
    Option (Bool × Vsthrottle) :=
  Arith.rational.vmodIsDenied H vs key limit period block now

def vmodRemaining (key : Option CString) (limit : Int64) (period block now : ℚ) :
    Option (ℤ × Vsthrottle) :=
  Arith.rational.vmodRemaining H vs key limit period block now

def vmodBlocked (key : Option CString) (limit : Int64) (period block now : ℚ) :
    Option (ℚ × Vsthrottle) :=
  Arith.rational.vmodBlocked H vs key limit period block now

end

theorem runGc_eq (now : ℚ) (v : Partition) :
    runGc now v = { v with buckets := v.buckets.filter fun x => !expired now x } := rfl

theorem countCall_eq (now : ℚ) (v : Partition) :
    countCall now v = if v.gcCount + 1 = gcIntvl then
      { runGc now v with gcCount := 0 } else { v with gcCount := v.gcCount + 1 } := rfl

section

variable (H : Hashing) (vs : Vsthrottle) (key : CString) (limit : Int64) (period block now : ℚ)

theorem vmodIsDenied_some :
    vmodIsDenied H vs (some key) limit period block now =
      (getBucket (vs (partOf (H.doDigest ⟨key, limit, period, block⟩)))
        (H.doDigest ⟨key, limit, period, block⟩) limit.toInt period now).bind fun q =>
      (calcTokens q.1 now).bind fun b => some ((denyBucket b block now).1,
        Function.update vs (partOf (H.doDigest ⟨key, limit, period, block⟩))
          (countCall now (setBucket q.2 (denyBucket b block now).2))) := rfl

theorem vmodRemaining_some :
    vmodRemaining H vs (some key) limit period block now =
      (getBucket (vs (partOf (H.doDigest ⟨key, limit, period, block⟩)))
        (H.doDigest ⟨key, limit, period, block⟩) limit.toInt period now).bind fun q =>
      (calcTokens q.1 now).bind fun b => some (b.tokens % 2 ^ 32,
        Function.update vs (partOf (H.doDigest ⟨key, limit, period, block⟩))
          (setBucket q.2 b)) := rfl

theorem vmodBlocked_some :
    vmodBlocked H vs (some key) limit period block now =
      (getBucket (vs (partOf (H.doDigest ⟨key, limit, period, block⟩)))
        (H.doDigest ⟨key, limit, period, block⟩) limit.toInt period now).bind fun q =>
      some (if q.1.block - now ≤ 0 then 0 else q.1.block - now,
        Function.update vs (partOf (H.doDigest ⟨key, limit, period, block⟩)) q.2) := rfl

end

/-- The bucket of a tuple. -/
def bucketOf (H : Hashing) (vs : Vsthrottle) (k : Tuple) : Option Tbucket :=
  OrderedTree.find Tbucket.digest (H.doDigest k) (vs (partOf (H.doDigest k))).buckets

/-- No bucket is left from another load; `gc_count` may be. -/
def Loaded (vs : Vsthrottle) : Prop :=
  ∀ p, (vs p).buckets = []

def Vsthrottle.empty : Vsthrottle := fun _ => ⟨[], 0⟩

theorem loaded_empty : Loaded Vsthrottle.empty := fun _ => rfl

inductive Op
  | isDenied
  | remaining
  | blocked
  deriving DecidableEq

/-- A call at the time its critical section reads the clock. -/
structure Call where
  op : Op
  key : Option CString
  limit : Int64
  period : ℚ
  block : ℚ
  now : ℚ

/-- The tuple of a call, if its key is not `NULL`. -/
def Call.tuple (c : Call) : Option Tuple :=
  c.key.map fun key => ⟨key, c.limit, c.period, c.block⟩

/-- A call on a tuple. -/
def Tuple.call (k : Tuple) (op : Op) (now : ℚ) : Call :=
  ⟨op, some k.key, k.limit, k.period, k.block, now⟩

@[simp] theorem Tuple.tuple_call (k : Tuple) (op : Op) (now : ℚ) :
    (k.call op now).tuple = some k := rfl

inductive Result
  | denied (ret : Bool)
  | remaining (ret : ℤ)
  | blocked (ret : ℚ)
  deriving DecidableEq

def Arith.call (A : Arith) (H : Hashing) (vs : Vsthrottle) (c : Call) :
    Option (Result × Vsthrottle) :=
  match c.op with
  | .isDenied =>
      (A.vmodIsDenied H vs c.key c.limit c.period c.block c.now).map fun r => (.denied r.1, r.2)
  | .remaining =>
      (A.vmodRemaining H vs c.key c.limit c.period c.block c.now).map fun r =>
        (.remaining r.1, r.2)
  | .blocked =>
      (A.vmodBlocked H vs c.key c.limit c.period c.block c.now).map fun r => (.blocked r.1, r.2)

def Call.run (H : Hashing) (vs : Vsthrottle) (c : Call) : Option (Result × Vsthrottle) :=
  Arith.rational.call H vs c

theorem Call.run_eq (H : Hashing) (vs : Vsthrottle) (c : Call) :
    c.run H vs = match c.op with
      | .isDenied => (vmodIsDenied H vs c.key c.limit c.period c.block c.now).map fun r =>
          (.denied r.1, r.2)
      | .remaining => (vmodRemaining H vs c.key c.limit c.period c.block c.now).map fun r =>
          (.remaining r.1, r.2)
      | .blocked => (vmodBlocked H vs c.key c.limit c.period c.block c.now).map fun r =>
          (.blocked r.1, r.2) := rfl

abbrev Event := Machine.Event Vsthrottle Call Result

/-- The calls of a run, with the partitions before each and its result. -/
def Arith.run (A : Arith) (H : Hashing) :
    List Call → Vsthrottle → Option (List Event × Vsthrottle) :=
  Machine.run (A.call H)

def run (H : Hashing) : List Call → Vsthrottle → Option (List Event × Vsthrottle) :=
  Machine.run (Call.run H)

/-- The clock does not run backwards. -/
def Monotonic (cs : List Call) : Prop :=
  cs.Pairwise fun c c' => c.now ≤ c'.now

theorem length_leBytes (n x : Nat) : (leBytes n x).length = n := by
  induction n generalizing x with
  | zero => rfl
  | succ n ih => simp [leBytes, ih]

theorem leBytes_inj {n x y : Nat} (hx : x < 256 ^ n) (hy : y < 256 ^ n)
    (h : leBytes n x = leBytes n y) : x = y := by
  induction n generalizing x y with
  | zero =>
      rw [pow_zero] at hx hy
      omega
  | succ n ih =>
      obtain ⟨hhead, htail⟩ := List.cons.inj h
      rw [pow_succ] at hx hy
      have hquot := ih (Nat.div_lt_of_lt_mul (by omega)) (Nat.div_lt_of_lt_mul (by omega)) htail
      have hmod : x % 256 = y % 256 := by
        simpa using congrArg UInt8.toNat hhead
      omega

theorem Hashing.InjectiveOn.doDigest {H : Hashing} {T : Set Tuple} (hT : H.InjectiveOn T) :
    Set.InjOn H.doDigest T := by
  intro k hk k' hk' heq
  have hinput : H.digestInput k = H.digestInput k' :=
    hT.sha256 ⟨k, hk, rfl⟩ ⟨k', hk', rfl⟩ heq
  obtain ⟨hrest, hblock⟩ := List.append_inj' hinput (by simp [H.length_doubleBytes])
  obtain ⟨hrest, hperiod⟩ := List.append_inj' hrest (by simp [H.length_doubleBytes])
  obtain ⟨hkey, hlimit⟩ := List.append_inj' hrest (by simp [length_leBytes])
  have hbits : k.limit.toUInt64 = k'.limit.toUInt64 :=
    UInt64.toNat_inj.mp (leBytes_inj k.limit.toUInt64.toNat_lt k'.limit.toUInt64.toNat_lt hlimit)
  have hlimit' : k.limit = k'.limit := by
    rw [← Int64.toInt64_toUInt64 k.limit, hbits, Int64.toInt64_toUInt64]
  have hperiod' := hT.doubleBytes ⟨k, hk, Or.inl rfl⟩ ⟨k', hk', Or.inl rfl⟩ hperiod
  have hblock' := hT.doubleBytes ⟨k, hk, Or.inr rfl⟩ ⟨k', hk', Or.inr rfl⟩ hblock
  cases k
  cases k'
  simp_all

theorem Hashing.InjectiveOn.mono {H : Hashing} {S T : Set Tuple} (hT : H.InjectiveOn T)
    (hST : S ⊆ T) : H.InjectiveOn S where
  sha256 := hT.sha256.mono (Set.image_mono hST)
  doubleBytes := hT.doubleBytes.mono (by
    rintro x ⟨k, hk, hx⟩
    exact ⟨k, hST hk, hx⟩)

/-! SHA256 and the bytes of a `double`, on four tuples. -/

def tupleA : Tuple := ⟨str "a", 1, 1, 0⟩

def tupleA2 : Tuple := ⟨str "a", 2, 2, 0⟩

def tupleA10 : Tuple := ⟨str "a", 1, 1, 10⟩

def tupleG : Tuple := ⟨str "g", 1, 1, 0⟩

def tableDouble (x : ℚ) : List UInt8 :=
  if x = 1 then [0, 0, 0, 0, 0, 0, 240, 63]
  else if x = 2 then [0, 0, 0, 0, 0, 0, 0, 64]
  else if x = 10 then [0, 0, 0, 0, 0, 0, 36, 64]
  else [0, 0, 0, 0, 0, 0, 0, 0]

def tableSha256 (bytes : List UInt8) : Digest :=
  if bytes = [97, 1, 0, 0, 0, 0, 0, 0, 0, 0, 0, 0, 0, 0, 0, 240, 63, 0, 0, 0, 0, 0, 0, 0, 0] then
    ⟨[78, 96, 80, 99, 67, 152, 28, 218, 113, 21, 89, 197, 109, 22, 142, 172, 104, 206, 153, 118,
      253, 93, 223, 100, 167, 228, 148, 205, 64, 73, 206, 236], rfl⟩
  else if bytes = [97, 2, 0, 0, 0, 0, 0, 0, 0, 0, 0, 0, 0, 0, 0, 0, 64, 0, 0, 0, 0, 0, 0, 0, 0] then
    ⟨[163, 19, 110, 125, 239, 99, 209, 0, 176, 65, 160, 242, 136, 194, 42, 94, 31, 150, 107, 148,
      41, 6, 144, 226, 54, 239, 41, 157, 234, 183, 5, 55], rfl⟩
  else if bytes = [97, 1, 0, 0, 0, 0, 0, 0, 0, 0, 0, 0, 0, 0, 0, 240, 63, 0, 0, 0, 0, 0, 0, 36, 64]
  then
    ⟨[145, 43, 30, 140, 241, 43, 115, 254, 177, 85, 248, 106, 106, 141, 107, 105, 168, 227, 4, 11,
      245, 96, 1, 79, 240, 254, 128, 21, 137, 240, 27, 16], rfl⟩
  else if bytes = [103, 1, 0, 0, 0, 0, 0, 0, 0, 0, 0, 0, 0, 0, 0, 240, 63, 0, 0, 0, 0, 0, 0, 0, 0]
  then
    ⟨[193, 17, 186, 194, 86, 22, 7, 182, 97, 250, 90, 10, 24, 96, 156, 100, 168, 205, 169, 226, 54,
      165, 116, 118, 195, 174, 197, 207, 124, 113, 209, 148], rfl⟩
  else Digest.zero

def table : Hashing where
  sha256 := tableSha256
  doubleBytes := tableDouble
  length_doubleBytes x := by
    unfold tableDouble
    split_ifs <;> rfl

theorem table_injectiveOn : table.InjectiveOn {tupleA, tupleA2, tupleA10, tupleG} where
  sha256 := by
    have hinj : ∀ k ∈ [tupleA, tupleA2, tupleA10, tupleG],
        ∀ k' ∈ [tupleA, tupleA2, tupleA10, tupleG],
        table.sha256 (table.digestInput k) = table.sha256 (table.digestInput k') →
          table.digestInput k = table.digestInput k' := by
      decide +kernel
    rintro _ ⟨k, hk, rfl⟩ _ ⟨k', hk', rfl⟩
    exact hinj k (by simpa using hk) k' (by simpa using hk')
  doubleBytes := by
    have hinj : ∀ x ∈ ([0, 1, 2, 10] : List ℚ), ∀ y ∈ ([0, 1, 2, 10] : List ℚ),
        table.doubleBytes x = table.doubleBytes y → x = y := by
      decide +kernel
    have hmem : ∀ x ∈ {x | ∃ k ∈ ({tupleA, tupleA2, tupleA10, tupleG} : Set Tuple),
        x = k.period ∨ x = k.block}, x ∈ ([0, 1, 2, 10] : List ℚ) := by
      rintro x ⟨k, rfl | rfl | rfl | rfl, rfl | rfl⟩ <;> decide +kernel
    intro x hx y hy
    exact hinj x (hmem x hx) y (hmem y hy)

/-- The last two tuples share a partition. -/
example : partOf (table.doDigest tupleA10) = partOf (table.doDigest tupleG) := by
  decide +kernel

end VarnishModules.VsthrottleModel
