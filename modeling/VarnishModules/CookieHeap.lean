import VarnishModules.CookieFilter
import VarnishModules.CookieStore
import VarnishModules.Malloc

/-!
The cookies of `vmod_cookie.c` on their memory: a tail queue of cookies on the workspace, and
what a call allocates for its own use, copies of strings and a tail queue of names.
-/

namespace VarnishModules.CookieHeap

open VarnishModules.CStrings
open VarnishModules.TailQueue
open VarnishModules.Malloc
open VarnishModules.CookieModel (Cookie Task comma equals semicolon)
open VarnishModules.CookieStore (Op)

/-- Its strings are on the workspace too, which is not given back before the task ends. -/
structure Cell where
  name : Option CString
  value : Option CString

/-- A `struct matchlist` has its name in `entries` and its links in `matchlist`, the head of
which is `()`. -/
structure Heap where
  strings : Blocks CString
  entries : Blocks ℕ
  matchlist : Queues Unit Unit ℕ

/-- `cookielist` is the head `()`. -/
structure Memory where
  cookielist : Queues Unit Unit ℕ
  cookie : ℕ → Cell
  fresh : ℕ
  heap : Heap
  /-- The outcomes of the allocations on the workspace to come. -/
  ws : ℕ → Bool
  vsl : List String

def alive : Unit → Bool := fun _ => true

namespace Heap

variable (m : Heap)

def initial : Heap := ⟨Blocks.empty, Blocks.empty, Queues.empty⟩

/-- The list of names is not longer. -/
def fuel : ℕ := m.entries.fresh + 1

/-- A `malloc`ed entry with the `strndup` of a name, at the end of the list. -/
def addEntry (name : CString) : Except Fault Heap := do
  let mlentry := m.entries.fresh
  let entries := m.entries.alloc m.strings.fresh
  let strings := m.strings.alloc name
  let matchlist ← (m.matchlist.alloc mlentry).insertTail alive () () mlentry
  return { strings, entries, matchlist }

/-- The loop over the supplied list, in at most `n` rounds. -/
def scanList : ℕ → CString → Heap → Except Fault Heap
  | 0, p, m => if p = [] then .ok m else .error .outOfFuel
  | n + 1, p, m =>
      if p = [] then .ok m
      else
        match p.dropWhile isspace with
        | [] => .ok m
        | c :: rest =>
            let name := (c :: rest).takeWhile (· != comma)
            if name = [] then scanList n rest m
            else do
              let m ← m.addEntry name
              scanList n ((c :: rest).dropWhile (· != comma)).tail m

/-- The entries for the supplied list, from an initialised head on. -/
def parseList (list : Option CString) : Except Fault Heap :=
  let m := { m with matchlist := m.matchlist.init () }
  match list with
  | none => .ok m
  | some p => scanList p.length p m

/-- The loop over the names, for the name of a cookie. -/
def matched (name : Option CString) : ℕ → Option ℕ → Except Fault Bool
  | _, none => .ok false
  | 0, some _ => .error .outOfFuel
  | n + 1, some mlentry => do
      m.matchlist.touchElem mlentry
      let p ← m.entries.read mlentry
      let s ← m.strings.read p
      match name with
      | none => .error .nullDeref
      | some name =>
          if name = s then return true
          else matched (some name) n (m.matchlist.next () mlentry)

/-- The loop that takes the entries off the list and frees them with their names. -/
def freeLoop : ℕ → Option ℕ → Heap → Except Fault Heap
  | _, none, m => .ok m
  | 0, some _, _ => .error .outOfFuel
  | n + 1, some mlentry, m => do
      m.matchlist.touchElem mlentry
      let mlsafe := m.matchlist.next () mlentry
      let matchlist ← m.matchlist.remove alive () () mlentry
      let p ← m.entries.read mlentry
      let strings ← m.strings.free (some p)
      let entries ← m.entries.free (some mlentry)
      let matchlist ← matchlist.free mlentry
      freeLoop n mlsafe { strings, entries, matchlist }

end Heap

namespace Memory

variable (M : Memory)

/-- What `cobj_get` makes. -/
def initial (ws : ℕ → Bool) (vsl : List String) : Memory :=
  ⟨Queues.empty, fun _ => ⟨none, none⟩, 0, Heap.initial, ws, vsl⟩

/-- The list is not longer. -/
def fuel : ℕ := M.fresh + 1

def log (msg : String) : Memory :=
  { M with vsl := M.vsl ++ [msg] }

/-- `WS_Alloc`. -/
def alloc : Bool × Memory :=
  (M.ws 0, { M with ws := fun n => M.ws (n + 1) })

/-- `WS_Printf` of one string. -/
def printf (s : CString) : Option CString × Memory :=
  let (p, M) := M.alloc
  (if p then some s else none, M)

def setCell (c : ℕ) (x : Cell) : Memory :=
  { M with cookie := Function.update M.cookie c x }

def findCookie (name : CString) : ℕ → Option ℕ → Except Fault (Option ℕ)
  | _, none => .ok none
  | 0, some _ => .error .outOfFuel
  | n + 1, some c => do
      M.cookielist.touchElem c
      match (M.cookie c).name with
      | none => .error .nullDeref
      | some s =>
          if s = name then return some c
          else findCookie name n (M.cookielist.next () c)

/-- A new value for a cookie on the list. -/
def renew (cookie : ℕ) (value : CString) : Memory :=
  let (p, M) := M.printf value
  if p = none then M.log "cookie: Workspace overflow in set()"
  else M.setCell cookie { M.cookie cookie with value := p }

/-- A cookie for a name that is not on the list. -/
def addCookie (name value : CString) : Except Fault Memory :=
  let (cookie, M) := M.alloc
  if !cookie then .ok (M.log "cookie: unable to get storage for cookie")
  else
    let c := M.fresh
    let M := { M with cookielist := M.cookielist.alloc c, fresh := M.fresh + 1 }
    let (cookieName, M) := M.printf name
    let (cookieValue, M) := M.printf value
    let M := M.setCell c ⟨cookieName, cookieValue⟩
    if cookieName = none ∨ cookieValue = none then
      .ok (M.log "cookie: unable to get storage for cookie")
    else do
      let cookielist ← M.cookielist.insertTail alive () () c
      return { M with cookielist }

def vmodSet (name value : Option CString) : Except Fault Memory :=
  match name, value with
  | none, _ | some [], _ | _, none | _, some [] => .ok M
  | some name, some value => do
      match ← M.findCookie name M.fuel (M.cookielist.first ()) with
      | some cookie => return M.renew cookie value
      | none => M.addCookie name value

def vmodIsset (name : Option CString) : Except Fault Bool :=
  match name with
  | none | some [] => .ok false
  | some name => do
      let cookie ← M.findCookie name M.fuel (M.cookielist.first ())
      return cookie.isSome

def vmodGet (name : Option CString) : Except Fault (Option CString) :=
  match name with
  | none | some [] => .ok none
  | some name => do
      let cookie ← M.findCookie name M.fuel (M.cookielist.first ())
      return cookie.bind fun c => (M.cookie c).value

def vmodDelete (name : Option CString) : Except Fault Memory :=
  match name with
  | none | some [] => .ok M
  | some name => do
      match ← M.findCookie name M.fuel (M.cookielist.first ()) with
      | some cookie => do
          let cookielist ← M.cookielist.remove alive () () cookie
          return { M with cookielist }
      | none => return M

def vmodClean : Memory :=
  { M with cookielist := M.cookielist.init () }

/-- A cookie of the header, by copies that are freed behind it. -/
def setPair (name value : CString) : Except Fault Memory := do
  let p := M.heap.strings.fresh
  let M := { M with heap.strings := M.heap.strings.alloc name }
  let q := M.heap.strings.fresh
  let M := { M with heap.strings := M.heap.strings.alloc value }
  let M ← M.vmodSet (some (← M.heap.strings.read p)) (some (← M.heap.strings.read q))
  let strings ← M.heap.strings.free (some p)
  let strings ← strings.free (some q)
  return { M with heap.strings := strings }

/-- The loop of `vmod_parse`, in at most `n` rounds; `i` counts the calls of `vmod_set`. -/
def parseLoop : ℕ → CString → ℕ → Memory → Except Fault (ℕ × Memory)
  | 0, p, i, M => if p = [] then .ok (i, M) else .error .outOfFuel
  | n + 1, p, i, M =>
      if p = [] then .ok (i, M)
      else
        match strchr (p.dropWhile isspace) equals with
        | none => .ok (i, M)
        | some sep => do
            let M ← M.setPair ((p.dropWhile isspace).takeWhile (· != equals))
              (sep.tail.takeWhile (· != semicolon))
            match sep.tail.dropWhile (· != semicolon) with
            | [] => return (i + 1, M)
            | _ :: rest => parseLoop n rest (i + 1) M

def vmodParse (cookieheader : Option CString) : Except Fault Memory :=
  match cookieheader with
  | none | some [] => .ok (M.log "cookie: nothing to parse")
  | some p => do
      let M := if M.cookielist.first () = none then M else M.vmodClean
      let (i, M) ← parseLoop p.length p 0 M
      return M.log s!"cookie: parsed {i} cookies."

/-- The loop over the cookies. -/
def filterLoop (filterAction : Bool) : ℕ → Option ℕ → Queues Unit Unit ℕ →
    Except Fault (Queues Unit Unit ℕ)
  | _, none, cookielist => .ok cookielist
  | 0, some _, _ => .error .outOfFuel
  | n + 1, some c, cookielist => do
      cookielist.touchElem c
      let safe := cookielist.next () c
      let hit ← M.heap.matched (M.cookie c).name M.heap.fuel (M.heap.matchlist.first ())
      let cookielist ←
        if hit == filterAction then pure cookielist else cookielist.remove alive () () c
      filterLoop filterAction n safe cookielist

def filterCookies (list : Option CString) (filterAction : Bool) : Except Fault Memory := do
  let heap ← M.heap.parseList list
  let M := { M with heap }
  let cookielist ← M.filterLoop filterAction M.fuel (M.cookielist.first ()) M.cookielist
  let heap ← Heap.freeLoop M.heap.fuel (M.heap.matchlist.first ()) M.heap
  return { M with cookielist, heap }

/-- The loop of `vmod_get_string`; `output` is what has been printed. -/
def printLoop : ℕ → Option ℕ → CString → Except Fault CString
  | _, none, output => .ok output
  | 0, some _, _ => .error .outOfFuel
  | n + 1, some c, output => do
      M.cookielist.touchElem c
      match (M.cookie c).name, (M.cookie c).value with
      | some name, some value =>
          printLoop n (M.cookielist.next () c)
            (output ++ (if some c = M.cookielist.first () then [] else [32]) ++
              (name ++ equals :: value ++ [semicolon]))
      | _, _ => .error .assertion

def vmodGetString : Except Fault (Option CString × Memory) := do
  let output ← M.printLoop M.fuel (M.cookielist.first ()) []
  let (u, M) := M.alloc
  if u then return (some output, M)
  else return (none, M.log "cookie: Workspace overflow")

/-- The cookie behind a pointer. -/
def readCookie (c : ℕ) : Except Fault Cookie :=
  match (M.cookie c).name, (M.cookie c).value with
  | some name, some value => .ok ⟨name, value⟩
  | _, _ => .error .nullDeref

/-- What is on the list. -/
def contents : Except Fault (List Cookie) := do
  let cs ← M.cookielist.walk () M.fuel (M.cookielist.first ())
  cs.mapM M.readCookie

end Memory

/-- What a call returns. -/
inductive Answer
  | nothing
  | bool (b : Bool)
  | string (s : Option CString)
  deriving DecidableEq

def Memory.call (M : Memory) : Op → Except Fault (Answer × Memory)
  | .parse cookieheader => do return (.nothing, ← M.vmodParse cookieheader)
  | .set name value => do return (.nothing, ← M.vmodSet name value)
  | .isset name => do return (.bool (← M.vmodIsset name), M)
  | .get name => do return (.string (← M.vmodGet name), M)
  | .delete name => do return (.nothing, ← M.vmodDelete name)
  | .clean => .ok (.nothing, M.vmodClean)
  | .filter blacklist => do return (.nothing, ← M.filterCookies blacklist false)
  | .filterExcept whitelist => do return (.nothing, ← M.filterCookies whitelist true)
  | .getString => do
      let (s, M) ← M.vmodGetString
      return (.string s, M)

def run : List Op → Memory → Except Fault (List Answer × Memory)
  | [], M => .ok ([], M)
  | op :: ops, M => do
      let (a, M) ← M.call op
      let (as, M) ← run ops M
      return (a :: as, M)

/-- What a call returns on the list of cookies. -/
def answer (t : Task) : Op → Answer
  | .isset name => .bool (CookieModel.vmodIsset t name)
  | .get name => .string (CookieModel.vmodGet t name)
  | .getString => .string (CookieModel.vmodGetString t).1
  | _ => .nothing

def answers (t : Task) : List Op → List Answer
  | [] => []
  | op :: ops => answer t op :: answers (op.run t) ops

end VarnishModules.CookieHeap
