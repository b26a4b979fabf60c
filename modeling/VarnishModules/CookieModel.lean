import VarnishModules.CStrings

/-!
The cookies of a task: `vmod_cookie.c`.

`cobj_get` makes an empty list when a task has none, and the allocations on the
workspace succeed or fail one by one as the task says.
-/

namespace VarnishModules.CookieModel

open VarnishModules.CStrings

def semicolon : UInt8 := 59

def equals : UInt8 := 61

def comma : UInt8 := 44

structure Cookie where
  name : CString
  value : CString
  deriving DecidableEq

structure Task where
  cookielist : List Cookie
  /-- The outcomes of the allocations to come. -/
  ws : Nat → Bool
  vsl : List String

namespace Task

def log (t : Task) (msg : String) : Task :=
  { t with vsl := t.vsl ++ [msg] }

/-- `WS_Alloc` or `WS_Printf`. -/
def alloc (t : Task) : Bool × Task :=
  (t.ws 0, { t with ws := fun n => t.ws (n + 1) })

end Task

def findCookie (cookielist : List Cookie) (name : CString) : Option Cookie :=
  cookielist.find? fun cookie => cookie.name = name

/-- The value of the cookie that `find_cookie` finds is replaced. -/
def setValue (name value : CString) : List Cookie → List Cookie
  | [] => []
  | cookie :: rest =>
      if cookie.name = name then { cookie with value } :: rest
      else cookie :: setValue name value rest

def vmodSet (t : Task) (name value : Option CString) : Task :=
  match name, value with
  | none, _ | some [], _ | _, none | _, some [] => t
  | some name, some value =>
      match findCookie t.cookielist name with
      | some _ =>
          let (p, t) := t.alloc
          if p then { t with cookielist := setValue name value t.cookielist }
          else t.log "cookie: Workspace overflow in set()"
      | none =>
          let (cookie, t) := t.alloc
          if !cookie then t.log "cookie: unable to get storage for cookie"
          else
            let (cookieName, t) := t.alloc
            let (cookieValue, t) := t.alloc
            if !cookieName || !cookieValue then t.log "cookie: unable to get storage for cookie"
            else { t with cookielist := t.cookielist ++ [⟨name, value⟩] }

def vmodIsset (t : Task) (name : Option CString) : Bool :=
  match name with
  | none | some [] => false
  | some name => (findCookie t.cookielist name).isSome

def vmodGet (t : Task) (name : Option CString) : Option CString :=
  match name with
  | none | some [] => none
  | some name => (findCookie t.cookielist name).map Cookie.value

def vmodDelete (t : Task) (name : Option CString) : Task :=
  match name with
  | none | some [] => t
  | some name =>
      { t with cookielist := t.cookielist.eraseP fun cookie => cookie.name = name }

def vmodClean (t : Task) : Task :=
  { t with cookielist := [] }

/-- The loop of `vmod_parse`; `i` counts the calls of `vmod_set`. -/
def parseLoop (p : CString) (i : Nat) (t : Task) : Nat × Task :=
  if p = [] then (i, t)
  else
    match _hsep : strchr (p.dropWhile isspace) equals with
    | none => (i, t)
    | some sep =>
        let name := (p.dropWhile isspace).takeWhile (· != equals)
        let value := sep.tail.takeWhile (· != semicolon)
        let t := vmodSet t (some name) (some value)
        match _hrest : sep.tail.dropWhile (· != semicolon) with
        | [] => (i + 1, t)
        | _ :: rest => parseLoop rest (i + 1) t
termination_by p.length
decreasing_by
  have hsep := strchr_length _hsep
  have hdrop := (List.dropWhile_suffix (l := p) isspace).length_le
  have hrest := (List.dropWhile_suffix (l := sep.tail) (· != semicolon)).length_le
  rw [_hrest] at hrest
  simp only [List.length_cons, List.length_tail] at hrest
  omega

def vmodParse (t : Task) (cookieheader : Option CString) : Task :=
  match cookieheader with
  | none | some [] => t.log "cookie: nothing to parse"
  | some p =>
      let t := if t.cookielist = [] then t else vmodClean t
      let (i, t) := parseLoop p 0 t
      t.log s!"cookie: parsed {i} cookies."

/-- The names of a list. -/
def matchlist (p : CString) : List CString :=
  match _hp : p.dropWhile isspace with
  | [] => []
  | c :: rest =>
      let q := (c :: rest).takeWhile (· != comma)
      if q = [] then matchlist rest
      else q :: matchlist ((c :: rest).dropWhile (· != comma)).tail
termination_by p.length
decreasing_by
  · have hdrop := (List.dropWhile_suffix (l := p) isspace).length_le
    rw [_hp] at hdrop
    simp only [List.length_cons] at hdrop
    omega
  · have hdrop := (List.dropWhile_suffix (l := p) isspace).length_le
    have hcut := (List.dropWhile_suffix (l := c :: rest) (· != comma)).length_le
    rw [_hp] at hdrop
    simp only [List.length_cons, List.length_tail] at hdrop hcut ⊢
    omega

/-- The cookies on the list are kept if the action is true, the others if it is false. -/
def filterCookies (t : Task) (list : Option CString) (filterAction : Bool) : Task :=
  let names := (list.map matchlist).getD []
  { t with cookielist :=
      t.cookielist.filter fun cookie => names.contains cookie.name == filterAction }

def vmodFilterExcept (t : Task) (whitelist : Option CString) : Task :=
  filterCookies t whitelist true

def vmodFilter (t : Task) (blacklist : Option CString) : Task :=
  filterCookies t blacklist false

/-- Each cookie but the first one stands after a blank. -/
def printCookies : List Cookie → CString
  | [] => []
  | cookie :: rest =>
      cookie.name ++ equals :: cookie.value ++ [semicolon] ++
        rest.flatMap fun cookie => 32 :: cookie.name ++ equals :: cookie.value ++ [semicolon]

def vmodGetString (t : Task) : Option CString × Task :=
  let (u, t) := t.alloc
  if u then (some (printCookies t.cookielist), t)
  else (none, t.log "cookie: Workspace overflow")

end VarnishModules.CookieModel
