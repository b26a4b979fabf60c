import VarnishModules.CookieHeap
import VarnishModules.QueueFind

/-!
The cookies in memory are those of the list of cookies, and what a call allocates for its own
use is freed.
-/

namespace VarnishModules.CookieLedger

open VarnishModules.CStrings
open VarnishModules.TailQueue
open VarnishModules.QueueFind
open VarnishModules.Malloc
open VarnishModules.CookieModel (Cookie Task comma equals semicolon)
open VarnishModules.CookieStore (Op taskAfter)
open VarnishModules.CookieHeap

/-- What a cookie in memory stands for. -/
def IsCell (M : Memory) (c : ℕ) (k : Cookie) : Prop :=
  M.cookie c = ⟨some k.name, some k.value⟩

structure Holds (M : Memory) (t : Task) (cells : List ℕ) : Prop where
  queue : IsQueue M.cookielist () () cells
  cookies : List.Forall₂ (IsCell M) cells t.cookielist
  live : ∀ c, M.cookielist.live c = true ↔ c < M.fresh
  ws : M.ws = t.ws
  vsl : M.vsl = t.vsl

variable {M M' : Memory} {t : Task} {cells pre ys zs : List ℕ} {l ys' zs' : List Cookie} {c n : ℕ}
  {k : Cookie} {name value : CString} {m m' : Heap} {es ps owned : List ℕ} {names : List CString}

theorem alive_eq (h : Unit) : alive h = true := rfl

theorem cookies_congr (h : List.Forall₂ (IsCell M) cells l)
    (hcookie : ∀ c ∈ cells, M'.cookie c = M.cookie c) : List.Forall₂ (IsCell M') cells l := by
  induction h with
  | nil => exact .nil
  | @cons c k cells l hcell _ ih =>
      obtain ⟨hc, hcells⟩ := List.forall_mem_cons.mp hcookie
      exact .cons (hc.trans hcell) (ih hcells)

theorem Holds.lt_fresh (h : Holds M t cells) (hc : c ∈ cells) : c < M.fresh :=
  (h.live c).mp (h.queue.live hc)

theorem Holds.length_le (h : Holds M t cells) : cells.length ≤ M.fuel := by
  have hlength := length_le_of_lt h.queue.nodup fun _ hc => h.lt_fresh hc
  exact hlength.trans (Nat.le_succ _)

/-- What a call allocates for its own use is no part of the cookies. -/
theorem Holds.heap (h : Holds M t cells) (m : Heap) : Holds { M with heap := m } t cells :=
  ⟨h.queue, h.cookies, h.live, h.ws, h.vsl⟩

/-- Of what calls allocate, the entries `es` with the names behind `ps`, and the copies `owned`,
are there; the rest has been freed. -/
structure Allocated (m : Heap) (es ps : List ℕ) (names : List CString) (owned : List ℕ) :
    Prop where
  queue : IsQueue m.matchlist () () es
  live : ∀ e, m.matchlist.live e = true ↔ e ∈ es
  entries : Owns m.entries es
  strings : Owns m.strings (ps ++ owned)
  pointers : Reads m.entries es ps
  copies : Reads m.strings ps names

/-- No entry is there. -/
def Idle (m : Heap) (owned : List ℕ) : Prop :=
  Allocated m [] [] [] owned

theorem Idle.update {strings : Blocks CString} {owned' : List ℕ} (h : Idle m owned)
    (hown : Owns strings owned') : Idle { m with strings } owned' :=
  ⟨h.queue, h.live, h.entries, hown, .nil, .nil⟩

/-! The search. -/

/-- What the loop asks of a cookie. -/
def named (M : Memory) (name : CString) (c : ℕ) : Except Fault Bool :=
  match (M.cookie c).name with
  | none => .error .nullDeref
  | some s => .ok (decide (s = name))

theorem findCookie_eq (M : Memory) (name : CString) (n : ℕ) (p : Option ℕ) :
    M.findCookie name n p = findFirst M.cookielist () (named M name) n p := by
  induction n generalizing p with
  | zero => cases p <;> rfl
  | succ n ih =>
      cases p with
      | none => rfl
      | some c =>
          rw [Memory.findCookie, findFirst, named]
          cases (M.cookie c).name with
          | none => rfl
          | some s =>
              by_cases hs : s = name
              · simp [hs, bind, Except.bind, pure, Except.pure]
              · simp [hs, ih, bind, Except.bind]

/-- The search of a call, and what it finds on the list. -/
theorem Holds.findCookie (h : Holds M t cells) (name : CString) :
    (M.findCookie name M.fuel (M.cookielist.first ()) = .ok none ∧
        ∀ k ∈ t.cookielist, k.name ≠ name) ∨
      ∃ ys c zs ys' k zs',
        Splits (IsCell M) (fun k => k.name = name) cells t.cookielist ys c zs ys' k zs' ∧
          M.findCookie name M.fuel (M.cookielist.first ()) = .ok (some c) := by
  rw [findCookie_eq, h.queue.first_eq]
  refine findFirst_spec h.cookies (fun c k hcell => ?_)
    (show IsQueue M.cookielist () () ([] ++ cells) from h.queue) h.length_le
  rw [named, show M.cookie c = _ from hcell]

theorem findCookie_of_forall (hne : ∀ k ∈ l, k.name ≠ name) :
    CookieModel.findCookie l name = none :=
  List.find?_eq_none.mpr fun k hk => by simpa using hne k hk

theorem setValue_of_first (hne : ∀ k' ∈ ys', k'.name ≠ name) (hname : k.name = name)
    (value : CString) : CookieModel.setValue name value (ys' ++ k :: zs') =
      ys' ++ { k with value } :: zs' := by
  induction ys' with
  | nil => rw [List.nil_append, CookieModel.setValue, if_pos hname, List.nil_append]
  | cons k' ys' ih =>
      obtain ⟨hk', hys⟩ := List.forall_mem_cons.mp hne
      rw [List.cons_append, CookieModel.setValue, if_neg hk', ih hys, List.cons_append]

/-! The calls that store and look up. -/

theorem Holds.log (h : Holds M t cells) (msg : String) : Holds (M.log msg) (t.log msg) cells :=
  ⟨h.queue, h.cookies, h.live, h.ws, congrArg (· ++ [msg]) h.vsl⟩

theorem Holds.alloc (h : Holds M t cells) :
    M.alloc.1 = t.alloc.1 ∧ Holds M.alloc.2 t.alloc.2 cells :=
  ⟨congrFun h.ws 0, h.queue, h.cookies, h.live, congrArg (fun ws n => ws (n + 1)) h.ws, h.vsl⟩

theorem Holds.printf (h : Holds M t cells) (s : CString) :
    (M.printf s).1 = (if t.alloc.1 then some s else none) ∧
      Holds (M.printf s).2 t.alloc.2 cells := by
  obtain ⟨hp, h'⟩ := h.alloc
  rw [← hp]
  exact ⟨rfl, h'⟩

/-- The cookie that was found gets the value. -/
theorem Holds.renew (h : Holds M t (ys ++ c :: zs)) (hys : List.Forall₂ (IsCell M) ys ys')
    (hcell : IsCell M c k) (hzs : List.Forall₂ (IsCell M) zs zs') (value : CString) :
    (M.renew c value).heap = M.heap ∧
      Holds (M.renew c value)
        (if t.alloc.1 then { t.alloc.2 with cookielist := ys' ++ { k with value } :: zs' }
          else t.alloc.2.log "cookie: Workspace overflow in set()") (ys ++ c :: zs) := by
  obtain ⟨hp, h'⟩ := h.printf value
  rw [Memory.renew]
  cases hws : t.alloc.1 with
  | false =>
      rw [hws] at hp
      simp only [hp, if_true, Bool.false_eq_true, if_false]
      exact ⟨rfl, h'.log _⟩
  | true =>
      rw [hws] at hp
      simp only [hp, if_true, reduceCtorEq, if_false]
      have hc : c ∉ ys ++ zs := (List.nodup_middle.mp h.queue.nodup).notMem
      have hother : ∀ d ∈ ys ++ zs, Function.update M.cookie c ⟨some k.name, some value⟩ d =
          M.cookie d := fun d hd =>
        Function.update_of_ne (ne_of_mem_of_not_mem hd hc) _ _
      have hself : (M.printf value).2.cookie c = ⟨some k.name, some k.value⟩ := hcell
      rw [hself]
      refine ⟨rfl, h'.queue, ?_, h'.live, h'.ws, h'.vsl⟩
      refine List.rel_append (cookies_congr hys fun d hd => ?_)
        (.cons ?_ (cookies_congr hzs fun d hd => ?_))
      · exact hother d (List.mem_append_left _ hd)
      · exact Function.update_self _ _ _
      · exact hother d (List.mem_append_right _ hd)

/-- A cookie on the workspace that is on no list. -/
theorem Holds.grow (h : Holds M t cells) :
    Holds { M with cookielist := M.cookielist.alloc M.fresh, fresh := M.fresh + 1 } t cells := by
  have hdead : M.cookielist.live M.fresh = false :=
    Bool.eq_false_iff.mpr fun hlive => lt_irrefl _ ((h.live _).mp hlive)
  refine ⟨h.queue.alloc hdead, h.cookies, fun c => ?_, h.ws, h.vsl⟩
  by_cases hc : c = M.fresh
  · simp [Queues.alloc, hc]
  · have hlt : c < M.fresh + 1 ↔ c < M.fresh := by omega
    simpa [Queues.alloc, hc, hlt] using h.live c

theorem Holds.setCell (h : Holds M t cells) (hc : c ∉ cells) (x : Cell) :
    Holds (M.setCell c x) t cells :=
  ⟨h.queue, cookies_congr h.cookies fun _ hd =>
    Function.update_of_ne (ne_of_mem_of_not_mem hd hc) _ _, h.live, h.ws, h.vsl⟩

/-- The end of the list. -/
theorem Holds.insertTail (h : Holds M t cells) (hc : c ∉ cells) (hlt : c < M.fresh)
    (hcell : IsCell M c k) : ∃ cookielist,
      M.cookielist.insertTail alive () () c = .ok cookielist ∧
        Holds { M with cookielist } { t with cookielist := t.cookielist ++ [k] }
          (cells ++ [c]) := by
  obtain ⟨cookielist, hinsert, hq', hm'⟩ :=
    insertTail_spec h.queue (alive_eq ()) ((h.live c).mpr hlt) hc
  refine ⟨cookielist, hinsert, hq', ?_, fun d => ?_, h.ws, h.vsl⟩
  · exact List.rel_append h.cookies (.cons hcell .nil)
  · rw [show cookielist.live = M.cookielist.live from hm'.live]
    exact h.live d

theorem Holds.addCookie (h : Holds M t cells) {a d : UInt8} {name value : CString}
    (hfind : CookieModel.findCookie t.cookielist (a :: name) = none) :
    ∃ M' cells', M.addCookie (a :: name) (d :: value) = .ok M' ∧ M'.heap = M.heap ∧
      Holds M' (CookieModel.vmodSet t (some (a :: name)) (some (d :: value))) cells' := by
  have hnew : M.fresh ∉ cells := fun hmem => lt_irrefl _ (h.lt_fresh hmem)
  obtain ⟨-, h₁⟩ := h.alloc
  obtain ⟨-, h₂⟩ := h₁.grow.printf (a :: name)
  obtain ⟨-, h₃⟩ := h₂.printf (d :: value)
  cases hws₀ : t.ws 0 with
  | false =>
      have hmodel : CookieModel.vmodSet t (some (a :: name)) (some (d :: value)) =
          t.alloc.2.log "cookie: unable to get storage for cookie" := by
        simp [CookieModel.vmodSet, hfind, hws₀, Task.alloc]
      have hmem : M.addCookie (a :: name) (d :: value) =
          .ok (M.alloc.2.log "cookie: unable to get storage for cookie") := by
        simp [Memory.addCookie, Memory.alloc, h.ws, hws₀]
      rw [hmodel, hmem]
      exact ⟨_, cells, rfl, rfl, h₁.log _⟩
  | true =>
      cases hws : t.ws 1 && t.ws 2 with
      | false =>
          have hmodel : CookieModel.vmodSet t (some (a :: name)) (some (d :: value)) =
              t.alloc.2.alloc.2.alloc.2.log "cookie: unable to get storage for cookie" := by
            rcases Bool.and_eq_false_iff.mp hws with hws | hws
            · simp [CookieModel.vmodSet, hfind, hws₀, hws, Task.alloc]
            · simp [CookieModel.vmodSet, hfind, hws₀, hws, Task.alloc]
          have h₄ := h₃.setCell hnew
            ⟨if t.ws 1 then some (a :: name) else none, if t.ws 2 then some (d :: value) else none⟩
          refine ⟨_, cells, ?_, ?_, hmodel ▸ h₄.log _⟩
          · rcases Bool.and_eq_false_iff.mp hws with hws | hws
            · simp [Memory.addCookie, Memory.printf, Memory.alloc, h.ws, hws₀, hws]
            · simp [Memory.addCookie, Memory.printf, Memory.alloc, h.ws, hws₀, hws]
          · rfl
      | true =>
          obtain ⟨hws₁, hws₂⟩ := Bool.and_eq_true_iff.mp hws
          have hmodel : CookieModel.vmodSet t (some (a :: name)) (some (d :: value)) =
              { t.alloc.2.alloc.2.alloc.2 with
                cookielist := t.cookielist ++ [⟨a :: name, d :: value⟩] } := by
            simp [CookieModel.vmodSet, hfind, hws₀, hws₁, hws₂, Task.alloc]
          have h₄ := h₃.setCell hnew ⟨some (a :: name), some (d :: value)⟩
          obtain ⟨cookielist, hinsert, h'⟩ := h₄.insertTail (k := ⟨a :: name, d :: value⟩) hnew
            (Nat.lt_succ_self M.fresh) (Function.update_self _ _ _)
          refine ⟨_, _, ?_, ?_, hmodel ▸ h'⟩
          · have hinsert' : (M.cookielist.alloc M.fresh).insertTail alive () () M.fresh =
                .ok cookielist := hinsert
            simp [Memory.addCookie, Memory.printf, Memory.alloc, h.ws, hws₀, hws₁, hws₂,
              Memory.setCell, hinsert', bind, Except.bind, pure, Except.pure]
          · rfl

theorem Holds.vmodSet (h : Holds M t cells) (name value : Option CString) :
    ∃ M' cells', M.vmodSet name value = .ok M' ∧ M'.heap = M.heap ∧
      Holds M' (CookieModel.vmodSet t name value) cells' := by
  rcases name with _ | _ | ⟨a, name⟩
  · exact ⟨M, cells, rfl, rfl, h⟩
  · exact ⟨M, cells, rfl, rfl, h⟩
  rcases value with _ | _ | ⟨d, value⟩
  · exact ⟨M, cells, rfl, rfl, h⟩
  · exact ⟨M, cells, rfl, rfl, h⟩
  rcases h.findCookie (a :: name) with
    ⟨hfind, hnone⟩ | ⟨ys, c, zs, ys', k, zs', hs, hfind⟩
  · obtain ⟨M', cells', hadd, hheap, h'⟩ := h.addCookie (findCookie_of_forall hnone)
    exact ⟨M', cells', (ok_bind hfind).trans hadd, hheap, h'⟩
  · have hsome : CookieModel.findCookie t.cookielist (a :: name) = some k := hs.find?_eq
    obtain ⟨rfl, hlist, hys, hcell, hzs, hne, hname⟩ := hs
    obtain ⟨hheap, h'⟩ := h.renew hys hcell hzs (d :: value)
    refine ⟨_, ys ++ c :: zs, (ok_bind hfind).trans rfl, hheap, ?_⟩
    have hmodel : CookieModel.setValue (a :: name) (d :: value) t.cookielist =
        ys' ++ { k with value := d :: value } :: zs' := by
      rw [hlist]
      exact setValue_of_first hne hname (d :: value)
    rw [← hmodel] at h'
    cases hws : t.ws 0 with
    | false => simpa [CookieModel.vmodSet, hsome, hws, Task.alloc] using h'
    | true => simpa [CookieModel.vmodSet, hsome, hws, Task.alloc] using h'

theorem Holds.vmodIsset (h : Holds M t cells) (name : Option CString) :
    M.vmodIsset name = .ok (CookieModel.vmodIsset t name) := by
  rcases name with _ | _ | ⟨a, name⟩
  · rfl
  · rfl
  change _ = Except.ok ((CookieModel.findCookie t.cookielist (a :: name)).isSome)
  rcases h.findCookie (a :: name) with
    ⟨hfind, hnone⟩ | ⟨ys, c, zs, ys', k, zs', hs, hfind⟩
  · rw [findCookie_of_forall hnone]
    exact (ok_bind hfind).trans rfl
  · rw [show CookieModel.findCookie t.cookielist (a :: name) = some k from hs.find?_eq]
    exact (ok_bind hfind).trans rfl

theorem Holds.vmodGet (h : Holds M t cells) (name : Option CString) :
    M.vmodGet name = .ok (CookieModel.vmodGet t name) := by
  rcases name with _ | _ | ⟨a, name⟩
  · rfl
  · rfl
  change _ = Except.ok ((CookieModel.findCookie t.cookielist (a :: name)).map Cookie.value)
  rcases h.findCookie (a :: name) with
    ⟨hfind, hnone⟩ | ⟨ys, c, zs, ys', k, zs', hs, hfind⟩
  · rw [findCookie_of_forall hnone]
    exact (ok_bind hfind).trans rfl
  · rw [show CookieModel.findCookie t.cookielist (a :: name) = some k from hs.find?_eq]
    refine (ok_bind hfind).trans ?_
    rw [Option.bind_some, show M.cookie c = _ from hs.found]
    rfl

theorem Holds.vmodDelete (h : Holds M t cells) (name : Option CString) :
    ∃ M' cells', M.vmodDelete name = .ok M' ∧ M'.heap = M.heap ∧
      Holds M' (CookieModel.vmodDelete t name) cells' := by
  rcases name with _ | _ | ⟨a, name⟩
  · exact ⟨M, cells, rfl, rfl, h⟩
  · exact ⟨M, cells, rfl, rfl, h⟩
  rcases h.findCookie (a :: name) with
    ⟨hfind, hnone⟩ | ⟨ys, c, zs, ys', k, zs', hs, hfind⟩
  · refine ⟨M, cells, (ok_bind hfind).trans rfl, rfl, ?_⟩
    have herase : (t.cookielist.eraseP fun cookie => cookie.name = a :: name) = t.cookielist :=
      List.eraseP_of_forall_not fun k hk => by simpa using hnone k hk
    change Holds M { t with cookielist := t.cookielist.eraseP _ } cells
    rw [herase]
    exact h
  · have herase : (t.cookielist.eraseP fun cookie => cookie.name = a :: name) = ys' ++ zs' :=
      hs.eraseP_eq
    obtain ⟨rfl, -, hys, -, hzs, -, -⟩ := hs
    obtain ⟨cookielist, hremove, hq', hm', -, -⟩ := remove_spec h.queue (alive_eq ())
    refine ⟨{ M with cookielist }, ys ++ zs, (ok_bind hfind).trans (ok_bind hremove), rfl, hq', ?_,
      fun d => ?_, h.ws, h.vsl⟩
    · change List.Forall₂ _ _ (t.cookielist.eraseP _)
      rw [herase]
      exact List.rel_append hys hzs
    · rw [show cookielist.live = M.cookielist.live from hm'.live]
      exact h.live d

theorem Holds.vmodClean (h : Holds M t cells) : Holds M.vmodClean (CookieModel.vmodClean t) [] :=
  ⟨isQueue_init _ _ _, .nil, h.live, h.ws, h.vsl⟩

/-! The header. -/

theorem Holds.setPair (h : Holds M t cells) (hidle : Idle M.heap owned) (name value : CString) :
    ∃ M' cells', M.setPair name value = .ok M' ∧
      Holds M' (CookieModel.vmodSet t (some name) (some value)) cells' ∧ Idle M'.heap owned := by
  let p := M.heap.strings.fresh
  let q := (M.heap.strings.alloc name).fresh
  let strings := (M.heap.strings.alloc name).alloc value
  have hown₁ : Owns (M.heap.strings.alloc name) (p :: owned) := hidle.strings.alloc name
  have hown₂ : Owns strings (p :: q :: owned) :=
    (hown₁.alloc value).perm (List.Perm.swap _ _ _)
  have hp : strings.block p = some name :=
    (hown₁.block_alloc List.mem_cons_self value).trans (block_alloc_self _ _)
  have hq : strings.block q = some value := block_alloc_self _ _
  obtain ⟨M₁, cells', hset, hheap, h'⟩ :=
    (h.heap { M.heap with strings }).vmodSet (some name) (some value)
  obtain ⟨b₁, hfree₁, hown₃, -, -⟩ := hown₂.free
  obtain ⟨b₂, hfree₂, hown₄, -, -⟩ := hown₃.free
  refine ⟨{ M₁ with heap.strings := b₂ }, cells', ?_, h'.heap _, ?_⟩
  swap
  · rw [hheap]
    exact hidle.update hown₄
  rw [Memory.setPair]
  refine (ok_bind (read_eq hp)).trans ((ok_bind (read_eq hq)).trans ((ok_bind hset).trans ?_))
  rw [hheap]
  exact (ok_bind hfree₁).trans ((ok_bind hfree₂).trans rfl)

variable {p sep rest : CString} {i : ℕ} {a : UInt8}

theorem parseLoop_none (hsep : strchr (p.dropWhile isspace) equals = none) :
    CookieModel.parseLoop p i t = (i, t) := by
  rw [CookieModel.parseLoop]
  split
  · rfl
  · split
    · rfl
    · next heq => simp [hsep] at heq

theorem parseLoop_some (hsep : strchr (p.dropWhile isspace) equals = some sep) :
    CookieModel.parseLoop p i t =
      if sep.tail.dropWhile (· != semicolon) = [] then
        (i + 1, CookieModel.vmodSet t (some ((p.dropWhile isspace).takeWhile (· != equals)))
          (some (sep.tail.takeWhile (· != semicolon))))
      else
        CookieModel.parseLoop (sep.tail.dropWhile (· != semicolon)).tail (i + 1)
          (CookieModel.vmodSet t (some ((p.dropWhile isspace).takeWhile (· != equals)))
            (some (sep.tail.takeWhile (· != semicolon)))) := by
  have hp : p ≠ [] := by
    rintro rfl
    simp [strchr] at hsep
  rw [CookieModel.parseLoop, if_neg hp]
  split
  · next heq => simp [hsep] at heq
  · next sep' heq =>
      obtain rfl : sep = sep' := Option.some.inj (hsep.symm.trans heq)
      split
      · next hrest => rw [if_pos hrest]
      · next hrest => rw [if_neg (by simp [hrest]), hrest, List.tail_cons]

/-- The loop in memory does what the loop on the list does. -/
theorem Holds.parseLoop (h : Holds M t cells) (hidle : Idle M.heap owned) (hn : p.length ≤ n)
    (i : ℕ) : ∃ M' cells',
      Memory.parseLoop n p i M = .ok ((CookieModel.parseLoop p i t).1, M') ∧
        Holds M' (CookieModel.parseLoop p i t).2 cells' ∧ Idle M'.heap owned := by
  induction n generalizing p i M t cells with
  | zero =>
      obtain rfl : p = [] := List.length_eq_zero_iff.mp (by omega)
      rw [parseLoop_none rfl]
      exact ⟨M, cells, rfl, h, hidle⟩
  | succ n ih =>
      rcases eq_or_ne p [] with rfl | hp
      · rw [parseLoop_none rfl]
        exact ⟨M, cells, rfl, h, hidle⟩
      rw [Memory.parseLoop, if_neg hp]
      cases hsep : strchr (p.dropWhile isspace) equals with
      | none =>
          rw [parseLoop_none hsep]
          exact ⟨M, cells, rfl, h, hidle⟩
      | some sep =>
          obtain ⟨M₁, cells₁, hset, h₁, hidle₁⟩ := h.setPair hidle
            ((p.dropWhile isspace).takeWhile (· != equals))
            (sep.tail.takeWhile (· != semicolon))
          rw [parseLoop_some hsep]
          dsimp only
          rw [ok_bind hset]
          cases hrest : sep.tail.dropWhile (· != semicolon) with
          | nil =>
              rw [if_pos rfl]
              exact ⟨M₁, cells₁, rfl, h₁, hidle₁⟩
          | cons a rest =>
              rw [if_neg (List.cons_ne_nil a rest), List.tail_cons]
              have hlength := strchr_length hsep
              have hdrop := (List.dropWhile_suffix (l := p) isspace).length_le
              have hcut := (List.dropWhile_suffix (l := sep.tail) (· != semicolon)).length_le
              rw [hrest] at hcut
              simp only [List.length_cons, List.length_tail] at hcut
              exact ih h₁ hidle₁ (by omega) (i + 1)

theorem Holds.vmodParse (h : Holds M t cells) (hidle : Idle M.heap owned)
    (cookieheader : Option CString) :
    ∃ M' cells', M.vmodParse cookieheader = .ok M' ∧
      Holds M' (CookieModel.vmodParse t cookieheader) cells' ∧ Idle M'.heap owned := by
  rcases cookieheader with _ | _ | ⟨a, p⟩
  · exact ⟨_, cells, rfl, h.log _, hidle⟩
  · exact ⟨_, cells, rfl, h.log _, hidle⟩
  have hempty : M.cookielist.first () = none ↔ t.cookielist = [] := by
    rw [h.queue.first_eq, List.head?_eq_none_iff, ← List.length_eq_zero_iff,
      h.cookies.length_eq, List.length_eq_zero_iff]
  have hstart : ∃ cells', Holds (if M.cookielist.first () = none then M else M.vmodClean)
      (if t.cookielist = [] then t else CookieModel.vmodClean t) cells' := by
    by_cases hnil : t.cookielist = []
    · rw [if_pos hnil, if_pos (hempty.mpr hnil)]
      exact ⟨cells, h⟩
    · rw [if_neg hnil, if_neg (mt hempty.mp hnil)]
      exact ⟨[], h.vmodClean⟩
  have hheap : Idle (if M.cookielist.first () = none then M else M.vmodClean).heap owned := by
    split_ifs
    · exact hidle
    · exact hidle
  obtain ⟨cells₁, h₁⟩ := hstart
  obtain ⟨M', cells', hloop, h', hidle'⟩ := h₁.parseLoop hheap (le_refl (a :: p).length) 0
  exact ⟨_, cells', (ok_bind hloop).trans rfl, h'.log _, hidle'⟩

/-! The filters. -/

/-- A new entry is at the end of the list. -/
theorem Allocated.addEntry (h : Allocated m es ps names owned) (name : CString) :
    ∃ m', m.addEntry name = .ok m' ∧
      Allocated m' (es ++ [m.entries.fresh]) (ps ++ [m.strings.fresh]) (names ++ [name])
        owned := by
  have hnew : m.entries.fresh ∉ es := fun hmem => lt_irrefl _ (h.entries.lt_fresh hmem)
  have hdead : m.matchlist.live m.entries.fresh = false :=
    Bool.eq_false_iff.mpr fun hlive => hnew ((h.live _).mp hlive)
  obtain ⟨matchlist, hinsert, hq, hm⟩ := insertTail_spec (h.queue.alloc hdead) (alive_eq ())
    (show (m.matchlist.alloc m.entries.fresh).live m.entries.fresh = true by simp [Queues.alloc])
    hnew
  refine ⟨_, ok_bind hinsert, hq, fun e => ?_, ?_, ?_, ?_, ?_⟩
  · rw [show matchlist.live = (m.matchlist.alloc m.entries.fresh).live from hm.live]
    by_cases he : e = m.entries.fresh
    · simp [Queues.alloc, he]
    · simpa [Queues.alloc, he] using h.live e
  · exact (h.entries.alloc _).perm (List.perm_append_singleton _ _).symm
  · refine (h.strings.alloc name).perm ?_
    rw [List.append_assoc]
    exact List.perm_middle.symm
  · exact h.pointers.alloc h.entries (List.Subset.refl es) m.strings.fresh
  · exact h.copies.alloc h.strings (List.subset_append_left ps owned) name

/-- The loop makes an entry of each name of the supplied list. -/
theorem Allocated.scanList (h : Allocated m es ps names owned) (hn : p.length ≤ n) :
    ∃ m' es' ps', Heap.scanList n p m = .ok m' ∧
      Allocated m' es' ps' (names ++ CookieModel.matchlist p) owned := by
  induction n generalizing p m es ps names with
  | zero =>
      obtain rfl : p = [] := List.length_eq_zero_iff.mp (by omega)
      rw [CookieFilter.matchlist_of_nil rfl, List.append_nil]
      exact ⟨m, es, ps, rfl, h⟩
  | succ n ih =>
      rcases eq_or_ne p [] with rfl | hne
      · rw [CookieFilter.matchlist_of_nil rfl, List.append_nil]
        exact ⟨m, es, ps, rfl, h⟩
      rw [Heap.scanList, if_neg hne]
      cases hdrop : p.dropWhile isspace with
      | nil =>
          rw [CookieFilter.matchlist_of_nil hdrop, List.append_nil]
          exact ⟨m, es, ps, rfl, h⟩
      | cons c rest =>
          have hlength := (List.dropWhile_suffix (l := p) isspace).length_le
          have hcut := (List.dropWhile_suffix (l := c :: rest) (· != comma)).length_le
          rw [hdrop] at hlength
          simp only [List.length_cons] at hlength hcut
          rw [CookieFilter.matchlist_of_cons hdrop]
          dsimp only
          split_ifs
          · exact ih h (by omega)
          · obtain ⟨m₁, hadd, h₁⟩ := h.addEntry ((c :: rest).takeWhile (· != comma))
            have hn' : ((c :: rest).dropWhile (· != comma)).tail.length ≤ n := by
              rw [List.length_tail]
              omega
            obtain ⟨m', es', ps', hrun, h'⟩ := ih h₁ hn'
            rw [List.append_assoc] at h'
            exact ⟨m', es', ps', (ok_bind hadd).trans hrun, h'⟩

theorem matchedLoop_spec (hq : IsQueue m.matchlist () () (pre ++ es))
    (hpointers : Reads m.entries es ps) (hcopies : Reads m.strings ps names)
    (hn : es.length ≤ n) (name : CString) :
    m.matched (some name) n es.head? = .ok (names.contains name) := by
  induction hpointers generalizing pre names n with
  | nil =>
      cases hcopies
      cases n <;> rfl
  | @cons e p es ps he _ ih =>
      cases hcopies with
      | @cons _ s _ names hp hcopies =>
          obtain ⟨n, rfl⟩ : ∃ k, n = k + 1 := ⟨n - 1, by simp at hn; omega⟩
          obtain ⟨hlive, hnext⟩ := QueueFilter.next_eq_head? hq
          have hq' : IsQueue m.matchlist () () ((pre ++ [e]) ++ es) := by simpa using hq
          rw [List.head?_cons, Heap.matched, touchElem_ok hlive, ok_bind rfl,
            ok_bind (read_eq he), ok_bind (read_eq hp), hnext]
          dsimp only
          by_cases hname : name = s
          · simp [hname, pure, Except.pure]
          · rw [if_neg hname, ih hq' hcopies (by simpa using hn)]
            simp [hname]

theorem Allocated.length_le (h : Allocated m es ps names owned) : es.length ≤ m.fuel := by
  have hlength := length_le_of_lt h.entries.nodup fun _ he => h.entries.lt_fresh he
  exact hlength.trans (Nat.le_succ _)

/-- Whether a name is one of the list. -/
theorem Allocated.matched (h : Allocated m es ps names owned) (name : CString) :
    m.matched (some name) m.fuel (m.matchlist.first ()) = .ok (names.contains name) := by
  rw [h.queue.first_eq]
  exact matchedLoop_spec (show IsQueue m.matchlist () () ([] ++ es) from h.queue) h.pointers
    h.copies h.length_le name

/-- The first entry is taken off and freed with its name. -/
theorem Allocated.freeEntry {e p : ℕ} {s : CString}
    (h : Allocated m (e :: es) (p :: ps) (s :: names) owned) :
    ∃ matchlist strings entries matchlist',
      m.matchlist.remove alive () () e = .ok matchlist ∧ m.entries.read e = .ok p ∧
      m.strings.free (some p) = .ok strings ∧ m.entries.free (some e) = .ok entries ∧
      matchlist.free e = .ok matchlist' ∧
      Allocated ⟨strings, entries, matchlist'⟩ es ps names owned := by
  obtain ⟨he, hpointers⟩ := List.forall₂_cons.mp h.pointers
  obtain ⟨-, hcopies⟩ := List.forall₂_cons.mp h.copies
  obtain ⟨hmem, -⟩ := List.nodup_cons.mp h.queue.nodup
  obtain ⟨matchlist, hremove, hq, hm, -, -⟩ := remove_head_spec h.queue (alive_eq ())
  obtain ⟨strings, hfree, hstrings, -, hblock⟩ := h.strings.free
  obtain ⟨entries, hfree', hentries, -, hblock'⟩ := h.entries.free
  have hlive : matchlist.live = m.matchlist.live := hm.live
  have helive : matchlist.live e = true := by
    rw [hlive]
    exact (h.live e).mpr List.mem_cons_self
  refine ⟨matchlist, strings, entries, _, hremove, read_eq he, hfree, hfree', free_spec helive,
    hq.free hmem _, fun d => ?_, hentries, hstrings, ?_, ?_⟩
  · by_cases hd : d = e
    · simp [hd, hmem]
    · simpa [hd, hlive] using h.live d
  · exact Reads.congr hpointers hblock'
  · exact Reads.congr hcopies fun q hq => hblock q (List.mem_append_left owned hq)

theorem Allocated.freeLoop (h : Allocated m es ps names owned) (hn : es.length ≤ n) :
    ∃ m', Heap.freeLoop n es.head? m = .ok m' ∧ Idle m' owned := by
  induction es generalizing m ps names n with
  | nil =>
      obtain rfl := List.forall₂_nil_left_iff.mp h.pointers
      obtain rfl := List.forall₂_nil_left_iff.mp h.copies
      refine ⟨m, ?_, h⟩
      cases n <;> rfl
  | cons e es ih =>
      obtain ⟨n, rfl⟩ : ∃ k, n = k + 1 := ⟨n - 1, by simp at hn; omega⟩
      obtain ⟨p, ps, -, -, rfl⟩ := List.forall₂_cons_left_iff.mp h.pointers
      obtain ⟨s, names, -, -, rfl⟩ := List.forall₂_cons_left_iff.mp h.copies
      obtain ⟨hlive, hnext⟩ := QueueFilter.next_eq_head?
        (show IsQueue m.matchlist () () ([] ++ e :: es) from h.queue)
      obtain ⟨matchlist, strings, entries, matchlist', hremove, hread, hfree, hfree',
        hfree'', h'⟩ := h.freeEntry
      obtain ⟨m', hrun, hidle⟩ := ih h' (n := n) (by simpa using hn)
      refine ⟨m', ?_, hidle⟩
      rw [List.head?_cons, Heap.freeLoop, touchElem_ok hlive, ok_bind rfl, hnext, ok_bind hremove,
        ok_bind hread, ok_bind hfree, ok_bind hfree', ok_bind hfree'']
      exact hrun

variable {q : Queues Unit Unit ℕ}

/-- The loop takes off the cookies whose names are, or are not, on the list. -/
theorem filterLoop_spec (hcells : List.Forall₂ (IsCell M) cells l)
    (h : Allocated M.heap es ps names owned) (hq : IsQueue q () () (pre ++ cells))
    (hn : cells.length ≤ n) (action : Bool) :
    ∃ q' cells', M.filterLoop action n cells.head? q = .ok q' ∧
      IsQueue q' () () (pre ++ cells') ∧
      List.Forall₂ (IsCell M) cells' (l.filter fun k => names.contains k.name == action) ∧
      q'.live = q.live := by
  induction hcells generalizing pre q n with
  | nil =>
      refine ⟨q, [], ?_, hq, .nil, rfl⟩
      cases n <;> rfl
  | @cons c k cells l hcell hcells ih =>
      obtain ⟨n, rfl⟩ : ∃ m, n = m + 1 := ⟨n - 1, by simp at hn; omega⟩
      have hn : cells.length ≤ n := by simpa using hn
      obtain ⟨hlive, hnext⟩ := QueueFilter.next_eq_head? hq
      rw [List.head?_cons, Memory.filterLoop, touchElem_ok hlive, hnext,
        show M.cookie c = _ from hcell, h.matched k.name]
      cases hkeep : names.contains k.name == action with
      | true =>
          have hq' : IsQueue q () () ((pre ++ [c]) ++ cells) := by simpa using hq
          obtain ⟨q', cells', hrun, hq', hcells', hlive'⟩ := ih hq' hn
          refine ⟨q', c :: cells', ?_, by simpa using hq', ?_, hlive'⟩
          · simp only [bind, Except.bind, pure, Except.pure, hkeep, if_true]
            exact hrun
          · simp only [List.filter_cons, hkeep, if_true]
            exact .cons hcell hcells'
      | false =>
          obtain ⟨q₁, hremove, hq₁, hm₁, -, -⟩ := remove_spec hq (alive_eq ())
          obtain ⟨q', cells', hrun, hq', hcells', hlive'⟩ := ih hq₁ hn
          refine ⟨q', cells', ?_, hq', ?_, hlive'.trans hm₁.live⟩
          · simp only [bind, Except.bind, hkeep, Bool.false_eq_true, if_false, hremove]
            exact hrun
          · simp only [List.filter_cons, hkeep, Bool.false_eq_true, if_false]
            exact hcells'

theorem Idle.parseList (h : Idle m owned) (list : Option CString) :
    ∃ m' es ps, m.parseList list = .ok m' ∧
      Allocated m' es ps ((list.map CookieModel.matchlist).getD []) owned := by
  have hinit : Idle { m with matchlist := m.matchlist.init () } owned :=
    ⟨isQueue_init _ _ _, h.live, h.entries, h.strings, .nil, .nil⟩
  cases list with
  | none => exact ⟨_, [], [], rfl, hinit⟩
  | some p => exact Allocated.scanList hinit le_rfl

theorem Holds.filterCookies (h : Holds M t cells) (hidle : Idle M.heap owned)
    (list : Option CString) (action : Bool) :
    ∃ M' cells', M.filterCookies list action = .ok M' ∧
      Holds M' (CookieModel.filterCookies t list action) cells' ∧ Idle M'.heap owned := by
  obtain ⟨m, es, ps, hparse, hm⟩ := hidle.parseList list
  have h₁ := h.heap m
  obtain ⟨q', cells', hloop, hq', hcells', hlive⟩ := filterLoop_spec h₁.cookies hm
    (show IsQueue M.cookielist () () ([] ++ cells) from h₁.queue) h₁.length_le action
  obtain ⟨m', hfree, hidle'⟩ := hm.freeLoop hm.length_le
  refine ⟨{ M with cookielist := q', heap := m' }, cells', ?_,
    ⟨hq', hcells', fun c => ?_, h.ws, h.vsl⟩, hidle'⟩
  · rw [← h₁.queue.first_eq] at hloop
    rw [← hm.queue.first_eq] at hfree
    refine (ok_bind hparse).trans ?_
    exact (ok_bind hloop).trans ((ok_bind hfree).trans rfl)
  · rw [hlive]
    exact h.live c

/-! The header that is printed. -/

/-- The cookies after the first one. -/
theorem printLoop_spec (hcells : List.Forall₂ (IsCell M) cells l)
    (hq : IsQueue M.cookielist () () (pre ++ cells)) (hpre : pre ≠ []) (hn : cells.length ≤ n)
    (output : CString) : M.printLoop n cells.head? output =
      .ok (output ++ l.flatMap fun k => 32 :: k.name ++ equals :: k.value ++ [semicolon]) := by
  induction hcells generalizing pre n output with
  | nil =>
      rw [List.flatMap_nil, List.append_nil]
      cases n <;> rfl
  | @cons c k cells l hcell _ ih =>
      obtain ⟨n, rfl⟩ : ∃ m, n = m + 1 := ⟨n - 1, by simp at hn; omega⟩
      obtain ⟨hlive, hnext⟩ := QueueFilter.next_eq_head? hq
      have hq' : IsQueue M.cookielist () () ((pre ++ [c]) ++ cells) := by simpa using hq
      have hfirst : some c ≠ M.cookielist.first () := by
        rw [hq.first_eq, List.head?_append_of_ne_nil _ hpre]
        intro heq
        exact (List.nodup_append.mp hq.nodup).2.2 c (List.mem_of_mem_head? heq.symm) c
          List.mem_cons_self rfl
      rw [List.head?_cons, Memory.printLoop, touchElem_ok hlive, show M.cookie c = _ from hcell,
        hnext, if_neg hfirst]
      refine (ih hq' (by simp) (by simpa using hn) _).trans ?_
      rw [List.flatMap_cons]
      simp

theorem Holds.printLoop (h : Holds M t cells) :
    M.printLoop M.fuel (M.cookielist.first ()) [] =
      .ok (CookieModel.printCookies t.cookielist) := by
  have hlength := h.length_le
  have hq := h.queue
  have hcookies := h.cookies
  rw [hq.first_eq]
  generalize t.cookielist = l at hcookies
  clear h
  cases hcookies with
  | nil => rfl
  | @cons c k cells l hcell hcells =>
      obtain ⟨n, hn⟩ : ∃ m, M.fuel = m + 1 := ⟨_, rfl⟩
      obtain ⟨hlive, hnext⟩ :=
        QueueFilter.next_eq_head? (show IsQueue M.cookielist () () ([] ++ c :: cells) from hq)
      have hfirst : some c = M.cookielist.first () := hq.first_eq.symm
      rw [hn, List.head?_cons, Memory.printLoop, touchElem_ok hlive,
        show M.cookie c = _ from hcell, hnext, if_pos hfirst]
      refine (printLoop_spec hcells (show IsQueue M.cookielist () () ([c] ++ cells) from hq)
        (by simp) (by simpa [hn] using hlength) _).trans ?_
      rw [CookieModel.printCookies]
      simp

theorem Holds.vmodGetString (h : Holds M t cells) :
    ∃ M', M.vmodGetString = .ok ((CookieModel.vmodGetString t).1, M') ∧
      M'.heap = M.heap ∧ Holds M' (CookieModel.vmodGetString t).2 cells := by
  obtain ⟨-, h'⟩ := h.alloc
  cases hws : t.ws 0 with
  | false =>
      have hmodel : CookieModel.vmodGetString t =
          (none, t.alloc.2.log "cookie: Workspace overflow") := by
        simp [CookieModel.vmodGetString, Task.alloc, hws]
      refine ⟨M.alloc.2.log "cookie: Workspace overflow", ?_, rfl, hmodel ▸ h'.log _⟩
      rw [hmodel, Memory.vmodGetString, ok_bind h.printLoop]
      simp [Memory.alloc, h.ws, hws, pure, Except.pure]
  | true =>
      have hmodel : CookieModel.vmodGetString t =
          (some (CookieModel.printCookies t.cookielist), t.alloc.2) := by
        simp [CookieModel.vmodGetString, Task.alloc, hws]
      refine ⟨M.alloc.2, ?_, rfl, hmodel ▸ h'⟩
      rw [hmodel, Memory.vmodGetString, ok_bind h.printLoop]
      simp [Memory.alloc, h.ws, hws, pure, Except.pure]

/-! Any sequence of calls. -/

theorem Holds.call (h : Holds M t cells) (hidle : Idle M.heap []) (op : Op) :
    ∃ M' cells', M.call op = .ok (answer t op, M') ∧ Holds M' (op.run t) cells' ∧
      Idle M'.heap [] := by
  cases op with
  | parse cookieheader =>
      obtain ⟨M', cells', hparse, h', hidle'⟩ := h.vmodParse hidle cookieheader
      exact ⟨M', cells', (ok_bind hparse).trans rfl, h', hidle'⟩
  | set name value =>
      obtain ⟨M', cells', hset, hheap, h'⟩ := h.vmodSet name value
      exact ⟨M', cells', (ok_bind hset).trans rfl, h', hheap ▸ hidle⟩
  | isset name => exact ⟨M, cells, (ok_bind (h.vmodIsset name)).trans rfl, h, hidle⟩
  | get name => exact ⟨M, cells, (ok_bind (h.vmodGet name)).trans rfl, h, hidle⟩
  | delete name =>
      obtain ⟨M', cells', hdelete, hheap, h'⟩ := h.vmodDelete name
      exact ⟨M', cells', (ok_bind hdelete).trans rfl, h', hheap ▸ hidle⟩
  | clean => exact ⟨M.vmodClean, [], rfl, h.vmodClean, hidle⟩
  | filter blacklist =>
      obtain ⟨M', cells', hfilter, h', hidle'⟩ := h.filterCookies hidle blacklist false
      exact ⟨M', cells', (ok_bind hfilter).trans rfl, h', hidle'⟩
  | filterExcept whitelist =>
      obtain ⟨M', cells', hfilter, h', hidle'⟩ := h.filterCookies hidle whitelist true
      exact ⟨M', cells', (ok_bind hfilter).trans rfl, h', hidle'⟩
  | getString =>
      obtain ⟨M', hget, hheap, h'⟩ := h.vmodGetString
      exact ⟨M', cells, (ok_bind hget).trans rfl, h', hheap ▸ hidle⟩

theorem Holds.run (h : Holds M t cells) (hidle : Idle M.heap []) (ops : List Op) :
    ∃ M' cells', run ops M = .ok (answers t ops, M') ∧ Holds M' (ops.foldl Op.run t) cells' ∧
      Idle M'.heap [] := by
  induction ops generalizing M t cells with
  | nil => exact ⟨M, cells, rfl, h, hidle⟩
  | cons op ops ih =>
      obtain ⟨M₁, cells₁, hcall, h₁, hidle₁⟩ := h.call hidle op
      obtain ⟨M', cells', hrun, h', hidle'⟩ := ih h₁ hidle₁
      exact ⟨M', cells', (ok_bind hcall).trans ((ok_bind hrun).trans rfl), h', hidle'⟩

theorem mapM_readCookie (hcells : List.Forall₂ (IsCell M) cells l) :
    cells.mapM M.readCookie = .ok l := by
  induction hcells with
  | nil => rfl
  | @cons c k cells l hcell _ ih =>
      have hself : M.readCookie c = .ok k := by
        rw [Memory.readCookie, show M.cookie c = _ from hcell]
      rw [List.mapM_cons, hself, ok_bind rfl, ih, ok_bind rfl]
      rfl

theorem Holds.contents (h : Holds M t cells) : M.contents = .ok t.cookielist :=
  (ok_bind (h.queue.walk_eq h.length_le)).trans (mapM_readCookie h.cookies)

theorem holds_initial (ws : ℕ → Bool) (vsl : List String) :
    Holds (Memory.initial ws vsl) ⟨[], ws, vsl⟩ [] := by
  refine ⟨⟨trivial, rfl, rfl, List.nodup_nil⟩, .nil, fun c => ?_, rfl, rfl⟩
  simp [Memory.initial, Queues.empty]

theorem idle_initial : Idle Heap.initial [] := by
  refine ⟨⟨trivial, rfl, rfl, List.nodup_nil⟩, fun e => ?_, owns_empty, owns_empty, .nil, .nil⟩
  simp [Heap.initial, Queues.empty]

/-- In memory the cookies are what they are on lists, whichever allocations on the workspace
fail: no call comes to its end too early, each returns and logs the same, and every copy and
every entry that a call allocated for its own use has been freed once. -/
theorem cookies_on_memory (ws : ℕ → Bool) (vsl : List String) (ops : List Op) :
    ∃ M, run ops (Memory.initial ws vsl) = .ok (answers ⟨[], ws, vsl⟩ ops, M) ∧
      M.contents = .ok (taskAfter ws vsl ops).cookielist ∧
      M.vsl = (taskAfter ws vsl ops).vsl ∧ Owns M.heap.strings [] ∧ Owns M.heap.entries [] := by
  obtain ⟨M, cells, hrun, h, hidle⟩ := (holds_initial ws vsl).run idle_initial ops
  exact ⟨M, hrun, h.contents, h.vsl, hidle.strings, hidle.entries⟩

/-- A cookie finds no room for its name; another one is set twice, and the list is filtered. -/
example : (run [.set (some (str "a")) (some (str "1")), .set (some (str "b")) (some (str "2")),
    .set (some (str "a")) (some (str "3")), .filter (some (str "b, c")), .getString]
    (Memory.initial (fun n => n != 4) [])).toOption.map
        (fun r => (r.1.getLast?, r.2.heap.strings.freed, r.2.heap.entries.freed))
      = some (some (.string (some (str "a=3;"))), [0, 1], [0, 1]) := by
  decide +kernel

end VarnishModules.CookieLedger
