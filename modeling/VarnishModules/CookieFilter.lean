import VarnishModules.CookieWire
import VarnishModules.QueueFilter

/-!
The filters on the list of cookies in memory.
-/

namespace VarnishModules.CookieFilter

open VarnishModules.CStrings
open VarnishModules.TailQueue
open VarnishModules.QueueFilter
open VarnishModules.CookieModel
open VarnishModules.CookieWire

/-- The cookies of a task, by address, and the queue they are on. -/
structure Memory where
  queues : Queues Unit Unit Nat
  cookie : Nat → Cookie

/-- The loop over the supplied list, in at most `n` rounds. -/
def scanList : Nat → CString → List CString → Except Fault (List CString)
  | 0, p, names => if p = [] then .ok names else .error .outOfFuel
  | n + 1, p, names =>
      if p = [] then .ok names
      else
        match p.dropWhile isspace with
        | [] => .ok names
        | c :: rest =>
            let name := (c :: rest).takeWhile (· != comma)
            if name = [] then scanList n rest names
            else scanList n ((c :: rest).dropWhile (· != comma)).tail (names ++ [name])

def Memory.filterCookies (mem : Memory) (fuel : Nat) (list : Option CString)
    (filterAction : Bool) : Except Fault Memory := do
  let names ← match list with
    | none => pure []
    | some p => scanList p.length p []
  let queues ← removeUnless (fun _ => true) () ()
    (fun c => names.contains (mem.cookie c).name == filterAction)
    fuel (mem.queues.first ()) mem.queues
  return { mem with queues }

/-- The queue leads to the cookies of a store, in their order. -/
def Memory.Holds (mem : Memory) (l : List Cookie) (cells : List Nat) : Prop :=
  IsQueue mem.queues () () cells ∧ cells.map mem.cookie = l

/-- What stands between the commas of a list, without leading whitespace. -/
def namesOf (list : Option CString) : List CString :=
  (list.map listNames).getD []

variable {mem mem' : Memory} {l : List Cookie} {cells : List Nat} {fuel n : Nat}
  {list : Option CString} {action : Bool} {p : CString}

theorem matchlist_of_nil (h : p.dropWhile isspace = []) : matchlist p = [] := by
  rw [matchlist]
  split
  · rfl
  · next heq => simp [h] at heq

theorem matchlist_of_cons {c : UInt8} {rest : CString} (h : p.dropWhile isspace = c :: rest) :
    matchlist p =
      if (c :: rest).takeWhile (· != comma) = [] then matchlist rest
      else (c :: rest).takeWhile (· != comma) ::
        matchlist ((c :: rest).dropWhile (· != comma)).tail := by
  rw [matchlist]
  split
  · next heq => simp [h] at heq
  · next heq =>
      obtain ⟨rfl, rfl⟩ := List.cons.inj (h.symm.trans heq)
      rfl

theorem scanList_eq (hn : p.length ≤ n) (names : List CString) :
    scanList n p names = .ok (names ++ matchlist p) := by
  induction n generalizing p names with
  | zero =>
      obtain rfl : p = [] := List.length_eq_zero_iff.mp (by omega)
      rw [matchlist_of_nil rfl, List.append_nil]
      rfl
  | succ n ih =>
      rcases eq_or_ne p [] with rfl | hne
      · rw [matchlist_of_nil rfl, List.append_nil]
        rfl
      rw [scanList, if_neg hne]
      cases hdrop : p.dropWhile isspace with
      | nil => rw [matchlist_of_nil hdrop, List.append_nil]
      | cons c rest =>
          have hlength := (List.dropWhile_suffix (l := p) isspace).length_le
          have hcut := (List.dropWhile_suffix (l := c :: rest) (· != comma)).length_le
          rw [hdrop] at hlength
          simp only [List.length_cons] at hlength hcut
          rw [matchlist_of_cons hdrop]
          dsimp only
          split_ifs
          · exact ih (by omega) names
          · rw [ih (by rw [List.length_tail]; omega), List.append_assoc]
            rfl

theorem filterCookies_eq (mem : Memory) (fuel : Nat) (list : Option CString) (action : Bool) :
    mem.filterCookies fuel list action =
      (removeUnless (fun _ => true) () ()
        (fun c => (namesOf list).contains (mem.cookie c).name == action)
        fuel (mem.queues.first ()) mem.queues).map fun queues => { mem with queues } := by
  have hmap : ∀ x : Except Fault (Queues Unit Unit Nat),
      (do let queues ← x; return { mem with queues }) = x.map fun queues => { mem with queues } :=
    fun x => by cases x <;> rfl
  cases list with
  | none => exact hmap _
  | some p =>
      have hnames : scanList p.length p [] = .ok (namesOf (some p)) := by
        rw [scanList_eq le_rfl, List.nil_append, matchlist_eq_listNames]
        rfl
      exact (ok_bind hnames).trans (hmap _)

/-- The loops in memory do what the filter on the list of cookies does. -/
theorem Memory.Holds.filterCookies (hmem : mem.Holds l cells) (hfuel : cells.length ≤ fuel)
    (list : Option CString) (action : Bool) :
    ∃ mem', mem.filterCookies fuel list action = .ok mem' ∧
      mem'.Holds (l.filter fun c => (namesOf list).contains c.name == action)
        (cells.filter fun c => (namesOf list).contains (mem.cookie c).name == action) := by
  obtain ⟨hq, rfl⟩ := hmem
  obtain ⟨queues, hrun, hq'⟩ := removeUnless_spec (fun _ => true)
    (fun c => (namesOf list).contains (mem.cookie c).name == action) [] hq rfl hfuel
  refine ⟨{ mem with queues }, ?_, hq', ?_⟩
  · rw [filterCookies_eq, hq.first_eq, hrun]
    rfl
  · rw [List.filter_map]
    rfl

theorem Memory.Holds.filterCookies_of_forall (hmem : mem.Holds l cells)
    (hfuel : cells.length ≤ fuel) (hpass : ∀ c ∈ l, ((namesOf list).contains c.name == action)) :
    mem.filterCookies fuel list action = .ok mem := by
  obtain ⟨hq, rfl⟩ := hmem
  have hrun := removeUnless_of_forall (fun _ => true) [] hq
    (fun c hc => hpass _ (List.mem_map_of_mem hc)) hfuel
  rw [filterCookies_eq, hq.first_eq, hrun]
  rfl

theorem filterCookies_cookielist (t : Task) (list : Option CString) (action : Bool) :
    (filterCookies t list action).cookielist =
      t.cookielist.filter fun c => (namesOf list).contains c.name == action := by
  cases list with
  | none => rfl
  | some p =>
      rw [namesOf, Option.map_some, ← matchlist_eq_listNames]
      rfl

/-- Both filters take off just the cookies they are to take off and leave the others in order;
together they leave every cookie once, and a second filter changes nothing. -/
theorem filter_lists (t : Task) (hmem : mem.Holds t.cookielist cells)
    (hfuel : cells.length ≤ fuel) (list : Option CString) :
    ∃ m₀ m₁ cells₀ cells₁,
      mem.filterCookies fuel list false = .ok m₀ ∧ mem.filterCookies fuel list true = .ok m₁ ∧
      m₀.Holds (vmodFilter t list).cookielist cells₀ ∧
      m₁.Holds (vmodFilterExcept t list).cookielist cells₁ ∧
      (vmodFilter t list).cookielist = t.cookielist.filter (fun c => c.name ∉ namesOf list) ∧
      (vmodFilterExcept t list).cookielist = t.cookielist.filter (fun c => c.name ∈ namesOf list) ∧
      (cells₀ ++ cells₁).Perm cells ∧
      m₀.filterCookies fuel list false = .ok m₀ ∧ m₁.filterCookies fuel list true = .ok m₁ := by
  obtain ⟨m₀, hrun₀, hholds₀⟩ := hmem.filterCookies hfuel list false
  obtain ⟨m₁, hrun₁, hholds₁⟩ := hmem.filterCookies hfuel list true
  have hlength : ∀ q : Nat → Bool, (cells.filter q).length ≤ fuel :=
    fun q => (List.length_filter_le q cells).trans hfuel
  have hagain₀ : m₀.filterCookies fuel list false = .ok m₀ :=
    hholds₀.filterCookies_of_forall (hlength _) fun c hc => (List.mem_filter.mp hc).2
  have hagain₁ : m₁.filterCookies fuel list true = .ok m₁ :=
    hholds₁.filterCookies_of_forall (hlength _) fun c hc => (List.mem_filter.mp hc).2
  rw [← filterCookies_cookielist] at hholds₀ hholds₁
  refine ⟨m₀, m₁, _, _, hrun₀, hrun₁, hholds₀, hholds₁, ?_, ?_, ?_, hagain₀, hagain₁⟩
  · rw [vmodFilter, filterCookies_cookielist]
    simp
  · rw [vmodFilterExcept, filterCookies_cookielist]
    simp
  · refine List.perm_append_comm.trans ?_
    simpa using List.filter_append_perm
      (fun c => (namesOf list).contains (mem.cookie c).name) cells

/-! A queue of two cookies. -/

def twoCookies : Memory where
  queues :=
    { live := fun _ => true
      first := fun _ => some 0
      last := fun _ => some (.next () 1)
      next := fun _ c => if c = 0 then some 1 else none
      prev := fun _ c => if c = 0 then some (.first ()) else some (.next () 0)
      freed := [] }
  cookie := fun c => if c = 0 then ⟨str "a", str "1"⟩ else ⟨str "b", str "2"⟩

theorem holds_twoCookies :
    twoCookies.Holds [⟨str "a", str "1"⟩, ⟨str "b", str "2"⟩] [0, 1] := by
  refine ⟨⟨?_, rfl, rfl, by decide⟩, rfl⟩
  exact ⟨rfl, rfl, rfl, rfl, rfl, rfl, trivial⟩

theorem filter_lists_two :
    ∃ m₀ m₁ cells₀ cells₁,
      twoCookies.filterCookies 2 (some (str ", b,,")) false = .ok m₀ ∧
      twoCookies.filterCookies 2 (some (str ", b,,")) true = .ok m₁ ∧
      m₀.Holds (vmodFilter ⟨[⟨str "a", str "1"⟩, ⟨str "b", str "2"⟩], fun _ => true, []⟩
        (some (str ", b,,"))).cookielist cells₀ ∧
      m₁.Holds (vmodFilterExcept ⟨[⟨str "a", str "1"⟩, ⟨str "b", str "2"⟩], fun _ => true, []⟩
        (some (str ", b,,"))).cookielist cells₁ ∧
      (cells₀ ++ cells₁).Perm [0, 1] := by
  obtain ⟨m₀, m₁, cells₀, cells₁, hrun₀, hrun₁, hholds₀, hholds₁, -, -, hperm, -, -⟩ :=
    filter_lists ⟨[⟨str "a", str "1"⟩, ⟨str "b", str "2"⟩], fun _ => true, []⟩ holds_twoCookies
      (le_refl 2) (some (str ", b,,"))
  exact ⟨m₀, m₁, cells₀, cells₁, hrun₀, hrun₁, hholds₀, hholds₁, hperm⟩

end VarnishModules.CookieFilter
