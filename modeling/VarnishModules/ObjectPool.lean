import VarnishModules.TailQueue

/-!
Free lists of bounded length in front of an allocator.

Released objects wait on a queue until its counter reaches the bound, further
ones go back to the allocator; a request is served from the queue as long as
the counter is positive.  Addresses are handed out in increasing order and are
never reused by the allocator, so a stale pointer never becomes valid again.
-/

set_option linter.unusedSectionVars false

namespace VarnishModules.ObjectPool

open VarnishModules.TailQueue

structure Pool (H F : Type) where
  queues : Queues H F Nat
  count : Nat
  fresh : Nat

variable {H F : Type} [DecidableEq H] [DecidableEq F]

namespace Pool

def empty : Pool H F where
  queues := Queues.empty
  count := 0
  fresh := 0

/-- Take an object off the free list, or allocate one when the counter is
zero; the flag tells a newly allocated object.  `onNull` is what happens when
the counter is positive and the list is empty. -/
def new (p : Pool H F) (alive : H → Bool) (f : F) (h : H) (onNull : Fault) :
    Except Fault (Nat × Bool × Pool H F) :=
  if 0 < p.count then
    match p.queues.first h with
    | none => .error onNull
    | some x => do
        let queues ← p.queues.remove alive f h x
        return (x, false, { p with queues, count := p.count - 1 })
  else
    return (p.fresh, true,
      { p with queues := p.queues.alloc p.fresh, fresh := p.fresh + 1 })

/-- Put an object back on the free list, or free it when the list is full. -/
def delete (p : Pool H F) (max : Nat) (alive : H → Bool) (f : F) (h : H) (x : Nat) :
    Except Fault (Pool H F) := do
  if p.count < max then
    let queues ← p.queues.insertHead alive f h x
    return { p with queues, count := p.count + 1 }
  else
    let queues ← p.queues.free x
    return { p with queues }

end Pool

/-- The free list holds `xs`, the counter is its length, and no address from
the frontier on is in use. -/
structure Holds (max : Nat) (p : Pool H F) (f : F) (h : H) (xs : List Nat) : Prop where
  queue : IsQueue p.queues f h xs
  count : p.count = xs.length
  bound : xs.length ≤ max
  fresh : ∀ x, p.queues.live x = true → x < p.fresh

/-- What a request changes: the object `x` comes from the free list, or the
list is empty and `x` is allocated. -/
structure Taken (p : Pool H F) (f : F) (h : H) (xs : List Nat) (x : Nat) (isNew : Bool)
    (p' : Pool H F) (xs' : List Nat) : Prop where
  source : (xs = x :: xs' ∧ isNew = false) ∨
    (xs = [] ∧ xs' = [] ∧ isNew = true ∧ p.queues.live x = false)
  first : ∀ k, k ≠ h → p'.queues.first k = p.queues.first k
  last : ∀ k, k ≠ h → p'.queues.last k = p.queues.last k
  next : ∀ g y, y ≠ x → g ≠ f ∨ y ∉ xs → p'.queues.next g y = p.queues.next g y
  prev : ∀ g y, y ≠ x → g ≠ f ∨ y ∉ xs → p'.queues.prev g y = p.queues.prev g y
  live : ∀ y, p'.queues.live y = true ↔ y = x ∨ p.queues.live y = true
  freed : p'.queues.freed = p.queues.freed

/-- What a release changes: the object `x` goes to the free list, or the list
is full and `x` is freed. -/
structure Released (max : Nat) (p : Pool H F) (f : F) (h : H) (xs : List Nat) (x : Nat)
    (p' : Pool H F) (xs' : List Nat) : Prop where
  target : (xs' = x :: xs ∧ p'.queues.freed = p.queues.freed) ∨
    (xs' = xs ∧ xs.length = max ∧ p'.queues.freed = p.queues.freed ++ [x])
  first : ∀ k, k ≠ h → p'.queues.first k = p.queues.first k
  last : ∀ k, k ≠ h → p'.queues.last k = p.queues.last k
  next : ∀ g y, g ≠ f ∨ y ∉ x :: xs → p'.queues.next g y = p.queues.next g y
  prev : ∀ g y, g ≠ f ∨ y ∉ x :: xs → p'.queues.prev g y = p.queues.prev g y
  live : ∀ y, p'.queues.live y = true ↔ p.queues.live y = true ∧ (y = x → x ∈ xs')

variable {max : Nat} {p p' : Pool H F} {alive : H → Bool} {f g : F} {h k : H}
  {xs xs' ys : List Nat} {x : Nat}

theorem holds_empty : Holds max (Pool.empty : Pool H F) f h [] where
  queue := ⟨trivial, rfl, rfl, List.nodup_nil⟩
  count := rfl
  bound := Nat.zero_le _
  fresh := by simp [Pool.empty, Queues.empty]

/-- The number of objects ever allocated bounds every list of objects in use. -/
theorem Holds.length_le_of_live (hp : Holds max p f h xs) (hnodup : ys.Nodup)
    (hlive : ∀ y ∈ ys, p.queues.live y = true) : ys.length ≤ p.fresh :=
  length_le_of_lt hnodup fun y hy => hp.fresh y (hlive y hy)

theorem Holds.length_le_fresh (hp : Holds max p f h xs) (hq : IsQueue p.queues g k ys) :
    ys.length ≤ p.fresh :=
  hp.length_le_of_live hq.nodup fun _ hy => hq.live hy

theorem new_spec (hp : Holds max p f h xs) (ha : alive h = true) (onNull : Fault) :
    ∃ x isNew p' xs', p.new alive f h onNull = .ok (x, isNew, p') ∧
      Holds max p' f h xs' ∧ Taken p f h xs x isNew p' xs' := by
  cases xs with
  | nil =>
      have hfresh : p.queues.live p.fresh = false := by
        rw [Bool.eq_false_iff]
        exact fun hl => absurd (hp.fresh _ hl) (lt_irrefl _)
      refine ⟨p.fresh, true, { p with queues := p.queues.alloc p.fresh, fresh := p.fresh + 1 },
        [], by simp [Pool.new, hp.count, pure, Except.pure], ⟨?_, ?_, ?_, ?_⟩, ?_⟩
      · exact hp.queue.alloc hfresh
      · exact hp.count
      · exact hp.bound
      · intro y hy
        by_cases hyx : y = p.fresh
        · simp [hyx]
        · have hl : p.queues.live y = true := by simpa [Queues.alloc, hyx] using hy
          exact Nat.lt_succ_of_lt (hp.fresh y hl)
      · refine ⟨Or.inr ⟨rfl, rfl, rfl, hfresh⟩, fun _ _ => rfl, fun _ _ => rfl, ?_, ?_, ?_, rfl⟩
        · intro g y hy _
          simp [Queues.alloc, hy]
        · intro g y hy _
          simp [Queues.alloc, hy]
        · intro y
          by_cases hy : y = p.fresh <;> simp [Queues.alloc, hy]
  | cons x xs =>
      obtain ⟨m, hstep, hq, hoff, -, -⟩ := remove_head_spec hp.queue ha
      have hpos : 0 < p.count := by simp [hp.count]
      have hlive : p.queues.live x = true := hp.queue.live (by simp)
      refine ⟨x, false, { p with queues := m, count := p.count - 1 }, xs, ?_,
        ⟨hq, ?_, ?_, ?_⟩, ?_⟩
      · simp [Pool.new, hpos, hp.queue.first_eq, hstep, bind, Except.bind, pure, Except.pure]
      · simp [hp.count]
      · exact (Nat.le_succ _).trans hp.bound
      · intro y hy
        exact hp.fresh y (by simpa [hoff.live] using hy)
      · refine ⟨Or.inl ⟨rfl, rfl⟩, hoff.first, hoff.last, fun g y _ => hoff.next g y,
          fun g y _ => hoff.prev g y, ?_, hoff.freed⟩
        intro y
        simp only [hoff.live]
        exact ⟨Or.inr, fun hy => hy.elim (fun heq => heq ▸ hlive) id⟩

theorem delete_spec (hp : Holds max p f h xs) (ha : alive h = true)
    (hx : p.queues.live x = true) (hxs : x ∉ xs) :
    ∃ p' xs', p.delete max alive f h x = .ok p' ∧ Holds max p' f h xs' ∧
      Released max p f h xs x p' xs' := by
  by_cases hcount : p.count < max
  · obtain ⟨m, hstep, hq, hoff⟩ := insertHead_spec hp.queue ha hx hxs
    refine ⟨{ p with queues := m, count := p.count + 1 }, x :: xs, ?_,
      ⟨hq, by simp [hp.count], ?_, ?_⟩, ?_⟩
    · simp [Pool.delete, hcount, hstep, bind, Except.bind, pure, Except.pure]
    · simpa [hp.count] using hcount
    · intro y hy
      exact hp.fresh y (by simpa [hoff.live] using hy)
    · refine ⟨Or.inl ⟨rfl, hoff.freed⟩, hoff.first, hoff.last, hoff.next, hoff.prev, ?_⟩
      intro y
      simp [hoff.live]
  · have hfull : xs.length = max := by
      have := hp.bound
      have := hp.count
      omega
    let m : Queues H F Nat := { p.queues with
      live := Function.update p.queues.live x false, freed := p.queues.freed ++ [x] }
    refine ⟨{ p with queues := m }, xs, ?_,
      ⟨hp.queue.free hxs (p.queues.freed ++ [x]), hp.count, hp.bound, ?_⟩, ?_⟩
    · simp [Pool.delete, hcount, free_spec hx, bind, Except.bind, pure, Except.pure, m]
    · intro y hy
      by_cases hyx : y = x
      · simp [m, hyx] at hy
      · exact hp.fresh y (by simpa [m, hyx] using hy)
    · refine ⟨Or.inr ⟨rfl, hfull, rfl⟩, fun _ _ => rfl, fun _ _ => rfl, fun _ _ _ => rfl,
        fun _ _ _ => rfl, ?_⟩
      intro y
      by_cases hyx : y = x <;> simp [m, hyx, hxs]

theorem Taken.isQueue {isNew : Bool} (ht : Taken p f h xs x isNew p' xs')
    (hq : IsQueue p.queues g k ys) (hk : k ≠ h) (hx : x ∉ ys)
    (hys : g ≠ f ∨ ∀ y ∈ ys, y ∉ xs) : IsQueue p'.queues g k ys := by
  refine hq.congr (ht.first k hk) (ht.last k hk) ?_
  intro y hy
  have hyx : y ≠ x := fun heq => hx (heq ▸ hy)
  have hoff : g ≠ f ∨ y ∉ xs := hys.imp_right (fun hd => hd y hy)
  exact ⟨ht.next g y hyx hoff, ht.prev g y hyx hoff, fun hl => (ht.live y).mpr (Or.inr hl)⟩

theorem Released.isQueue (hr : Released max p f h xs x p' xs')
    (hq : IsQueue p.queues g k ys) (hk : k ≠ h) (hx : x ∉ ys)
    (hys : g ≠ f ∨ ∀ y ∈ ys, y ∉ xs) : IsQueue p'.queues g k ys := by
  refine hq.congr (hr.first k hk) (hr.last k hk) ?_
  intro y hy
  have hyx : y ≠ x := fun heq => hx (heq ▸ hy)
  have hoff : g ≠ f ∨ y ∉ x :: xs := hys.imp_right (fun hd => by simp [hyx, hd y hy])
  exact ⟨hr.next g y hoff, hr.prev g y hoff,
    fun hl => (hr.live y).mpr ⟨hl, fun heq => absurd heq hyx⟩⟩

end VarnishModules.ObjectPool
