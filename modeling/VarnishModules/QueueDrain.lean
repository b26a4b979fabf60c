import VarnishModules.TailQueue

/-!
Loops that empty a queue from its head, releasing every element.

The loop removes the first element until the head holds none.  It reads only the
forward links and the back link of the first element, and each removal writes
the back link the next one needs.  So it also runs through a chain that is no
proper queue.
-/

set_option linter.unusedSectionVars false

namespace VarnishModules.QueueDrain

open VarnishModules.TailQueue

variable {H F E : Type} [DecidableEq H] [DecidableEq F] [DecidableEq E]

/-- `while (!VTAILQ_EMPTY(h)) { x = VTAILQ_FIRST(h); VTAILQ_REMOVE(h, x, f);
FREE_OBJ(x); }` -/
def drain (alive : H → Bool) (f : F) (h : H) :
    Nat → Queues H F E → Except Fault (Queues H F E)
  | 0, m => if (m.first h).isNone then .ok m else .error .outOfFuel
  | n + 1, m =>
      match m.first h with
      | none => .ok m
      | some x => do
          let m ← m.remove alive f h x
          let m ← m.free x
          drain alive f h n m

/-- The cells from `s` on lead through exactly the elements `xs`, to the end. -/
def Chain (m : Queues H F E) (f : F) : Slot H F E → List E → Prop
  | s, [] => m.read s = none
  | s, x :: xs => m.read s = some x ∧ m.live x = true ∧ Chain m f (.next f x) xs

variable {m m' : Queues H F E} {alive : H → Bool} {f : F} {h h₁ h₂ : H} {s t : Slot H F E}
  {x : E} {xs ys : List E} {n : Nat}

theorem Chain.congr (hread : ∀ t, (t = s ∨ ∃ x ∈ xs, t = .next f x) → m'.read t = m.read t)
    (hlive : ∀ x ∈ xs, m.live x = true → m'.live x = true) (hchain : Chain m f s xs) :
    Chain m' f s xs := by
  induction xs generalizing s with
  | nil => exact (hread s (Or.inl rfl)).trans hchain
  | cons x xs ih =>
      obtain ⟨hs, hx, htail⟩ := hchain
      refine ⟨(hread s (Or.inl rfl)).trans hs, hlive x (by simp) hx, ih ?_ ?_ htail⟩
      · rintro t (rfl | ⟨y, hy, rfl⟩)
        · exact hread _ (Or.inr ⟨x, by simp, rfl⟩)
        · exact hread _ (Or.inr ⟨y, by simp [hy], rfl⟩)
      · exact fun y hy => hlive y (by simp [hy])

theorem chain_of_segment (hseg : Segment m f s xs) (hstop : m.read (endSlot f s xs) = none) :
    Chain m f s xs := by
  induction xs generalizing s with
  | nil => exact hstop
  | cons x xs ih =>
      obtain ⟨hread, -, hlive, htail⟩ := hseg
      exact ⟨hread, hlive, ih htail hstop⟩

theorem remove_first (hchain : Chain m f (.first h) (x :: ys))
    (hprev : m.prev f x = some (.first h)) (ha : alive h = true) :
    ∃ m', m.remove alive f h x = .ok m' ∧ m'.first h = ys.head? ∧
      (∀ y ∈ ys.head?, m'.prev f y = some (.first h)) ∧ m'.next = m.next ∧
      m'.live = m.live ∧ m'.freed = m.freed ∧
      (ys = [] → m'.last h = some (.first h)) := by
  obtain ⟨-, hx, htail⟩ := hchain
  have hhead : ∀ m : Queues H F E, m.touchSlot alive (.first h) = .ok () := fun _ =>
    touchHead_ok ha
  cases ys with
  | nil =>
      have hnext : m.next f x = none := htail
      refine ⟨(m.setLast h (some (.first h))).write (.first h) none, ?_, ?_⟩
      · simp [Queues.remove, touchElem_ok hx, hnext, hprev, touchHead_ok ha, Queues.store,
          hhead, bind, Except.bind, pure, Except.pure]
      · simp [Queues.write, Queues.setLast]
  | cons y ys =>
      obtain ⟨hnext, hy, -⟩ := htail
      have hnext : m.next f x = some y := hnext
      refine ⟨(m.setPrev f y (some (.first h))).write (.first h) (some y), ?_, ?_⟩
      · simp [Queues.remove, touchElem_ok hx, touchElem_ok hy, hnext, hprev, Queues.store,
          hhead, bind, Except.bind, pure, Except.pure]
      · simp [Queues.write, Queues.setPrev]

theorem drain_spec (hchain : Chain m f (.first h) xs) (hnodup : xs.Nodup)
    (hprev : ∀ x ∈ xs.head?, m.prev f x = some (.first h)) (ha : alive h = true)
    (hn : xs.length ≤ n) :
    ∃ m', drain alive f h n m = .ok m' ∧ m'.first h = none ∧ m'.freed = m.freed ++ xs ∧
      (∀ y, m'.live y = true ↔ m.live y = true ∧ y ∉ xs) ∧
      (m.last h = some (.first h) ∨ xs ≠ [] → m'.last h = some (.first h)) := by
  induction xs generalizing m n with
  | nil =>
      have hfirst : m.first h = none := hchain
      refine ⟨m, ?_, hfirst, by simp, by simp, by simp⟩
      cases n <;> simp [drain, hfirst]
  | cons x ys ih =>
      obtain ⟨n, rfl⟩ : ∃ k, n = k + 1 := ⟨n - 1, by simp at hn; omega⟩
      obtain ⟨hx, hnodup'⟩ := List.nodup_cons.mp hnodup
      obtain ⟨m₁, hremove, hfirst, hprev₁, hnext, hlive, hfreed, hlast⟩ :=
        remove_first hchain (hprev x rfl) ha
      obtain ⟨hread, hxlive, htail⟩ := hchain
      let m₂ : Queues H F E := { m₁ with
        live := Function.update m₁.live x false, freed := m₁.freed ++ [x] }
      have hfree : m₁.free x = .ok m₂ := free_spec (hlive ▸ hxlive)
      have hchain₂ : Chain m₂ f (.first h) ys := by
        cases ys with
        | nil => exact hfirst
        | cons y ys =>
            obtain ⟨-, hy, hrest⟩ := htail
            have hyx : y ≠ x := fun heq => hx (by simp [heq])
            refine ⟨hfirst, by simp [m₂, hyx, hlive, hy], hrest.congr ?_ ?_⟩
            · rintro t (rfl | ⟨z, -, rfl⟩)
              · exact congrFun (congrFun hnext f) y
              · exact congrFun (congrFun hnext f) z
            · intro z hz hzlive
              have hzx : z ≠ x := fun heq => hx (by simp [← heq, hz])
              simp [m₂, hzx, hlive, hzlive]
      obtain ⟨m', hdrain, hfirst', hfreed', hlive', hlast'⟩ :=
        ih hchain₂ hnodup' hprev₁ (by simpa using hn)
      refine ⟨m', ?_, hfirst', ?_, fun y => ?_, fun _ => hlast' ?_⟩
      · have hhead : m.first h = some x := hread
        rw [drain, hhead]
        exact (ok_bind hremove).trans ((ok_bind hfree).trans hdrain)
      · simp [hfreed', m₂, hfreed]
      · rw [hlive']
        by_cases hyx : y = x
        · subst hyx
          simp [m₂]
        · simp [m₂, hyx, hlive]
      · by_cases hys : ys = []
        · exact Or.inl (hlast hys)
        · exact Or.inr hys

/-- A queue is drained whole. -/
theorem drain_isQueue (hq : IsQueue m f h xs) (ha : alive h = true) (hn : xs.length ≤ n) :
    ∃ m', drain alive f h n m = .ok m' ∧ IsQueue m' f h [] ∧ m'.freed = m.freed ++ xs ∧
      ∀ y, m'.live y = true ↔ m.live y = true ∧ y ∉ xs := by
  have hprev : ∀ x ∈ xs.head?, m.prev f x = some (.first h) := by
    intro x hx
    cases xs with
    | nil => simp at hx
    | cons y ys =>
        obtain rfl : y = x := by simpa using hx
        exact hq.segment.2.1
  obtain ⟨m', hdrain, hfirst, hfreed, hlive, hlast⟩ :=
    drain_spec (chain_of_segment hq.segment hq.stop) hq.nodup hprev ha hn
  refine ⟨m', hdrain, ⟨trivial, hfirst, hlast ?_, List.nodup_nil⟩, hfreed, hlive⟩
  cases xs with
  | nil => exact Or.inl hq.last
  | cons y ys => exact Or.inr (by simp)

/-- A first element whose back link leads into released memory stops the loop. -/
theorem drain_stale (hfirst : m.first h = some x) (hprev : m.prev f x = some (.first h₂))
    (ha : alive h₂ = false) : ∃ e, drain alive f h n m = .error e := by
  cases n with
  | zero => exact ⟨.outOfFuel, by simp [drain, hfirst]⟩
  | succ n =>
      have hstore : ∀ (m : Queues H F E) v,
          m.store alive (some (.first h₂)) v = .error .useAfterFree := by
        intro m v
        simp [Queues.store, Queues.touchSlot, Queues.touchHead, ha, bind, Except.bind]
      have hremove : ∃ e, m.remove alive f h x = .error e := by
        by_cases hx : m.live x = true
        · cases hnext : m.next f x with
          | none =>
              by_cases hh : alive h = true
              · exact ⟨.useAfterFree, by
                  simp [Queues.remove, touchElem_ok hx, hnext, touchHead_ok hh, hprev, hstore,
                    bind, Except.bind, pure, Except.pure]⟩
              · exact ⟨.useAfterFree, by
                  simp [Queues.remove, touchElem_ok hx, hnext, Queues.touchHead, hh,
                    bind, Except.bind]⟩
          | some y =>
              by_cases hy : m.live y = true
              · exact ⟨.useAfterFree, by
                  simp [Queues.remove, touchElem_ok hx, hnext, touchElem_ok hy, hprev, hstore,
                    bind, Except.bind, pure, Except.pure]⟩
              · exact ⟨.useAfterFree, by
                  simp [Queues.remove, hnext, Queues.touchElem, hx, hy,
                    bind, Except.bind]⟩
        · exact ⟨.useAfterFree, by simp [Queues.remove, Queues.touchElem, hx, bind, Except.bind]⟩
      obtain ⟨e, he⟩ := hremove
      exact ⟨e, by simp [drain, hfirst, he, bind, Except.bind]⟩

/-- `VTAILQ_CONCAT` of a queue that is not empty, whatever link it is threaded
on and whatever link the macro is given. -/
theorem concat_cons (hfirst : m.first h₂ = some x) (hlast : m.last h₁ = some t)
    (ht : m.touchSlot alive t = .ok ()) (hx : m.live x = true) (h₁a : alive h₁ = true)
    (h₂a : alive h₂ = true) :
    m.concat alive f h₁ h₂ =
      .ok ((((m.write t (some x)).setPrev f x (some t)).setLast h₁ (m.last h₂)).init h₂) := by
  have hx' : (m.write t (some x)).live x = true := by simpa using hx
  simp [Queues.concat, touchHead_ok h₂a, touchHead_ok h₁a, hfirst, hlast, Queues.store, ht,
    touchElem_ok hx', bind, Except.bind, pure, Except.pure]

end VarnishModules.QueueDrain
