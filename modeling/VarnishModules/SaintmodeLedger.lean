import VarnishModules.QueueDrain
import VarnishModules.QueueFilter
import VarnishModules.SaintmodeHeap

/-!
Where the entries of the saintmode lists are.

Every entry that is allocated is on the list of one object or in the hands of one thread.
-/

namespace VarnishModules.SaintmodeLedger

open VarnishModules.TailQueue
open VarnishModules.SaintmodeModel (Trouble)
open VarnishModules.SaintmodeHeap

/-- Nothing changes but the cells of the heads `hs` and the links of the elements of `S`. -/
structure Untouched (hs : List Head) (S : List ℕ) (m m' : Links) : Prop where
  first : ∀ k, k ∉ hs → m'.first k = m.first k
  last : ∀ k, k ∉ hs → m'.last k = m.last k
  next : ∀ x, x ∉ S → m'.next () x = m.next () x
  prev : ∀ x, x ∉ S → m'.prev () x = m.prev () x
  live : m'.live = m.live
  freed : m'.freed = m.freed

/-- A cursor that leads through exactly the elements `xs`. -/
def Chained (m : Links) : Option ℕ → List ℕ → Prop
  | tr, [] => tr = none
  | tr, x :: xs => tr = some x ∧ Chained m (m.next () x) xs

variable {m m' m₁ m₂ : Links} {hs : List Head} {S T xs ys own : List ℕ} {h k : Head} {x : ℕ}
  {tr : Option ℕ} {trouble : ℕ → Trouble} {digest : Option Digest} {now : ℚ} {i thread n : ℕ}
  {nTrouble : UInt32}

theorem Untouched.refl (hs : List Head) (S : List ℕ) (m : Links) : Untouched hs S m m :=
  ⟨fun _ _ => rfl, fun _ _ => rfl, fun _ _ => rfl, fun _ _ => rfl, rfl, rfl⟩

theorem Untouched.trans (h₁ : Untouched hs S m m₁) (h₂ : Untouched hs S m₁ m₂) :
    Untouched hs S m m₂ where
  first k hk := (h₂.first k hk).trans (h₁.first k hk)
  last k hk := (h₂.last k hk).trans (h₁.last k hk)
  next x hx := (h₂.next x hx).trans (h₁.next x hx)
  prev x hx := (h₂.prev x hx).trans (h₁.prev x hx)
  live := h₂.live.trans h₁.live
  freed := h₂.freed.trans h₁.freed

theorem untouched_of_agreeOff (hm : AgreeOff () h S m m') (hh : h ∈ hs) : Untouched hs S m m' where
  first k hk := hm.first k fun heq => hk (heq ▸ hh)
  last k hk := hm.last k fun heq => hk (heq ▸ hh)
  next x hx := hm.next () x (Or.inr hx)
  prev x hx := hm.prev () x (Or.inr hx)
  live := hm.live
  freed := hm.freed

theorem Untouched.mono (hS : S ⊆ T) (hm : Untouched hs S m m') : Untouched hs T m m' where
  first := hm.first
  last := hm.last
  next x hx := hm.next x fun hmem => hx (hS hmem)
  prev x hx := hm.prev x fun hmem => hx (hS hmem)
  live := hm.live
  freed := hm.freed

theorem Untouched.isQueue (hm : Untouched hs S m m') (hk : k ∉ hs) (hS : ∀ y ∈ ys, y ∉ S)
    (hq : IsQueue m () k ys) : IsQueue m' () k ys :=
  hq.congr (hm.first k hk) (hm.last k hk) fun y hy =>
    ⟨hm.next y (hS y hy), hm.prev y (hS y hy), fun hl => by rwa [hm.live]⟩

theorem Chained.congr (hnext : ∀ x ∈ xs, m'.next () x = m.next () x) (hchain : Chained m tr xs) :
    Chained m' tr xs := by
  induction xs generalizing tr with
  | nil => exact hchain
  | cons x xs ih =>
      obtain ⟨rfl, htail⟩ := hchain
      refine ⟨rfl, ?_⟩
      rw [hnext x List.mem_cons_self]
      exact ih (fun y hy => hnext y (List.mem_cons_of_mem x hy)) htail

theorem chained_of_chain {s : Slot Head Unit ℕ} (hchain : QueueDrain.Chain m () s xs) :
    Chained m (m.read s) xs := by
  induction xs generalizing s with
  | nil => exact hchain
  | cons x xs ih =>
      obtain ⟨hread, -, htail⟩ := hchain
      exact ⟨hread, ih htail⟩

theorem chained_of_isQueue (hq : IsQueue m () h xs) : Chained m (m.first h) xs :=
  chained_of_chain (QueueDrain.chain_of_segment hq.segment hq.stop)

theorem alive_eq (h : Head) : alive h = true := rfl

/-! The loop of a check. -/

theorem pruneLoop_none (n : ℕ) (nTrouble : UInt32) :
    pruneLoop trouble digest now i thread n none m nTrouble = .ok (true, m, nTrouble) := by
  cases n <;> rfl

theorem mem_middle_of_mem {y : ℕ} (hy : y ∈ ys ++ xs) : y ∈ ys ++ x :: xs :=
  List.perm_middle.mem_iff.mpr (List.mem_cons_of_mem x hy)

/-- What has expired goes from the list of the object to the one of the thread. -/
theorem expire_spec (hq : IsQueue m () (.troublelist i) (ys ++ x :: xs))
    (hown : IsQueue m () (.pruned thread) own) (hdisj : ∀ y ∈ ys ++ x :: xs, y ∉ own) :
    ∃ m₁ m₂, m.remove alive () (.troublelist i) x = .ok m₁ ∧
      m₁.insertHead alive () (.pruned thread) x = .ok m₂ ∧
      IsQueue m₂ () (.troublelist i) (ys ++ xs) ∧ IsQueue m₂ () (.pruned thread) (x :: own) ∧
      Untouched [.troublelist i, .pruned thread] (ys ++ x :: xs ++ own) m m₂ := by
  have hx : x ∉ ys ++ xs := (List.nodup_middle.mp hq.nodup).notMem
  obtain ⟨m₁, hremove, hq₁, hm₁, -, -⟩ := remove_spec hq (alive_eq _)
  have hown₁ : IsQueue m₁ () (.pruned thread) own :=
    hown.frame hm₁ (by simp) (Or.inr fun y hy hmem => hdisj y hmem hy)
  have hlive : m₁.live x = true := by
    rw [hm₁.live]
    exact hq.live (by simp)
  obtain ⟨m₂, hinsert, hown₂, hm₂⟩ :=
    insertHead_spec hown₁ (alive_eq _) hlive (hdisj x (by simp))
  refine ⟨m₁, m₂, hremove, hinsert, hq₁.frame hm₂ (by simp) (Or.inr ?_), hown₂,
    ((untouched_of_agreeOff hm₁ (by simp)).mono (List.subset_append_left _ _)).trans
      ((untouched_of_agreeOff hm₂ (by simp)).mono ?_)⟩
  swap
  · rw [List.append_assoc]
    exact List.subset_append_of_subset_right _ (List.cons_subset_cons x (by simp))
  intro y hy hmem
  rcases List.mem_cons.mp hmem with rfl | hmem
  · exact hx hy
  · exact hdisj y (mem_middle_of_mem hy) hmem

variable (trouble digest now nTrouble) in
theorem pruneLoop_spec (hq : IsQueue m () (.troublelist i) (ys ++ xs))
    (hown : IsQueue m () (.pruned thread) own) (hdisj : ∀ y ∈ ys ++ xs, y ∉ own)
    (hn : xs.length ≤ n) :
    ∃ m' xs' own',
      pruneLoop trouble digest now i thread n xs.head? m nTrouble =
        .ok ((SaintmodeModel.pruneLoop digest now (xs.map trouble) nTrouble).1, m',
          (SaintmodeModel.pruneLoop digest now (xs.map trouble) nTrouble).2.2) ∧
      xs'.map trouble = (SaintmodeModel.pruneLoop digest now (xs.map trouble) nTrouble).2.1 ∧
      IsQueue m' () (.troublelist i) (ys ++ xs') ∧ IsQueue m' () (.pruned thread) own' ∧
      (xs' ++ own').Perm (xs ++ own) ∧
      Untouched [.troublelist i, .pruned thread] (ys ++ xs ++ own) m m' := by
  induction xs generalizing m ys own n nTrouble with
  | nil =>
      exact ⟨m, [], own, pruneLoop_none n nTrouble, rfl, hq, hown, List.Perm.refl _,
        Untouched.refl _ _ m⟩
  | cons x xs ih =>
      obtain ⟨n, rfl⟩ : ∃ k, n = k + 1 := ⟨n - 1, by simp at hn; omega⟩
      have hn : xs.length ≤ n := by simpa using hn
      obtain ⟨hlive, hnext⟩ := QueueFilter.next_eq_head? hq
      rw [List.head?_cons, List.map_cons, pruneLoop, touchElem_ok hlive, hnext]
      by_cases hexpired : (trouble x).timeout < now
      · obtain ⟨m₁, m₂, hremove, hinsert, hq₂, hown₂, hm₂⟩ := expire_spec hq hown hdisj
        have hx : x ∉ ys ++ xs := (List.nodup_middle.mp hq.nodup).notMem
        have hdisj₂ : ∀ y ∈ ys ++ xs, y ∉ x :: own := by
          intro y hy hmem
          rcases List.mem_cons.mp hmem with rfl | hmem
          · exact hx hy
          · exact hdisj y (mem_middle_of_mem hy) hmem
        have hpure : SaintmodeModel.pruneLoop digest now (trouble x :: xs.map trouble) nTrouble =
            SaintmodeModel.pruneLoop digest now (xs.map trouble) (nTrouble - 1) := by
          rw [SaintmodeModel.pruneLoop, if_pos hexpired]
        obtain ⟨m', xs', own', hloop, hmap, hq', hown', hperm, hm'⟩ :=
          ih (nTrouble - 1) hq₂ hown₂ hdisj₂ hn
        rw [hpure]
        refine ⟨m', xs', own', ?_, hmap, hq', hown', hperm.trans List.perm_middle,
          hm₂.trans (hm'.mono ?_)⟩
        · simp only [hexpired, if_true, hremove, hinsert, bind, Except.bind]
          exact hloop
        · intro y hy
          simp only [List.mem_append, List.mem_cons] at hy ⊢
          tauto
      · by_cases hdigest : digest = some (trouble x).digest
        · have hpure : SaintmodeModel.pruneLoop digest now (trouble x :: xs.map trouble) nTrouble =
              (false, trouble x :: xs.map trouble, nTrouble) := by
            rw [SaintmodeModel.pruneLoop, if_neg hexpired, if_pos hdigest]
          rw [hpure]
          refine ⟨m, x :: xs, own, ?_, rfl, hq, hown, List.Perm.refl _, Untouched.refl _ _ m⟩
          simp only [hexpired, hdigest, if_true, if_false, bind, Except.bind]
          rfl
        · have hpure : SaintmodeModel.pruneLoop digest now (trouble x :: xs.map trouble) nTrouble =
              let r := SaintmodeModel.pruneLoop digest now (xs.map trouble) nTrouble
              (r.1, trouble x :: r.2.1, r.2.2) := by
            rw [SaintmodeModel.pruneLoop, if_neg hexpired, if_neg hdigest]
          have hshift : ys ++ x :: xs = ys ++ [x] ++ xs := by simp
          rw [hshift] at hq hdisj
          obtain ⟨m', xs', own', hloop, hmap, hq', hown', hperm, hm'⟩ :=
            ih nTrouble hq hown hdisj hn
          rw [hpure]
          refine ⟨m', x :: xs', own', ?_, by rw [List.map_cons, hmap], by simpa using hq', hown',
            List.Perm.cons x hperm, by simpa using hm'⟩
          simp only [hexpired, hdigest, if_false, bind, Except.bind]
          exact hloop

/-! Owners. -/

/-- Who holds which entries. What is not held any more has been freed, once. -/
structure Owned (m : Links) (fresh : ℕ) (lists : Head → List ℕ) : Prop where
  queue : ∀ i, IsQueue m () (.troublelist i) (lists (.troublelist i))
  nodup : ∀ h, (lists h).Nodup
  unique : ∀ x h k, x ∈ lists h → x ∈ lists k → h = k
  live : ∀ x, m.live x = true ↔ ∃ h, x ∈ lists h
  allocated : ∀ x, x < fresh ↔ m.live x = true ∨ x ∈ m.freed
  freed : ∀ x ∈ m.freed, m.live x = false
  freed_nodup : m.freed.Nodup

variable {fresh : ℕ} {lists lists' : Head → List ℕ} {a b : Head} {tp : ℕ}

theorem Owned.lt_fresh (H : Owned m fresh lists) (hx : x ∈ lists h) : x < fresh :=
  (H.allocated x).mpr (Or.inl ((H.live x).mpr ⟨h, hx⟩))

theorem Owned.length_le (H : Owned m fresh lists) (h : Head) : (lists h).length ≤ fresh :=
  length_le_of_lt (H.nodup h) fun _ hx => H.lt_fresh hx

/-- Two heads may exchange what they have. -/
theorem Owned.move (H : Owned m fresh lists) (hab : a ≠ b)
    (hother : ∀ k, k ≠ a → k ≠ b → lists' k = lists k)
    (hperm : (lists' a ++ lists' b).Perm (lists a ++ lists b)) (hlive : m'.live = m.live)
    (hfreed : m'.freed = m.freed)
    (hqueue : ∀ i, IsQueue m' () (.troublelist i) (lists' (.troublelist i))) :
    Owned m' fresh lists' := by
  have hnodup : (lists' a ++ lists' b).Nodup :=
    hperm.nodup_iff.mpr (List.nodup_append.mpr ⟨H.nodup a, H.nodup b, fun x hx y hy heq =>
      hab (H.unique x a b hx (heq ▸ hy))⟩)
  obtain ⟨ha, hb, hdisj⟩ := List.nodup_append.mp hnodup
  have hmem : ∀ x, x ∈ lists' a ∨ x ∈ lists' b ↔ x ∈ lists a ∨ x ∈ lists b := by
    intro x
    simpa only [List.mem_append] using hperm.mem_iff (a := x)
  -- an entry of another head is held neither before nor after
  have haway : ∀ x k, k ≠ a → k ≠ b → x ∈ lists' k → x ∉ lists' a ∧ x ∉ lists' b := by
    intro x k hka hkb hx
    rw [hother k hka hkb] at hx
    refine not_or.mp fun hx' => ?_
    rcases (hmem x).mp hx' with hx' | hx'
    · exact hka (H.unique x k a hx hx')
    · exact hkb (H.unique x k b hx hx')
  have hcases : ∀ k, k = a ∨ k = b ∨ k ≠ a ∧ k ≠ b := by
    intro k
    tauto
  refine ⟨hqueue, ?_, ?_, ?_, ?_, ?_, by rw [hfreed]; exact H.freed_nodup⟩
  · intro k
    rcases hcases k with rfl | rfl | ⟨hka, hkb⟩
    · exact ha
    · exact hb
    · rw [hother k hka hkb]
      exact H.nodup k
  · intro x h k hh hk
    rcases hcases h with rfl | rfl | ⟨hha, hhb⟩
    · rcases hcases k with rfl | rfl | ⟨hka, hkb⟩
      · rfl
      · exact absurd rfl (hdisj x hh x hk)
      · exact absurd hh (haway x k hka hkb hk).1
    · rcases hcases k with rfl | rfl | ⟨hka, hkb⟩
      · exact absurd rfl (hdisj x hk x hh)
      · rfl
      · exact absurd hh (haway x k hka hkb hk).2
    · rcases hcases k with rfl | rfl | ⟨hka, hkb⟩
      · exact absurd hk (haway x h hha hhb hh).1
      · exact absurd hk (haway x h hha hhb hh).2
      · rw [hother h hha hhb] at hh
        rw [hother k hka hkb] at hk
        exact H.unique x h k hh hk
  · intro x
    rw [hlive, H.live x]
    constructor
    · rintro ⟨k, hk⟩
      rcases hcases k with rfl | rfl | ⟨hka, hkb⟩
      · exact ((hmem x).mpr (Or.inl hk)).elim (fun h => ⟨_, h⟩) fun h => ⟨_, h⟩
      · exact ((hmem x).mpr (Or.inr hk)).elim (fun h => ⟨_, h⟩) fun h => ⟨_, h⟩
      · exact ⟨k, (hother k hka hkb).symm ▸ hk⟩
    · rintro ⟨k, hk⟩
      rcases hcases k with rfl | rfl | ⟨hka, hkb⟩
      · exact ((hmem x).mp (Or.inl hk)).elim (fun h => ⟨_, h⟩) fun h => ⟨_, h⟩
      · exact ((hmem x).mp (Or.inr hk)).elim (fun h => ⟨_, h⟩) fun h => ⟨_, h⟩
      · exact ⟨k, hother k hka hkb ▸ hk⟩
  · rw [hlive, hfreed]
    exact H.allocated
  · rw [hlive, hfreed]
    exact H.freed

theorem Owned.notMem_of_ne (H : Owned m fresh lists) (hhk : h ≠ k) (hx : x ∈ lists h) :
    x ∉ lists k :=
  fun hk => hhk (H.unique x h k hx hk)

theorem Owned.live_fresh (H : Owned m fresh lists) : m.live fresh = false := by
  cases hlive : m.live fresh with
  | false => rfl
  | true => exact absurd ((H.allocated fresh).mpr (Or.inl hlive)) (lt_irrefl fresh)

/-- A new entry is the thread's that has allocated it. -/
theorem Owned.alloc (H : Owned m fresh lists) (hown : lists (.pruned thread) = []) :
    Owned (m.alloc fresh) (fresh + 1) (Function.update lists (.pruned thread) [fresh]) := by
  have hfresh : ∀ h, fresh ∉ lists h := fun h hmem => lt_irrefl _ (H.lt_fresh hmem)
  have hmem : ∀ x h, x ∈ Function.update lists (.pruned thread) [fresh] h ↔
      x ∈ lists h ∨ x = fresh ∧ h = .pruned thread := by
    intro x h
    by_cases hh : h = .pruned thread
    · subst hh
      simp [hown]
    · simp [hh]
  have hlive : ∀ x, (m.alloc fresh).live x = true ↔ m.live x = true ∨ x = fresh := by
    intro x
    by_cases hx : x = fresh
    · simp [Queues.alloc, hx]
    · simp [Queues.alloc, hx]
  have hfreed : ∀ x ∈ m.freed, x ≠ fresh := by
    rintro x hx rfl
    exact lt_irrefl _ ((H.allocated x).mpr (Or.inr hx))
  refine ⟨?_, ?_, ?_, ?_, ?_, ?_, H.freed_nodup⟩
  · intro i
    rw [Function.update_of_ne (by simp)]
    exact (H.queue i).alloc H.live_fresh
  · intro h
    by_cases hh : h = .pruned thread
    · subst hh
      simp
    · rw [Function.update_of_ne hh]
      exact H.nodup h
  · intro x h k hh hk
    rcases (hmem x h).mp hh with hh' | ⟨hx, hh'⟩
    · rcases (hmem x k).mp hk with hk' | ⟨hx, -⟩
      · exact H.unique x h k hh' hk'
      · exact absurd (hx ▸ hh') (hfresh h)
    · rcases (hmem x k).mp hk with hk' | ⟨-, hk'⟩
      · exact absurd (hx ▸ hk') (hfresh k)
      · exact hh'.trans hk'.symm
  · intro x
    rw [hlive, H.live]
    simp only [hmem, exists_or, exists_and_left, exists_eq, and_true]
  · intro x
    rw [hlive, Nat.lt_succ_iff_lt_or_eq, H.allocated x]
    exact or_right_comm
  · intro x hx
    have hne := hfreed x hx
    simpa [Queues.alloc, hne] using H.freed x hx

/-- An entry is freed by the thread that has it. -/
theorem Owned.free (H : Owned m fresh lists) (htp : tp ∈ lists (.pruned thread)) :
    ∃ m', m.free tp = .ok m' ∧ m'.next = m.next ∧
      Owned m' fresh
        (Function.update lists (.pruned thread) ((lists (.pruned thread)).erase tp)) := by
  generalize ha : Head.pruned thread = a at htp ⊢
  have hlive : m.live tp = true := (H.live tp).mpr ⟨a, htp⟩
  have hmem : ∀ x h, x ∈ Function.update lists a ((lists a).erase tp) h ↔ x ∈ lists h ∧ x ≠ tp := by
    intro x h
    by_cases hh : h = a
    · subst hh
      rw [Function.update_self, (H.nodup h).mem_erase_iff]
      exact and_comm
    · rw [Function.update_of_ne hh]
      refine ⟨fun hx => ⟨hx, ?_⟩, And.left⟩
      rintro rfl
      exact hh (H.unique x h a hx htp)
  refine ⟨_, free_spec hlive, rfl, ?_, ?_, ?_, ?_, ?_, ?_, ?_⟩
  · intro i
    have hi : Head.troublelist i ≠ a := by simp [← ha]
    rw [Function.update_of_ne hi]
    exact (H.queue i).free (H.notMem_of_ne hi.symm htp) _
  · intro h
    by_cases hh : h = a
    · subst hh
      rw [Function.update_self]
      exact (H.nodup h).erase tp
    · rw [Function.update_of_ne hh]
      exact H.nodup h
  · intro x h k hh hk
    exact H.unique x h k ((hmem x h).mp hh).1 ((hmem x k).mp hk).1
  · intro x
    simp only [hmem, exists_and_right, ← H.live x]
    by_cases hx : x = tp
    · simp [hx]
    · simp [hx]
  · intro x
    rw [H.allocated x]
    by_cases hx : x = tp
    · simp [hx, hlive]
    · simp [hx]
  · intro x hx
    by_cases hxtp : x = tp
    · simp [hxtp]
    · have hx : x ∈ m.freed := by simpa [hxtp] using hx
      simpa [hxtp] using H.freed x hx
  · refine List.nodup_append.mpr ⟨H.freed_nodup, by simp, ?_⟩
    intro x hx y hy heq
    obtain rfl : y = tp := by simpa using hy
    subst heq
    exact absurd hlive (by simp [H.freed x hx])

theorem walk_chained (hchain : Chained m tr xs) (hlive : ∀ x ∈ xs, m.live x = true)
    (hn : xs.length ≤ n) : m.walk () n tr = .ok xs := by
  induction xs generalizing tr n with
  | nil =>
      obtain rfl : tr = none := hchain
      cases n <;> rfl
  | cons x xs ih =>
      obtain ⟨n, rfl⟩ : ∃ k, n = k + 1 := ⟨n - 1, by simp at hn; omega⟩
      obtain ⟨rfl, htail⟩ := hchain
      have hrest := ih htail (fun y hy => hlive y (List.mem_cons_of_mem x hy)) (by simpa using hn)
      rw [Queues.walk, touchElem_ok (hlive x List.mem_cons_self)]
      simp only [hrest, bind, Except.bind]
      rfl

/-! The end of an object. -/

theorem finiLoop_spec (H : Owned m fresh lists) (hown : lists (.pruned thread) = [])
    (hn : (lists (.troublelist i)).length ≤ n) :
    ∃ m', finiLoop i n (lists (.troublelist i)).head? m = .ok m' ∧
      Owned m' fresh (Function.update lists (.troublelist i) []) := by
  generalize hxs : lists (.troublelist i) = xs at hn ⊢
  induction xs generalizing m lists n with
  | nil =>
      refine ⟨m, by cases n <;> rfl, ?_⟩
      rwa [← hxs, Function.update_eq_self]
  | cons x xs ih =>
      obtain ⟨n, rfl⟩ : ∃ k, n = k + 1 := ⟨n - 1, by simp at hn; omega⟩
      have hq : IsQueue m () (.troublelist i) (x :: xs) := hxs ▸ H.queue i
      obtain ⟨m₁, hremove, hq₁, hm₁, -, -⟩ := remove_head_spec hq (alive_eq _)
      -- the entry is in the hands of the caller until it is freed
      let lists₁ := Function.update (Function.update lists (.troublelist i) xs) (.pruned thread) [x]
      have htroublelist : lists₁ (.troublelist i) = xs := by simp [lists₁]
      have hpruned : lists₁ (.pruned thread) = [x] := by simp [lists₁]
      have hother : ∀ k, k ≠ .troublelist i → k ≠ .pruned thread → lists₁ k = lists k :=
        fun k hk hk' => by simp [lists₁, hk, hk']
      have H₁ : Owned m₁ fresh lists₁ := by
        refine H.move (a := .troublelist i) (b := .pruned thread) (by simp) hother ?_ hm₁.live
          hm₁.freed ?_
        · rw [htroublelist, hpruned, hxs, hown, List.append_nil]
          exact List.perm_append_singleton x xs
        · intro j
          by_cases hj : j = i
          · subst hj
            rw [htroublelist]
            exact hq₁
          · have hne : Head.troublelist j ≠ .troublelist i := by simpa using hj
            rw [hother _ hne (by simp)]
            exact (H.queue j).frame hm₁ hne
              (Or.inr fun y hy => hxs ▸ H.notMem_of_ne hne hy)
      have hx : x ∈ lists₁ (.pruned thread) := by simp [hpruned]
      obtain ⟨m₂, hfree, -, H₂⟩ := H₁.free hx
      let lists₂ := Function.update lists₁ (.pruned thread) []
      have hlists₂ : Function.update lists₁ (.pruned thread)
          ((lists₁ (.pruned thread)).erase x) = lists₂ := by
        rw [hpruned, List.erase_cons_head]
      rw [hlists₂] at H₂
      obtain ⟨m', hloop, H'⟩ := ih H₂ (by simp [lists₂]) (by simp [lists₂, htroublelist])
        (by simpa using hn)
      have hlists : Function.update lists₂ (.troublelist i) [] =
          Function.update lists (.troublelist i) [] := by
        funext k
        by_cases hk : k = .troublelist i
        · simp [hk]
        · by_cases hk' : k = .pruned thread
          · simp [hk', lists₂, hown]
          · simp [hk, hk', lists₂, lists₁]
      refine ⟨m', ?_, hlists ▸ H'⟩
      rw [List.head?_cons, finiLoop, touchElem_ok (hq.live (by simp)), hq.next_eq]
      simp only [hremove, hfree, bind, Except.bind]
      exact hloop

end VarnishModules.SaintmodeLedger
