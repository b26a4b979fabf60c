import VarnishModules.TailQueue

/-!
Blocks of memory that are allocated, read and freed.

A program owns a list of blocks. What it does to one of them leaves the others as they are,
and what it owns is all there is that has not been freed.
-/

namespace VarnishModules.Malloc

open VarnishModules.TailQueue (Fault)

/-- What the blocks hold that are allocated, and which ones have been freed so far. -/
structure Blocks (α : Type) where
  block : ℕ → Option α
  fresh : ℕ
  freed : List ℕ

namespace Blocks

variable {α : Type} (b : Blocks α)

def empty : Blocks α := ⟨fun _ => none, 0, []⟩

/-- A new block is at `b.fresh`. -/
def alloc (a : α) : Blocks α :=
  { b with block := Function.update b.block b.fresh (some a), fresh := b.fresh + 1 }

def read (p : ℕ) : Except Fault α :=
  match b.block p with
  | none => .error .useAfterFree
  | some a => .ok a

/-- Nothing is done for `NULL`. -/
def free : Option ℕ → Except Fault (Blocks α)
  | none => .ok b
  | some p =>
      match b.block p with
      | none => .error .useAfterFree
      | some _ =>
          .ok { b with block := Function.update b.block p none, freed := b.freed ++ [p] }

end Blocks

variable {α : Type} {b b' : Blocks α} {owned owned' ps : List ℕ} {p q : ℕ} {a : α} {as : List α}

/-- The blocks that are allocated are those of the list, and the others have been freed, each
of them once. -/
structure Owns (b : Blocks α) (owned : List ℕ) : Prop where
  nodup : owned.Nodup
  live : ∀ p, (b.block p).isSome ↔ p ∈ owned
  account : ∀ p, p < b.fresh ↔ p ∈ owned ∨ p ∈ b.freed
  freed : ∀ p ∈ b.freed, p ∉ owned
  freed_nodup : b.freed.Nodup

theorem owns_empty : Owns (Blocks.empty : Blocks α) [] := by
  refine ⟨List.nodup_nil, ?_, ?_, ?_, List.nodup_nil⟩
  · simp [Blocks.empty]
  · simp [Blocks.empty]
  · simp

theorem Owns.perm (h : Owns b owned) (hperm : owned.Perm owned') : Owns b owned' := by
  refine ⟨hperm.nodup_iff.mp h.nodup, ?_, ?_, ?_, h.freed_nodup⟩
  · exact fun p => (h.live p).trans hperm.mem_iff
  · exact fun p => (h.account p).trans (or_congr_left hperm.mem_iff)
  · exact fun p hp => mt hperm.mem_iff.mpr (h.freed p hp)

theorem Owns.lt_fresh (h : Owns b owned) (hp : p ∈ owned) : p < b.fresh :=
  (h.account p).mpr (Or.inl hp)

theorem Owns.alloc (h : Owns b owned) (a : α) : Owns (b.alloc a) (b.fresh :: owned) := by
  have hnew : b.fresh ∉ owned := fun hmem => lt_irrefl _ (h.lt_fresh hmem)
  refine ⟨List.nodup_cons.mpr ⟨hnew, h.nodup⟩, fun p => ?_, fun p => ?_, fun p hp => ?_,
    h.freed_nodup⟩
  · by_cases hp : p = b.fresh
    · simp [Blocks.alloc, hp]
    · simpa [Blocks.alloc, hp] using h.live p
  · have hlt : p < b.fresh + 1 ↔ p = b.fresh ∨ p < b.fresh := by omega
    rw [Blocks.alloc, hlt, h.account p, List.mem_cons, or_assoc]
  · have hlt : p < b.fresh := (h.account p).mpr (Or.inr hp)
    exact List.not_mem_cons_of_ne_of_not_mem hlt.ne (h.freed p hp)

theorem block_alloc_self (b : Blocks α) (a : α) : (b.alloc a).block b.fresh = some a :=
  Function.update_self _ _ _

theorem Owns.block_alloc (h : Owns b owned) (hp : p ∈ owned) (a : α) :
    (b.alloc a).block p = b.block p :=
  Function.update_of_ne (h.lt_fresh hp).ne _ _

/-- What is freed is not owned any more, and the other blocks are as they were. -/
theorem Owns.free (h : Owns b (p :: owned)) :
    ∃ b', b.free (some p) = .ok b' ∧ Owns b' owned ∧ b'.fresh = b.fresh ∧
      ∀ q ∈ owned, b'.block q = b.block q := by
  obtain ⟨hp, hnodup⟩ := List.nodup_cons.mp h.nodup
  obtain ⟨a, ha⟩ := Option.isSome_iff_exists.mp ((h.live p).mpr List.mem_cons_self)
  refine ⟨{ b with block := Function.update b.block p none, freed := b.freed ++ [p] }, ?_,
    ⟨hnodup, fun q => ?_, fun q => ?_, fun q hq => ?_, ?_⟩, rfl, fun q hq => ?_⟩
  · simp [Blocks.free, ha]
  · by_cases hq : q = p
    · simp [hq, hp]
    · simpa [hq] using h.live q
  · rw [h.account q, List.mem_cons, List.mem_append, List.mem_singleton]
    tauto
  · rcases List.mem_append.mp hq with hq | hq
    · exact fun hmem => h.freed q hq (List.mem_cons_of_mem p hmem)
    · rwa [List.mem_singleton.mp hq]
  · refine List.nodup_append.mpr ⟨h.freed_nodup, List.nodup_singleton p, fun q hq r hr heq => ?_⟩
    obtain rfl := List.mem_singleton.mp hr
    exact h.freed q hq (heq ▸ List.mem_cons_self)
  · have hne : q ≠ p := fun heq => hp (heq ▸ hq)
    exact Function.update_of_ne hne _ _

theorem Owns.free_option {p : Option ℕ} (h : Owns b (p.toList ++ owned)) :
    ∃ b', b.free p = .ok b' ∧ Owns b' owned ∧ b'.fresh = b.fresh ∧
      ∀ q ∈ owned, b'.block q = b.block q := by
  cases p with
  | none => exact ⟨b, rfl, h, rfl, fun _ _ => rfl⟩
  | some p => exact h.free

theorem read_eq (ha : b.block p = some a) : b.read p = .ok a := by
  rw [Blocks.read, ha]

/-- What the blocks of a list hold. -/
def Reads (b : Blocks α) (ps : List ℕ) (as : List α) : Prop :=
  List.Forall₂ (fun p a => b.block p = some a) ps as

theorem Reads.congr (h : Reads b ps as) (hblock : ∀ p ∈ ps, b'.block p = b.block p) :
    Reads b' ps as :=
  ((List.forall₂_and_left ps as).mpr ⟨hblock, h⟩).imp fun _ _ hp => hp.1.trans hp.2

theorem Reads.alloc (h : Reads b ps as) (hown : Owns b owned) (hps : ps ⊆ owned) (a : α) :
    Reads (b.alloc a) (ps ++ [b.fresh]) (as ++ [a]) :=
  List.rel_append (h.congr fun _ hp => hown.block_alloc (hps hp) a)
    (.cons (block_alloc_self b a) .nil)

end VarnishModules.Malloc
