import Mathlib

/-!
An ordered set of nodes, each carrying its own key: what a balanced tree with
find, insert, remove and in-order traversal keeps, without its balancing.
-/

namespace VarnishModules.OrderedTree

variable {α κ : Type*} [LinearOrder κ]

/-- The node with key `k`. -/
def find (key : α → κ) (k : κ) (t : List α) : Option α :=
  t.find? fun x => decide (key x = k)

/-- Insert the node `x`, unless a node with its key is there: that one is
returned and the tree stays as it is. -/
def insert (key : α → κ) (x : α) (t : List α) : Option α × List α :=
  match find key (key x) t with
  | some y => (some y, t)
  | none => (none, t.orderedInsert (fun a b => key a ≤ key b) x)

/-- Nodes stand in strictly increasing order of their keys. -/
def IsTree (key : α → κ) (t : List α) : Prop :=
  t.Pairwise fun a b => key a < key b

variable {key : α → κ} {t : List α}

theorem isTree_nil : IsTree key [] := List.Pairwise.nil

theorem IsTree.nodup (ht : IsTree key t) : t.Nodup :=
  ht.imp fun hlt heq => absurd hlt (by simp [heq])

theorem IsTree.key_injOn (ht : IsTree key t) {x y : α} (hx : x ∈ t) (hy : y ∈ t)
    (hkey : key x = key y) : x = y := by
  have hnodup : (t.map key).Nodup := List.pairwise_map.mpr (ht.imp ne_of_lt)
  exact List.inj_on_of_nodup_map hnodup hx hy hkey

theorem find_eq_some_iff (ht : IsTree key t) {k : κ} {x : α} :
    find key k t = some x ↔ x ∈ t ∧ key x = k := by
  constructor
  · intro h
    exact ⟨List.mem_of_find?_eq_some h, by simpa using List.find?_some h⟩
  · rintro ⟨hx, rfl⟩
    cases hfind : find key (key x) t with
    | none => exact absurd (List.find?_eq_none.mp hfind x hx) (by simp)
    | some y =>
        have hy := List.mem_of_find?_eq_some hfind
        have hkey : key y = key x := by simpa using List.find?_some hfind
        rw [ht.key_injOn hy hx hkey]

theorem find_eq_none_iff {k : κ} : find key k t = none ↔ ∀ x ∈ t, key x ≠ k := by
  simp [find]

theorem IsTree.congr {key' : α → κ} (hkey : ∀ x ∈ t, key' x = key x)
    (ht : IsTree key t) : IsTree key' t :=
  List.Pairwise.imp_of_mem (fun {a b} ha hb hlt => by rwa [hkey a ha, hkey b hb]) ht

theorem insert_of_mem (ht : IsTree key t) {x y : α} (hy : y ∈ t) (hkey : key y = key x) :
    insert key x t = (some y, t) := by
  simp [insert, (find_eq_some_iff ht).mpr ⟨hy, hkey⟩]

theorem insert_of_absent {x : α} (hx : ∀ y ∈ t, key y ≠ key x) :
    insert key x t = (none, t.orderedInsert (fun a b => key a ≤ key b) x) := by
  simp [insert, find_eq_none_iff.mpr hx]

theorem insert_cases (key : α → κ) (x : α) (t : List α) :
    (∃ y, insert key x t = (some y, t)) ∨
      insert key x t = (none, t.orderedInsert (fun a b => key a ≤ key b) x) := by
  unfold insert
  cases find key (key x) t with
  | none => exact Or.inr rfl
  | some y => exact Or.inl ⟨y, rfl⟩

theorem mem_orderedInsert {x y : α} :
    y ∈ t.orderedInsert (fun a b => key a ≤ key b) x ↔ y = x ∨ y ∈ t :=
  List.mem_orderedInsert _

theorem IsTree.orderedInsert (ht : IsTree key t) {x : α} (hx : ∀ y ∈ t, key y ≠ key x) :
    IsTree key (t.orderedInsert (fun a b => key a ≤ key b) x) := by
  induction t with
  | nil => exact List.pairwise_singleton _ _
  | cons z t ih =>
      obtain ⟨hz, ht'⟩ := List.pairwise_cons.mp ht
      have hzx : key z ≠ key x := hx z (by simp)
      rw [List.orderedInsert_cons]
      split
      · rename_i hle
        have hlt : key x < key z := lt_of_le_of_ne hle hzx.symm
        refine List.pairwise_cons.mpr ⟨?_, ht⟩
        intro y hy
        rcases List.mem_cons.mp hy with rfl | hy
        · exact hlt
        · exact hlt.trans (hz y hy)
      · rename_i hle
        refine List.pairwise_cons.mpr ⟨?_, ih ht' (fun y hy => hx y (by simp [hy]))⟩
        intro y hy
        rcases mem_orderedInsert.mp hy with rfl | hy
        · exact not_le.mp hle
        · exact hz y hy

theorem orderedInsert_append {x : α} {xs ys : List α} (hxs : ∀ y ∈ xs, key y < key x)
    (hys : ∀ y ∈ ys, key x < key y) :
    (xs ++ ys).orderedInsert (fun a b => key a ≤ key b) x = xs ++ x :: ys := by
  induction xs with
  | nil =>
      cases ys with
      | nil => rfl
      | cons y ys =>
          have hle : key x ≤ key y := (hys y (by simp)).le
          simp [hle]
  | cons z xs ih =>
      have hlt : ¬key x ≤ key z := not_le.mpr (hxs z (by simp))
      simp [hlt, ih fun y hy => hxs y (by simp [hy])]

/-- A tree of nodes is a tree of what they stand for. -/
theorem map_orderedInsert {β : Type*} (f : β → α) (xs : List β) (x : β) :
    (xs.orderedInsert (fun a b => key (f a) ≤ key (f b)) x).map f =
      (xs.map f).orderedInsert (fun a b => key a ≤ key b) (f x) :=
  List.map_orderedInsert _ _ f xs x (fun _ _ => Iff.rfl) fun _ _ => Iff.rfl

theorem IsTree.erase [DecidableEq α] (ht : IsTree key t) (x : α) :
    IsTree key (t.erase x) :=
  ht.sublist List.erase_sublist

theorem IsTree.mem_erase [DecidableEq α] (ht : IsTree key t) {x y : α} :
    y ∈ t.erase x ↔ y ≠ x ∧ y ∈ t :=
  ht.nodup.mem_erase_iff

theorem IsTree.filter (ht : IsTree key t) (q : α → Bool) : IsTree key (t.filter q) :=
  ht.sublist List.filter_sublist

theorem IsTree.map (ht : IsTree key t) {f : α → α} (hf : ∀ x, key (f x) = key x) :
    IsTree key (t.map f) := by
  refine List.pairwise_map.mpr (ht.imp fun {a b} hlt => ?_)
  rwa [hf, hf]

theorem find_map {f : α → α} (hf : ∀ x, key (f x) = key x) (k : κ) :
    find key k (t.map f) = (find key k t).map f := by
  simp only [find, List.find?_map, Function.comp_def, hf]

theorem find_orderedInsert (ht : IsTree key t) {x : α} (hx : ∀ y ∈ t, key y ≠ key x) (k : κ) :
    find key k (t.orderedInsert (fun a b => key a ≤ key b) x) =
      if k = key x then some x else find key k t := by
  have ht' := ht.orderedInsert hx
  by_cases hk : k = key x
  · rw [if_pos hk]
    exact (find_eq_some_iff ht').mpr ⟨mem_orderedInsert.mpr (Or.inl rfl), hk.symm⟩
  · rw [if_neg hk]
    cases hfind : find key k t with
    | none =>
        have habsent := find_eq_none_iff.mp hfind
        refine find_eq_none_iff.mpr fun y hy => ?_
        rcases mem_orderedInsert.mp hy with rfl | hy
        · exact fun heq => hk heq.symm
        · exact habsent y hy
    | some y =>
        obtain ⟨hy, hkey⟩ := (find_eq_some_iff ht).mp hfind
        exact (find_eq_some_iff ht').mpr ⟨mem_orderedInsert.mpr (Or.inr hy), hkey⟩

theorem find_filter (ht : IsTree key t) (q : α → Bool) (k : κ) :
    find key k (t.filter q) = (find key k t).filter q := by
  cases hfind : find key k t with
  | none =>
      have habsent := find_eq_none_iff.mp hfind
      exact find_eq_none_iff.mpr fun y hy => habsent y (List.mem_filter.mp hy).1
  | some x =>
      obtain ⟨hx, hkey⟩ := (find_eq_some_iff ht).mp hfind
      by_cases hq : q x = true
      · rw [Option.filter_some_pos hq]
        exact (find_eq_some_iff (ht.filter q)).mpr ⟨List.mem_filter.mpr ⟨hx, hq⟩, hkey⟩
      · rw [Option.filter_some_neg (by simpa using hq)]
        refine find_eq_none_iff.mpr fun y hy heq => ?_
        obtain ⟨hy, hqy⟩ := List.mem_filter.mp hy
        obtain rfl : y = x := ht.key_injOn hy hx (heq.trans hkey.symm)
        exact hq hqy

/-- No element stands between `x` and the later `y`. -/
def Neighbours (key : α → κ) (t : List α) (x y : α) : Prop :=
  key x < key y ∧ ∀ z ∈ t, key z ≤ key x ∨ key y ≤ key z

theorem IsTree.head?_eq_some_iff {xs ys : List α} {x y : α}
    (ht : IsTree key (xs ++ x :: ys)) (hy : y ∈ xs ++ x :: ys) :
    ys.head? = some y ↔ Neighbours key (xs ++ x :: ys) x y := by
  obtain ⟨-, hxys, hbefore⟩ := List.pairwise_append.mp ht
  obtain ⟨hafter, hys⟩ := List.pairwise_cons.mp hxys
  constructor
  · intro hhead
    obtain ⟨zs, rfl⟩ := List.head?_eq_some_iff.mp hhead
    refine ⟨hafter y List.mem_cons_self, fun z hz => ?_⟩
    rcases List.mem_append.mp hz with hz | hz
    · exact Or.inl (hbefore z hz x List.mem_cons_self).le
    · rcases List.mem_cons.mp hz with rfl | hz
      · exact Or.inl le_rfl
      · rcases List.mem_cons.mp hz with rfl | hz
        · exact Or.inr le_rfl
        · exact Or.inr ((List.pairwise_cons.mp hys).1 z hz).le
  · rintro ⟨hlt, hnone⟩
    have hy : y ∈ ys := by
      rcases List.mem_append.mp hy with hy | hy
      · exact absurd (hbefore y hy x List.mem_cons_self) hlt.not_gt
      · rcases List.mem_cons.mp hy with rfl | hy
        · exact absurd hlt (lt_irrefl _)
        · exact hy
    cases ys with
    | nil => exact absurd hy List.not_mem_nil
    | cons z zs =>
        rcases List.mem_cons.mp hy with rfl | hy
        · rfl
        · have hxz : key x < key z := hafter z List.mem_cons_self
          have hzy : key z < key y := (List.pairwise_cons.mp hys).1 y hy
          rcases hnone z (by simp) with hle | hle
          · exact absurd hxz hle.not_gt
          · exact absurd hzy hle.not_gt

theorem IsTree.getLast?_eq_some_iff {xs ys : List α} {x y : α}
    (ht : IsTree key (xs ++ x :: ys)) (hy : y ∈ xs ++ x :: ys) :
    xs.getLast? = some y ↔ Neighbours key (xs ++ x :: ys) y x := by
  obtain ⟨hxs, hxys, hbefore⟩ := List.pairwise_append.mp ht
  obtain ⟨hafter, -⟩ := List.pairwise_cons.mp hxys
  constructor
  · intro hlast
    obtain ⟨zs, rfl⟩ := List.getLast?_eq_some_iff.mp hlast
    refine ⟨hbefore y (by simp) x List.mem_cons_self, fun z hz => ?_⟩
    rcases List.mem_append.mp hz with hz | hz
    · rcases List.mem_append.mp hz with hz | hz
      · exact Or.inl ((List.pairwise_append.mp hxs).2.2 z hz y List.mem_cons_self).le
      · rw [List.mem_singleton.mp hz]
        exact Or.inl le_rfl
    · rcases List.mem_cons.mp hz with rfl | hz
      · exact Or.inr le_rfl
      · exact Or.inr (hafter z hz).le
  · rintro ⟨hlt, hnone⟩
    have hy : y ∈ xs := by
      rcases List.mem_append.mp hy with hy | hy
      · exact hy
      · rcases List.mem_cons.mp hy with rfl | hy
        · exact absurd hlt (lt_irrefl _)
        · exact absurd (hafter y hy) hlt.not_gt
    cases hlast : xs.getLast? with
    | none =>
        rw [List.getLast?_eq_none_iff.mp hlast] at hy
        exact absurd hy List.not_mem_nil
    | some z =>
        obtain ⟨zs, rfl⟩ := List.getLast?_eq_some_iff.mp hlast
        rcases List.mem_append.mp hy with hy | hy
        · have hyz : key y < key z := (List.pairwise_append.mp hxs).2.2 y hy z List.mem_cons_self
          have hzx : key z < key x := hbefore z (by simp) x List.mem_cons_self
          rcases hnone z (by simp) with hle | hle
          · exact absurd hyz hle.not_gt
          · exact absurd hzx hle.not_gt
        · rw [List.mem_singleton.mp hy]

end VarnishModules.OrderedTree
