import Mathlib.Data.List.DropRight
import Mathlib.Data.List.Perm.Basic
import Mathlib.Tactic.Common

/-! Stable insertion sort that looks for the place from the back. An element goes
behind the last one that is not above it. The order is a relation that is total and
transitive on some elements; it says nothing about others. -/

namespace Lingx.Library.BackInsertion

variable {α : Type*} {le : α → α → Prop} [DecidableRel le]

/-- The elements up to the last one that is not above `x`. -/
def below (le : α → α → Prop) [DecidableRel le] (x : α) (l : List α) : List α :=
  l.rdropWhile fun y => ¬ le y x

/-- The elements behind the last one that is not above `x`. -/
def above (le : α → α → Prop) [DecidableRel le] (x : α) (l : List α) : List α :=
  l.rtakeWhile fun y => ¬ le y x

/-- Insert an element behind the last one that is not above it. -/
def insert (le : α → α → Prop) [DecidableRel le] (x : α) (l : List α) : List α :=
  below le x l ++ x :: above le x l

/-- The insertions of a list, in its order, into another. -/
def insertAll (le : α → α → Prop) [DecidableRel le] (l xs : List α) : List α :=
  xs.foldl (fun l x => insert le x l) l

/-- The relation is a total preorder on the elements of a list. -/
structure TotalPreorderOn (le : α → α → Prop) (m : List α) : Prop where
  total : ∀ a ∈ m, ∀ b ∈ m, le a b ∨ le b a
  trans : ∀ a ∈ m, ∀ b ∈ m, ∀ c ∈ m, le a b → le b c → le a c

/-- A stable sort: the same elements in order, equivalent ones in their old order. -/
structure StableSorted (le : α → α → Prop) [DecidableRel le] (l l' : List α) : Prop where
  perm : l'.Perm l
  sorted : l'.Pairwise le
  stable : ∀ a ∈ l, l'.filter (fun b => le a b ∧ le b a) = l.filter fun b => le a b ∧ le b a

variable {m l xs : List α} {x y a : α}

@[simp] theorem insertAll_nil : insertAll le l [] = l := rfl

@[simp] theorem insertAll_cons : insertAll le l (x :: xs) = insertAll le (insert le x l) xs := rfl

@[simp] theorem below_nil : below le x [] = [] := List.rdropWhile_nil _

variable (le) in
theorem below_append_above (x : α) (l : List α) : below le x l ++ above le x l = l :=
  List.rdropWhile_append_rtakeWhile

theorem mem_of_mem_below (h : y ∈ below le x l) : y ∈ l :=
  below_append_above le x l ▸ List.mem_append_left _ h

theorem mem_of_mem_above (h : y ∈ above le x l) : y ∈ l :=
  below_append_above le x l ▸ List.mem_append_right _ h

theorem not_le_of_mem_above (h : y ∈ above le x l) : ¬ le y x := by
  simpa using List.mem_rtakeWhile_imp h

variable (le) in
theorem insert_perm (x : α) (l : List α) : (insert le x l).Perm (x :: l) := by
  refine List.perm_middle.trans (List.Perm.cons x ?_)
  rw [below_append_above]

theorem mem_insert : y ∈ insert le x l ↔ y = x ∨ y ∈ l := by
  rw [(insert_perm le x l).mem_iff, List.mem_cons]

/-- The elements in front of the place are not above the new one. -/
theorem le_of_mem_below (ho : TotalPreorderOn le m) (hx : x ∈ m) (hm : ∀ y ∈ l, y ∈ m)
    (hl : l.Pairwise le) (hy : y ∈ below le x l) : le y x := by
  have hne : below le x l ≠ [] := List.ne_nil_of_mem hy
  have hlast : le ((below le x l).getLast hne) x := by
    have hnot : ¬ (decide ¬ le ((below le x l).getLast hne) x) = true :=
      List.rdropWhile_last_not _ l hne
    simpa using hnot
  have hsorted : (below le x l).Pairwise le := by
    rw [← below_append_above le x l] at hl
    exact (List.pairwise_append.mp hl).1
  have hin : ∀ z ∈ below le x l, z ∈ m := fun z hz => hm z (mem_of_mem_below hz)
  have hget := List.getLast_mem hne
  rw [← List.dropLast_append_getLast hne] at hy hsorted
  rcases List.mem_append.mp hy with h | h
  · have hle := (List.pairwise_append.mp hsorted).2.2 y h _ (List.mem_singleton_self _)
    exact ho.trans y (hin y (List.dropLast_subset _ h)) _ (hin _ hget) x hx hle hlast
  · exact List.mem_singleton.mp h ▸ hlast

theorem insert_pairwise (ho : TotalPreorderOn le m) (hx : x ∈ m) (hm : ∀ y ∈ l, y ∈ m)
    (hl : l.Pairwise le) : (insert le x l).Pairwise le := by
  have hsplit : (below le x l ++ above le x l).Pairwise le := by rwa [below_append_above]
  obtain ⟨hb, ha, hba⟩ := List.pairwise_append.mp hsplit
  have htail : ∀ z ∈ above le x l, le x z := fun z hz =>
    (ho.total x hx z (hm z (mem_of_mem_above hz))).resolve_right (not_le_of_mem_above hz)
  refine List.pairwise_append.mpr ⟨hb, List.pairwise_cons.mpr ⟨htail, ha⟩, fun y hy z hz => ?_⟩
  rcases List.mem_cons.mp hz with rfl | hz
  · exact le_of_mem_below ho hx hm hl hy
  · exact hba y hy z hz

/-- The elements equivalent to a given one keep their order, the new one last. -/
theorem filter_insert (ho : TotalPreorderOn le m) (hx : x ∈ m) (hm : ∀ y ∈ l, y ∈ m)
    (ha : a ∈ m) : (insert le x l).filter (fun b => le a b ∧ le b a) =
      (l ++ [x]).filter fun b => le a b ∧ le b a := by
  conv_rhs => rw [← below_append_above le x l]
  by_cases hax : le a x ∧ le x a
  · -- no element behind the place is equivalent to the new one
    have hnone : (above le x l).filter (fun b => le a b ∧ le b a) = [] := by
      refine List.filter_eq_nil_iff.mpr fun z hz hza => not_le_of_mem_above hz ?_
      have hz' := hm z (mem_of_mem_above hz)
      exact ho.trans z hz' a ha x hx (of_decide_eq_true hza).2 hax.1
    rw [insert, List.filter_append, List.filter_cons, List.filter_append, List.filter_append, hnone]
    simp [hax]
  · rw [insert, List.filter_append, List.filter_cons, List.filter_append, List.filter_append]
    simp [hax]

theorem insertAll_perm (l xs : List α) : (insertAll le l xs).Perm (l ++ xs) := by
  induction xs generalizing l with
  | nil => simp
  | cons x xs ih =>
    refine (ih (insert le x l)).trans (((insert_perm le x l).append_right xs).trans ?_)
    exact List.perm_middle.symm

theorem insertAll_pairwise (ho : TotalPreorderOn le m) (hm : ∀ y ∈ l ++ xs, y ∈ m)
    (hl : l.Pairwise le) : (insertAll le l xs).Pairwise le := by
  induction xs generalizing l with
  | nil => exact hl
  | cons x xs ih =>
    have hx : x ∈ m := hm x (by simp)
    have hm' : ∀ y ∈ l, y ∈ m := fun y hy => hm y (by simp [hy])
    refine ih (fun y hy => ?_) (insert_pairwise ho hx hm' hl)
    rcases List.mem_append.mp hy with h | h
    · rcases mem_insert.mp h with rfl | h
      · exact hx
      · exact hm' y h
    · exact hm y (by simp [h])

theorem filter_insertAll (ho : TotalPreorderOn le m) (hm : ∀ y ∈ l ++ xs, y ∈ m) (ha : a ∈ m) :
    (insertAll le l xs).filter (fun b => le a b ∧ le b a) =
      (l ++ xs).filter fun b => le a b ∧ le b a := by
  induction xs generalizing l with
  | nil => simp
  | cons x xs ih =>
    have hx : x ∈ m := hm x (by simp)
    have hm' : ∀ y ∈ l, y ∈ m := fun y hy => hm y (by simp [hy])
    rw [insertAll_cons, ih, List.filter_append, filter_insert ho hx hm' ha, ← List.filter_append,
      List.append_assoc, List.singleton_append]
    intro y hy
    rcases List.mem_append.mp hy with h | h
    · rcases mem_insert.mp h with rfl | h
      · exact hx
      · exact hm' y h
    · exact hm y (by simp [h])

/-- Inserting the elements of a list one by one sorts it stably. -/
theorem insertAll_stable (ho : TotalPreorderOn le (x :: xs)) :
    StableSorted le (x :: xs) (insertAll le [x] xs) where
  perm := insertAll_perm [x] xs
  sorted := insertAll_pairwise ho (fun _ h => h) (List.pairwise_singleton _ _)
  stable _ ha := filter_insertAll ho (fun _ h => h) ha

end Lingx.Library.BackInsertion
