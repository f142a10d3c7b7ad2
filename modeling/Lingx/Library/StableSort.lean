import Mathlib.Data.List.Induction
import Mathlib.Data.List.Perm.Basic
import Mathlib.Order.Lattice
import Mathlib.Tactic.Common

/-! Stable sorting by insertion, in decreasing order of a key. Each element goes
behind the elements whose keys are not smaller, so elements of one key keep the
order of their insertions. -/

namespace Lingx.Library.StableSort

variable {α β : Type*} [LinearOrder β] (key : α → β)

/-- Insert an element before the first one with a smaller key. -/
def insert (x : α) : List α → List α
  | [] => [x]
  | y :: l => if key y < key x then x :: y :: l else y :: insert x l

/-- The insertions of a list, in its order. -/
def sort (xs : List α) : List α := xs.foldl (fun l x => insert key x l) []

theorem insert_perm (x : α) (l : List α) : (insert key x l).Perm (x :: l) := by
  induction l with
  | nil => exact List.Perm.refl _
  | cons y l ih =>
    simp only [insert]
    split_ifs
    · exact List.Perm.refl _
    · exact (ih.cons y).trans (List.Perm.swap x y l)

theorem insert_pairwise (x : α) {l : List α} (hl : l.Pairwise fun a b => key b ≤ key a) :
    (insert key x l).Pairwise fun a b => key b ≤ key a := by
  induction l with
  | nil => exact List.pairwise_singleton _ _
  | cons y l ih =>
    obtain ⟨hy, hl'⟩ := List.pairwise_cons.mp hl
    simp only [insert]
    split_ifs with h
    · refine List.pairwise_cons.mpr ⟨fun z hz => ?_, hl⟩
      rcases List.mem_cons.mp hz with rfl | hz
      · exact h.le
      · exact (hy z hz).trans h.le
    · refine List.pairwise_cons.mpr ⟨fun z hz => ?_, ih hl'⟩
      rcases List.mem_cons.mp ((insert_perm key x l).mem_iff.mp hz) with rfl | hz
      · exact not_lt.mp h
      · exact hy z hz

/-- The elements of one key are kept in order, the new one last. -/
theorem filter_insert (x : α) {l : List α} (hl : l.Pairwise fun a b => key b ≤ key a) (k : β) :
    (insert key x l).filter (key · = k) =
      l.filter (key · = k) ++ if key x = k then [x] else [] := by
  induction l with
  | nil => by_cases hx : key x = k <;> simp [insert, hx]
  | cons y l ih =>
    obtain ⟨hy, hl'⟩ := List.pairwise_cons.mp hl
    simp only [insert]
    split_ifs with h hx hx
    · have hnone : (y :: l).filter (key · = k) = [] := by
        refine List.filter_eq_nil_iff.mpr fun z hz hzk => ?_
        have hzy : key z ≤ key y := by
          rcases List.mem_cons.mp hz with rfl | hz
          · exact le_rfl
          · exact hy z hz
        have hzx : key z = key x := by simpa [hx] using hzk
        exact absurd (hzy.trans_lt h) (by rw [hzx]; exact lt_irrefl _)
      rw [hnone, List.filter_cons_of_pos (by simpa using hx), hnone]
      rfl
    · rw [List.filter_cons_of_neg (by simpa using hx), List.append_nil]
    · rw [List.filter_cons, ih hl', List.filter_cons]
      by_cases hk : key y = k <;> simp [hk, hx]
    · rw [List.filter_cons, ih hl', List.filter_cons]
      simp [hx]

theorem sort_concat (xs : List α) (x : α) : sort key (xs ++ [x]) = insert key x (sort key xs) := by
  simp [sort]

theorem sort_perm (xs : List α) : (sort key xs).Perm xs := by
  induction xs using List.reverseRecOn with
  | nil => exact List.Perm.refl _
  | append_singleton xs x ih =>
    rw [sort_concat]
    exact (insert_perm key x _).trans ((ih.cons x).trans (List.perm_append_singleton x xs).symm)

theorem sort_pairwise (xs : List α) : (sort key xs).Pairwise fun a b => key b ≤ key a := by
  induction xs using List.reverseRecOn with
  | nil => exact List.Pairwise.nil
  | append_singleton xs x ih =>
    rw [sort_concat]
    exact insert_pairwise key x ih

theorem filter_sort (xs : List α) (k : β) :
    (sort key xs).filter (key · = k) = xs.filter (key · = k) := by
  induction xs using List.reverseRecOn with
  | nil => rfl
  | append_singleton xs x ih =>
    rw [sort_concat, filter_insert key x (sort_pairwise key xs), ih, List.filter_append]
    by_cases hx : key x = k <;> simp [hx]

end Lingx.Library.StableSort
