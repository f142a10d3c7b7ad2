import Mathlib.Data.List.Nodup
import Mathlib.Order.Defs.Unbundled
import Mathlib.Tactic.Common

/-! Ordered sets with a comparison. A set is kept as the list of its elements in
order; two elements are equivalent when neither comes before the other, and an
element is inserted only if the set has none equivalent to it. -/

namespace Lingx.Library.OrderedSet

variable {α : Type*}

/-- Neither element comes before the other. -/
def Equivalent (lt : α → α → Prop) (a b : α) : Prop := ¬ lt a b ∧ ¬ lt b a

/-- Insert an element unless the set has an equivalent one. -/
def insert (lt : α → α → Prop) [DecidableRel lt] (x : α) : List α → List α
  | [] => [x]
  | y :: l => if lt x y then x :: y :: l else if lt y x then y :: insert lt x l else y :: l

/-- The elements are in strictly increasing order. -/
abbrev Ordered (lt : α → α → Prop) (l : List α) : Prop := l.Pairwise lt

variable {lt : α → α → Prop} [DecidableRel lt] {x : α} {l : List α}

theorem mem_of_mem_insert {y : α} (hy : y ∈ insert lt x l) : y = x ∨ y ∈ l := by
  induction l with
  | nil => simpa [insert] using hy
  | cons z l ih =>
    simp only [insert] at hy
    split_ifs at hy
    · simpa using hy
    · rcases List.mem_cons.mp hy with rfl | hy
      · simp
      · rcases ih hy with h | h <;> simp [h]
    · exact .inr hy

/-- No insertion removes an element. -/
theorem sublist_insert (lt : α → α → Prop) [DecidableRel lt] (x : α) (l : List α) :
    l.Sublist (insert lt x l) := by
  induction l with
  | nil => simp
  | cons z l ih =>
    simp only [insert]
    split_ifs
    · exact List.sublist_cons_self _ _
    · exact ih.cons_cons z
    · exact List.Sublist.refl _

/-- An insertion does not change the part of the set the element is no member of. -/
theorem filter_insert {p : α → Bool} (hx : p x = false) :
    (insert lt x l).filter p = l.filter p := by
  induction l with
  | nil => simp [insert, hx]
  | cons z l ih =>
    simp only [insert]
    split_ifs
    · rw [List.filter_cons_of_neg (by simp [hx])]
    · rw [List.filter_cons, ih, List.filter_cons]
    · rfl

variable [IsStrictOrder α lt]

theorem Ordered.insert (hl : Ordered lt l) : Ordered lt (insert lt x l) := by
  induction l with
  | nil => exact List.pairwise_singleton _ _
  | cons z l ih =>
    obtain ⟨hz, hl'⟩ := List.pairwise_cons.mp hl
    simp only [OrderedSet.insert]
    split_ifs with h₁ h₂
    · refine List.pairwise_cons.mpr ⟨fun y hy => ?_, hl⟩
      rcases List.mem_cons.mp hy with rfl | hy
      · exact h₁
      · exact trans_of lt h₁ (hz y hy)
    · refine List.pairwise_cons.mpr ⟨fun y hy => ?_, ih hl'⟩
      rcases mem_of_mem_insert hy with rfl | hy
      · exact h₂
      · exact hz y hy
    · exact hl

omit [DecidableRel lt] in
theorem Ordered.nodup (hl : Ordered lt l) : l.Nodup := by
  refine List.Pairwise.imp (fun {a b} h => ?_) hl
  rintro rfl
  exact irrefl_of lt a h

/-- An element is in the set after its insertion exactly when no other element is
equivalent to it. -/
theorem mem_insert_self_iff (hl : Ordered lt l) :
    x ∈ OrderedSet.insert lt x l ↔ ∀ y ∈ l, Equivalent lt x y → y = x := by
  induction l with
  | nil => simp [OrderedSet.insert]
  | cons z l ih =>
    obtain ⟨hz, hl'⟩ := List.pairwise_cons.mp hl
    simp only [OrderedSet.insert]
    split_ifs with h₁ h₂
    · refine iff_of_true (by simp) fun y hy he => ?_
      rcases List.mem_cons.mp hy with rfl | hy
      · exact absurd h₁ he.1
      · exact absurd (trans_of lt h₁ (hz y hy)) he.1
    · have hxz : x ≠ z := fun e => irrefl_of lt z (e ▸ h₂)
      rw [List.mem_cons, or_iff_right hxz, ih hl', List.forall_mem_cons]
      exact ⟨fun h => ⟨fun he => absurd h₂ he.2, h⟩, fun h => h.2⟩
    · have he : Equivalent lt x z := ⟨h₁, h₂⟩
      constructor
      · intro hm y hy hxy
        rcases List.mem_cons.mp hm with rfl | hm
        · rcases List.mem_cons.mp hy with rfl | hy
          · rfl
          · exact absurd (hz y hy) hxy.1
        · exact absurd (hz x hm) he.2
      · intro h
        rw [h z (by simp) he]
        simp

end Lingx.Library.OrderedSet
