import Mathlib.Data.List.Basic

/-! Texts in a memory. -/

namespace Lingx.Library

variable {α : Type*} {mem : ℕ → α} {i : ℕ} {c : α} {cs ds : List α}

/-- The cells from a place on hold a text. -/
def Span (mem : ℕ → α) : ℕ → List α → Prop
  | _, [] => True
  | i, c :: cs => mem i = c ∧ Span mem (i + 1) cs

@[simp] theorem span_nil : Span mem i [] := trivial

@[simp] theorem span_cons : Span mem i (c :: cs) ↔ mem i = c ∧ Span mem (i + 1) cs := Iff.rfl

theorem span_append : Span mem i (cs ++ ds) ↔ Span mem i cs ∧ Span mem (i + cs.length) ds := by
  induction cs generalizing i with
  | nil => simp
  | cons c cs ih =>
    rw [List.cons_append, span_cons, span_cons, ih, and_assoc, List.length_cons,
      Nat.add_right_comm, Nat.add_assoc]

/-- What is left of a list is a text in it. -/
theorem span_of_drop {l : List α} {a : α} (h : l.drop i = cs) : Span (l.getD · a) i cs := by
  induction cs generalizing i with
  | nil => trivial
  | cons c cs ih =>
    have hi : l[i]? = some c := by
      rw [← List.head?_drop, h]
      rfl
    refine ⟨by simp [hi], ih ?_⟩
    rw [← List.tail_drop, h]
    rfl

end Lingx.Library
