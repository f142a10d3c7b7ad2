import Mathlib.Order.Nat
import Mathlib.Tactic.Common

/-! Loops with a test and a body, for a bounded number of turns. What the body keeps holds
in every turn and at the end. Where a measure goes down with each turn and the bound is not
below it, the test fails at the end; and it bounds the number of turns. -/

namespace Lingx.Library.While

variable {α : Type*} (test : α → Prop) [DecidablePred test] (body : α → α)

/-- The state behind at most `k` turns. -/
def run : ℕ → α → α
  | 0, a => a
  | k + 1, a => if test a then run k (body a) else a

/-- The states in which these turns begin. -/
def turns : ℕ → α → List α
  | 0, _ => []
  | k + 1, a => if test a then a :: turns k (body a) else []

variable {test body} {I : α → Prop} {a : α} {k : ℕ}

theorem run_succ (h : test a) : run test body (k + 1) a = run test body k (body a) := if_pos h

theorem run_of_not (h : ¬ test a) : run test body k a = a := by
  cases k with
  | zero => rfl
  | succ k => exact if_neg h

theorem turns_succ (h : test a) : turns test body (k + 1) a = a :: turns test body k (body a) :=
  if_pos h

theorem turns_of_not (h : ¬ test a) : turns test body k a = [] := by
  cases k with
  | zero => rfl
  | succ k => exact if_neg h

/-- An invariant holds at the end. -/
theorem run_invariant (hbody : ∀ a, I a → test a → I (body a)) (h : I a) (k : ℕ) :
    I (run test body k a) := by
  induction k generalizing a with
  | zero => exact h
  | succ k ih =>
    by_cases ha : test a
    · rw [run_succ ha]
      exact ih (hbody a h ha)
    · rwa [run_of_not ha]

/-- An invariant holds where a turn begins, with the test. -/
theorem turns_invariant (hbody : ∀ a, I a → test a → I (body a)) (h : I a) (k : ℕ) :
    ∀ b ∈ turns test body k a, I b ∧ test b := by
  induction k generalizing a with
  | zero => exact nofun
  | succ k ih =>
    by_cases ha : test a
    · rw [turns_succ ha, List.forall_mem_cons]
      exact ⟨⟨h, ha⟩, ih (hbody a h ha)⟩
    · rw [turns_of_not ha]
      exact nofun

/-- The loop ends within its measure. -/
theorem not_test_run (measure : α → ℕ) (hbody : ∀ a, I a → test a → I (body a))
    (hdown : ∀ a, I a → test a → measure (body a) < measure a) (h : I a) (hk : measure a ≤ k) :
    ¬ test (run test body k a) := by
  induction k generalizing a with
  | zero =>
    intro ha
    have hlt := hdown a h ha
    omega
  | succ k ih =>
    by_cases ha : test a
    · have hlt := hdown a h ha
      rw [run_succ ha]
      exact ih (hbody a h ha) (by omega)
    · rwa [run_of_not ha]

/-- What grows by one with each turn counts the turns. -/
theorem count_run {count : α → ℕ} (hcount : ∀ a, count (body a) = count a + 1) (k : ℕ) (a : α) :
    count (run test body k a) = count a + (turns test body k a).length := by
  induction k generalizing a with
  | zero => rfl
  | succ k ih =>
    by_cases ha : test a
    · rw [run_succ ha, turns_succ ha, ih, hcount, List.length_cons]
      omega
    · rw [run_of_not ha, turns_of_not ha]
      rfl

end Lingx.Library.While
