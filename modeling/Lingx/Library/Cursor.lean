import Mathlib.Data.Nat.Basic
import Mathlib.Tactic.Common

/-! A cursor on a ring of `n` slots, which moves to the next slot and starts again
behind the last one. -/

namespace Lingx.Library.Cursor

/-- The next slot. -/
def next (n i : ℕ) : ℕ := (i + 1) % n

/-- The moves from one slot until the cursor is at another; a full turn to be back. -/
def distance (n i j : ℕ) : ℕ := if i < j then j - i else j + n - i

variable {n i j : ℕ}

theorem next_lt (hi : i < n) : next n i < n := Nat.mod_lt _ (by omega)

theorem next_eq (hi : i < n) : next n i = if i + 1 = n then 0 else i + 1 := by
  rw [next]
  split_ifs with h
  · rw [h, Nat.mod_self]
  · exact Nat.mod_eq_of_lt (by omega)

@[simp] theorem distance_self : distance n i i = n := by
  rw [distance, if_neg (lt_irrefl i), Nat.add_sub_cancel_left]

theorem distance_pos (hi : i < n) : 0 < distance n i j := by
  rw [distance]
  split_ifs <;> omega

/-- The cursor is at the other slot if it was one move away. -/
theorem next_eq_iff (hi : i < n) (hj : j < n) : next n i = j ↔ distance n i j = 1 := by
  rw [next_eq hi, distance]
  split_ifs <;> omega

/-- Any other move brings it nearer. -/
theorem distance_next (hi : i < n) (hj : j < n) (h : next n i ≠ j) :
    distance n (next n i) j + 1 = distance n i j := by
  rw [next_eq hi] at h ⊢
  simp only [distance]
  split_ifs at h ⊢ <;> omega

end Lingx.Library.Cursor
