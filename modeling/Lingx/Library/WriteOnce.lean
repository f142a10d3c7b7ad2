import Mathlib.Tactic.Common

/-! Variables that are written once. The marker of an unset variable is a value that no
write has, so a write can be refused where the marker is gone; the log of the writes then
has one entry at most, and says what the variable holds. -/

namespace Lingx.Library.WriteOnce

variable {α β : Type*}

/-- A variable after a log of writes: `unset` without one, and else what the only one has
written. -/
inductive Once (value : α → Option β) (unset : β) : List α → β → Prop
  | unset : Once value unset [] unset
  | set {a : α} {v : β} : value a = some v → Once value unset [a] v

variable {value : α → Option β} {unset w v : β} {log : List α} {a : α}

theorem Once.length_le (h : Once value unset log w) : log.length ≤ 1 := by
  cases h with
  | unset => exact Nat.zero_le 1
  | set _ => exact Nat.le_refl 1

/-- A variable with the marker has not been written. -/
theorem Once.nil_of_unset (h : Once value unset log unset) (hmark : ∀ a, value a ≠ some unset) :
    log = [] := by
  cases h with
  | unset => rfl
  | set hv => exact absurd hv (hmark _)

/-- A write that is made only where the marker is. -/
theorem Once.write (h : Once value unset log w) (hmark : ∀ a, value a ≠ some unset)
    (hw : w = unset) (hv : value a = some v) : Once value unset (log ++ [a]) v := by
  subst hw
  rw [h.nil_of_unset hmark]
  exact .set hv

variable [DecidableEq β]

/-- A default in place of the marker. -/
theorem Once.default (h : Once value unset log w) (hmark : ∀ a, value a ≠ some unset) (d : β) :
    Once value d log (if w = unset then d else w) := by
  cases h with
  | unset =>
    rw [if_pos rfl]
    exact .unset
  | set hv =>
    have hne : w ≠ unset := fun he => hmark _ (he ▸ hv)
    rw [if_neg hne]
    exact .set hv

end Lingx.Library.WriteOnce
