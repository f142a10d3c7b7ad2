import Mathlib.Data.List.Perm.Subperm
import Mathlib.Data.List.Range
import Mathlib.Tactic.Common

/-! Numbers handed out one after the other, each the first that is not taken. As long as
all numbers below the next one are taken there are no more of them than numbers taken. -/

namespace Lingx.Library.Numbering

/-- All numbers below `i` are taken. -/
def Below (used : List ℕ) (i : ℕ) : Prop := ∀ k < i, k ∈ used

variable {used used' : List ℕ} {i c : ℕ}

theorem below_zero : Below used 0 := fun _ hk => absurd hk (Nat.not_lt_zero _)

theorem Below.succ (h : Below used i) (hi : i ∈ used) : Below used (i + 1) := by
  intro k hk
  rcases Nat.lt_succ_iff_lt_or_eq.mp hk with hk | rfl
  · exact h k hk
  · exact hi

theorem Below.mono (h : Below used i) (hsub : ∀ k < i, k ∈ used → k ∈ used') : Below used' i :=
  fun k hk => hsub k hk (h k hk)

/-- With one more number taken there is room for the next. -/
theorem Below.lt_length (h : Below used i) (hc : c ∈ used) (hi : i ≤ c) : i < used.length := by
  have hnodup : (c :: List.range i).Nodup := by
    refine List.nodup_cons.mpr ⟨fun hmem => ?_, List.nodup_range⟩
    exact absurd (List.mem_range.mp hmem) (by omega)
  have hsub : c :: List.range i ⊆ used := by
    intro k hk
    rcases List.mem_cons.mp hk with rfl | hk
    · exact hc
    · exact h k (List.mem_range.mp hk)
  have hle := (hnodup.subperm hsub).length_le
  rw [List.length_cons, List.length_range] at hle
  exact hle

end Lingx.Library.Numbering
