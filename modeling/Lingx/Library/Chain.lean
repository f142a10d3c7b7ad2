import Mathlib.Data.List.Nodup
import Mathlib.Logic.Function.Basic
import Mathlib.Logic.Relation
import Mathlib.Tactic.Common

/-! Null-terminated chains of pointers. A chain from a pointer is the list of the
cells met by following `next` until it is null. -/

namespace Lingx.Library

variable {P : Type*} {next next' : P → Option P} {p : Option P} {a x : P} {l m : List P}

/-- The cells from a pointer on are those of a list. -/
def Chain (next : P → Option P) : Option P → List P → Prop
  | p, [] => p = none
  | p, a :: l => p = some a ∧ Chain next (next a) l

@[simp] theorem chain_nil : Chain next p [] ↔ p = none := Iff.rfl

@[simp] theorem chain_cons : Chain next p (a :: l) ↔ p = some a ∧ Chain next (next a) l := Iff.rfl

/-- A chain depends on the links of its cells only. -/
theorem Chain.congr (hc : Chain next p l) (h : ∀ a ∈ l, next' a = next a) : Chain next' p l := by
  induction l generalizing p with
  | nil => exact hc
  | cons a l ih =>
    refine ⟨hc.1, ?_⟩
    rw [h a (by simp)]
    exact ih hc.2 fun b hb => h b (by simp [hb])

/-- A cell is in the chain exactly when it is reached from the first one. -/
theorem Chain.mem_iff_reach (hc : Chain next (some a) l) :
    x ∈ l ↔ Relation.ReflTransGen (fun b c => next b = some c) a x := by
  induction l generalizing a with
  | nil => cases hc
  | cons b l ih =>
    obtain ⟨hb, hc⟩ := hc
    obtain rfl := Option.some.inj hb
    rw [Relation.ReflTransGen.cases_head_iff, List.mem_cons, eq_comm]
    refine or_congr_right ?_
    cases hn : next a with
    | none =>
      rw [hn] at hc
      cases l with
      | nil => simp
      | cons c l => cases hc.1
    | some c =>
      rw [hn] at hc
      simp [ih hc]

variable [DecidableEq P]

/-- A cell linked behind another one. -/
def linkBehind (next : P → Option P) (a x : P) : P → Option P :=
  Function.update (Function.update next x (next a)) a (some x)

theorem linkBehind_of_ne {b : P} (ha : b ≠ a) (hx : b ≠ x) : linkBehind next a x b = next b := by
  simp [linkBehind, ha, hx]

/-- Linking a new cell behind the first cell of a chain inserts it there. -/
theorem Chain.linkBehind (hc : Chain next p (a :: l)) (hd : (a :: l).Nodup) (hx : x ∉ a :: l) :
    Chain (linkBehind next a x) p (a :: x :: l) := by
  obtain ⟨hp, hl⟩ := hc
  have hxa : x ≠ a := fun h => hx (by simp [h])
  refine ⟨hp, by simp [Library.linkBehind], ?_⟩
  have hnx : Library.linkBehind next a x x = next a := by simp [Library.linkBehind, hxa]
  rw [hnx]
  refine hl.congr fun b hb => linkBehind_of_ne ?_ ?_
  · rintro rfl
    exact (List.nodup_cons.mp hd).1 hb
  · rintro rfl
    exact hx (by simp [hb])

end Lingx.Library
