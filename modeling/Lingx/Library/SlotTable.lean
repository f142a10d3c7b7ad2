import Mathlib.Data.List.Nodup
import Mathlib.Data.List.Perm.Basic
import Mathlib.Order.Nat
import Mathlib.Tactic.Common

/-! Slot tables without holes. A table is the list of the owners of its slots; a
new owner takes the slot behind the last one, and a freed slot is filled by the
last one, whose owner is the only one that moves. -/

namespace Lingx.Library.SlotTable

open scoped List

variable {α β : Type*} {l : List α} {i j : ℕ} {a b : α}

/-- Free a slot: the last slot moves into it. -/
def swapRemove (l : List α) (i : ℕ) : List α :=
  match l.getLast? with
  | none => []
  | some b => (l.set i b).dropLast

theorem swapRemove_concat (l : List α) (b : α) (i : ℕ) :
    swapRemove (l ++ [b]) i = l.set i b := by
  simp only [swapRemove, List.getLast?_concat]
  rcases lt_or_ge i l.length with hi | hi
  · rw [List.set_append_left _ _ hi, List.dropLast_concat]
  · rw [List.set_append_right _ _ hi, List.set_eq_of_length_le hi]
    cases i - l.length <;> simp

theorem length_swapRemove (l : List α) (i : ℕ) : (swapRemove l i).length = l.length - 1 := by
  rcases l.eq_nil_or_concat with rfl | ⟨m, b, rfl⟩
  · rfl
  · simp [swapRemove_concat]

/-- The slots that stay keep their owners, but for the freed one. -/
theorem getElem?_swapRemove (l : List α) (i j : ℕ) :
    (swapRemove l i)[j]? =
      if j + 1 < l.length then (if j = i then l[l.length - 1]? else l[j]?) else none := by
  rcases l.eq_nil_or_concat with rfl | ⟨m, b, rfl⟩
  · simp [swapRemove]
  · rw [List.concat_eq_append, swapRemove_concat, List.getElem?_set]
    split_ifs <;> grind

/-- Freeing a slot removes its owner. -/
theorem swapRemove_perm (h : l[i]? = some a) : (a :: swapRemove l i).Perm l := by
  obtain ⟨hi, rfl⟩ := List.getElem?_eq_some_iff.mp h
  rcases l.eq_nil_or_concat with rfl | ⟨m, b, rfl⟩
  · simp at hi
  simp only [List.concat_eq_append] at hi ⊢
  rw [swapRemove_concat]
  rcases lt_or_ge i m.length with him | him
  · rw [List.getElem_append_left him]
    have hset : (m.set i b).Perm (b :: m.eraseIdx i) := List.set_perm_cons_eraseIdx him b
    have herase : (m[i] :: m.eraseIdx i).Perm m := List.getElem_cons_eraseIdx_perm him
    calc
      _ ~ m[i] :: b :: m.eraseIdx i := hset.cons _
      _ ~ b :: m[i] :: m.eraseIdx i := .swap _ _ _
      _ ~ b :: m := herase.cons _
      _ ~ m ++ [b] := (List.perm_append_singleton b m).symm
  · have hm : i = m.length := by simp at hi; omega
    subst hm
    rw [List.set_eq_of_length_le le_rfl, List.getElem_concat_length rfl]
    exact (List.perm_append_singleton b m).symm

/-- The owner of another slot is found where its index is led. -/
theorem getElem?_swapRemove_moved (hi : i < l.length) (hj : l[j]? = some b) (hji : j ≠ i) :
    (swapRemove l i)[if j = l.length - 1 then i else j]? = some b := by
  have hlt := (List.getElem?_eq_some_iff.mp hj).1
  by_cases hlast : j = l.length - 1
  · rw [if_pos hlast, getElem?_swapRemove, if_pos (by omega), if_pos rfl, ← hlast, hj]
  · rw [if_neg hlast, getElem?_swapRemove, if_pos (by omega), if_neg hji, hj]

section Matched
variable {R R' : α → β → Prop} {slots : List β} {p : β}

/-- Every slot holds what its owner needs. -/
def Matched (R : α → β → Prop) (l : List α) (slots : List β) : Prop :=
  ∀ (i : ℕ) (a : α), l[i]? = some a → ∃ p, slots[i]? = some p ∧ R a p

theorem Matched.imp (m : Matched R l slots) (h : ∀ a ∈ l, ∀ p, R a p → R' a p) :
    Matched R' l slots := by
  intro i a hi
  obtain ⟨p, hp, hR⟩ := m i a hi
  exact ⟨p, hp, h a (List.mem_of_getElem? hi) p hR⟩

/-- A slot is rewritten; only its owner may need something else. -/
theorem Matched.set (m : Matched R l slots) (hl : l.Nodup) (hi : l[i]? = some a) (hp : R' a p)
    (h : ∀ b ∈ l, b ≠ a → ∀ q, R b q → R' b q) : Matched R' l (slots.set i p) := by
  intro j b hj
  obtain ⟨q, hq, hR⟩ := m j b hj
  by_cases hij : i = j
  · subst hij
    obtain rfl : a = b := Option.some.inj (hi.symm.trans hj)
    exact ⟨p, List.getElem?_set_self (List.getElem?_eq_some_iff.mp hq).1, hp⟩
  · have hba : b ≠ a := by
      rintro rfl
      exact hij ((List.getElem?_inj (List.getElem?_eq_some_iff.mp hi).1 hl).mp (hi.trans hj.symm))
    exact ⟨q, by rw [List.getElem?_set_ne hij, hq], h b (List.mem_of_getElem? hj) hba q hR⟩

/-- A new owner takes the slot behind the last one. -/
theorem Matched.concat (m : Matched R l slots) (hlt : l.length < slots.length) (hp : R a p) :
    Matched R (l ++ [a]) (slots.set l.length p) := by
  intro j b hj
  rcases Nat.lt_or_ge j l.length with hjl | hjl
  · rw [List.getElem?_append_left hjl] at hj
    rw [List.getElem?_set_ne (by omega)]
    exact m j b hj
  · rw [List.getElem?_append_right hjl, List.getElem?_singleton] at hj
    split_ifs at hj with hz
    obtain rfl := Option.some.inj hj
    obtain rfl : j = l.length := by omega
    exact ⟨p, List.getElem?_set_self hlt, hp⟩

/-- The last slot moves into the one that is freed. -/
theorem Matched.swapRemove (m : Matched R l slots) (hp : slots[l.length - 1]? = some p) :
    Matched R (SlotTable.swapRemove l i) (slots.set i p) := by
  intro j b hj
  rw [getElem?_swapRemove] at hj
  split_ifs at hj with hlt hji
  · obtain ⟨q, hq, hR⟩ := m _ b hj
    obtain rfl : p = q := Option.some.inj (hp.symm.trans hq)
    have hbound := (List.getElem?_eq_some_iff.mp hp).1
    exact ⟨p, by rw [hji, List.getElem?_set_self (by omega)], hR⟩
  · rw [List.getElem?_set_ne (Ne.symm hji)]
    exact m j b hj

end Matched

end Lingx.Library.SlotTable
