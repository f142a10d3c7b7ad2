import Lingx.Events.QueueSort

/-! `Queue_middle`. Two cursors start at the head, and the fast one takes two steps for
each step of the slow one. It is held against the last node after each of its steps, so it
never comes to the sentinel: when it is at the last node the slow one is in the middle. -/

namespace Lingx.Events

open Library

variable {P : Type*} [DecidableEq P]

/-- The loop of `Queue_middle`, for at most `k` turns. -/
def queueMiddleLoop (heap : P → Links P) (queue : P) : ℕ → P → P → Option P
  | 0, _, _ => none
  | k + 1, middle, next =>
    let middle := queueNext heap middle
    let next := queueNext heap next
    if next = queueLast heap queue then some middle
    else
      let next := queueNext heap next
      if next = queueLast heap queue then some middle
      else queueMiddleLoop heap queue k middle next

/-- `Queue_middle`, for at most `k` turns of its loop. It only reads the links. -/
def queueMiddle (k : ℕ) (heap : P → Links P) (queue : P) : Option P :=
  let middle := queueHead heap queue
  if middle = queueLast heap queue then some middle
  else queueMiddleLoop heap queue k middle (queueHead heap queue)

variable {heap : P → Links P} {h : P} {l : List P}

/-- While the fast cursor is at twice the place of the slow one and not at the last node,
the loop goes on to the middle. -/
theorem queueMiddleLoop_eq (hr : Ring heap h l) {k i : ℕ} (hi : 2 * i + 1 < l.length)
    (hk : l.length ≤ k + 2 * i) :
    queueMiddleLoop heap h k l[i] l[2 * i] = some l[l.length / 2] := by
  induction k generalizing i with
  | zero => omega
  | succ k ih =>
    have hmiddle : queueNext heap l[i] = l[i + 1] := hr.next_getElem (by omega)
    have hnext : queueNext heap l[2 * i] = l[2 * i + 1] := hr.next_getElem (by omega)
    simp only [queueMiddleLoop, hmiddle, hnext]
    by_cases heven : l[2 * i + 1] = queueLast heap h
    · have hlength : 2 * i + 1 + 1 = l.length := (hr.getElem_eq_prev_iff hi).mp heven
      have hhalf : l.length / 2 = i + 1 := by omega
      simp only [if_pos heven, hhalf]
    · have hroom : 2 * i + 2 < l.length := by
        have hlength : 2 * i + 1 + 1 ≠ l.length := fun e =>
          heven ((hr.getElem_eq_prev_iff hi).mpr e)
        omega
      have hnext' : queueNext heap l[2 * i + 1] = l[2 * i + 2] := hr.next_getElem hroom
      rw [if_neg heven, hnext']
      by_cases hodd : l[2 * i + 2] = queueLast heap h
      · have hlength : 2 * i + 2 + 1 = l.length := (hr.getElem_eq_prev_iff hroom).mp hodd
        have hhalf : l.length / 2 = i + 1 := by omega
        simp only [if_pos hodd, hhalf]
      · have hlength : 2 * i + 2 + 1 ≠ l.length := fun e =>
          hodd ((hr.getElem_eq_prev_iff hroom).mpr e)
        rw [if_neg hodd]
        exact ih (i := i + 1) (by omega) (by omega)

/-- `Queue_middle` returns. Of `n` elements it returns the one with number `n / 2`, counted
from the head: the middle one of an odd number, the first of the second half of an even
number. Of an empty queue it returns the sentinel. -/
theorem queueMiddle_eq (heap : P → Links P) (h : P) (l : List P) (hr : Ring heap h l) (k : ℕ)
    (hk : l.length ≤ k) : (l = [] → queueMiddle k heap h = some h) ∧
      ∀ _ : 0 < l.length, queueMiddle k heap h = some l[l.length / 2] := by
  constructor
  · rintro rfl
    have hhead : queueHead heap h = h := hr.1.1
    have hlast : queueLast heap h = h := hr.1.2
    rw [queueMiddle, hhead, hlast, if_pos rfl]
  · intro hpos
    have hhead : queueHead heap h = l[0] := by
      cases l with
      | nil => cases hpos
      | cons x l => exact queueHead_eq hr
    rw [queueMiddle, hhead]
    by_cases hone : l[0] = queueLast heap h
    · have hlength : 0 + 1 = l.length := (hr.getElem_eq_prev_iff hpos).mp hone
      have hhalf : l.length / 2 = 0 := by omega
      simp only [if_pos hone, hhalf]
    · have hlength : 0 + 1 ≠ l.length := fun e => hone ((hr.getElem_eq_prev_iff hpos).mpr e)
      rw [if_neg hone]
      exact queueMiddleLoop_eq hr (i := 0) (by omega) (by omega)

/-- With four elements the middle is the third. -/
theorem queueMiddle_eq_four : queueMiddle 4 (fun p : Fin 5 => ⟨p - 1, p + 1⟩) 0 = some 3 := by
  have hr : Ring (fun p : Fin 5 => ⟨p - 1, p + 1⟩) 0 [1, 2, 3, 4] :=
    ⟨⟨⟨by decide, by decide⟩, ⟨by decide, by decide⟩, ⟨by decide, by decide⟩,
      ⟨by decide, by decide⟩, by decide, by decide⟩, by decide⟩
  exact (queueMiddle_eq _ 0 [1, 2, 3, 4] hr 4 (by decide)).2 (by decide)

end Lingx.Events
