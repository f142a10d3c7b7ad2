import Lingx.Library.Ring

/-! The queue macros. `struct Queue` is a pair of links, a header is a node like
any other, and every macro is the sequence of its pointer assignments, performed
in the source's order on a heap of links. Under the side conditions that hold of
a well-formed ring, the insertion macros link a node at an edge of the ring and
`Queue_remove` unlinks it. -/

namespace Lingx.Events

open Library

variable {P : Type*} [DecidableEq P]

/-- `(p)->prev = v`. -/
def setPrev (heap : P → Links P) (p v : P) : P → Links P :=
  Function.update heap p { heap p with prev := v }

/-- `(p)->next = v`. -/
def setNext (heap : P → Links P) (p v : P) : P → Links P :=
  Function.update heap p { heap p with next := v }

def queueInit (heap : P → Links P) (q : P) : P → Links P :=
  let heap := setPrev heap q q
  setNext heap q q

def queueEmpty (heap : P → Links P) (h : P) : Bool := h = (heap h).prev

def queueInsertTail (heap : P → Links P) (h x : P) : P → Links P :=
  let heap := setPrev heap x (heap h).prev
  let heap := setNext heap (heap x).prev x
  let heap := setNext heap x h
  setPrev heap h x

def queueHead (heap : P → Links P) (h : P) : P := (heap h).next

def queueRemove (heap : P → Links P) (x : P) : P → Links P :=
  let heap := setPrev heap (heap x).next (heap x).prev
  setNext heap (heap x).prev (heap x).next

section Links
variable (heap : P → Links P) (p v y : P)

@[simp] theorem setPrev_prev :
    (setPrev heap p v y).prev = if y = p then v else (heap y).prev := by
  by_cases hy : y = p <;> simp [setPrev, hy]

@[simp] theorem setPrev_next : (setPrev heap p v y).next = (heap y).next := by
  by_cases hy : y = p <;> simp [setPrev, hy]

@[simp] theorem setNext_next :
    (setNext heap p v y).next = if y = p then v else (heap y).next := by
  by_cases hy : y = p <;> simp [setNext, hy]

@[simp] theorem setNext_prev : (setNext heap p v y).prev = (heap y).prev := by
  by_cases hy : y = p <;> simp [setNext, hy]

end Links

variable {heap : P → Links P} {h x : P} {l m : List P}

theorem queueInit_self (heap : P → Links P) (q : P) : queueInit heap q q = ⟨q, q⟩ := by
  simp [queueInit, setPrev, setNext]

theorem queueInit_of_ne {q y : P} (hy : y ≠ q) : queueInit heap q y = heap y := by
  simp [queueInit, setPrev, setNext, hy]

theorem ring_queueInit (heap : P → Links P) (q : P) : Ring (queueInit heap q) q [] :=
  ⟨by simp [Linked, queueInit_self], by simp⟩

theorem queueEmpty_iff (hr : Ring heap h l) : queueEmpty heap h = true ↔ l = [] := by
  rw [← hr.prev_eq_self_iff, queueEmpty, decide_eq_true_iff, eq_comm]

omit [DecidableEq P] in
theorem queueHead_eq (hr : Ring heap h (x :: l)) : queueHead heap h = x := hr.next_eq_head

/-- `Queue_insert_tail` links the node between the last one and the header. -/
theorem queueInsertTail_eq_link (hh : x ≠ h) (hx : x ≠ (heap h).prev) :
    queueInsertTail heap h x = link heap (heap h).prev x h := by
  funext y
  have hx' := Ne.symm hx
  simp only [queueInsertTail, link, Links.ext_iff, setPrev_prev, setPrev_next, setNext_next,
    setNext_prev]
  by_cases hy : y = x <;> by_cases hyh : y = h <;> simp_all

theorem queueRemove_eq_unlink (hn : x ≠ (heap x).next) :
    queueRemove heap x = unlink heap x := by
  funext y
  simp [queueRemove, unlink, Links.ext_iff, hn]

omit [DecidableEq P] in
theorem prev_header_mem (hr : Ring heap h l) : (heap h).prev ∈ h :: l :=
  hr.1.prev_end ▸ List.getLast_mem (by simp)

/-- The node of an insertion at the tail comes last in the ring. -/
theorem ring_queueInsertTail (hr : Ring heap h l) (hx : x ∉ h :: l) :
    Ring (queueInsertTail heap h x) h (l ++ [x]) := by
  have hxl : x ≠ (heap h).prev := fun e => hx (by rw [e]; exact prev_header_mem hr)
  rw [queueInsertTail_eq_link (fun e => hx (by simp [e])) hxl, hr.1.prev_end]
  simpa using Ring.link (m := []) (by simpa using hr) (by simpa using hx)

theorem queueInsertTail_of_notMem (hr : Ring heap h l) (hx : x ∉ h :: l) {y : P}
    (hy : y ∉ h :: l) (hyx : y ≠ x) : queueInsertTail heap h x y = heap y := by
  have hmem := prev_header_mem hr
  rw [queueInsertTail_eq_link (fun e => hx (by simp [e])) (fun e => hx (by rw [e]; exact hmem))]
  exact link_of_ne hyx (fun e => hy (by rw [e]; exact hmem)) (fun e => hy (by simp [e]))

theorem queueRemove_ring_eq (hr : Ring heap h (l ++ x :: m)) :
    queueRemove heap x = unlink heap x := by
  apply queueRemove_eq_unlink
  rw [((segment_append _ _ _ _ _).mp hr.1).2.next_start]
  have hd := hr.2
  cases m <;> grind

/-- Removing an element deletes it from the ring and nothing else. -/
theorem ring_queueRemove (hr : Ring heap h (l ++ x :: m)) :
    Ring (queueRemove heap x) h (l ++ m) := by
  rw [queueRemove_ring_eq hr]
  exact hr.unlink

theorem queueRemove_of_notMem (hr : Ring heap h (l ++ x :: m)) {y : P}
    (hy : y ∉ h :: (l ++ x :: m)) : queueRemove heap x y = heap y := by
  obtain ⟨hl, hm⟩ := (segment_append _ _ _ _ _).mp hr.1
  have hp : (heap x).prev ∈ h :: l := hl.prev_end ▸ List.getLast_mem (by simp)
  rw [queueRemove_ring_eq hr]
  refine unlink_of_ne (fun e => hy ?_) (fun e => hy ?_)
  · rw [e]; grind
  · rw [e, hm.next_start]; cases m <;> simp

end Lingx.Events
