import Lingx.Events.State

/-! Posted events. `Post_event` and `Delete_posted_event` move an event's node
into and out of a ring of nodes; `Event_process_posted` drains one ring, and the
handlers it calls post and delete in their turn. The two rings represent the
two lanes of a mailbox: every operation on the heap is the mailbox's operation
on the lanes. -/

namespace Lingx.Events

open Library

variable {E C : Type} {w : ℕ} [DecidableEq E]

def postEvent (s : World E C w) (ev : E) (q : PostedQueue) : World E C w :=
  if (s.event ev).posted then s
  else
    let s := s.setEvent ev fun e => { e with posted := true }
    let s := { s with heap := queueInsertTail s.heap (.header q) (.queue ev) }
    s.observe (.posted ev q)

def deletePostedEvent (s : World E C w) (ev : E) : World E C w :=
  let s := s.setEvent ev fun e => { e with posted := false }
  { s with heap := queueRemove s.heap (.queue ev) }

/-- One turn of the loop of `Event_process_posted`, up to the handler's call:
`none` once the queue is empty, else the event whose handler is called. -/
def processPostedTurn (s : World E C w) (q : PostedQueue) : Option (E × World E C w) :=
  if queueEmpty s.heap (.header q) then none
  else (queueData (queueHead s.heap (.header q))).map fun ev =>
    (ev, (deletePostedEvent s ev).observe (.taken ev q))

/-- `Event_process_posted` for at most `n` turns of its loop, with whether it has
returned. A handler may do anything to the state. -/
def eventProcessPosted (handler : E → World E C w → World E C w) :
    ℕ → PostedQueue → World E C w → World E C w × Bool
  | 0, _, s => (s, false)
  | n + 1, q, s => match processPostedTurn s q with
    | none => (s, true)
    | some (ev, s) => eventProcessPosted handler n q (handler ev s)

theorem eventProcessPosted_of_none (handler : E → World E C w → World E C w) (n : ℕ)
    {q : PostedQueue} {s : World E C w} (h : processPostedTurn s q = none) :
    eventProcessPosted handler (n + 1) q s = (s, true) := by
  simp [eventProcessPosted, h]

theorem eventProcessPosted_of_some (handler : E → World E C w → World E C w) (n : ℕ)
    {q : PostedQueue} {s t : World E C w} {ev : E} (h : processPostedTurn s q = some (ev, t)) :
    eventProcessPosted handler (n + 1) q s = eventProcessPosted handler n q (handler ev t) := by
  simp [eventProcessPosted, h]

theorem postEvent_eq {s : World E C w} {ev : E} (hp : ¬ (s.event ev).posted = true)
    (q : PostedQueue) : postEvent s ev q =
      { s with
        event := Function.update s.event ev { s.event ev with posted := true }
        heap := queueInsertTail s.heap (.header q) (.queue ev)
        hist := .posted ev q :: s.hist } := by
  simp [postEvent, hp, World.setEvent, World.observe]

theorem deletePostedEvent_eq (s : World E C w) (ev : E) : deletePostedEvent s ev =
    { s with
      event := Function.update s.event ev { s.event ev with posted := false }
      heap := queueRemove s.heap (.queue ev) } := rfl

/-- The rings hold the lanes, an event is flagged exactly when it waits in a
lane, and the lanes account for the history. -/
structure Queues (s : World E C w) (lane : PostedQueue → List E) : Prop where
  ring : ∀ q, Ring s.heap (.header q) ((lane q).map .queue)
  posted : ∀ ev, (s.event ev).posted = true ↔ ∃ q, ev ∈ lane q
  good : Mailbox.Good ⟨lane, s.hist⟩

namespace Queues

variable {s : World E C w} {lane : PostedQueue → List E}

theorem congr {t : World E C w} (g : Queues s lane) (hh : t.heap = s.heap)
    (hp : ∀ ev, (t.event ev).posted = (s.event ev).posted) (ht : t.hist = s.hist) :
    Queues t lane :=
  ⟨fun q => hh ▸ g.ring q, fun ev => by rw [hp]; exact g.posted ev, ht ▸ g.good⟩

theorem note (g : Queues s lane) (n : Fired E) : Queues (s.observe (.note n)) lane :=
  ⟨g.ring, g.posted, g.good.note n⟩

theorem ring_disjoint (g : Queues s lane) {q r : PostedQueue} (hq : r ≠ q) :
    ∀ y ∈ .header r :: (lane r).map .queue, y ∉ QueuePtr.header q :: (lane q).map .queue := by
  intro y hy hy'
  simp only [List.mem_cons, List.mem_map] at hy hy'
  rcases hy with rfl | ⟨e, he, rfl⟩ <;> rcases hy' with hy' | ⟨e', he', hy'⟩
  · exact hq (by simpa using hy')
  · simp at hy'
  · simp at hy'
  · simp only [QueuePtr.queue.injEq] at hy'
    exact g.good.disjoint r q hq he (hy' ▸ he')

theorem notPosted (g : Queues s lane) {ev : E} (hp : ¬ (s.event ev).posted = true)
    (q : PostedQueue) : ev ∉ lane q :=
  fun h => hp ((g.posted ev).mpr ⟨q, h⟩)

/-- A second posting before the handler's call changes nothing, whatever its queue. -/
theorem post_posted {ev : E} (hp : (s.event ev).posted = true) (q : PostedQueue) :
    postEvent s ev q = s := by
  simp [postEvent, hp]

/-- Posting an event that does not wait appends it to the lane. -/
theorem post (g : Queues s lane) {ev : E} (hp : ¬ (s.event ev).posted = true) (q : PostedQueue) :
    Queues (postEvent s ev q) (Function.update lane q (lane q ++ [ev])) := by
  have hev := g.notPosted hp
  have hx : QueuePtr.queue ev ∉ QueuePtr.header q :: (lane q).map .queue := by simpa using hev q
  rw [postEvent_eq hp]
  refine ⟨fun r => ?_, fun e => ?_, g.good.post hev q⟩
  · by_cases hr : r = q
    · subst hr
      simpa using ring_queueInsertTail (g.ring r) hx
    · rw [Function.update_of_ne hr]
      refine (g.ring r).congr fun y hy => ?_
      refine queueInsertTail_of_notMem (g.ring q) hx (g.ring_disjoint hr y hy) ?_
      rintro rfl
      simp [hev r] at hy
  · by_cases he : e = ev
    · subst he
      simpa using ⟨q, by simp⟩
    · simp only [Function.update_of_ne he, g.posted e]
      refine exists_congr fun r => ?_
      by_cases hr : r = q
      · subst hr; simp [he]
      · simp [hr]

/-- Deleting a waiting event unlinks its node and clears its flag. -/
private theorem delete (g : Queues s lane) {ev : E} {q : PostedQueue} {l m : List E}
    (hl : lane q = l ++ ev :: m) :
    (∀ r, Ring (deletePostedEvent s ev).heap (.header r)
      ((Function.update lane q (l ++ m) r).map .queue)) ∧
    ∀ e, ((deletePostedEvent s ev).event e).posted = true ↔
      ∃ r, e ∈ Function.update lane q (l ++ m) r := by
  have hnd : (lane q).Nodup := g.good.nodup q
  have hr := g.ring q
  simp only [hl, List.map_append, List.map_cons] at hr hnd
  rw [deletePostedEvent_eq]
  constructor
  · intro r
    by_cases hrq : r = q
    · subst hrq
      simpa using ring_queueRemove hr
    · rw [Function.update_of_ne hrq]
      refine (g.ring r).congr fun y hy => queueRemove_of_notMem hr ?_
      simpa [hl] using g.ring_disjoint hrq y hy
  · intro e
    by_cases he : e = ev
    · subst he
      have hout : ∀ r, e ∉ Function.update lane q (l ++ m) r := by
        intro r hm
        by_cases hrq : r = q
        · subst hrq; grind
        · rw [Function.update_of_ne hrq] at hm
          exact g.good.disjoint r q hrq hm (by simp [hl])
      simp [hout]
    · simp only [Function.update_of_ne he, g.posted e]
      refine exists_congr fun r => ?_
      by_cases hrq : r = q
      · subst hrq; simp [hl, he]
      · simp [hrq]

/-- Deleting a posted event drops it from the lane it waits in. -/
theorem drop (g : Queues s lane) {ev : E} {q : PostedQueue} (hm : ev ∈ lane q) :
    Queues ((deletePostedEvent s ev).observe (.dropped ev))
      (Function.update lane q ((lane q).erase ev)) := by
  obtain ⟨l, m, hl⟩ := List.append_of_mem hm
  have hlm : (lane q).erase ev = l ++ m := by
    have hnd : (lane q).Nodup := g.good.nodup q
    rw [hl] at hnd ⊢
    rw [List.erase_append_right _ (by grind), List.erase_cons_head]
  obtain ⟨hr, hp⟩ := g.delete hl
  exact ⟨by rw [hlm]; exact hr, by rw [hlm]; exact hp, g.good.drop hm⟩

theorem turn_nil (g : Queues s lane) {q : PostedQueue} (hl : lane q = []) :
    processPostedTurn s q = none := by
  have he := (queueEmpty_iff (g.ring q)).mpr (by simp [hl])
  simp [processPostedTurn, he]

/-- The turn on a queue that is not empty unlinks its first event. -/
theorem turn_cons (g : Queues s lane) {q : PostedQueue} {ev : E} {l : List E}
    (hl : lane q = ev :: l) :
    processPostedTurn s q = some (ev, (deletePostedEvent s ev).observe (.taken ev q)) ∧
      Queues ((deletePostedEvent s ev).observe (.taken ev q)) (Function.update lane q l) := by
  have hring := g.ring q
  rw [hl, List.map_cons] at hring
  have he : queueEmpty s.heap (.header q) = false :=
    Bool.eq_false_iff.mpr fun h => by simpa using (queueEmpty_iff hring).mp h
  constructor
  · simp [processPostedTurn, he, queueHead_eq hring, queueData]
  · obtain ⟨hr, hp⟩ := g.delete (l := []) hl
    have ht := g.good.take hl
    simp only [hl, List.tail_cons, Mailbox.Box.take] at ht
    exact ⟨hr, hp, ht⟩

end Queues

end Lingx.Events
