import Lingx.Events.Posted
import Lingx.Events.Timer

/-! What handlers do, and the two loops that call them. A handler posts events,
deletes posted events, arms timers for later, and changes whatever neither the
posted queues nor the timers depend on. The history of a loop is a sequence of
handler calls of its own kind, whatever the handlers do. -/

namespace Lingx.Events

open Library

variable {E C : Type} {w : ℕ} [DecidableEq E]

/-- A change that leaves the posted queues, the timers and the history alone. -/
structure Quiet (s t : World E C w) : Prop where
  heap : t.heap = s.heap
  hist : t.hist = s.hist
  posted : ∀ ev, (t.event ev).posted = (s.event ev).posted
  timerRbtree : t.timerRbtree = s.timerRbtree
  timerKey : ∀ ev, t.timerKey ev = s.timerKey ev
  currentMsec : t.currentMsec = s.currentMsec

/-- One thing a handler does. -/
inductive HandlerStep : World E C w → World E C w → Prop where
  | post (s : World E C w) (ev : E) (q : PostedQueue) : HandlerStep s (postEvent s ev q)
  | delete (s : World E C w) (ev : E) (hp : (s.event ev).posted = true) :
      HandlerStep s ((deletePostedEvent s ev).observe (.dropped ev))
  | arm (s : World E C w) (ev : E) (key : Msec w) (hev : ev ∉ s.timerRbtree)
      (hk : s.currentMsec < key) : HandlerStep s (armTimer s ev key)
  | quiet (s t : World E C w) (h : Quiet s t) : HandlerStep s t

/-- The handlers do such things only. -/
def Permitted (handler : E → World E C w → World E C w) : Prop :=
  ∀ ev s, Relation.ReflTransGen HandlerStep s (handler ev s)

/-- A handler's call: from a posted queue, or by its timer. -/
inductive Call (E : Type) where
  | posted (q : PostedQueue) (ev : E)
  | timer (ev : E)
  deriving DecidableEq, Repr

/-- The handler calls of a history, oldest first. -/
def calls : Mailbox.History E PostedQueue (Fired E) → List (Call E)
  | [] => []
  | .taken ev q :: h => calls h ++ [.posted q ev]
  | .note (.fired ev) :: h => calls h ++ [.timer ev]
  | _ :: h => calls h

/-- The timers among some calls. -/
def timerCalls (cs : List (Call E)) : List E :=
  cs.filterMap fun
    | .timer ev => some ev
    | .posted _ _ => none

omit [DecidableEq E] in
theorem timerCalls_posted (q : PostedQueue) (evs : List E) :
    timerCalls (evs.map (.posted q)) = [] := by
  induction evs with
  | nil => rfl
  | cons ev evs ih => exact ih

omit [DecidableEq E] in
theorem timerCalls_timer (evs : List E) : timerCalls (evs.map Call.timer) = evs := by
  induction evs with
  | nil => rfl
  | cons ev evs ih => exact congrArg (ev :: ·) ih

/-- The posted queues and the timers are well formed. -/
structure LoopInv (s : World E C w) (lane : PostedQueue → List E) : Prop where
  queues : Queues s lane
  timers : s.TimersOrdered

/-- The handler calls from one state to another, in a run that keeps the queues and
the timers well formed. No timer becomes due, and each call takes the first one. -/
structure Advance (s t : World E C w) (cs : List (Call E)) : Prop where
  inv : ∃ lane, LoopInv t lane
  calls : calls t.hist = calls s.hist ++ cs
  hist : s.hist <:+ t.hist
  currentMsec : t.currentMsec = s.currentMsec
  due : timerCalls cs ++ t.dueTimers = s.dueTimers

namespace Advance

variable {s t u : World E C w} {cs ds : List (Call E)} {lane : PostedQueue → List E}

theorem refl (g : LoopInv s lane) : Advance s s [] :=
  ⟨⟨lane, g⟩, by simp, List.suffix_rfl, rfl, rfl⟩

theorem trans (h : Advance s t cs) (h' : Advance t u ds) : Advance s u (cs ++ ds) where
  inv := h'.inv
  calls := by rw [h'.calls, h.calls, List.append_assoc]
  hist := h.hist.trans h'.hist
  currentMsec := h'.currentMsec.trans h.currentMsec
  due := by rw [timerCalls, List.filterMap_append, List.append_assoc, ← h.due, ← h'.due]; rfl

theorem of_queues {lane' : PostedQueue → List E} (g : LoopInv s lane) (hq : Queues t lane')
    (hc : Events.calls t.hist = Events.calls s.hist ++ cs) (hh : s.hist <:+ t.hist)
    (htree : t.timerRbtree = s.timerRbtree) (hk : t.timerKey = s.timerKey)
    (hm : t.currentMsec = s.currentMsec) (hcs : timerCalls cs = []) : Advance s t cs := by
  have ht := timers_congr htree hm fun ev _ => congrFun hk ev
  exact ⟨⟨lane', hq, ht.1.mpr g.timers⟩, hc, hh, hm, by rw [hcs, ht.2]; rfl⟩

end Advance

section Steps
variable {s t : World E C w} {lane : PostedQueue → List E}

theorem postEvent_timerKey (s : World E C w) (ev : E) (q : PostedQueue) :
    (postEvent s ev q).timerKey = s.timerKey := by
  unfold postEvent
  split_ifs
  · rfl
  · exact setEvent_timerKey s ev (f := fun e => { e with posted := true }) rfl

theorem deletePostedEvent_timerKey (s : World E C w) (ev : E) :
    (deletePostedEvent s ev).timerKey = s.timerKey :=
  setEvent_timerKey s ev (f := fun e => { e with posted := false }) rfl

theorem HandlerStep.advance (g : LoopInv s lane) (h : HandlerStep s t) : Advance s t [] := by
  cases h with
  | post ev q =>
    by_cases hp : (s.event ev).posted = true
    · rw [Queues.post_posted hp]
      exact .refl g
    · refine .of_queues g (g.queues.post hp q) ?_ ?_ ?_ (postEvent_timerKey s ev q) ?_ rfl <;>
        rw [postEvent_eq hp]
      · simp [calls]
      · exact List.suffix_cons _ _
  | delete ev hp =>
    obtain ⟨q, hm⟩ := (g.queues.posted ev).mp hp
    exact .of_queues g (g.queues.drop hm) (by simp [World.observe, calls, deletePostedEvent_eq])
      (List.suffix_cons _ _) rfl (deletePostedEvent_timerKey s _) rfl rfl
  | arm ev key hev hk =>
    obtain ⟨ho, hdue⟩ := armTimer_timers g.timers hev hk
    refine ⟨⟨lane, g.queues.congr rfl (fun e => ?_) rfl, ho⟩, by simp [armTimer, World.setEvent],
      List.suffix_rfl, rfl, hdue⟩
    by_cases he : e = ev
    · subst he; simp [armTimer, World.setEvent]
    · simp [armTimer, World.setEvent, he]
  | quiet _ h =>
    exact .of_queues g (g.queues.congr h.heap h.posted h.hist) (by simp [h.hist])
      (h.hist ▸ List.suffix_rfl) h.timerRbtree (funext h.timerKey) h.currentMsec rfl

theorem advance_of_handlerSteps (g : LoopInv s lane)
    (h : Relation.ReflTransGen HandlerStep s t) : Advance s t [] := by
  induction h with
  | refl => exact .refl g
  | tail _ hstep ih =>
    obtain ⟨lane', g'⟩ := ih.inv
    exact ih.trans (hstep.advance g')

theorem processPostedTurn_advance {q : PostedQueue} {ev : E} (g : LoopInv s lane)
    (h : processPostedTurn s q = some (ev, t)) : Advance s t [.posted q ev] := by
  cases hl : lane q with
  | nil => rw [g.queues.turn_nil hl] at h; cases h
  | cons e l =>
    obtain ⟨he, hq⟩ := g.queues.turn_cons hl
    rw [he] at h
    obtain ⟨rfl, rfl⟩ := Prod.mk.inj (Option.some.inj h)
    exact .of_queues g hq (by simp [World.observe, calls, deletePostedEvent_eq])
      (List.suffix_cons _ _) rfl (deletePostedEvent_timerKey s _) rfl rfl

/-- A turn of the expiry loop calls the handler of the first due timer. -/
theorem expireTimersTurn_advance {ev : E} (g : LoopInv s lane)
    (h : expireTimersTurn s = some (ev, t)) : Advance s t [.timer ev] := by
  obtain ⟨ho, hdue, hm, hh, hheap, hp⟩ := expireTimersTurn_some g.timers h
  refine ⟨⟨lane, ?_, ho⟩, by simp [hh, calls], hh ▸ List.suffix_cons _ _, hm, hdue.symm⟩
  exact (g.queues.note (.fired ev)).congr hheap hp hh

end Steps

section Loops
variable {handler : E → World E C w → World E C w} {s t : World E C w}
  {lane : PostedQueue → List E}

/-- The drain loop calls handlers of its queue only, and returns with it empty. -/
theorem eventProcessPosted_advance (hh : Permitted handler) (n : ℕ) (q : PostedQueue)
    (g : LoopInv s lane) : ∃ (evs : List E) (lane' : PostedQueue → List E),
      LoopInv (eventProcessPosted handler n q s).1 lane' ∧
      Advance s (eventProcessPosted handler n q s).1 (evs.map (.posted q)) ∧
      ((eventProcessPosted handler n q s).2 = true → lane' q = []) ∧
      ((eventProcessPosted handler n q s).2 = false → evs.length = n) := by
  induction n generalizing s lane with
  | zero => exact ⟨[], lane, g, .refl g, by simp [eventProcessPosted], fun _ => rfl⟩
  | succ n ih =>
    cases hp : processPostedTurn s q with
    | none =>
      rw [eventProcessPosted_of_none handler n hp]
      refine ⟨[], lane, g, .refl g, fun _ => ?_, by simp⟩
      cases hl : lane q with
      | nil => rfl
      | cons ev l => rw [(g.queues.turn_cons hl).1] at hp; cases hp
    | some p =>
      obtain ⟨ev, u⟩ := p
      rw [eventProcessPosted_of_some handler n hp]
      have hturn := processPostedTurn_advance g hp
      obtain ⟨lane₁, g₁⟩ := hturn.inv
      have hhandler := advance_of_handlerSteps g₁ (hh ev u)
      obtain ⟨lane₂, g₂⟩ := hhandler.inv
      obtain ⟨evs, lane', g', hadv, hdone, hlen⟩ := ih g₂
      refine ⟨ev :: evs, lane', g', ?_, hdone, fun h => by rw [List.length_cons, hlen h]⟩
      exact (hturn.trans hhandler).trans hadv

/-- The expiry loop calls the handlers of the due timers in their order, and returns
when none is left. -/
theorem eventExpireTimers_advance (hh : Permitted handler) (n : ℕ) (g : LoopInv s lane) :
    ∃ evs : List E, Advance s (eventExpireTimers handler n s).1 (evs.map .timer) ∧
      ((eventExpireTimers handler n s).2 = true →
        (eventExpireTimers handler n s).1.dueTimers = []) ∧
      (s.dueTimers.length < n → (eventExpireTimers handler n s).2 = true) := by
  induction n generalizing s lane with
  | zero => exact ⟨[], .refl g, by simp [eventExpireTimers], by simp⟩
  | succ n ih =>
    cases hp : expireTimersTurn s with
    | none =>
      refine ⟨[], ?_⟩
      simp only [eventExpireTimers, hp]
      exact ⟨.refl g, fun _ => (expireTimersTurn_none g.timers).mp hp, fun _ => trivial⟩
    | some p =>
      obtain ⟨ev, u⟩ := p
      have hturn := expireTimersTurn_advance g hp
      obtain ⟨lane₁, g₁⟩ := hturn.inv
      have hhandler := advance_of_handlerSteps g₁ (hh ev u)
      obtain ⟨lane₂, g₂⟩ := hhandler.inv
      obtain ⟨evs, hadv, hdone, hlen⟩ := ih g₂
      refine ⟨ev :: evs, ?_⟩
      simp only [eventExpireTimers, hp]
      refine ⟨(hturn.trans hhandler).trans hadv, hdone, fun h => hlen ?_⟩
      have hdue : s.dueTimers = ev :: (handler ev u).dueTimers := (hturn.trans hhandler).due.symm
      rw [hdue, List.length_cons] at h
      omega

end Loops

end Lingx.Events
