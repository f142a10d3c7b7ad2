import Lingx.Events.LoopTable
import Lingx.Library.Machine

/-! The event loop over whole runs. `Single_process_cycle` calls `Process_events_and_timers`
for ever, and the handlers post and delete events, arm timers, and add events to poll or
delete them. The poll table, the posted queues and the timers stay well formed, whatever
`poll` returns in each turn, and what waits when a turn begins is handled in it. -/

namespace Lingx.Events

open Library Machine

variable {E C : Type} {w : ℕ} [DecidableEq E] {cs : List C} {ends : C → Side → E}
  {s t u : World E C w}

section Phases
variable {handler : E → World E C w → World E C w} {I : World E C w → Prop} {q : PostedQueue}
  {delta : Msec w} {n : ℕ}

/-- What the turns of a drain loop and the handlers keep, the loop keeps. -/
theorem eventProcessPosted_invariant
    (hturn : ∀ ev s t, I s → processPostedTurn s q = some (ev, t) → I t)
    (hhandler : ∀ ev s, I s → I (handler ev s)) (h : I s) :
    I (eventProcessPosted handler n q s).1 := by
  induction n generalizing s with
  | zero => exact h
  | succ n ih =>
    cases hp : processPostedTurn s q with
    | none =>
      rw [eventProcessPosted_of_none handler n hp]
      exact h
    | some p =>
      obtain ⟨ev, t⟩ := p
      rw [eventProcessPosted_of_some handler n hp]
      exact ih (hhandler ev t (hturn ev s t h hp))

theorem expireIf_invariant (hturn : ∀ ev s t, I s → expireTimersTurn s = some (ev, t) → I t)
    (hhandler : ∀ ev s, I s → I (handler ev s)) (h : I s) : I (expireIf handler n delta s).1 := by
  unfold expireIf
  split_ifs
  · induction n generalizing s with
    | zero => exact h
    | succ n ih =>
      cases hp : expireTimersTurn s with
      | none =>
        simp only [eventExpireTimers, hp]
        exact h
      | some p =>
        obtain ⟨ev, t⟩ := p
        simp only [eventExpireTimers, hp]
        exact ih (hhandler ev t (hturn ev s t h hp))
  · exact h

theorem handlerPhases_invariant
    (hposted : ∀ q ev s t, I s → processPostedTurn s q = some (ev, t) → I t)
    (htimer : ∀ ev s t, I s → expireTimersTurn s = some (ev, t) → I t)
    (hhandler : ∀ ev s, I s → I (handler ev s)) (h : I s) :
    I (handlerPhases handler n delta s).1 := by
  have haccept : I (eventProcessPosted handler n .acceptEvents s).1 :=
    eventProcessPosted_invariant (hposted _) hhandler h
  unfold handlerPhases
  rcases he : eventProcessPosted handler n .acceptEvents s with ⟨s₂, b⟩
  rw [he] at haccept
  cases b with
  | false => exact haccept
  | true =>
    have hexpire : I (expireIf handler n delta s₂).1 :=
      expireIf_invariant htimer hhandler haccept
    rcases he' : expireIf handler n delta s₂ with ⟨s₃, b⟩
    rw [he'] at hexpire
    cases b with
    | false => simpa [he'] using hexpire
    | true =>
      simp only [he']
      exact eventProcessPosted_invariant (hposted _) hhandler hexpire

theorem handlerPhases_tabled (hh : Handles cs ends handler) (g : Tabled cs ends s) :
    Tabled cs ends (handlerPhases handler n delta s).1 :=
  handlerPhases_invariant (I := Tabled cs ends)
    (fun _ _ _ _ g h => g.congr (.processPostedTurn h))
    (fun _ _ _ g h => g.congr (.expireTimersTurn h)) (fun ev _ g => hh.tabled ev g) g

/-- An event is in a queue, or its handler has been called or it has been deleted since. -/
def InQueue (ev : E) (q : PostedQueue) (h : Mailbox.History E PostedQueue (Fired E))
    (s : World E C w) : Prop :=
  ∃ lane, LoopInv s lane ∧ Mailbox.Waiting ev q h ⟨lane, s.hist⟩

variable {ev : E} {h : Mailbox.History E PostedQueue (Fired E)}

theorem HandlerStep.inQueue (hi : InQueue ev q h s) (hstep : HandlerStep s t) :
    InQueue ev q h t := by
  obtain ⟨lane, g, hwait⟩ := hi
  obtain ⟨_, g'⟩ := (hstep.advance g).inv
  have htimers := g'.timers
  cases hstep with
  | post e r =>
    by_cases hp : (s.event e).posted = true
    · rw [Queues.post_posted hp]
      exact ⟨lane, g, hwait⟩
    · refine ⟨_, ⟨g.queues.post hp r, htimers⟩, ?_⟩
      rw [postEvent_eq hp]
      exact hwait.post e r
  | delete e hp =>
    obtain ⟨r, hm⟩ := (g.queues.posted e).mp hp
    exact ⟨_, ⟨g.queues.drop hm, htimers⟩, hwait.drop e r⟩
  | arm e key he hk =>
    refine ⟨lane, ⟨g.queues.congr rfl (fun e' => ?_) rfl, htimers⟩, hwait⟩
    by_cases hee : e' = e
    · subst hee
      simp [armTimer, World.setEvent]
    · simp [armTimer, World.setEvent, hee]
  | quiet _ hq =>
    refine ⟨lane, ⟨g.queues.congr hq.heap hq.posted hq.hist, htimers⟩, ?_⟩
    rw [hq.hist]
    exact hwait

theorem InQueue.processPostedTurn {r : PostedQueue} {e : E} (hi : InQueue ev q h s)
    (ht : processPostedTurn s r = some (e, t)) : InQueue ev q h t := by
  obtain ⟨lane, g, hwait⟩ := hi
  obtain ⟨_, g'⟩ := (processPostedTurn_advance g ht).inv
  cases hl : lane r with
  | nil =>
    rw [g.queues.turn_nil hl] at ht
    cases ht
  | cons e' l =>
    obtain ⟨he, hq⟩ := g.queues.turn_cons hl
    rw [he] at ht
    cases ht
    refine ⟨_, ⟨hq, g'.timers⟩, ?_⟩
    have htake := hwait.take hl
    simp only [Mailbox.Box.take, hl, List.tail_cons] at htake
    exact htake

theorem InQueue.expireTimersTurn {e : E} (hi : InQueue ev q h s)
    (ht : expireTimersTurn s = some (e, t)) : InQueue ev q h t := by
  obtain ⟨lane, g, hwait⟩ := hi
  obtain ⟨ho, -, -, hh, hheap, hp⟩ := expireTimersTurn_some g.timers ht
  refine ⟨lane, ⟨(g.queues.note (.fired e)).congr hheap hp hh, ho⟩, ?_⟩
  rw [hh]
  exact hwait.note (.fired e)

theorem Permitted.inQueue (hh : Permitted handler) (e : E) (hi : InQueue ev q h s) :
    InQueue ev q h (handler e s) := by
  have hsteps := hh e s
  generalize handler e s = t at hsteps
  induction hsteps with
  | refl => exact hi
  | tail _ hstep ih => exact hstep.inQueue ih

theorem InQueue.left (hi : InQueue ev q h s) (he : queueEmpty s.heap (.header q) = true) :
    Mailbox.Left ev h s.hist := by
  obtain ⟨lane, g, hwait⟩ := hi
  refine hwait.left ?_
  have hnil := (queueEmpty_iff (g.queues.ring q)).mp he
  simpa using hnil

omit [DecidableEq E] in
theorem timerCalls_phases (as ts es : List E) : timerCalls (as.map (.posted .acceptEvents) ++
    ts.map .timer ++ es.map (.posted .events)) = ts := by
  have hsplit : timerCalls (as.map (.posted .acceptEvents) ++ ts.map .timer ++
      es.map (.posted .events)) = timerCalls (as.map (.posted .acceptEvents)) ++
        timerCalls (ts.map .timer) ++ timerCalls (es.map (.posted .events)) := by
    simp only [timerCalls, List.filterMap_append]
  rw [hsplit, timerCalls_posted, timerCalls_posted, timerCalls_timer, List.nil_append,
    List.append_nil]

/-- What the phases have done when they have returned: an event that waited when they began
has left its queue. -/
structure PhasesEnd (delta : Msec w) (s t : World E C w) (lane : PostedQueue → List E) : Prop where
  inv : LoopInv t lane
  drained : lane .events = []
  advance : ∃ as es : List E, Advance s t (as.map (.posted .acceptEvents) ++
    (if delta = 0 then [] else s.dueTimers).map .timer ++ es.map (.posted .events))
  waited : ∀ ev, (s.event ev).posted = true → Mailbox.Left ev s.hist t.hist

theorem phasesEnd {lane : PostedQueue → List E} (hh : Permitted handler) (g : LoopInv s lane)
    (hdone : (handlerPhases handler n delta s).2 = true) :
    ∃ lane', PhasesEnd delta s (handlerPhases handler n delta s).1 lane' := by
  obtain ⟨as, lane₂, g₂, hA, hlane, -⟩ := eventProcessPosted_advance hh n .acceptEvents g
  have haccept (ev : E) (q : PostedQueue) (hi : InQueue ev q s.hist s) :
      InQueue ev q s.hist (eventProcessPosted handler n .acceptEvents s).1 :=
    eventProcessPosted_invariant (fun _ _ _ hi ht => hi.processPostedTurn ht)
      (fun e _ hi => hh.inQueue e hi) hi
  rcases he : eventProcessPosted handler n .acceptEvents s with ⟨s₂, b⟩
  rw [he] at g₂ hA hlane haccept
  cases b with
  | false => simp [handlerPhases, he] at hdone
  | true =>
    have hdue : s₂.dueTimers = s.dueTimers := by
      have hcalls := hA.due
      rwa [timerCalls_posted] at hcalls
    obtain ⟨ts, hT, -, hfull, -⟩ := expireIf_advance hh n delta g₂
    have hexpire (ev : E) (q : PostedQueue) (hi : InQueue ev q s.hist s) :
        InQueue ev q s.hist (expireIf handler n delta s₂).1 :=
      expireIf_invariant (fun _ _ _ hi ht => hi.expireTimersTurn ht)
        (fun e _ hi => hh.inQueue e hi) (haccept ev q hi)
    rcases he' : expireIf handler n delta s₂ with ⟨s₃, b⟩
    rw [he'] at hT hfull hexpire
    cases b with
    | false => simp [handlerPhases, he, he'] at hdone
    | true =>
      obtain ⟨lane₃, g₃⟩ := hT.inv
      obtain ⟨es, lane₄, g₄, hE, hlane', -⟩ := eventProcessPosted_advance hh n .events g₃
      have hevents (ev : E) (q : PostedQueue) (hi : InQueue ev q s.hist s) :
          InQueue ev q s.hist (eventProcessPosted handler n .events s₃).1 :=
        eventProcessPosted_invariant (fun _ _ _ hi ht => hi.processPostedTurn ht)
          (fun e _ hi => hh.inQueue e hi) (hexpire ev q hi)
      simp only [handlerPhases, he, he'] at hdone ⊢
      refine ⟨lane₄, g₄, hlane' hdone, ⟨as, es, ?_⟩, fun ev hp => ?_⟩
      · rw [← hdue, ← hfull rfl]
        exact (hA.trans hT).trans hE
      · obtain ⟨q, hev⟩ := (g.queues.posted ev).mp hp
        have hstart : InQueue ev q s.hist s := ⟨lane, g, .start (b := ⟨lane, s.hist⟩) hev⟩
        cases q with
        | acceptEvents =>
          have hleft := (haccept ev _ hstart).left (queueEmpty_of_lane g₂.queues (hlane rfl))
          exact hleft.mono_right (hT.hist.trans hE.hist)
        | events =>
          exact (hevents ev _ hstart).left (queueEmpty_of_lane g₄.queues (hlane' hdone))

end Phases

/-- What the loop finds well formed at the beginning of a turn. -/
structure LoopState (cs : List C) (ends : C → Side → E) (s : World E C w)
    (lane : PostedQueue → List E) : Prop where
  tabled : Tabled cs ends s
  inv : LoopInv s lane
  /-- no timer is due by the clock that the last turn has read -/
  due : s.dueTimers = []

section Run
variable {handler : E → World E C w → World E C w} {s₀ : World E C w} {o : PollOutcome w} {n : ℕ}
  {lane : PostedQueue → List E} {l : List (PollOutcome w × ℕ)}

/-- A turn of the loop of `Single_process_cycle` that returns, with what `poll` returns in it
and a bound on the turns of the loops in it. -/
def loopTurn (handler : E → World E C w → World E C w) (x : PollOutcome w × ℕ) (s : World E C w) :
    Option (World E C w) :=
  if PollReturns s x.1 then
    match processEventsAndTimers handler x.1 x.2 s with
    | some (t, true) => some t
    | _ => none
  else none

/-- What a turn has done. -/
structure TurnSpec (cs : List C) (ends : C → Side → E) (o : PollOutcome w) (s t : World E C w) :
    Prop where
  /-- the timers that are due by the clock of this turn go off once, in their order, after the
  accept handlers and before the others -/
  order : ∃ as es : List E, calls t.hist = calls s.hist ++ (as.map (.posted .acceptEvents) ++
    (s.timerRbtree.filter fun ev => s.timerKey ev ≤ o.now).map .timer ++ es.map (.posted .events))
  /-- every event that waits has its handler called, or is deleted -/
  waited : ∀ ev, (s.event ev).posted = true → Mailbox.Left ev s.hist t.hist
  /-- so does every active event that `poll` reports -/
  reported : ∀ c ∈ cs, ∀ d, ReportedActive s o (ends c d) d →
    Mailbox.Left (ends c d) s.hist t.hist

/-- A turn that returns: what `poll` leaves, and the phases behind it. -/
theorem loopTurn_cases (g : Tabled cs ends s) (gi : LoopInv s lane)
    (h : loopTurn handler (o, n) s = some t) : ∃ s₁, PollEnd cs ends o s s₁ ∧
      handlerPhases handler n (s₁.currentMsec - s.currentMsec) s₁ = (t, true) := by
  simp only [loopTurn] at h
  split_ifs at h with ho
  obtain ⟨s₁, rc, h₁, hend⟩ := pollEnd g gi ho (eventFindTimer s)
  have hrun : processEventsAndTimers handler o n s =
      some (handlerPhases handler n (s₁.currentMsec - s.currentMsec) s₁) := by
    simp [processEventsAndTimers, h₁]
  refine ⟨s₁, hend, ?_⟩
  rw [hrun] at h
  rcases he : handlerPhases handler n (s₁.currentMsec - s.currentMsec) s₁ with ⟨u, b⟩
  rw [he] at h
  cases b with
  | false => cases h
  | true => rw [Option.some.inj h]

/-- By the clock of the turn before nothing is due, so the timers that this turn expires are all
that are due by its own clock. -/
theorem LoopState.toExpire {s₁ : World E C w} (g : LoopState cs ends s lane)
    (hend : PollEnd cs ends o s s₁) :
    s₁.dueTimers = s.timerRbtree.filter (fun ev => s.timerKey ev ≤ o.now) ∧
      (if s₁.currentMsec - s.currentMsec = 0 then [] else s₁.dueTimers) = s₁.dueTimers := by
  have hdue : s₁.dueTimers = s.timerRbtree.filter fun ev => s.timerKey ev ≤ o.now := by
    rw [World.dueTimers, hend.timerRbtree, hend.timerKey, hend.currentMsec]
  refine ⟨hdue, ?_⟩
  rw [← timersToExpire_eq, timersToExpire]
  split_ifs with hclock
  · rw [hdue, ← g.due, World.dueTimers, ← hclock, hend.currentMsec]
  · rfl

theorem loopTurn_spec (hh : Handles cs ends handler) (g : LoopState cs ends s lane)
    (h : loopTurn handler (o, n) s = some t) :
    (∃ lane', LoopState cs ends t lane' ∧ lane' .events = []) ∧ TurnSpec cs ends o s t := by
  obtain ⟨s₁, hend, hphases⟩ := loopTurn_cases g.tabled g.inv h
  obtain ⟨lane₁, g₁⟩ := hend.inv
  obtain ⟨hdue, hall⟩ := g.toExpire hend
  have hdone : (handlerPhases handler n (s₁.currentMsec - s.currentMsec) s₁).2 = true := by
    rw [hphases]
  obtain ⟨lane', ht⟩ := phasesEnd hh.permitted g₁ hdone
  have htabled : Tabled cs ends
      (handlerPhases handler n (s₁.currentMsec - s.currentMsec) s₁).1 :=
    handlerPhases_tabled hh hend.tabled
  rw [hphases] at ht htabled
  obtain ⟨as, es, hadv⟩ := ht.advance
  rw [hall] at hadv
  constructor
  · refine ⟨lane', ⟨htabled, ht.inv, ?_⟩, ht.drained⟩
    have hrest := hadv.due
    rw [timerCalls_phases] at hrest
    exact List.append_right_eq_self.mp hrest
  · refine ⟨⟨as, es, ?_⟩, fun ev hev => ?_, fun c hc d hr => ?_⟩
    · rw [hadv.calls, hend.calls, hdue]
    · exact (ht.waited ev (hend.posted ev hev)).mono_left hend.hist
    · exact (ht.waited _ (hend.reported c hc d hr)).mono_left hend.hist

/-- The state in front of `Event_core_process_init_`: nothing is posted, armed or under poll. -/
structure Fresh (cs : List C) (ends : C → Side → E) (s : World E C w) : Prop where
  wired : Wired cs ends s
  nEvents : s.nEvents = 0
  unregistered : ∀ c ∈ cs, ∀ d, (s.event (ends c d)).active = false ∧
    (s.event (ends c d)).index = INVALID_INDEX
  posted : ∀ ev, (s.event ev).posted = false
  hist : s.hist = []
  timerRbtree : s.timerRbtree = []

/-- What holds between two turns, of whatever the handlers have done. -/
structure Settled (cs : List C) (ends : C → Side → E) (handler : E → World E C w → World E C w)
    (s : World E C w) : Prop where
  table : PollInv cs ends s
  /-- no operation on the table is out of range -/
  operable : ∀ op : PollOp C, op.conn ∈ cs → ∃ t, pollStep ends s op = some t
  /-- nor is anything in the next turn, which returns unless the handlers post for ever -/
  next : ∀ o, PollReturns s o → (∀ n, ∃ t done, processEventsAndTimers handler o n s =
      some (t, done)) ∧
    ((∃ N, ∀ n t done, processEventsAndTimers handler o n s = some (t, done) →
      ∀ q, (Mailbox.postings q t.hist).length ≤ N) → ∃ n t, loopTurn handler (o, n) s = some t)
  /-- the links of both queues are those of what waits in them; in each, what has been handled
  and what waits are the postings that have not been deleted, in order -/
  queues : ∃ lane : PostedQueue → List E, lane .events = [] ∧
    (∀ q, Ring s.heap (.header q) ((lane q).map .queue)) ∧
    (∀ ev, (s.event ev).posted = true ↔ ∃ q, ev ∈ lane q) ∧
    ∀ q, Mailbox.takings q s.hist ++ (lane q).map (fun ev => Mailbox.ticket ev s.hist) =
      (Mailbox.postings q s.hist).filter fun k => k ∉ Mailbox.drops s.hist
  empty : queueEmpty s.heap (.header .events) = true
  /-- every posting to that queue has had its handler called, once and in order, if it has not
  been deleted -/
  handled : Mailbox.takings .events s.hist =
    (Mailbox.postings .events s.hist).filter fun k => k ∉ Mailbox.drops s.hist
  once : ∀ q, (Mailbox.takings q s.hist).Nodup
  timers : s.TimersOrdered
  due : s.dueTimers = []

theorem LoopState.settled (hh : Handles cs ends handler) (g : LoopState cs ends s lane)
    (hl : lane .events = []) : Settled cs ends handler s := by
  obtain ⟨own, reg, htable⟩ := g.tabled.table
  refine ⟨htable.pollInv g.tabled.wired, fun op hop => ?_, fun o ho => ?_,
    ⟨lane, hl, g.inv.queues.ring, g.inv.queues.posted, g.inv.queues.good.account⟩,
    queueEmpty_of_lane g.inv.queues hl, ?_, fun q => ?_, g.inv.timers, g.due⟩
  · classical
    obtain ⟨t, -, ht, -⟩ := htable.step g.tabled.wired hop
    exact ⟨t, ht⟩
  · obtain ⟨s₁, rc, h₁, hend⟩ := pollEnd g.tabled g.inv ho (eventFindTimer s)
    have hrun (n : ℕ) : processEventsAndTimers handler o n s =
        some (handlerPhases handler n (s₁.currentMsec - s.currentMsec) s₁) := by
      simp [processEventsAndTimers, h₁]
    refine ⟨fun n => ⟨_, _, hrun n⟩, fun hbound => ?_⟩
    obtain ⟨N, hN⟩ := hbound
    obtain ⟨lane₁, g₁⟩ := hend.inv
    obtain ⟨n, hn⟩ := handlerPhases_returns (s₁.currentMsec - s.currentMsec) hh.permitted g₁ N
      fun n q => hN n _ _ (hrun n) q
    refine ⟨n, (handlerPhases handler n (s₁.currentMsec - s.currentMsec) s₁).1, ?_⟩
    rcases he : handlerPhases handler n (s₁.currentMsec - s.currentMsec) s₁ with ⟨t, b⟩
    rw [he] at hn
    cases hn
    rw [loopTurn, if_pos ho, hrun n, he]
  · have haccount := g.inv.queues.good.account .events
    simpa [hl] using haccount
  · exact (List.nodup_append.mp (g.inv.queues.good.account_nodup q)).1

theorem Fresh.loopState (h₀ : Fresh cs ends s₀) :
    LoopState cs ends (initPostedQueues s₀) fun _ => [] where
  tabled := by
    have htable : SameTable s₀ (initPostedQueues s₀) :=
      ⟨rfl, rfl, rfl, rfl, fun _ => rfl, fun _ => rfl, fun _ => rfl⟩
    exact Tabled.congr ⟨h₀.wired, _, _, PollTable.empty cs ends h₀.nEvents h₀.unregistered⟩ htable
  inv := by
    refine ⟨PostedSys.start_queues h₀.posted h₀.hist, ?_⟩
    have htree : (initPostedQueues s₀).timerRbtree = [] := h₀.timerRbtree
    rw [World.TimersOrdered, htree]
    exact List.Pairwise.nil
  due := by
    have htree : (initPostedQueues s₀).timerRbtree = [] := h₀.timerRbtree
    rw [World.dueTimers, htree]
    rfl

theorem LoopState.step (g : LoopState cs ends s lane) (h : LoopStep cs ends s t) :
    ∃ lane', LoopState cs ends t lane' := by
  have hadv := h.handlerStep.advance g.inv
  obtain ⟨lane', g'⟩ := hadv.inv
  exact ⟨lane', h.tabled g.tabled, g', hadv.due.trans g.due⟩

theorem LoopState.steps (g : LoopState cs ends s lane)
    (h : Relation.ReflTransGen (LoopStep cs ends) s t) : ∃ lane', LoopState cs ends t lane' := by
  induction h with
  | refl => exact ⟨lane, g⟩
  | tail _ hstep ih =>
    obtain ⟨lane', g'⟩ := ih
    exact g'.step hstep

/-- A run of the loop behind the `init_process` functions of the modules. -/
theorem run_loopState {s₁ : World E C w} (h₀ : Fresh cs ends s₀)
    (hinit : Relation.ReflTransGen (LoopStep cs ends) (initPostedQueues s₀) s₁)
    (hh : Handles cs ends handler) (h : run (loopTurn handler) l s₁ = some s) :
    ∃ lane, LoopState cs ends s lane := by
  refine run_invariant (I := fun s => ∃ lane, LoopState cs ends s lane) ?_ h
    (h₀.loopState.steps hinit)
  rintro ⟨o, n⟩ s t ⟨lane, g⟩ ht
  obtain ⟨lane', g', -⟩ := (loopTurn_spec hh g ht).1
  exact ⟨lane', g'⟩

/-- After every turn of every run of the loop, whatever `poll` returns and whatever the handlers
post, delete, arm and register, the state is well formed, and all that was posted to the queue
of the other events has been handled. -/
theorem loop_settled {s₁ : World E C w} (h₀ : Fresh cs ends s₀)
    (hinit : Relation.ReflTransGen (LoopStep cs ends) (initPostedQueues s₀) s₁)
    (hh : Handles cs ends handler) (h : run (loopTurn handler) l s₁ = some s)
    (ht : loopTurn handler (o, n) s = some t) : Settled cs ends handler t := by
  obtain ⟨lane, g⟩ := run_loopState h₀ hinit hh h
  obtain ⟨lane', g', hl⟩ := (loopTurn_spec hh g ht).1
  exact g'.settled hh hl

/-- Every turn of every run handles what waited when it began, what `poll` reports in it, and
the timers that have become due. -/
theorem loop_serves {s₁ : World E C w} (h₀ : Fresh cs ends s₀)
    (hinit : Relation.ReflTransGen (LoopStep cs ends) (initPostedQueues s₀) s₁)
    (hh : Handles cs ends handler) (h : run (loopTurn handler) l s₁ = some s)
    (ht : loopTurn handler (o, n) s = some t) : TurnSpec cs ends o s t := by
  obtain ⟨lane, g⟩ := run_loopState h₀ hinit hh h
  exact (loopTurn_spec hh g ht).2

/-- The handler of a read event adds the write event of its connection to poll and posts it. -/
def writeBack (ev : Bool × Side) (s : World (Bool × Side) Bool 64) : World (Bool × Side) Bool 64 :=
  if ev.2 = .read then
    postEvent ((pollStep (·, ·) s (.add ev.1 .write)).getD s) (ev.1, .write) .acceptEvents
  else s

theorem writeBack_handles : Handles [false, true] (·, ·) writeBack := by
  intro ev s
  unfold writeBack
  split_ifs
  · refine .tail ?_ (.post _ (ev.1, Side.write) .acceptEvents)
    cases h : pollStep (·, ·) s (.add ev.1 .write) with
    | none => exact .refl
    | some t =>
      refine .single (.poll s t (.add ev.1 .write) ?_ h)
      cases ev.1 <;> decide
  · exact .refl

theorem twoConnections_fresh : Fresh [false, true] (·, ·) twoConnections where
  wired := ⟨by decide, fun _ _ d => by cases d <;> rfl, fun _ _ _ => rfl, by decide, by decide,
    by decide, by decide, by decide⟩
  nEvents := rfl
  unregistered _ _ _ := ⟨rfl, rfl⟩
  posted _ := rfl
  hist := rfl
  timerRbtree := rfl

theorem oneRegistered_steps : Relation.ReflTransGen (LoopStep [false, true] (·, ·))
    (initPostedQueues twoConnections) oneRegistered :=
  .single (.poll _ _ (.add true .read) (by decide) rfl)

/-- Two turns: the write event that the first one has added is ready in the second one. -/
theorem writeBack_run : ∃ s t, run (loopTurn writeBack) [(oneReady, 2)] oneRegistered = some s ∧
    loopTurn writeBack (⟨1, 0, fun _ => POLLOUT, 6⟩, 3) s = some t := by
  have hsome : ((run (loopTurn writeBack) [(oneReady, 2)] oneRegistered).bind
      (loopTurn writeBack (⟨1, 0, fun _ => POLLOUT, 6⟩, 3))).isSome := by decide
  obtain ⟨t, ht⟩ := Option.isSome_iff_exists.mp hsome
  obtain ⟨s, hs, hst⟩ := Option.bind_eq_some_iff.mp ht
  exact ⟨s, t, hs, hst⟩

theorem loop_settled_write : ∃ s t,
    run (loopTurn writeBack) [(oneReady, 2)] oneRegistered = some s ∧
    loopTurn writeBack (⟨1, 0, fun _ => POLLOUT, 6⟩, 3) s = some t ∧
    Settled [false, true] (·, ·) writeBack t := by
  obtain ⟨s, t, hs, ht⟩ := writeBack_run
  exact ⟨s, t, hs, ht,
    loop_settled twoConnections_fresh oneRegistered_steps writeBack_handles hs ht⟩

theorem loop_serves_write : ∃ s t,
    run (loopTurn writeBack) [(oneReady, 2)] oneRegistered = some s ∧
    loopTurn writeBack (⟨1, 0, fun _ => POLLOUT, 6⟩, 3) s = some t ∧
    TurnSpec [false, true] (·, ·) (⟨1, 0, fun _ => POLLOUT, 6⟩ : PollOutcome 64) s t := by
  obtain ⟨s, t, hs, ht⟩ := writeBack_run
  exact ⟨s, t, hs, ht,
    loop_serves twoConnections_fresh oneRegistered_steps writeBack_handles hs ht⟩

end Run

end Lingx.Events
