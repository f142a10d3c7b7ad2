import Lingx.Events.PollProcess
import Lingx.Events.PostedRun

/-! One iteration of the event loop. `Process_events_and_timers` polls, drains the
accept queue, expires the timers if the clock moved, and drains the other queue.
The handlers act in every phase; each phase calls handlers of its own kind, and an
event that waits when `poll` returns is handled before the iteration ends. -/

namespace Lingx.Events

open Library

variable {E C : Type} {w : ℕ} [DecidableEq E]

/-- `if (delta) Event_expire_timers();` -/
def expireIf (handler : E → World E C w → World E C w) (n : ℕ) (delta : Msec w)
    (s : World E C w) : World E C w × Bool :=
  if delta ≠ 0 then eventExpireTimers handler n s else (s, true)

/-- What `Process_events_and_timers` does after `poll`, each loop for at most `n`
turns, with whether it has returned. -/
def handlerPhases (handler : E → World E C w → World E C w) (n : ℕ) (delta : Msec w)
    (s : World E C w) : World E C w × Bool :=
  match eventProcessPosted handler n .acceptEvents s with
  | (s, false) => (s, false)
  | (s, true) => match expireIf handler n delta s with
    | (s, false) => (s, false)
    | (s, true) => eventProcessPosted handler n .events s

/-- `Process_events_and_timers`; `none` is an access out of range. -/
def processEventsAndTimers (handler : E → World E C w → World E C w) (o : PollOutcome w) (n : ℕ)
    (s : World E C w) : Option (World E C w × Bool) := do
  let timer := eventFindTimer s
  let delta := s.currentMsec
  let (s, _) ← pollProcessEvents o timer UPDATE_TIME s
  let delta := s.currentMsec - delta
  some (handlerPhases handler n delta s)

/-- The timers the iteration expires: the due ones, if the clock moved. -/
def timersToExpire (s s₁ : World E C w) : List E :=
  if s₁.currentMsec = s.currentMsec then [] else s₁.dueTimers

/-- The order of the handler calls, in an iteration that may not have returned. -/
def PhaseOrder (s s₁ t : World E C w) : Prop :=
  ∃ as ts es : List E, calls t.hist = calls s.hist ++
      (as.map (.posted .acceptEvents) ++ ts.map .timer ++ es.map (.posted .events)) ∧
    ts <+: timersToExpire s s₁ ∧ (es ≠ [] → ts = timersToExpire s s₁)

/-- An iteration that has returned, through the states after `poll`, after the accept
queue and after the timers. -/
structure Iteration (s s₁ s₂ s₃ t : World E C w) : Prop where
  /-- the first handlers are those of the accept queue, until it is empty -/
  accept : ∃ as : List E, calls s₂.hist = calls s.hist ++ as.map (.posted .acceptEvents)
  acceptEmpty : queueEmpty s₂.heap (.header .acceptEvents) = true
  /-- then the due timers, if the clock moved -/
  timers : calls s₃.hist = calls s₂.hist ++ (timersToExpire s s₁).map .timer
  due : s₂.dueTimers = s₁.dueTimers
  /-- then the handlers of the other queue, until it is empty -/
  events : ∃ es : List E, calls t.hist = calls s₃.hist ++ es.map (.posted .events)
  empty : queueEmpty t.heap (.header .events) = true
  /-- an event that waits after `poll` has its handler called for this posting,
  unless a handler deletes it -/
  served : ∀ ev, (s₁.event ev).posted = true → ∃ q,
    Mailbox.ticket ev s₁.hist ∈ Mailbox.postings q s₁.hist ∧
    Mailbox.ticket ev s₁.hist ∉ Mailbox.takings q s₁.hist ∧
    Mailbox.ticket ev s₁.hist ∉ Mailbox.drops s₁.hist ∧
    (Mailbox.ticket ev s₁.hist ∉ Mailbox.drops t.hist →
      Mailbox.ticket ev s₁.hist ∈ Mailbox.takings q t.hist)
  /-- no posting has two handler calls -/
  once : ∀ q, (Mailbox.takings q t.hist).Nodup

/-- What `poll` leaves: the clock is read, the active events that are reported wait
in the posted queues, and no handler has been called. -/
structure Polled (cs : List C) (ends : C → Side → E) (o : PollOutcome w) (s s₁ : World E C w) :
    Prop where
  calls : calls s₁.hist = calls s.hist
  currentMsec : s₁.currentMsec = o.now
  timerRbtree : s₁.timerRbtree = s.timerRbtree
  timerKey : s₁.timerKey = s.timerKey
  reported : ∀ i < s.nEvents, ∀ c p, PollSlot cs ends s i c p → ∀ d, Reported (o.revents i) d →
    (s.event (ends c d)).active = true → Waits s₁ (ends c d)

section Phases
variable {handler : E → World E C w → World E C w} {s s₁ t : World E C w}
  {lane : PostedQueue → List E}

omit [DecidableEq E] in
theorem timersToExpire_eq (s s₁ : World E C w) : timersToExpire s s₁ =
    if s₁.currentMsec - s.currentMsec = 0 then [] else s₁.dueTimers := by
  refine if_congr ⟨fun h => by rw [h]; exact BitVec.sub_self _, fun h => ?_⟩ rfl rfl
  rw [← BitVec.sub_add_cancel s₁.currentMsec s.currentMsec, h]
  exact BitVec.zero_add _

theorem expireIf_advance (hh : Permitted handler) (n : ℕ) (delta : Msec w) (g : LoopInv s lane) :
    ∃ ts : List E, Advance s (expireIf handler n delta s).1 (ts.map .timer) ∧
      ts <+: (if delta = 0 then [] else s.dueTimers) ∧
      ((expireIf handler n delta s).2 = true → ts = if delta = 0 then [] else s.dueTimers) ∧
      (s.dueTimers.length < n → (expireIf handler n delta s).2 = true) := by
  by_cases hz : delta = 0
  · simp only [expireIf, hz, ne_eq, not_true_eq_false, if_false, if_true]
    exact ⟨[], .refl g, List.prefix_rfl, fun _ => rfl, fun _ => trivial⟩
  · obtain ⟨ts, hadv, hdone, hlen⟩ := eventExpireTimers_advance hh n g
    have hdue := hadv.due
    rw [timerCalls_timer] at hdue
    simp only [expireIf, if_pos (show delta ≠ 0 from hz), if_neg hz]
    refine ⟨ts, hadv, ⟨_, hdue⟩, fun h => ?_, hlen⟩
    rw [hdone h, List.append_nil] at hdue
    exact hdue

theorem queueEmpty_of_lane {q : PostedQueue} (g : Queues s lane) (hl : lane q = []) :
    queueEmpty s.heap (.header q) = true :=
  (queueEmpty_iff (g.ring q)).mpr (by simp [hl])

theorem served_of_empty {s₂ : World E C w} {lane₁ lane₂ : PostedQueue → List E} {q : PostedQueue}
    {ev : E} (g₁ : Queues s₁ lane₁) (hev : ev ∈ lane₁ q) (g₂ : Queues s₂ lane₂)
    (hl : lane₂ q = []) (h₁₂ : s₁.hist <:+ s₂.hist) (h₂ : s₂.hist <:+ t.hist) :
    Mailbox.ticket ev s₁.hist ∈ Mailbox.postings q s₁.hist ∧
    Mailbox.ticket ev s₁.hist ∉ Mailbox.takings q s₁.hist ∧
    Mailbox.ticket ev s₁.hist ∉ Mailbox.drops s₁.hist ∧
    (Mailbox.ticket ev s₁.hist ∉ Mailbox.drops t.hist →
      Mailbox.ticket ev s₁.hist ∈ Mailbox.takings q t.hist) := by
  have hmem := g₁.good.ticket_mem hev
  obtain ⟨hfresh, hkept⟩ := g₁.good.ticket_fresh hev
  refine ⟨hmem, hfresh, hkept, fun hd => ?_⟩
  have hpost := (Mailbox.postings_prefix q h₁₂).subset hmem
  have hdrop : Mailbox.ticket ev s₁.hist ∉ Mailbox.drops s₂.hist :=
    fun h => hd ((Mailbox.drops_prefix h₂).subset h)
  exact (Mailbox.takings_prefix q h₂).subset (g₂.good.served hl hpost hdrop)

/-- The handler calls after `poll`, and where a phase that has not returned stands. -/
theorem handlerPhases_advance (hh : Permitted handler) (n : ℕ) (delta : Msec w)
    (g : LoopInv s lane) : ∃ as ts es : List E,
      Advance s (handlerPhases handler n delta s).1
        (as.map (.posted .acceptEvents) ++ ts.map .timer ++ es.map (.posted .events)) ∧
      ts <+: (if delta = 0 then [] else s.dueTimers) ∧
      (es ≠ [] → ts = if delta = 0 then [] else s.dueTimers) ∧
      ((handlerPhases handler n delta s).2 = false →
        as.length = n ∨ n ≤ s.dueTimers.length ∨ es.length = n) := by
  obtain ⟨as, lane₂, g₂, hA, -, hlenA⟩ := eventProcessPosted_advance hh n .acceptEvents g
  rcases he : eventProcessPosted handler n .acceptEvents s with ⟨s₂, b⟩
  rw [he] at g₂ hA hlenA
  cases b with
  | false =>
    simp only [handlerPhases, he]
    exact ⟨as, [], [], by simpa using hA, by simp, by simp, fun _ => .inl (hlenA rfl)⟩
  | true =>
    have hdue : s₂.dueTimers = s.dueTimers := by
      have := hA.due
      rwa [timerCalls_posted] at this
    obtain ⟨ts, hT, hpre, hfull, hlenT⟩ := expireIf_advance hh n delta g₂
    rcases he' : expireIf handler n delta s₂ with ⟨s₃, b⟩
    rw [he'] at hT hfull hlenT
    rw [hdue] at hpre hfull hlenT
    cases b with
    | false =>
      simp only [handlerPhases, he, he']
      refine ⟨as, ts, [], by simpa using hA.trans hT, hpre, by simp, fun _ => .inr (.inl ?_)⟩
      by_contra hlt
      exact absurd (hlenT (by omega)) (by simp)
    | true =>
      obtain ⟨lane₃, g₃⟩ := hT.inv
      obtain ⟨es, lane₄, g₄, hE, -, hlenE⟩ := eventProcessPosted_advance hh n .events g₃
      simp only [handlerPhases, he, he']
      exact ⟨as, ts, es, (hA.trans hT).trans hE, hpre, fun _ => hfull rfl,
        fun h => .inr (.inr (hlenE h))⟩

theorem handlerPhases_returned (hh : Permitted handler) (n : ℕ) (g : LoopInv s₁ lane)
    (hpoll : calls s₁.hist = calls s.hist)
    (hdone : (handlerPhases handler n (s₁.currentMsec - s.currentMsec) s₁).2 = true) :
    ∃ s₂ s₃, eventProcessPosted handler n .acceptEvents s₁ = (s₂, true) ∧
      expireIf handler n (s₁.currentMsec - s.currentMsec) s₂ = (s₃, true) ∧
      Iteration s s₁ s₂ s₃ (handlerPhases handler n (s₁.currentMsec - s.currentMsec) s₁).1 := by
  obtain ⟨as, lane₂, g₂, hA, hlane, -⟩ := eventProcessPosted_advance hh n .acceptEvents g
  rcases he : eventProcessPosted handler n .acceptEvents s₁ with ⟨s₂, b⟩
  rw [he] at g₂ hA hlane
  cases b with
  | false => simp [handlerPhases, he] at hdone
  | true =>
    obtain ⟨ts, hT, -, hfull, -⟩ := expireIf_advance hh n (s₁.currentMsec - s.currentMsec) g₂
    rcases he' : expireIf handler n (s₁.currentMsec - s.currentMsec) s₂ with ⟨s₃, b⟩
    rw [he'] at hT hfull
    cases b with
    | false => simp [handlerPhases, he, he'] at hdone
    | true =>
      obtain ⟨lane₃, g₃⟩ := hT.inv
      obtain ⟨es, lane₄, g₄, hE, hlane', -⟩ := eventProcessPosted_advance hh n .events g₃
      simp only [handlerPhases, he, he'] at hdone ⊢
      have hdue : s₂.dueTimers = s₁.dueTimers := by
        have := hA.due
        rwa [timerCalls_posted] at this
      have hfull' : ts = timersToExpire s s₁ := by
        rw [timersToExpire_eq, hfull rfl, hdue]
      refine ⟨s₂, s₃, rfl, he', ⟨as, hpoll ▸ hA.calls⟩, queueEmpty_of_lane g₂.queues (hlane rfl),
        hfull' ▸ hT.calls, hdue, ⟨es, hE.calls⟩, queueEmpty_of_lane g₄.queues (hlane' hdone),
        fun ev hp => ?_, fun q => ?_⟩
      · obtain ⟨q, hev⟩ := (g.queues.posted ev).mp hp
        refine ⟨q, ?_⟩
        have htail := hT.hist.trans hE.hist
        cases q with
        | acceptEvents =>
          exact served_of_empty g.queues hev g₂.queues (hlane rfl) hA.hist htail
        | events =>
          exact served_of_empty g.queues hev g₄.queues (hlane' hdone) (hA.hist.trans htail)
            List.suffix_rfl
      · exact (List.nodup_append.mp (g₄.queues.good.account_nodup q)).1

def Call.isPosted (q : PostedQueue) : Call E → Bool
  | .posted q' _ => q' = q
  | .timer _ => false

omit [DecidableEq E] in
theorem countP_isPosted (q : PostedQueue) (evs : List E) :
    (evs.map (Call.posted q)).countP (Call.isPosted q) = evs.length := by
  rw [List.countP_map, List.countP_eq_length]
  simp [Call.isPosted]

theorem length_takings (q : PostedQueue) (h : Mailbox.History E PostedQueue (Fired E)) :
    (Mailbox.takings q h).length = (calls h).countP (Call.isPosted q) := by
  induction h with
  | nil => rfl
  | cons o h ih =>
    cases o with
    | taken ev q' =>
      simp only [Mailbox.takings, calls, List.countP_append, ← ih]
      split_ifs with hq <;> simp [hq, Call.isPosted]
    | note n => cases n; simpa [Mailbox.takings, calls, Call.isPosted] using ih
    | _ => exact ih

theorem length_takings_le (g : Queues s lane) (q : PostedQueue) :
    (Mailbox.takings q s.hist).length ≤ (Mailbox.postings q s.hist).length := by
  have h := congrArg List.length (g.good.account q)
  have hle := List.length_filter_le (fun t => decide (t ∉ Mailbox.drops s.hist))
    (Mailbox.postings q s.hist)
  simp only [List.length_append] at h
  omega

end Phases

section Iterate
variable {cs : List C} {ends : C → Side → E} {s : World E C w} {lane : PostedQueue → List E}
  {handler : E → World E C w → World E C w} {o : PollOutcome w}

theorem polled (hw : Wired cs ends s) (hp : PollInv cs ends s) (hq : Queues s lane)
    (ht : s.TimersOrdered) (ho : o.ready = readyFrom (s.pollReturn o UPDATE_TIME) 0)
    (timer : Msec w) : ∃ s₁ rc, pollProcessEvents o timer UPDATE_TIME s = some (s₁, rc) ∧
      Polled cs ends o s s₁ ∧ ∃ lane₁, LoopInv s₁ lane₁ := by
  obtain ⟨s₁, rc, h₁, f, hwait⟩ := pollProcessEvents_spec o UPDATE_TIME hw hp timer ho
  have hkey : ∀ ev, (s.pollReturn o UPDATE_TIME).timerKey ev = s.timerKey ev := by
    simp [World.timerKey]
  have hord : (s.pollReturn o UPDATE_TIME).TimersOrdered := by
    rw [World.TimersOrdered, pollReturn_timerRbtree, funext hkey]
    exact ht
  have g : LoopInv (s.pollReturn o UPDATE_TIME) lane :=
    ⟨hq.congr (by simp) (by simp) (by simp), hord⟩
  have hadv := advance_of_handlerSteps g f.steps
  refine ⟨s₁, rc, h₁, ⟨?_, ?_, ?_, ?_, hwait⟩, hadv.inv⟩
  · rw [hadv.calls, pollReturn_hist, List.append_nil]
  · rw [hadv.currentMsec]
    simp [World.pollReturn, UPDATE_TIME]
  · rw [f.timerRbtree, pollReturn_timerRbtree]
  · rw [f.timerKey, funext hkey]

theorem handlerPhases_returns {s₁ : World E C w} (delta : Msec w) (hh : Permitted handler)
    (g : LoopInv s₁ lane) (N : ℕ) (hN : ∀ n q,
      (Mailbox.postings q (handlerPhases handler n delta s₁).1.hist).length ≤ N) :
    ∃ n, (handlerPhases handler n delta s₁).2 = true := by
  refine ⟨N + s₁.dueTimers.length + 1, ?_⟩
  generalize hn : N + s₁.dueTimers.length + 1 = n
  obtain ⟨as, ts, es, hadv, -, -, hstand⟩ := handlerPhases_advance hh n delta g
  obtain ⟨lane', g'⟩ := hadv.inv
  have hle : ∀ q, (Mailbox.takings q (handlerPhases handler n delta s₁).1.hist).length ≤ N :=
    fun q => (length_takings_le g'.queues q).trans (hN n q)
  have hA := hle .acceptEvents
  have hE := hle .events
  rw [length_takings, hadv.calls] at hA hE
  simp only [List.countP_append, countP_isPosted] at hA hE
  by_contra hdone
  have := hstand (by simpa using hdone)
  omega

end Iterate

/-- What one iteration does, for a well-formed poll table, well-formed posted queues
and timers, any handlers and any outcome of `poll` without an error. -/
theorem processEventsAndTimers_phases (cs : List C) (ends : C → Side → E) (s : World E C w)
    (lane : PostedQueue → List E) (handler : E → World E C w → World E C w) (o : PollOutcome w)
    (hw : Wired cs ends s) (hp : PollInv cs ends s) (hq : Queues s lane) (ht : s.TimersOrdered)
    (hh : Permitted handler) (ho : o.ready = readyFrom (s.pollReturn o UPDATE_TIME) 0) :
    ∃ s₁ rc, pollProcessEvents o (eventFindTimer s) UPDATE_TIME s = some (s₁, rc) ∧
      Polled cs ends o s s₁ ∧
      (∀ n, ∃ t done, processEventsAndTimers handler o n s = some (t, done) ∧
        PhaseOrder s s₁ t ∧
        (done = true → ∃ s₂ s₃, eventProcessPosted handler n .acceptEvents s₁ = (s₂, true) ∧
          expireIf handler n (s₁.currentMsec - s.currentMsec) s₂ = (s₃, true) ∧
          Iteration s s₁ s₂ s₃ t)) ∧
      ((∃ N, ∀ n t done, processEventsAndTimers handler o n s = some (t, done) →
          ∀ q, (Mailbox.postings q t.hist).length ≤ N) →
        ∃ n t, processEventsAndTimers handler o n s = some (t, true)) := by
  obtain ⟨s₁, rc, h₁, hpolled, lane₁, g₁⟩ := polled hw hp hq ht ho (eventFindTimer s)
  have hrun : ∀ n, processEventsAndTimers handler o n s =
      some (handlerPhases handler n (s₁.currentMsec - s.currentMsec) s₁) := by
    intro n
    simp [processEventsAndTimers, h₁]
  refine ⟨s₁, rc, h₁, hpolled, fun n => ?_, fun ⟨N, hN⟩ => ?_⟩
  · refine ⟨_, _, hrun n, ?_, handlerPhases_returned hh n g₁ hpolled.calls⟩
    obtain ⟨as, ts, es, hadv, hpre, hfull, -⟩ :=
      handlerPhases_advance hh n (s₁.currentMsec - s.currentMsec) g₁
    rw [← timersToExpire_eq] at hpre hfull
    exact ⟨as, ts, es, hpolled.calls ▸ hadv.calls, hpre, hfull⟩
  · obtain ⟨n, hn⟩ := handlerPhases_returns (s₁.currentMsec - s.currentMsec) hh g₁ N
      fun n q => hN n _ _ (hrun n) q
    exact ⟨n, _, by rw [hrun n, ← hn]⟩

def oneRegistered : World (Bool × Side) Bool 64 :=
  (pollRun (·, ·) (initPostedQueues twoConnections) [.add true .read]).getD twoConnections

def oneReady : PollOutcome 64 := ⟨1, 0, fun _ => POLLIN, 5⟩

theorem oneRegistered_inv : Wired [false, true] (·, ·) oneRegistered ∧
    PollInv [false, true] (·, ·) oneRegistered ∧ Queues oneRegistered fun _ => [] := by
  have hops : ∀ op ∈ [PollOp.add true .read], op.conn ∈ [false, true] := by decide
  have hwired : Wired [false, true] (·, ·) (initPostedQueues twoConnections) :=
    ⟨by decide, fun _ _ d => by cases d <;> rfl, fun _ _ _ => rfl, by decide, by decide, by decide,
      by decide, by decide⟩
  obtain ⟨hw, hp⟩ : Wired [false, true] (·, ·) oneRegistered ∧
      PollInv [false, true] (·, ·) oneRegistered :=
    PollTable.registered hwired rfl (fun _ _ _ => ⟨rfl, rfl⟩) hops twoConnections
  have hq : Queues oneRegistered fun _ => [] :=
    (PostedSys.start_queues (s := twoConnections) (fun _ => rfl) rfl).congr rfl
      (fun ev => by rcases ev with ⟨_ | _, _ | _⟩ <;> rfl) rfl
  exact ⟨hw, hp, hq⟩

/-- A handler that posts its event for the next iteration. -/
theorem processEventsAndTimers_phases_repost : ∃ s₁ t s₂ s₃,
    Polled [false, true] (·, ·) oneReady oneRegistered s₁ ∧
      processEventsAndTimers (fun ev s => postEvent s ev .acceptEvents) oneReady 2 oneRegistered =
        some (t, true) ∧ Iteration oneRegistered s₁ s₂ s₃ t := by
  obtain ⟨hw, hp, hq⟩ := oneRegistered_inv
  obtain ⟨s₁, rc, -, hpolled, hrun, -⟩ := processEventsAndTimers_phases [false, true] (·, ·)
    oneRegistered (fun _ => []) (fun ev s => postEvent s ev .acceptEvents) oneReady hw hp hq
    List.Pairwise.nil (fun ev s => .single (.post s ev .acceptEvents)) rfl
  obtain ⟨t, done, ht, -, hiter⟩ := hrun 2
  obtain rfl : done = true := by
    have := congrArg (Option.map Prod.snd) ht
    exact (Option.some.inj this).symm
  obtain ⟨s₂, s₃, -, -, h⟩ := hiter rfl
  exact ⟨s₁, t, s₂, s₃, hpolled, ht, h⟩

end Lingx.Events
