import Lingx.Events.Posted

/-! Runs of the posted queues. Between the calls of `Event_process_posted` and
inside every handler it calls, events are posted and deleted in any order; the
state machine below takes one such action or one turn of the drain loop at a
time. A `taken` entry of the history is a handler's call, so the accounting law
of the mailbox says which postings reached their handlers, and in which order. -/

namespace Lingx.Events

open Library

variable {E C : Type} {w : ℕ} [DecidableEq E]

/-- Where the control stands: outside `Event_process_posted`, at the test of its
loop, or in the handler it called. -/
inductive Control (E : Type) where
  | idle
  | draining (q : PostedQueue)
  | handling (q : PostedQueue) (ev : E)
  deriving DecidableEq, Repr

def Control.free {E : Type} : Control E → Bool
  | .draining _ => false
  | _ => true

inductive PostedAct (E : Type) where
  | post (ev : E) (q : PostedQueue)
  | delete (ev : E)
  | process (q : PostedQueue)
  | turn
  | ret
  deriving DecidableEq, Repr

structure PostedSys (E C : Type) (w : ℕ) where
  world : World E C w
  control : Control E

/-- The two `Queue_init` of `Event_core_process_init_`. -/
def initPostedQueues (s : World E C w) : World E C w :=
  { s with
    heap := queueInit (queueInit s.heap (.header .acceptEvents)) (.header .events) }

namespace PostedSys

/-- One action; `none` where the program cannot take it. Posting and deleting
happen outside the loop or in a handler, and only a posted event is deleted. -/
def step (s : PostedSys E C w) : PostedAct E → Option (PostedSys E C w)
  | .post ev q =>
    if s.control.free then some { s with world := postEvent s.world ev q } else none
  | .delete ev =>
    if s.control.free ∧ (s.world.event ev).posted then
      some { s with world := (deletePostedEvent s.world ev).observe (.dropped ev) }
    else none
  | .process q => match s.control with
    | .idle => some { s with control := .draining q }
    | _ => none
  | .turn => match s.control with
    | .draining q => match processPostedTurn s.world q with
      | none => some { s with control := .idle }
      | some (ev, t) => some ⟨t, .handling q ev⟩
    | _ => none
  | .ret => match s.control with
    | .handling q _ => some { s with control := .draining q }
    | _ => none

def run (s : PostedSys E C w) : List (PostedAct E) → Option (PostedSys E C w)
  | [] => some s
  | a :: as => (s.step a).bind fun t => t.run as

theorem run_append (s : PostedSys E C w) (as bs : List (PostedAct E)) :
    s.run (as ++ bs) = (s.run as).bind fun t => t.run bs := by
  induction as generalizing s with
  | nil => rfl
  | cons a as ih => simp [run, ih, Option.bind_assoc]

def start (s : World E C w) : PostedSys E C w := ⟨initPostedQueues s, .idle⟩

theorem turn_cases {s t : PostedSys E C w} (h : s.step .turn = some t) :
    ∃ q, s.control = .draining q ∧
      ((processPostedTurn s.world q = none ∧ t = ⟨s.world, .idle⟩) ∨
        ∃ ev, processPostedTurn s.world q = some (ev, t.world) ∧ t.control = .handling q ev) := by
  obtain ⟨sw, sc⟩ := s
  cases sc with
  | idle => cases h
  | handling q ev => cases h
  | draining q =>
    refine ⟨q, rfl, ?_⟩
    simp only [step] at h
    cases hp : processPostedTurn sw q with
    | none => rw [hp] at h; cases h; exact .inl ⟨rfl, rfl⟩
    | some p => rw [hp] at h; cases h; exact .inr ⟨p.1, rfl, rfl⟩

/-- An action of the user's posts, or drops an event that waits; a turn takes the
first event of the queue; the rest leave the queues alone. -/
theorem step_cases {s t : PostedSys E C w} {a : PostedAct E} (h : s.step a = some t) :
    t.world = s.world ∨ (∃ ev q, t.world = postEvent s.world ev q) ∨
    (∃ ev, (s.world.event ev).posted = true ∧
      t.world = (deletePostedEvent s.world ev).observe (.dropped ev)) ∨
    ∃ q ev, processPostedTurn s.world q = some (ev, t.world) := by
  cases a with
  | post ev q =>
    simp only [step, Option.ite_none_right_eq_some, Option.some.injEq] at h
    exact .inr (.inl ⟨ev, q, by rw [← h.2]⟩)
  | delete ev =>
    simp only [step, Option.ite_none_right_eq_some, Option.some.injEq] at h
    exact .inr (.inr (.inl ⟨ev, h.1.2, by rw [← h.2]⟩))
  | process q =>
    simp only [step] at h
    split at h <;> cases h
    exact .inl rfl
  | turn =>
    obtain ⟨q, -, ⟨-, rfl⟩ | ⟨ev, hp, -⟩⟩ := turn_cases h
    · exact .inl rfl
    · exact .inr (.inr (.inr ⟨q, ev, hp⟩))
  | ret =>
    simp only [step] at h
    split at h <;> cases h
    exact .inl rfl

theorem start_queues {s : World E C w} (hp : ∀ ev, (s.event ev).posted = false)
    (hh : s.hist = []) : Queues (start s).world fun _ => [] := by
  refine ⟨fun q => ?_, fun ev => by simp [start, initPostedQueues, hp], ?_⟩
  · cases q with
    | acceptEvents =>
      refine (ring_queueInit s.heap (.header .acceptEvents)).congr fun x hx => ?_
      exact queueInit_of_ne (by rintro rfl; simp at hx)
    | events => exact ring_queueInit _ _
  · refine ⟨fun _ => .nil, fun _ _ _ => by simp, fun q => ?_⟩
    simp [start, initPostedQueues, hh, Mailbox.takings, Mailbox.postings]

theorem step_queues {s t : PostedSys E C w} {a : PostedAct E} {lane : PostedQueue → List E}
    (g : Queues s.world lane) (h : s.step a = some t) : ∃ lane', Queues t.world lane' := by
  obtain ht | ⟨ev, q, ht⟩ | ⟨ev, hp, ht⟩ | ⟨q, ev, ht⟩ := step_cases h
  · exact ⟨lane, ht ▸ g⟩
  · by_cases hp : (s.world.event ev).posted = true
    · exact ⟨lane, by rw [ht, Queues.post_posted hp]; exact g⟩
    · exact ⟨_, ht ▸ g.post hp q⟩
  · obtain ⟨q, hm⟩ := (g.posted ev).mp hp
    exact ⟨_, ht ▸ g.drop hm⟩
  · cases hl : lane q with
    | nil => rw [g.turn_nil hl] at ht; cases ht
    | cons e l =>
      obtain ⟨he, hq⟩ := g.turn_cons hl
      rw [he, Option.some.injEq, Prod.mk.injEq] at ht
      exact ⟨_, ht.2 ▸ hq⟩

theorem run_queues {s t : PostedSys E C w} {as : List (PostedAct E)}
    {lane : PostedQueue → List E} (g : Queues s.world lane) (h : s.run as = some t) :
    ∃ lane', Queues t.world lane' := by
  induction as generalizing s lane with
  | nil => cases h; exact ⟨lane, g⟩
  | cons a as ih =>
    obtain ⟨u, hu, ht⟩ := Option.bind_eq_some_iff.mp h
    obtain ⟨lane', g'⟩ := step_queues g hu
    exact ih g' ht

/-- What holds of the posted queues in one state, with the events that wait in
each queue. -/
structure Sound (s : PostedSys E C w) (lane : PostedQueue → List E) : Prop where
  /-- both queues are well-formed rings -/
  ring : ∀ q, Ring s.world.heap (.header q) ((lane q).map .queue)
  /-- an event is linked at most once -/
  nodup : ∀ q, (lane q).Nodup
  /-- and in one queue at most -/
  disjoint : ∀ q r, q ≠ r → List.Disjoint (lane q) (lane r)
  /-- the flag says that it is linked -/
  posted : ∀ ev, (s.world.event ev).posted = true ↔ ∃ q, ev ∈ lane q
  /-- a second posting changes nothing, whichever queue it names -/
  repost : ∀ ev q, (s.world.event ev).posted = true → postEvent s.world ev q = s.world
  /-- the handler calls made for a queue, then the postings that wait in it, are the
  postings made to it and not deleted, in their order -/
  account : ∀ q, Mailbox.takings q s.world.hist ++
      (lane q).map (fun ev => Mailbox.ticket ev s.world.hist) =
    (Mailbox.postings q s.world.hist).filter fun t => t ∉ Mailbox.drops s.world.hist
  /-- postings are numbered in their order -/
  order : ∀ q, (Mailbox.postings q s.world.hist).Pairwise (· < ·)
  /-- the loop returns with its queue empty, or unlinks the first event, clears its
  flag and calls its handler -/
  turn : ∀ t, s.step .turn = some t → ∃ q, s.control = .draining q ∧
    ((lane q = [] ∧ t = ⟨s.world, .idle⟩) ∨ ∃ ev l, lane q = ev :: l ∧
      t.control = .handling q ev ∧ t.world.hist = .taken ev q :: s.world.hist ∧
      (t.world.event ev).posted = false ∧
      ∀ r, Ring t.world.heap (.header r) ((Function.update lane q l r).map .queue))

theorem sound_of_queues {s : PostedSys E C w} {lane : PostedQueue → List E}
    (g : Queues s.world lane) : Sound s lane := by
  refine ⟨g.ring, g.good.nodup, g.good.disjoint, g.posted, fun ev q hp => Queues.post_posted hp q,
    g.good.account, fun q => Mailbox.postings_pairwise q _, fun t ht => ?_⟩
  obtain ⟨q, hc, hq⟩ := turn_cases ht
  refine ⟨q, hc, ?_⟩
  cases hl : lane q with
  | nil =>
    rw [g.turn_nil hl] at hq
    exact .inl ⟨rfl, by simpa using hq⟩
  | cons e l =>
    obtain ⟨he, hg⟩ := g.turn_cons hl
    rw [he] at hq
    obtain ⟨h, -⟩ | ⟨ev, hev, htc⟩ := hq
    · cases h
    · rw [Option.some.injEq, Prod.mk.injEq] at hev
      obtain ⟨rfl, hw⟩ := hev
      refine .inr ⟨e, l, rfl, htc, by rw [← hw]; rfl, ?_, by rw [← hw]; exact hg.ring⟩
      simp [← hw, World.observe, deletePostedEvent, World.setEvent]

/-- From the two empty queues and no event posted, every run of postings,
deletions and drains keeps the posted queues sound. -/
theorem postedEvents_sound (s₀ : World E C w) (hp : ∀ ev, (s₀.event ev).posted = false)
    (hh : s₀.hist = []) (as : List (PostedAct E)) (s : PostedSys E C w)
    (hs : (start s₀).run as = some s) : ∃ lane, Sound s lane := by
  obtain ⟨lane, g⟩ := run_queues (start_queues hp hh) hs
  exact ⟨lane, sound_of_queues g⟩

/-- A handler that posts its own event to the other queue and deletes the next one. -/
theorem postedEvents_sound_repost : ∃ s lane,
    (start (World.zero () : World Bool Unit 64)).run [.post true .events, .post false .events,
      .post true .acceptEvents, .process .events, .turn, .post true .acceptEvents, .delete false,
      .ret, .turn] = some s ∧ Sound s lane := by
  obtain ⟨lane, h⟩ := postedEvents_sound (World.zero () : World Bool Unit 64) (fun _ => rfl) rfl
    [.post true .events, .post false .events, .post true .acceptEvents, .process .events, .turn,
      .post true .acceptEvents, .delete false, .ret, .turn] _ rfl
  exact ⟨_, lane, rfl, h⟩

end PostedSys

section Drain

inductive PostedStep : World E C w → World E C w → Prop where
  | post (s : World E C w) (ev : E) (q : PostedQueue) : PostedStep s (postEvent s ev q)
  | delete (s : World E C w) (ev : E) (hp : (s.event ev).posted = true) :
      PostedStep s ((deletePostedEvent s ev).observe (.dropped ev))

/-- What a handler does is a run of the state machine in the handler. -/
theorem run_of_postedSteps {s t : World E C w} (h : Relation.ReflTransGen PostedStep s t)
    {c : Control E} (hc : c.free = true) :
    ∃ as, (PostedSys.mk s c).run as = some ⟨t, c⟩ := by
  induction h with
  | refl => exact ⟨[], rfl⟩
  | tail _ hu ih =>
    obtain ⟨as, has⟩ := ih
    cases hu with
    | post ev q =>
      exact ⟨as ++ [.post ev q], by
        simp [PostedSys.run_append, has, PostedSys.run, PostedSys.step, hc]⟩
    | delete ev hp =>
      exact ⟨as ++ [.delete ev], by
        simp [PostedSys.run_append, has, PostedSys.run, PostedSys.step, hc, hp]⟩

/-- `Event_process_posted`, whatever its handlers do, is a run of the machine. -/
theorem run_of_eventProcessPosted (handler : E → World E C w → World E C w)
    (hh : ∀ ev s, Relation.ReflTransGen PostedStep s (handler ev s)) (n : ℕ) (q : PostedQueue)
    (s : World E C w) : ∃ as, (PostedSys.mk s (.draining q)).run as =
      some ⟨(eventProcessPosted handler n q s).1,
        if (eventProcessPosted handler n q s).2 then .idle else .draining q⟩ := by
  induction n generalizing s with
  | zero => exact ⟨[], rfl⟩
  | succ n ih =>
    cases hp : processPostedTurn s q with
    | none =>
      rw [eventProcessPosted_of_none handler n hp]
      exact ⟨[.turn], by simp [PostedSys.run, PostedSys.step, hp]⟩
    | some p =>
      obtain ⟨ev, t⟩ := p
      obtain ⟨as, has⟩ := run_of_postedSteps (hh ev t) (c := .handling q ev) rfl
      obtain ⟨bs, hbs⟩ := ih (handler ev t)
      rw [eventProcessPosted_of_some handler n hp, ← hbs]
      refine ⟨.turn :: (as ++ .ret :: bs), ?_⟩
      simp [PostedSys.run, PostedSys.step, hp, PostedSys.run_append, has]

end Drain

end Lingx.Events
