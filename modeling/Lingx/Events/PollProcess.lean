import Lingx.Events.Handlers
import Lingx.Events.PollRun

/-! `Poll_process_events_`. The loop walks the slots until it has met as many ready
ones as `poll` counted, and posts the active events that are reported. What `poll`
and the clock return is an input. -/

namespace Lingx.Events

open Library

variable {E C : Type} {w : ℕ}

def EINTR : ℤ := 4

def UPDATE_TIME : ℕ := 1

/-- A call of `poll`, and the time read after it. -/
structure PollOutcome (w : ℕ) where
  ready : ℤ
  errno : ℤ
  revents : ℕ → PollMask
  now : Msec w

inductive Rc where
  | ok | error
  deriving DecidableEq, Repr

/-- `poll` writes the `revents` of the slots it is given. -/
def World.pollRevents (s : World E C w) (revents : ℕ → PollMask) : World E C w :=
  { s with events := s.events.mapIdx fun i p =>
    if i < s.nEvents then { p with revents := revents i } else p }

/-- The state after the call of `poll` and the update of the time. -/
def World.pollReturn (s : World E C w) (o : PollOutcome w) (flags : ℕ) : World E C w :=
  let s := s.pollRevents o.revents
  if flags &&& UPDATE_TIME ≠ 0 ∨ s.eventTimerAlarm then { s with currentMsec := o.now } else s

section Return
variable (s : World E C w) (o : PollOutcome w) (flags : ℕ)

@[simp] theorem pollReturn_event : (s.pollReturn o flags).event = s.event := by
  simp only [World.pollReturn]; split_ifs <;> rfl

@[simp] theorem pollReturn_conn : (s.pollReturn o flags).conn = s.conn := by
  simp only [World.pollReturn]; split_ifs <;> rfl

@[simp] theorem pollReturn_files : (s.pollReturn o flags).files = s.files := by
  simp only [World.pollReturn]; split_ifs <;> rfl

@[simp] theorem pollReturn_nEvents : (s.pollReturn o flags).nEvents = s.nEvents := by
  simp only [World.pollReturn]; split_ifs <;> rfl

@[simp] theorem pollReturn_heap : (s.pollReturn o flags).heap = s.heap := by
  simp only [World.pollReturn]; split_ifs <;> rfl

@[simp] theorem pollReturn_hist : (s.pollReturn o flags).hist = s.hist := by
  simp only [World.pollReturn]; split_ifs <;> rfl

@[simp] theorem pollReturn_timerRbtree : (s.pollReturn o flags).timerRbtree = s.timerRbtree := by
  simp only [World.pollReturn]; split_ifs <;> rfl

theorem pollReturn_events : (s.pollReturn o flags).events = (s.pollRevents o.revents).events := by
  simp only [World.pollReturn]; split_ifs <;> rfl

end Return

/-- The error events stand for both directions. -/
def expandRevents (revents : PollMask) : PollMask :=
  if revents &&& (POLLERR ||| POLLHUP ||| POLLNVAL) ≠ 0 then revents ||| (POLLIN ||| POLLOUT)
  else revents

/-- The queue a ready event is posted to. -/
def Side.queue (d : Side) (accept : Bool) : PostedQueue :=
  match d with
  | .read => if accept then .acceptEvents else .events
  | .write => .events

variable [DecidableEq E]

/-- One direction of a ready connection, with whether an active event was found. -/
def pollPostReady (s : World E C w) (c : C) (d : Side) (revents : PollMask) :
    Option (World E C w × Bool) :=
  if revents &&& d.pollEvent = 0 then some (s, false)
  else do
    let ev ← (s.conn c).side d
    if (s.event ev).active then
      let s := s.setEvent ev fun m => { m with ready := true }
      some (postEvent s ev (d.queue (s.event ev).accept), true)
    else some (s, false)

/-- The complaints about a slot's `revents`. -/
def World.alertRevents (s : World E C w) (p : PollFd) : World E C w :=
  let s := if p.revents &&& POLLNVAL ≠ 0 then s.alert (.pollError p) else s
  if p.revents &&& ~~~(POLLIN ||| POLLOUT ||| POLLERR ||| POLLHUP ||| POLLNVAL) ≠ 0 then
    s.alert (.strangeEvents p)
  else s

/-- The body of the loop over the slots, with whether an active event was found. -/
def pollProcessSlot (s : World E C w) (i : ℕ) : Option (World E C w × Bool) := do
  let p ← s.events[i]?
  let s := s.alertRevents p
  if p.fd = -1 then some (s, false)
  else do
    let c ← s.file p.fd
    if (s.conn c).fd = -1 then
      let s := s.alert .unexpectedEvent
      some (if i = s.nEvents - 1 then s.setNEvents (s.nEvents - 1)
        else s.setPollFd i { p with fd := -1 }, false)
    else do
      let revents := expandRevents p.revents
      let (s, foundRead) ← pollPostReady s c .read revents
      let (s, foundWrite) ← pollPostReady s c .write revents
      some (s, foundRead || foundWrite)

/-- The loop over the slots from `i` on, for at most `k` of them. -/
def pollProcessLoop : ℕ → ℕ → ℤ → World E C w → Option (World E C w × ℤ)
  | 0, _, ready, s => some (s, ready)
  | k + 1, i, ready, s =>
    if i < s.nEvents ∧ ready ≠ 0 then do
      let (s, found) ← pollProcessSlot s i
      pollProcessLoop k (i + 1) (if found then ready - 1 else ready) s
    else some (s, ready)

/-- `Poll_process_events_`; `none` is an access out of range. -/
def pollProcessEvents (o : PollOutcome w) (timer : Msec w) (flags : ℕ) (s : World E C w) :
    Option (World E C w × Rc) :=
  let s := s.pollReturn o flags
  let err := if o.ready = -1 then o.errno else 0
  if err ≠ 0 then
    if err = EINTR ∧ s.eventTimerAlarm then some ({ s with eventTimerAlarm := false }, .ok)
    else some (s, .error)
  else if o.ready = 0 then
    if timer ≠ TIMER_INFINITE then some (s, .ok)
    else some (s.alert .noEventsWithoutTimeout, .error)
  else do
    let (s, ready) ← pollProcessLoop s.nEvents 0 o.ready s
    some (if ready ≠ 0 then s.alert .readyNeEvents else s, .ok)

/-- What `poll` tells about one direction of a slot. -/
def Reported (revents : PollMask) (d : Side) : Prop := expandRevents revents &&& d.pollEvent ≠ 0

/-- From one state of the loop over the slots to a later one. -/
structure PollFrame (s t : World E C w) : Prop where
  steps : Relation.ReflTransGen HandlerStep s t
  conn : t.conn = s.conn
  files : t.files = s.files
  events : t.events = s.events
  nEvents : t.nEvents = s.nEvents
  active : ∀ ev, (t.event ev).active = (s.event ev).active
  ready : ∀ ev, (s.event ev).ready = true → (t.event ev).ready = true
  posted : ∀ ev, (s.event ev).posted = true → (t.event ev).posted = true
  timerRbtree : t.timerRbtree = s.timerRbtree
  timerKey : t.timerKey = s.timerKey

namespace PollFrame

variable {s t u : World E C w}

theorem refl (s : World E C w) : PollFrame s s :=
  ⟨.refl, rfl, rfl, rfl, rfl, fun _ => rfl, fun _ => id, fun _ => id, rfl, rfl⟩

theorem trans (h : PollFrame s t) (h' : PollFrame t u) : PollFrame s u where
  steps := h.steps.trans h'.steps
  conn := h'.conn.trans h.conn
  files := h'.files.trans h.files
  events := h'.events.trans h.events
  nEvents := h'.nEvents.trans h.nEvents
  active ev := (h'.active ev).trans (h.active ev)
  ready ev hr := h'.ready ev (h.ready ev hr)
  posted ev hp := h'.posted ev (h.posted ev hp)
  timerRbtree := h'.timerRbtree.trans h.timerRbtree
  timerKey := h'.timerKey.trans h.timerKey

theorem alert (s : World E C w) (a : Alert) : PollFrame s (s.alert a) :=
  ⟨.single (.quiet _ _ ⟨rfl, rfl, fun _ => rfl, rfl, fun _ => rfl, rfl⟩), rfl, rfl, rfl, rfl,
    fun _ => rfl, fun _ => id, fun _ => id, rfl, rfl⟩

theorem alertIf (s : World E C w) (p : Prop) [Decidable p] (a : Alert) :
    PollFrame s (if p then s.alert a else s) := by
  split_ifs
  · exact .alert s a
  · exact .refl s

theorem alertRevents (s : World E C w) (p : PollFd) : PollFrame s (s.alertRevents p) :=
  (alertIf s _ _).trans (alertIf _ _ _)

theorem setReady (s : World E C w) (ev : E) :
    PollFrame s (s.setEvent ev fun m => { m with ready := true }) := by
  have hk := setEvent_timerKey s ev (f := fun m => { m with ready := true }) rfl
  have hpost : ∀ e, ((s.setEvent ev fun m => { m with ready := true }).event e).posted =
      (s.event e).posted := by
    intro e
    by_cases he : e = ev
    · subst he; simp [World.setEvent]
    · simp [World.setEvent, he]
  refine ⟨.single (.quiet _ _ ⟨rfl, rfl, hpost, rfl, congrFun hk, rfl⟩), rfl, rfl, rfl, rfl,
    fun e => ?_, fun e => ?_, fun e => (hpost e).trans, rfl, hk⟩ <;>
  by_cases he : e = ev <;> simp [World.setEvent, he]

theorem postEvent (s : World E C w) (ev : E) (q : PostedQueue) :
    PollFrame s (postEvent s ev q) := by
  by_cases hp : (s.event ev).posted = true
  · rw [Queues.post_posted hp]
    exact .refl s
  · refine ⟨.single (.post s ev q), ?_, ?_, ?_, ?_, fun e => ?_, fun e => ?_, fun e => ?_, ?_,
      postEvent_timerKey s ev q⟩ <;>
    rw [postEvent_eq hp] <;> by_cases he : e = ev <;> simp [he]

theorem file (h : PollFrame s t) (fd : ℤ) : t.file fd = s.file fd := by
  rw [World.file, World.file, h.files]

end PollFrame

section Process
variable {cs : List C} {ends : C → Side → E} {s : World E C w} {c : C}

/-- The event is marked ready and waits in a posted queue. -/
def Waits (s : World E C w) (ev : E) : Prop :=
  (s.event ev).ready = true ∧ (s.event ev).posted = true

theorem Waits.frame {t : World E C w} {ev : E} (h : Waits s ev) (f : PollFrame s t) : Waits t ev :=
  ⟨f.ready ev h.1, f.posted ev h.2⟩

theorem postEvent_waits (s : World E C w) (ev : E) (q : PostedQueue) :
    Waits (postEvent (s.setEvent ev fun m => { m with ready := true }) ev q) ev := by
  have hr : ((s.setEvent ev fun m => { m with ready := true }).event ev).ready = true := by
    simp [World.setEvent]
  refine ⟨(PollFrame.postEvent _ ev q).ready ev hr, ?_⟩
  generalize s.setEvent ev (fun m => { m with ready := true }) = u
  by_cases hp : (u.event ev).posted = true
  · rwa [Queues.post_posted hp]
  · simp [postEvent_eq hp]

theorem pollPostReady_spec {ev : E} {d : Side} (revents : PollMask)
    (hd : (s.conn c).side d = some ev) : ∃ t found, pollPostReady s c d revents = some (t, found) ∧
      PollFrame s t ∧ (found = true → revents &&& d.pollEvent ≠ 0) ∧
      (revents &&& d.pollEvent ≠ 0 → (s.event ev).active = true → Waits t ev) := by
  by_cases hr : revents &&& d.pollEvent = 0
  · exact ⟨s, false, by simp [pollPostReady, hr], .refl s, by simp, fun h => absurd hr h⟩
  by_cases ha : (s.event ev).active = true
  · exact ⟨_, true, by simp only [pollPostReady, if_neg hr, hd, Option.bind_eq_bind,
      Option.bind_some, if_pos ha]; rfl, (PollFrame.setReady s ev).trans (.postEvent _ ev _),
      fun _ => hr, fun _ _ => postEvent_waits s ev _⟩
  · exact ⟨s, false, by simp [pollPostReady, hd, ha], .refl s, by simp, fun _ h => absurd h ha⟩

/-- A slot through whose descriptor its connection and the events are found. -/
structure SlotConn (ends : C → Side → E) (s : World E C w) (i : ℕ) (c : C) (p : PollFd) :
    Prop where
  slot : s.events[i]? = some p
  file : s.file p.fd = some c
  fd : (s.conn c).fd = p.fd
  nonneg : 0 ≤ p.fd
  side : ∀ d, (s.conn c).side d = some (ends c d)

theorem SlotConn.frame {t : World E C w} {i : ℕ} {p : PollFd} (h : SlotConn ends s i c p)
    (f : PollFrame s t) : SlotConn ends t i c p where
  slot := f.events ▸ h.slot
  file := (f.file p.fd).trans h.file
  fd := f.conn ▸ h.fd
  nonneg := h.nonneg
  side := f.conn ▸ h.side

/-- A slot is found ready only if `poll` reports something, and its active events
that are reported are posted. -/
theorem pollProcessSlot_spec {i : ℕ} {p : PollFd} (h : SlotConn ends s i c p) :
    ∃ t found, pollProcessSlot s i = some (t, found) ∧ PollFrame s t ∧
      (found = true → p.revents ≠ 0) ∧
      ∀ d, Reported p.revents d → (s.event (ends c d)).active = true → Waits t (ends c d) := by
  have f₀ := PollFrame.alertRevents s p
  have h₀ := h.frame f₀
  obtain ⟨t, found, ht, f₁, hfound, hwait⟩ :=
    pollPostReady_spec (expandRevents p.revents) (h₀.side .read)
  obtain ⟨u, found', hu, f₂, hfound', hwait'⟩ :=
    pollPostReady_spec (expandRevents p.revents) ((h₀.frame f₁).side .write)
  have hne : ∀ d, expandRevents p.revents &&& Side.pollEvent d ≠ 0 → p.revents ≠ 0 := by
    intro d h h0
    rw [h0] at h
    cases d <;> exact h (by decide)
  refine ⟨u, found || found', ?_, f₀.trans (f₁.trans f₂), fun h => ?_, fun d hr ha => ?_⟩
  · have hfd : p.fd ≠ -1 := by have := h.nonneg; omega
    have hcfd : ((s.alertRevents p).conn c).fd ≠ -1 := h₀.fd ▸ hfd
    simp [pollProcessSlot, h.slot, hfd, h₀.file, hcfd, ht, hu]
  · rcases (Bool.or_eq_true _ _).mp h with h | h
    · exact hne _ (hfound h)
    · exact hne _ (hfound' h)
  · cases d with
    | read => exact (hwait hr ((f₀.active _).trans ha)).frame f₂
    | write => exact hwait' hr ((f₁.active _).trans ((f₀.active _).trans ha))

/-- The slots from one on that `poll` reports something for. -/
def readyFrom (s : World E C w) (i : ℕ) : ℕ :=
  ((s.events.take s.nEvents).drop i).countP fun p => p.revents ≠ 0

omit [DecidableEq E] in
theorem readyFrom_succ {i : ℕ} {p : PollFd} (hi : i < s.nEvents) (hp : s.events[i]? = some p) :
    readyFrom s i = readyFrom s (i + 1) + if p.revents ≠ 0 then 1 else 0 := by
  obtain ⟨hlt, rfl⟩ := List.getElem?_eq_some_iff.mp hp
  rw [readyFrom, List.drop_eq_getElem_cons (by simp; omega), List.countP_cons, List.getElem_take]
  simp [readyFrom]

omit [DecidableEq E] in
theorem revents_eq_zero {i j : ℕ} {p : PollFd} (h : readyFrom s i = 0) (hij : i ≤ j)
    (hj : j < s.nEvents) (hp : s.events[j]? = some p) : p.revents = 0 := by
  have hm : p ∈ (s.events.take s.nEvents).drop i := by
    refine List.mem_iff_getElem?.mpr ⟨j - i, ?_⟩
    rw [List.getElem?_drop, List.getElem?_take, if_pos (by omega)]
    rwa [show i + (j - i) = j by omega]
  simpa using List.countP_eq_zero.mp h p hm

theorem not_reported_zero (d : Side) : ¬ Reported 0 d := by
  cases d <;> exact fun h => h (by decide)

/-- The loop meets every ready slot: it stops early only once it has met as many as
there are. -/
theorem pollProcessLoop_spec (ends : C → Side → E) (k i : ℕ) (ready : ℤ)
    (hs : ∀ j < s.nEvents, ∃ c p, SlotConn ends s j c p) (hk : s.nEvents ≤ i + k)
    (hready : readyFrom s i ≤ ready) :
    ∃ t r, pollProcessLoop k i ready s = some (t, r) ∧ PollFrame s t ∧
      ∀ j ≥ i, j < s.nEvents → ∀ c p, SlotConn ends s j c p → ∀ d, Reported p.revents d →
        (s.event (ends c d)).active = true → Waits t (ends c d) := by
  induction k generalizing i ready s with
  | zero => exact ⟨s, ready, rfl, .refl s, fun j hj hjn => by omega⟩
  | succ k ih =>
    by_cases hgo : i < s.nEvents ∧ ready ≠ 0
    · obtain ⟨c, p, hc⟩ := hs i hgo.1
      obtain ⟨t, found, ht, f, hfound, hwait⟩ := pollProcessSlot_spec hc
      have hcount := readyFrom_succ hgo.1 hc.slot
      have hsame : readyFrom t (i + 1) = readyFrom s (i + 1) := by
        rw [readyFrom, readyFrom, f.events, f.nEvents]
      have hnext : readyFrom t (i + 1) ≤ if found then ready - 1 else ready := by
        cases found with
        | false => simp only [Bool.false_eq_true, if_false]; omega
        | true =>
          rw [if_pos (hfound rfl)] at hcount
          simp only [if_true]
          omega
      obtain ⟨u, r, hu, f', hrest⟩ := ih (s := t) (i + 1) _
        (fun j hj => (hs j (f.nEvents ▸ hj)).imp fun c h => h.imp fun p h => h.frame f)
        (by rw [f.nEvents]; omega) hnext
      refine ⟨u, r, by simp [pollProcessLoop, hgo, ht, hu], f.trans f', ?_⟩
      intro j hij hj c' p' hc' d hr ha
      rcases Nat.eq_or_lt_of_le hij with rfl | hlt
      · obtain rfl : p = p' := Option.some.inj (hc.slot.symm.trans hc'.slot)
        obtain rfl : c = c' := Option.some.inj (hc.file.symm.trans hc'.file)
        exact (hwait d hr ha).frame f'
      · exact hrest j hlt (f.nEvents ▸ hj) c' p' (hc'.frame f) d hr ((f.active _).trans ha)
    · refine ⟨s, ready, by rw [pollProcessLoop, if_neg hgo], .refl s, ?_⟩
      intro j hij hj c p hc d hr
      have hzero : readyFrom s i = 0 := by omega
      rw [revents_eq_zero hzero hij hj hc.slot] at hr
      exact absurd hr (not_reported_zero d)

section Return
variable (o : PollOutcome w) (flags : ℕ)

omit [DecidableEq E] in
/-- The slots keep their connections, and their `revents` are those `poll` wrote. -/
theorem PollSlot.slotConn {i : ℕ} {p : PollFd} (hw : Wired cs ends s) (hi : i < s.nEvents)
    (h : PollSlot cs ends s i c p) :
    SlotConn ends (s.pollReturn o flags) i c { p with revents := o.revents i } where
  slot := by
    rw [pollReturn_events, World.pollRevents, List.getElem?_mapIdx, h.slot]
    simp [hi]
  file := by
    have hf := hw.file c h.mem
    rw [← h.fd] at hf
    simpa [World.file] using hf
  fd := by simp [h.fd]
  nonneg := h.fd ▸ hw.fd c h.mem
  side d := by simpa using hw.side c h.mem d

/-- Without an error, every active event that is reported is posted, and nothing
else is done but postings. -/
theorem pollProcessEvents_spec (hw : Wired cs ends s) (g : PollInv cs ends s) (timer : Msec w)
    (ho : o.ready = readyFrom (s.pollReturn o flags) 0) :
    ∃ t rc, pollProcessEvents o timer flags s = some (t, rc) ∧
      PollFrame (s.pollReturn o flags) t ∧
      ∀ i < s.nEvents, ∀ c p, PollSlot cs ends s i c p → ∀ d, Reported (o.revents i) d →
        (s.event (ends c d)).active = true → Waits t (ends c d) := by
  have herr : ¬ o.ready = -1 := by omega
  by_cases hz : o.ready = 0
  · have hnone : ∀ i < s.nEvents, ∀ c p, PollSlot cs ends s i c p → ∀ d,
        ¬ Reported (o.revents i) d := by
      intro i hi c p h d hr
      have hzero := revents_eq_zero (i := 0) (by omega) (by omega)
        ((pollReturn_nEvents s o flags).symm ▸ hi) (h.slotConn o flags hw hi).slot
      exact not_reported_zero d (hzero ▸ hr)
    by_cases ht : timer = TIMER_INFINITE
    · exact ⟨(s.pollReturn o flags).alert .noEventsWithoutTimeout, .error,
        by simp [pollProcessEvents, hz, ht], .alert _ _,
        fun i hi c p h d hr => absurd hr (hnone i hi c p h d)⟩
    · exact ⟨s.pollReturn o flags, .ok, by simp [pollProcessEvents, hz, ht], .refl _,
        fun i hi c p h d hr => absurd hr (hnone i hi c p h d)⟩
  · obtain ⟨t, r, ht, f, hwait⟩ := pollProcessLoop_spec ends
      (s := s.pollReturn o flags) s.nEvents 0 o.ready (fun j hj => by
        rw [pollReturn_nEvents] at hj
        obtain ⟨c, p, h⟩ := g.slot j hj
        exact ⟨c, _, h.slotConn o flags hw hj⟩) (by simp) (by omega)
    refine ⟨if r ≠ 0 then t.alert .readyNeEvents else t, .ok, ?_, f.trans (.alertIf t _ _), ?_⟩
    · simp [pollProcessEvents, herr, hz, ht]
    · intro i hi c p h d hr ha
      have := hwait i (by omega) (by simpa using hi) c _ (h.slotConn o flags hw hi) d hr
        (by simpa using ha)
      exact this.frame (.alertIf t _ _)

end Return

end Process

end Lingx.Events
