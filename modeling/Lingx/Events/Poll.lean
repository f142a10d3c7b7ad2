import Lingx.Events.State

/-! The poll module's operations on its table. The first `nEvents_` entries of
`Events_` are the slots given to `poll`; the read and the write event of a
connection share one slot, a freed slot is filled by the last one, and each event
remembers its slot. An access out of range ends a function with `none`. -/

namespace Lingx.Events

open Library

variable {E C : Type} {w : ℕ} [DecidableEq E]

namespace World

/-- The slot of the other event of a connection, `none` where
`e == nullptr || e->index == INVALID_INDEX`. -/
def partnerIndex (s : World E C w) (e : Option E) : Option ℕ :=
  e.bind fun e => if (s.event e).index = INVALID_INDEX then none else some (s.event e).index

/-- `if (e->index == nEvents_) e->index = ev->index`. -/
def repairIndex (s : World E C w) (e ev : E) : World E C w :=
  if (s.event e).index = s.nEvents then s.setIndex e (s.event ev).index else s

section Repair
variable (s : World E C w) (e ev x : E)

@[simp] theorem repairIndex_conn : (s.repairIndex e ev).conn = s.conn := by
  unfold repairIndex; split_ifs <;> rfl

@[simp] theorem repairIndex_files : (s.repairIndex e ev).files = s.files := by
  unfold repairIndex; split_ifs <;> rfl

@[simp] theorem repairIndex_events : (s.repairIndex e ev).events = s.events := by
  unfold repairIndex; split_ifs <;> rfl

@[simp] theorem repairIndex_nEvents : (s.repairIndex e ev).nEvents = s.nEvents := by
  unfold repairIndex; split_ifs <;> rfl

@[simp] theorem repairIndex_data : ((s.repairIndex e ev).event x).data = (s.event x).data := by
  unfold repairIndex; split_ifs <;> simp

@[simp] theorem repairIndex_active :
    ((s.repairIndex e ev).event x).active = (s.event x).active := by
  unfold repairIndex; split_ifs <;> simp

theorem repairIndex_index : ((s.repairIndex e ev).event x).index =
    if x = e ∧ (s.event x).index = s.nEvents then (s.event ev).index else (s.event x).index := by
  by_cases hx : x = e
  · subst hx
    unfold repairIndex
    split_ifs with h <;> simp_all
  · unfold repairIndex
    split_ifs <;> simp_all

variable {s e ev x} in
/-- Both events of a connection are repaired. Where no other has the index of the last slot,
all that have it follow the slot. -/
theorem repairIndex_both {v : E} (he : ev ≠ e) (hev : e ≠ v)
    (hx : (s.event x).index = s.nEvents → x = e ∨ x = v) :
    (((s.repairIndex e ev).repairIndex v ev).event x).index =
      if (s.event x).index = s.nEvents then (s.event ev).index else (s.event x).index := by
  simp only [repairIndex_index, repairIndex_nEvents]
  by_cases hn : (s.event x).index = s.nEvents
  · rcases hx hn with rfl | rfl
    · simp [hn, hev]
    · simp [hn, hev.symm, he]
  · simp [hn]

end Repair

end World

/-- `Poll_add_event_`; `none` is an access out of range. -/
def pollAddEvent (s : World E C w) (ev : E) (event : PollMask) : Option (World E C w) :=
  let c := s.conn (s.event ev).data
  let s := s.setActive ev true
  if (s.event ev).index ≠ INVALID_INDEX then some (s.alert (.alreadySet c.fd event))
  else match s.partnerIndex (if event = POLLIN then c.write else c.read) with
    | none => do
      let _ ← s.events[s.nEvents]?
      let t := s.setPollFd s.nEvents ⟨c.fd, event, 0⟩
      some ((t.setIndex ev s.nEvents).setNEvents ((s.nEvents + 1) % uintSize))
    | some i => do
      let p ← s.events[i]?
      some ((s.setPollFd i { p with events := p.events ||| event }).setIndex ev i)

/-- The slot of an event is freed: the last slot moves into it, and the events
found through the moved slot's descriptor get its new place. -/
def pollDelSlot (s : World E C w) (ev : E) : Option (World E C w) :=
  let s := s.setNEvents ((s.nEvents + uintSize - 1) % uintSize)
  let i := (s.event ev).index
  if i < s.nEvents then do
    let p ← s.events[s.nEvents]?
    let s := s.setPollFd i p
    let c ← s.file p.fd
    if (s.conn c).fd = -1 then some (s.alert .unexpectedLast)
    else do
      let r ← (s.conn c).read
      let s := s.repairIndex r ev
      let v ← (s.conn c).write
      some (s.repairIndex v ev)
  else some s

/-- `Poll_del_event_`; `none` is an access out of range or through a null pointer. -/
def pollDelEvent (s : World E C w) (ev : E) (event : PollMask) : Option (World E C w) :=
  let c := s.conn (s.event ev).data
  let s := s.setActive ev false
  if (s.event ev).index = INVALID_INDEX then some (s.alert (.alreadyDeleted c.fd event))
  else do
    let s ← match s.partnerIndex (if event = POLLIN then c.write else c.read) with
      | none => pollDelSlot s ev
      | some i => do
        let p ← s.events[i]?
        some (s.setPollFd i { p with events := p.events &&& ~~~event })
    some (s.setIndex ev INVALID_INDEX)

/-- The connections under poll and their events: distinct descriptors, found in
`files()`, and fewer of them than slots or indices. -/
structure Wired (cs : List C) (ends : C → Side → E) (s : World E C w) : Prop where
  nodup : cs.Nodup
  side : ∀ c ∈ cs, ∀ d, (s.conn c).side d = some (ends c d)
  data : ∀ c ∈ cs, ∀ d, (s.event (ends c d)).data = c
  ne : ∀ c ∈ cs, ends c .read ≠ ends c .write
  fd : ∀ c ∈ cs, 0 ≤ (s.conn c).fd
  file : ∀ c ∈ cs, s.file (s.conn c).fd = some c
  size : cs.length ≤ s.events.length
  small : cs.length < INVALID_INDEX

/-- What the poll operations leave as it was. -/
structure SameWiring (s t : World E C w) : Prop where
  conn : t.conn = s.conn
  files : t.files = s.files
  size : t.events.length = s.events.length
  data : ∀ e, (t.event e).data = (s.event e).data

namespace Wired

variable {cs : List C} {ends : C → Side → E} {s t : World E C w}

omit [DecidableEq E] in
theorem congr (hw : Wired cs ends s) (h : SameWiring s t) : Wired cs ends t where
  nodup := hw.nodup
  side := by rw [h.conn]; exact hw.side
  data c hc d := by rw [h.data]; exact hw.data c hc d
  ne := hw.ne
  fd := by rw [h.conn]; exact hw.fd
  file := by
    simp only [World.file, h.conn, h.files]
    exact hw.file
  size := by rw [h.size]; exact hw.size
  small := hw.small

omit [DecidableEq E] in
theorem ends_inj (hw : Wired cs ends s) {c c' : C} {d d' : Side} (hc : c ∈ cs) (hc' : c' ∈ cs)
    (h : ends c d = ends c' d') : c = c' ∧ d = d' := by
  obtain rfl : c = c' := by rw [← hw.data c hc d, h, hw.data c' hc' d']
  refine ⟨rfl, ?_⟩
  cases d <;> cases d'
  · rfl
  · exact absurd h (hw.ne c hc)
  · exact absurd h.symm (hw.ne c hc)
  · rfl

omit [DecidableEq E] in
/-- The event looked at beside the one that is added or deleted. -/
theorem partner (hw : Wired cs ends s) {c : C} (hc : c ∈ cs) (d : Side) :
    (if d.pollEvent = POLLIN then (s.conn (s.event (ends c d)).data).write
      else (s.conn (s.event (ends c d)).data).read) = some (ends c d.other) := by
  rw [hw.data c hc d, ← hw.side c hc d.other]
  cases d <;> rfl

end Wired

end Lingx.Events
