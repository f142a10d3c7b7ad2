import Lingx.Events.Queue
import Lingx.Library.Mailbox
import Mathlib.Data.BitVec

/-! The globals of the event subsystem. Events, connections and queue nodes are
reached through pointers, so the state holds one map per kind of object, with
`Events_`, `nEvents_`, `Event_timer_rbtree_`, the two posted queues and
`Current_msec` beside them. The history is a ghost: the functions append to it
what they do and none reads it. -/

namespace Lingx.Events

open Library

/-- `Posted_accept_events` and `Posted_events`. -/
inductive PostedQueue where
  | acceptEvents | events
  deriving DecidableEq, Repr

/-- The addresses of queue nodes: a header, or the `queue` member of an event. -/
inductive QueuePtr (E : Type) where
  | header (q : PostedQueue)
  | queue (ev : E)
  deriving DecidableEq, Repr

/-- `Queue_data(q, Event, queue)`; a header lies in no event. -/
def queueData {E : Type} : QueuePtr E → Option E
  | .header _ => none
  | .queue ev => some ev

/-- `msec_t` has the width of `ulong`. -/
abbrev Msec (w : ℕ) := BitVec w

def INVALID_INDEX : ℕ := 0xd0d0d0d0

/-- The range of `uint`. -/
def uintSize : ℕ := 2 ^ 32

/-- The members of `struct Event` that the event functions use. -/
structure Event (C : Type) (w : ℕ) where
  data : C
  accept : Bool
  active : Bool
  ready : Bool
  timedout : Bool
  timerSet : Bool
  posted : Bool
  index : ℕ
  timerKey : Msec w

/-- The members of `struct Connection` that the event functions use. -/
structure Connection (E : Type) where
  read : Option E
  write : Option E
  fd : ℤ

/-- The `events` and `revents` of a `struct pollfd` are shorts. -/
abbrev PollMask := BitVec 16

def POLLIN : PollMask := 0x001
def POLLOUT : PollMask := 0x004
def POLLERR : PollMask := 0x008
def POLLHUP : PollMask := 0x010
def POLLNVAL : PollMask := 0x020

/-- The two events of a connection, by what poll reports for them. -/
inductive Side where
  | read | write
  deriving DecidableEq, Repr

namespace Side

def other : Side → Side
  | read => write
  | write => read

def pollEvent : Side → PollMask
  | read => POLLIN
  | write => POLLOUT

instance (p : Side → Prop) [DecidablePred p] : Decidable (∃ d, p d) :=
  decidable_of_iff (p read ∨ p write)
    ⟨fun h => h.elim (fun h => ⟨_, h⟩) fun h => ⟨_, h⟩, fun ⟨d, h⟩ => by cases d <;> simp [h]⟩

theorem eq_or_eq_other (c d : Side) : c = d ∨ c = d.other := by
  cases c <;> cases d <;> simp [other]

end Side

def Connection.side {E : Type} (c : Connection E) : Side → Option E
  | .read => c.read
  | .write => c.write

structure PollFd where
  fd : ℤ
  events : PollMask
  revents : PollMask
  deriving DecidableEq, Repr

/-- The messages the poll module logs at level `ALERT`. -/
inductive Alert where
  | alreadySet (fd : ℤ) (event : PollMask)
  | alreadyDeleted (fd : ℤ) (event : PollMask)
  | unexpectedLast
  | pollError (p : PollFd)
  | strangeEvents (p : PollFd)
  | unexpectedEvent
  | noEventsWithoutTimeout
  | readyNeEvents
  deriving DecidableEq, Repr

/-- A timer handler's call, the one step of the loop that no posting leads to. -/
inductive Fired (E : Type) where
  | fired (ev : E)
  deriving DecidableEq, Repr

structure World (E C : Type) (w : ℕ) where
  event : E → Event C w
  conn : C → Connection E
  /-- `Cur_cycle->files()` -/
  files : List (Option C)
  /-- `Events_` -/
  events : List PollFd
  /-- `nEvents_` -/
  nEvents : ℕ
  /-- the links of the posted queues -/
  heap : QueuePtr E → Links (QueuePtr E)
  /-- `Event_timer_rbtree_`, in its order -/
  timerRbtree : List E
  /-- `Current_msec` -/
  currentMsec : Msec w
  eventTimerAlarm : Bool
  alerts : List Alert
  hist : Mailbox.History E PostedQueue (Fired E)

/-- Zeroed globals, all events of one connection. -/
def World.zero {E C : Type} {w : ℕ} (c : C) : World E C w where
  event _ := ⟨c, false, false, false, false, false, false, INVALID_INDEX, 0⟩
  conn _ := ⟨none, none, -1⟩
  files := []
  events := []
  nEvents := 0
  heap _ := ⟨.header .events, .header .events⟩
  timerRbtree := []
  currentMsec := 0
  eventTimerAlarm := false
  alerts := []
  hist := []

namespace World

variable {E C : Type} {w : ℕ}

section Globals
variable (s : World E C w) (i : ℕ) (p : PollFd)

def observe (o : Mailbox.Obs E PostedQueue (Fired E)) : World E C w :=
  { s with hist := o :: s.hist }

def alert (a : Alert) : World E C w := { s with alerts := s.alerts ++ [a] }

/-- `Cur_cycle->files()[fd]`; `none` is an access out of range or a null entry. -/
def file (fd : ℤ) : Option C := if 0 ≤ fd then (s.files[fd.toNat]?).join else none

/-- `Events_[i] = p`. -/
def setPollFd : World E C w := { s with events := s.events.set i p }

def setNEvents : World E C w := { s with nEvents := i }

@[simp] theorem setPollFd_event : (s.setPollFd i p).event = s.event := rfl
@[simp] theorem setPollFd_conn : (s.setPollFd i p).conn = s.conn := rfl
@[simp] theorem setPollFd_files : (s.setPollFd i p).files = s.files := rfl
@[simp] theorem setPollFd_file : (s.setPollFd i p).file = s.file := rfl
@[simp] theorem setPollFd_events : (s.setPollFd i p).events = s.events.set i p := rfl
@[simp] theorem setPollFd_nEvents : (s.setPollFd i p).nEvents = s.nEvents := rfl

@[simp] theorem setNEvents_event : (s.setNEvents i).event = s.event := rfl
@[simp] theorem setNEvents_conn : (s.setNEvents i).conn = s.conn := rfl
@[simp] theorem setNEvents_files : (s.setNEvents i).files = s.files := rfl
@[simp] theorem setNEvents_file : (s.setNEvents i).file = s.file := rfl
@[simp] theorem setNEvents_events : (s.setNEvents i).events = s.events := rfl
@[simp] theorem setNEvents_nEvents : (s.setNEvents i).nEvents = i := rfl

end Globals

section Events
variable [DecidableEq E] (s : World E C w) (ev : E)

/-- Write the members of one event. -/
def setEvent (f : Event C w → Event C w) : World E C w :=
  { s with event := Function.update s.event ev (f (s.event ev)) }

def setActive (b : Bool) : World E C w := s.setEvent ev fun e => { e with active := b }

def setIndex (i : ℕ) : World E C w := s.setEvent ev fun e => { e with index := i }

variable (e : E) (b : Bool) (i : ℕ)

@[simp] theorem setActive_conn : (s.setActive ev b).conn = s.conn := rfl
@[simp] theorem setActive_files : (s.setActive ev b).files = s.files := rfl
@[simp] theorem setActive_file : (s.setActive ev b).file = s.file := rfl
@[simp] theorem setActive_events : (s.setActive ev b).events = s.events := rfl
@[simp] theorem setActive_nEvents : (s.setActive ev b).nEvents = s.nEvents := rfl

@[simp] theorem setActive_index : ((s.setActive ev b).event e).index = (s.event e).index := by
  by_cases he : e = ev <;> simp [setActive, setEvent, he]

@[simp] theorem setActive_data : ((s.setActive ev b).event e).data = (s.event e).data := by
  by_cases he : e = ev <;> simp [setActive, setEvent, he]

@[simp] theorem setActive_active :
    ((s.setActive ev b).event e).active = if e = ev then b else (s.event e).active := by
  by_cases he : e = ev <;> simp [setActive, setEvent, he]

@[simp] theorem setIndex_conn : (s.setIndex ev i).conn = s.conn := rfl
@[simp] theorem setIndex_files : (s.setIndex ev i).files = s.files := rfl
@[simp] theorem setIndex_file : (s.setIndex ev i).file = s.file := rfl
@[simp] theorem setIndex_events : (s.setIndex ev i).events = s.events := rfl
@[simp] theorem setIndex_nEvents : (s.setIndex ev i).nEvents = s.nEvents := rfl

@[simp] theorem setIndex_index :
    ((s.setIndex ev i).event e).index = if e = ev then i else (s.event e).index := by
  by_cases he : e = ev <;> simp [setIndex, setEvent, he]

@[simp] theorem setIndex_data : ((s.setIndex ev i).event e).data = (s.event e).data := by
  by_cases he : e = ev <;> simp [setIndex, setEvent, he]

@[simp] theorem setIndex_active : ((s.setIndex ev i).event e).active = (s.event e).active := by
  by_cases he : e = ev <;> simp [setIndex, setEvent, he]

end Events

end World

end Lingx.Events
