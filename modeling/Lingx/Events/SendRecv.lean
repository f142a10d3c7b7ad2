import Lingx.Events.PollProcess
import Lingx.Logs.State

/-! `Unix_send` and `Unix_recv`. Both call the kernel again after `EINTR`. The outcomes of
the calls are an input, in their order; a run that wants more of them has not returned.
`Unix_send` makes its event not ready on an interrupted attempt already, `Unix_recv` only
behind its loop. -/

namespace Lingx.Events

def AGAIN : ℤ := -2
def ERROR : ℤ := -1

def EAGAIN : ℤ := 11
def EPIPE : ℤ := 32
def ENETDOWN : ℤ := 100
def ENETUNREACH : ℤ := 101
def ECONNRESET : ℤ := 104
def ENOTCONN : ℤ := 107
def ETIMEDOUT : ℤ := 110
def ECONNREFUSED : ℤ := 111
def EHOSTDOWN : ℤ := 112
def EHOSTUNREACH : ℤ := 113

def USE_GREEDY_EVENT : BitVec 32 := 0x00000020
def USE_EPOLL_EVENT : BitVec 32 := 0x00000040

/-- The members `log_error` of a connection, of type `LogError`. -/
inductive LogError where
  | alert | err | info | ignoreEconnreset | ignoreEinval
  deriving DecidableEq, Repr

/-- The members of `struct Event` that sending and receiving use. -/
structure IoEvent where
  ready : Bool
  eof : Bool
  error : Bool
  pendingEof : Bool
  available : Bool
  deriving DecidableEq, Repr

/-- The members of `struct Connection` that sending and receiving use. -/
structure IoConnection where
  read : IoEvent
  write : IoEvent
  sent : ℤ
  logError : LogError
  deriving DecidableEq, Repr

/-- The globals `Event_flags` and `Use_epoll_rdhup`. -/
structure IoFlags where
  eventFlags : BitVec 32
  useEpollRdhup : Bool
  deriving DecidableEq, Repr

/-- The outcome of a `send()` or a `recv()`: a count, or the `errno` of a failure. -/
inductive IoOutcome where
  | count (n : ℕ)
  | failed (err : ℤ)
  deriving DecidableEq, Repr

/-- A line given to the log. -/
structure IoLog where
  level : Logs.Level
  err : ℤ
  text : String
  deriving DecidableEq, Repr

structure IoResult where
  value : ℤ
  conn : IoConnection
  logged : List IoLog
  deriving DecidableEq, Repr

namespace IoConnection

def setRead (c : IoConnection) (f : IoEvent → IoEvent) : IoConnection :=
  { c with read := f c.read }

def setWrite (c : IoConnection) (f : IoEvent → IoEvent) : IoConnection :=
  { c with write := f c.write }

end IoConnection

def IoEvent.notReady (e : IoEvent) : IoEvent := { e with ready := false }

/-- The errors that a peer or the network can cause. -/
def remoteErrors : List ℤ :=
  [0, ECONNRESET, EPIPE, ENOTCONN, ETIMEDOUT, ECONNREFUSED, ENETDOWN, ENETUNREACH, EHOSTDOWN,
    EHOSTUNREACH]

/-- `Connection_log_error`. -/
def connectionLogError (c : IoConnection) (err : ℤ) (text : String) : ℤ × List IoLog :=
  if err = ECONNRESET ∧ c.logError = .ignoreEconnreset then (0, [])
  else
    let level :=
      if err ∈ remoteErrors then
        match c.logError with
        | .ignoreEinval | .ignoreEconnreset | .info => Logs.INFO
        | .alert | .err => Logs.ERROR
      else Logs.ALERT
    (ERROR, [⟨level, err, text⟩])

/-- `Unix_send`; `errno` is what the call before has left. -/
def unixSend (size : BitVec 64) : List IoOutcome → (errno : ℤ) → IoConnection → Option IoResult
  | [], _, _ => none
  | .count n :: _, errno, c =>
    if 0 < n then
      -- `size` is cast to a signed type here
      let c := if (n : ℤ) < size.toInt then c.setWrite .notReady else c
      some ⟨n, { c with sent := c.sent + n }, []⟩
    else some ⟨0, c.setWrite .notReady, [⟨Logs.ALERT, errno, "send() returned zero"⟩]⟩
  | .failed err :: outcomes, _, c =>
    if err = EAGAIN ∨ err = EINTR then
      let c := c.setWrite .notReady
      if err = EAGAIN then some ⟨AGAIN, c, []⟩ else unixSend size outcomes err c
    else
      let c := c.setWrite fun e => { e with error := true }
      some ⟨ERROR, c, (connectionLogError c err "send() failed").2⟩

/-- What `Unix_recv` leaves in the event for a count that is not zero. -/
def recvCount (flags : IoFlags) (size : BitVec 64) (n : ℕ) (e : IoEvent) : IoEvent :=
  if flags.eventFlags &&& USE_EPOLL_EVENT ≠ 0 ∧ flags.useEpollRdhup then
    if n < size.toNat then
      { e with ready := e.ready && e.pendingEof, available := false }
    else e
  else if n < size.toNat ∧ flags.eventFlags &&& USE_GREEDY_EVENT = 0 then e.notReady
  else e

/-- The part of `Unix_recv` behind its loop. -/
def recvEnd (n : ℤ) (logged : List IoLog) (c : IoConnection) : IoResult :=
  let c := c.setRead .notReady
  ⟨n, if n = ERROR then c.setRead fun e => { e with error := true } else c, logged⟩

/-- The loop of `Unix_recv`. -/
def unixRecvLoop (flags : IoFlags) (size : BitVec 64) :
    List IoOutcome → IoConnection → Option IoResult
  | [], _ => none
  | .count n :: _, c =>
    if n = 0 then some ⟨0, c.setRead fun e => { e with ready := false, eof := true }, []⟩
    else some ⟨n, c.setRead (recvCount flags size n), []⟩
  | .failed err :: outcomes, c =>
    if err = EAGAIN ∨ err = EINTR then
      if err = EINTR then unixRecvLoop flags size outcomes c else some (recvEnd AGAIN [] c)
    else
      let (n, logged) := connectionLogError c err "recv() failed"
      some (recvEnd n logged c)

def unixRecv (flags : IoFlags) (size : BitVec 64) (outcomes : List IoOutcome)
    (c : IoConnection) : Option IoResult :=
  if flags.eventFlags &&& USE_EPOLL_EVENT ≠ 0 ∧ !c.read.available ∧ !c.read.pendingEof then
    some ⟨AGAIN, c.setRead .notReady, []⟩
  else unixRecvLoop flags size outcomes c

/-- What a caller sees of a call: the value, the fields of the events, and the bytes
sent. -/
structure IoResult.SameSeen (r r' : IoResult) : Prop where
  value : r.value = r'.value
  read : r.conn.read = r'.conn.read
  write : r.conn.write = r'.conn.write
  sent : r.conn.sent = r'.conn.sent

theorem IoResult.SameSeen.refl (r : IoResult) : r.SameSeen r := ⟨rfl, rfl, rfl, rfl⟩

/-- The kernel's answers that leave a write event not ready: a count under the size, and
`EAGAIN`. -/
def LeavesNotReady (size : BitVec 64) : IoOutcome → Prop
  | .count n => n = 0 ∨ (n : ℤ) < size.toInt
  | .failed err => err = EAGAIN

section Interrupted

variable {size : BitVec 64} {outcomes : List IoOutcome} {o : IoOutcome} {errno : ℤ}
  {c : IoConnection} {flags : IoFlags}

/-- The calls of a system call that was interrupted `k` times. -/
def interrupted (k : ℕ) (o : IoOutcome) : List IoOutcome :=
  List.replicate k (.failed EINTR) ++ [o]

theorem unixRecvLoop_interrupted (k : ℕ) :
    unixRecvLoop flags size (interrupted k o) c = unixRecvLoop flags size [o] c := by
  induction k with
  | zero => rfl
  | succ k ih =>
    rw [← ih]
    exact (if_pos (.inr rfl)).trans (if_pos rfl)

variable (size c flags) in
theorem unixRecvLoop_returns (ho : o ≠ .failed EINTR) :
    ∃ r, unixRecvLoop flags size [o] c = some r := by
  cases o with
  | count n =>
    rw [unixRecvLoop]
    split_ifs
    · exact ⟨_, rfl⟩
    · exact ⟨_, rfl⟩
  | failed err =>
    have he : err ≠ EINTR := fun h => ho (h ▸ rfl)
    rw [unixRecvLoop, if_neg he]
    split_ifs
    · exact ⟨_, rfl⟩
    · exact ⟨_, rfl⟩

variable (size c flags) in
theorem unixRecv_interrupted (ho : o ≠ .failed EINTR) (k : ℕ) :
    ∃ r, unixRecv flags size (interrupted k o) c = some r ∧
      unixRecv flags size [o] c = some r := by
  unfold unixRecv
  split_ifs
  · exact ⟨_, rfl, rfl⟩
  · obtain ⟨r, hr⟩ := unixRecvLoop_returns size c flags ho
    exact ⟨r, (unixRecvLoop_interrupted k).trans hr, hr⟩

theorem IoConnection.notReady_idem (c : IoConnection) :
    (c.setWrite .notReady).setWrite .notReady = c.setWrite .notReady := rfl

/-- An interrupted `Unix_send` goes on with an event that is not ready. -/
theorem unixSend_interrupted (k : ℕ) :
    unixSend size (interrupted (k + 1) o) errno c =
      unixSend size [o] EINTR (c.setWrite .notReady) := by
  have hstep : ∀ (outcomes : List IoOutcome) (errno : ℤ) (c : IoConnection),
      unixSend size (.failed EINTR :: outcomes) errno c =
        unixSend size outcomes EINTR (c.setWrite .notReady) := fun _ _ _ =>
    (if_pos (.inr rfl)).trans (if_neg (by decide))
  induction k generalizing errno c with
  | zero => exact hstep [o] errno c
  | succ k ih =>
    have hrest : unixSend size (interrupted (k + 1) o) EINTR (c.setWrite .notReady) =
      unixSend size [o] EINTR ((c.setWrite .notReady).setWrite .notReady) := ih
    rw [c.notReady_idem] at hrest
    exact (hstep (interrupted (k + 1) o) errno c).trans hrest

theorem notReady_eq_iff (e : IoEvent) : e.notReady = e ↔ e.ready = false := by
  cases e
  simp [IoEvent.notReady, eq_comm]

variable (size errno c) in
/-- The last call, with the event as it was and with the event not ready: both return,
and what is seen of them differs in a ready event that the outcome leaves alone. -/
theorem unixSend_seen (ho : o ≠ .failed EINTR) :
    ∃ r r', unixSend size [o] EINTR (c.setWrite .notReady) = some r ∧
      unixSend size [o] errno c = some r' ∧
      (r.SameSeen r' ↔ c.write.ready = false ∨ LeavesNotReady size o) := by
  cases o with
  | count n =>
    by_cases hn : 0 < n
    · refine ⟨_, _, if_pos hn, if_pos hn, ?_⟩
      by_cases hs : (n : ℤ) < size.toInt
      · simp only [if_pos hs]
        exact ⟨fun _ => .inr (.inr hs), fun _ => ⟨rfl, rfl, rfl, rfl⟩⟩
      · have hl : ¬LeavesNotReady size (.count n) := fun h => h.elim (by omega) hs
        simp only [if_neg hs, or_iff_left hl, ← notReady_eq_iff]
        exact ⟨fun h => h.write, fun h => ⟨rfl, rfl, h, rfl⟩⟩
    · refine ⟨_, _, if_neg hn, if_neg hn, ?_⟩
      exact ⟨fun _ => .inr (.inl (by omega)), fun _ => ⟨rfl, rfl, rfl, rfl⟩⟩
  | failed err =>
    have hi : err ≠ EINTR := fun h => ho (h ▸ rfl)
    by_cases ha : err = EAGAIN
    · refine ⟨_, _, (if_pos (.inl ha)).trans (if_pos ha), (if_pos (.inl ha)).trans (if_pos ha), ?_⟩
      exact ⟨fun _ => .inr ha, fun _ => ⟨rfl, rfl, rfl, rfl⟩⟩
    · have hne : ¬(err = EAGAIN ∨ err = EINTR) := fun h => h.elim ha hi
      refine ⟨_, _, if_neg hne, if_neg hne, ?_⟩
      have hl : ¬LeavesNotReady size (.failed err) := ha
      rw [or_iff_left hl, ← notReady_eq_iff]
      constructor
      · intro h
        have hw : ({ c.write.notReady with error := true } : IoEvent) =
          { c.write with error := true } := h.write
        rw [notReady_eq_iff]
        exact (congrArg IoEvent.ready hw).symm
      · intro h
        refine ⟨rfl, rfl, ?_, rfl⟩
        change ({ c.write.notReady with error := true } : IoEvent) = { c.write with error := true }
        rw [h]

end Interrupted

/-- A system call that was interrupted and one that was not: `Unix_recv` does not differ,
and `Unix_send` does not exactly when there was no interruption, the event was not ready
before, or the outcome leaves it not ready. -/
theorem interrupted_seen (flags : IoFlags) (size : BitVec 64) (k : ℕ) (o : IoOutcome) (errno : ℤ)
    (c : IoConnection) (ho : o ≠ .failed EINTR) :
    (∃ r r', unixRecv flags size (interrupted k o) c = some r ∧
      unixRecv flags size [o] c = some r' ∧ r.SameSeen r') ∧
    ∃ r r', unixSend size (interrupted k o) errno c = some r ∧
      unixSend size [o] errno c = some r' ∧
      (r.SameSeen r' ↔ k = 0 ∨ c.write.ready = false ∨ LeavesNotReady size o) := by
  constructor
  · obtain ⟨r, hr, hr'⟩ := unixRecv_interrupted size c flags ho k
    exact ⟨r, r, hr, hr', .refl r⟩
  obtain ⟨r, r', hr, hr', hs⟩ := unixSend_seen size errno c ho
  cases k with
  | zero => exact ⟨r', r', hr', hr', fun _ => .inl rfl, fun _ => .refl r'⟩
  | succ k =>
    refine ⟨r, r', (unixSend_interrupted k).trans hr, hr', hs.trans ?_⟩
    rw [or_iff_right (Nat.succ_ne_zero k)]

/-- Five bytes sent at the second attempt leave the event not ready; sent at the first,
they leave it ready. -/
theorem unixSend_five :
    let event : IoEvent := ⟨true, false, false, false, false⟩
    let c : IoConnection := ⟨event, event, 0, .alert⟩
    ∃ r r', unixSend 5 (interrupted 1 (.count 5)) 0 c = some r ∧
      unixSend 5 [.count 5] 0 c = some r' ∧ r.conn.write.ready = false ∧
      r'.conn.write.ready = true ∧ ¬r.SameSeen r' := by
  refine ⟨_, _, rfl, rfl, rfl, rfl, fun h => ?_⟩
  exact absurd (congrArg IoEvent.ready h.write) (by decide)

theorem interrupted_seen_partial :
    let event : IoEvent := ⟨true, false, false, false, false⟩
    let c : IoConnection := ⟨event, event, 0, .alert⟩
    ∃ r r', unixSend 5 (interrupted 2 (.count 3)) 0 c = some r ∧
      unixSend 5 [.count 3] 0 c = some r' ∧ r.SameSeen r' := by
  intro event c
  obtain ⟨r, r', hr, hr', h⟩ :=
    (interrupted_seen ⟨0, false⟩ 5 2 (.count 3) 0 c IoOutcome.noConfusion).2
  exact ⟨r, r', hr, hr', h.2 (.inr (.inr (.inr (by decide))))⟩

end Lingx.Events
