import Lingx.Library.Machine
import Lingx.Process.Pidfile

/-! How a running process is stopped. Any number of processes use one path for their pid
file: instances, which write it, run until a signal has been handled and unlink it, and signal
processes, which read it and call `kill()`. The steps of all of them are interleaved in any
order, and the calls to the system may fail. -/

namespace Lingx.Process

open Conf Strings Library.Decimal Library.Machine

/-- `Terminate` and `Quit`. -/
structure StopFlags where
  terminate : Bool
  quit : Bool
  deriving DecidableEq, Repr

def StopFlags.any (flags : StopFlags) : Bool := flags.terminate || flags.quit

/-- The `signame` members of `Signals_`. -/
def signames : List (ℤ × Bytes) :=
  [(SIGTERM, ascii "SIGTERM"), (SIGQUIT, ascii "SIGQUIT"), (SIGINT, ascii "SIGINT")]

/-- The message of `Signal_handler_`, a notice with the format `"signal %d (%s) received%s"`.
There is no name where the loop has come to the entry that ends `Signals_`. -/
structure HandlerMessage where
  signo : ℤ
  signame : Option Bytes
  action : Bytes
  deriving DecidableEq, Repr

/-- `Signal_handler_`. -/
def signalHandler (processType : ProcessType) (signo : ℤ) (flags : StopFlags) :
    StopFlags × HandlerMessage :=
  let signame := signames.lookup signo
  match processType with
  | .master | .single =>
    if signo = SIGQUIT then
      ({ flags with quit := true }, ⟨signo, signame, ascii ", shutting down"⟩)
    else if signo = SIGTERM ∨ signo = SIGINT then
      ({ flags with terminate := true }, ⟨signo, signame, ascii ", exiting"⟩)
    else (flags, ⟨signo, signame, []⟩)
  | _ => (flags, ⟨signo, signame, []⟩)

/-- The inode that the path has, what the inodes hold, and the next one to be made. -/
structure Fs where
  path : Option ℕ
  data : ℕ → Bytes
  next : ℕ

namespace Fs

def content (fs : Fs) : Option Bytes := fs.path.map fs.data

/-- `open()` of the path for writing, with `O_CREAT`. -/
def openWrite (flags : ℕ) (fs : Fs) : Fs × ℕ :=
  match fs.path with
  | some n =>
    ({ fs with data := Function.update fs.data n (openedContent flags (some (fs.data n))) }, n)
  | none =>
    (⟨some fs.next, Function.update fs.data fs.next (openedContent flags none), fs.next + 1⟩,
      fs.next)

/-- Bytes that are written at their positions. -/
def write (n : ℕ) (log : List (ℤ × Byte)) (fs : Fs) : Fs :=
  { fs with data := Function.update fs.data n (log.foldl writeByte (fs.data n)) }

/-- `unlink()`, which may fail. -/
def unlink (ok : Bool) (fs : Fs) : Fs := if ok then { fs with path := none } else fs

def init (content : Option Bytes) : Fs :=
  ⟨content.map fun _ => 0, fun n => if n = 0 then content.getD [] else [], 1⟩

end Fs

inductive Phase where
  /-- In front of `Init_signals`. -/
  | starting
  /-- The handlers are there, and the pid file has not been opened. -/
  | ready
  /-- In `File::write`, with so many bytes of the line in the file. -/
  | writing (inode written : ℕ)
  /-- Behind `Create_pidfile`. -/
  | created
  /-- Behind `log_redirect_stderr`. -/
  | redirected
  /-- In the loop of `Single_process_cycle`. -/
  | cycle
  /-- In `Master_process_exit_`, behind `Delete_pidfile`. -/
  | deleted
  | ended (status : ℤ)
  /-- Ended by a signal without a handler. -/
  | killed
  deriving DecidableEq, Repr

namespace Phase

/-- Behind `Create_pidfile`, and in front of the end. -/
def isRunning : Phase → Bool
  | created | redirected | cycle => true
  | _ => false

/-- Behind the `open()` of the pid file, and in front of the end. -/
def hasOpened : Phase → Bool
  | writing _ _ | created | redirected | cycle | deleted => true
  | _ => false

end Phase

/-- An instance, with the signals that have been sent to it and not been handled. -/
structure Instance where
  phase : Phase
  flags : StopFlags
  pending : ℤ → Bool

namespace Instance

def init : Instance := ⟨.starting, ⟨false, false⟩, fun _ => false⟩

def isLive (x : Instance) : Bool :=
  match x.phase with
  | .ended _ | .killed => false
  | _ => true

inductive Act where
  | initSignals (ok : Bool)
  | openPid (ok : Bool)
  | pwrite (outcome : Pwrite)
  | redirect (ok : Bool)
  | initProcess (ok : Bool)
  /-- `Process_events_and_timers` returns, and the flags are tested. -/
  | iterate (unlinked : Bool)
  | exit
  /-- A pending signal is delivered. -/
  | deliver (signo : ℤ)
  /-- The process is ended from outside, by `SIGKILL` or a fault. -/
  | crash
  deriving DecidableEq, Repr

/-- A signal is delivered: in front of `Init_signals` its action is to end the process. -/
def deliver (processType : ProcessType) (signo : ℤ) (x : Instance) : Instance :=
  let x := { x with pending := Function.update x.pending signo false }
  if x.phase = .starting then { x with phase := .killed }
  else { x with flags := (signalHandler processType signo x.flags).1 }

/-- `Process_type` of an instance, behind the test of `ccf->master`. -/
def processType (master : Bool) : ProcessType := if master then .master else .single

/-- What a step of an instance does to it and to the file system. Where the step is not one
that the instance can take there is no result. -/
def step (pid : Int32) (master : Bool) (a : Act) (fs : Fs) (x : Instance) :
    Option (Fs × Instance) :=
  match a with
  | .initSignals ok =>
    if x.phase = .starting then
      some (fs, { x with phase := if ok then .ready else .ended 1 })
    else none
  | .openPid ok =>
    if x.phase = .ready then
      if ok then
        let (fs, inode) := fs.openWrite (O_RDWR ||| O_CREAT ||| O_TRUNC)
        some (fs, { x with phase := .writing inode 0 })
      else some (fs, { x with phase := .ended 1 })
    else none
  | .pwrite outcome =>
    match x.phase with
    | .writing inode written =>
      let line := (pidLine pid).text
      match outcome with
      | .interrupted => some (fs, x)
      | .failed => some (fs, { x with phase := .ended 1 })
      | .wrote n =>
        if 1 ≤ n ∧ written + n ≤ line.length then
          some (fs.write inode (copied (line.getD · 0) written n written), { x with
            phase := if written + n = line.length then .created
              else .writing inode (written + n) })
        else none
    | _ => none
  | .redirect ok =>
    if x.phase = .created then
      some (fs, { x with phase := if ok then .redirected else .ended 1 })
    else none
  | .initProcess ok =>
    -- `Master_process_cycle` has no body, so that `main` returns
    if x.phase = .redirected then
      some (fs, { x with
        phase := if master then .ended 0 else if ok then .cycle else .ended 2 })
    else none
  | .iterate unlinked =>
    if x.phase = .cycle then
      if x.flags.any then some (fs.unlink unlinked, { x with phase := .deleted })
      else some (fs, x)
    else none
  | .exit => if x.phase = .deleted then some (fs, { x with phase := .ended 0 }) else none
  | .deliver signo =>
    if x.isLive ∧ x.pending signo then some (fs, x.deliver (processType master) signo) else none
  | .crash => if x.isLive then some (fs, { x with phase := .killed }) else none

inductive Steps (pid : Int32) (master : Bool) : Act → Fs → Instance → Fs → Instance → Prop
  | initSignals (ok : Bool) (h : x.phase = .starting) : Steps pid master (.initSignals ok) fs x
      fs { x with phase := if ok then .ready else .ended 1 }
  | openFailed (h : x.phase = .ready) : Steps pid master (.openPid false) fs x
      fs { x with phase := .ended 1 }
  | openPid (h : x.phase = .ready) : Steps pid master (.openPid true) fs x
      (fs.openWrite (O_RDWR ||| O_CREAT ||| O_TRUNC)).1
      { x with phase := .writing (fs.openWrite (O_RDWR ||| O_CREAT ||| O_TRUNC)).2 0 }
  | interrupted {n w : ℕ} (h : x.phase = .writing n w) :
      Steps pid master (.pwrite .interrupted) fs x fs x
  | writeFailed {n w : ℕ} (h : x.phase = .writing n w) : Steps pid master (.pwrite .failed) fs x
      fs { x with phase := .ended 1 }
  | wrote {n w k : ℕ} (h : x.phase = .writing n w) (hk : 1 ≤ k)
      (hle : w + k ≤ (pidLine pid).text.length) :
      Steps pid master (.pwrite (.wrote k)) fs x
        (fs.write n (copied ((pidLine pid).text.getD · 0) w k w))
        { x with phase := if w + k = (pidLine pid).text.length then .created
            else .writing n (w + k) }
  | redirect (ok : Bool) (h : x.phase = .created) : Steps pid master (.redirect ok) fs x
      fs { x with phase := if ok then .redirected else .ended 1 }
  | initProcess (ok : Bool) (h : x.phase = .redirected) : Steps pid master (.initProcess ok) fs x
      fs { x with phase := if master then .ended 0 else if ok then .cycle else .ended 2 }
  | iterate (ok : Bool) (h : x.phase = .cycle) (hflags : x.flags.any = false) :
      Steps pid master (.iterate ok) fs x fs x
  | delete (ok : Bool) (h : x.phase = .cycle) (hflags : x.flags.any = true) :
      Steps pid master (.iterate ok) fs x (fs.unlink ok) { x with phase := .deleted }
  | exit (h : x.phase = .deleted) : Steps pid master .exit fs x fs { x with phase := .ended 0 }
  | deliver (signo : ℤ) (h : x.isLive) (hp : x.pending signo) :
      Steps pid master (.deliver signo) fs x fs (x.deliver (processType master) signo)
  | crash (h : x.isLive) : Steps pid master .crash fs x fs { x with phase := .killed }

end Instance

inductive Signaller where
  | starting
  | opened (inode : ℕ)
  /-- The file has been read, when it had this content. -/
  | read (content : Bytes)
  | ended (run : Signalled)
  deriving DecidableEq, Repr

/-- The steps of a signal process. The last one takes what `kill()` returns for the pids that
no instance has. -/
inductive Signaller.Act where
  | openRead (ok : Bool)
  | pread (ok : Bool)
  | kill (others : ℤ → ℤ → ℤ)

/-- What the processes are started with: the pids and `ccf->master` of the instances, the names
of the signals that are asked for, and the path of the pid file. -/
structure Parties (ι κ : Type) where
  pid : ι → Int32
  master : ι → Bool
  name : κ → Bytes
  path : Bytes

structure System (ι κ : Type) where
  fs : Fs
  inst : ι → Instance
  sig : κ → Signaller

/-- A step of one of the processes, a signal from elsewhere, or the part of a `lingx -t` that
opens the pid file. -/
inductive Action (ι κ : Type) where
  | inst (i : ι) (a : Instance.Act)
  | sig (j : κ) (a : Signaller.Act)
  | send (i : ι) (signo : ℤ)
  | test

namespace System

variable {ι κ : Type} [Fintype ι] [DecidableEq ι] [DecidableEq κ]

def setInst (i : ι) (x : Instance) (s : System ι κ) : System ι κ :=
  { s with inst := Function.update s.inst i x }

def setSig (j : κ) (x : Signaller) (s : System ι κ) : System ι κ :=
  { s with sig := Function.update s.sig j x }

def init (content : Option Bytes) : System ι κ :=
  ⟨.init content, fun _ => .init, fun _ => .starting⟩

/-- `kill()`: it succeeds for the pid of an instance that has not ended. -/
def kill (p : Parties ι κ) (s : System ι κ) (others : ℤ → ℤ → ℤ) (pid signo : ℤ) : ℤ :=
  if ∃ i, (p.pid i).toInt = pid ∧ (s.inst i).isLive then 0 else others pid signo

/-- The instance gets the signals that have been sent to its pid. -/
def receive (p : Parties ι κ) (kills : List (ℤ × ℤ)) (i : ι) (x : Instance) : Instance :=
  { x with pending := fun signo => x.pending signo ||
      (x.isLive && decide (((p.pid i).toInt, signo) ∈ kills)) }

/-- A step of a signal process; its results are those of `Signal_process`. -/
def stepSig (p : Parties ι κ) (j : κ) (a : Signaller.Act) (s : System ι κ) :
    Option (System ι κ) :=
  let run (kill : ℤ → ℤ → ℤ) (file : Option File) : Signalled :=
    signalProcess kill p.path file (p.name j)
  match a with
  | .openRead ok =>
    if s.sig j = .starting then
      match s.fs.path, ok with
      | some inode, true => some (s.setSig j (.opened inode))
      | _, _ => some (s.setSig j (.ended (run (fun _ _ => 0) none)))
    else none
  | .pread ok =>
    match s.sig j with
    | .opened inode =>
      if ok then some (s.setSig j (.read (s.fs.data inode)))
      else some (s.setSig j (.ended (run (fun _ _ => 0)
        (some { pidFile p.path [] with pread := fun _ _ => none }))))
    | _ => none
  | .kill others =>
    match s.sig j with
    | .read content =>
      let r := run (s.kill p others) (some (pidFile p.path content))
      some ({ s with inst := fun i => receive p r.kills i (s.inst i) }.setSig j (.ended r))
    | _ => none

inductive SigSteps (p : Parties ι κ) (j : κ) : Signaller.Act → System ι κ → System ι κ → Prop
  | openRead {s : System ι κ} {n : ℕ} (h : s.sig j = .starting) (hpath : s.fs.path = some n) :
      SigSteps p j (.openRead true) s (s.setSig j (.opened n))
  | openFailed {s : System ι κ} {ok : Bool} (h : s.sig j = .starting)
      (hfail : s.fs.path = none ∨ ok = false) : SigSteps p j (.openRead ok) s
        (s.setSig j (.ended (signalProcess (fun _ _ => 0) p.path none (p.name j))))
  | pread {s : System ι κ} {n : ℕ} (h : s.sig j = .opened n) :
      SigSteps p j (.pread true) s (s.setSig j (.read (s.fs.data n)))
  | readFailed {s : System ι κ} {n : ℕ} (h : s.sig j = .opened n) :
      SigSteps p j (.pread false) s (s.setSig j (.ended (signalProcess (fun _ _ => 0) p.path
        (some { pidFile p.path [] with pread := fun _ _ => none }) (p.name j))))
  | kill {s : System ι κ} {c : Bytes} {r : Signalled} (others : ℤ → ℤ → ℤ)
      (h : s.sig j = .read c)
      (hr : r = signalProcess (s.kill p others) p.path (some (pidFile p.path c)) (p.name j)) :
      SigSteps p j (.kill others) s
        ({ s with inst := fun i => receive p r.kills i (s.inst i) }.setSig j (.ended r))

omit [DecidableEq ι] in
theorem sigSteps_of_step {p : Parties ι κ} {j : κ} {a : Signaller.Act} {s s' : System ι κ}
    (h : s.stepSig p j a = some s') : SigSteps p j a s s' := by
  cases a with
  | openRead ok =>
    obtain ⟨hj, h⟩ := Option.ite_none_right_eq_some.mp h
    cases hpath : s.fs.path with
    | none =>
      rw [hpath] at h
      cases h
      exact .openFailed hj (.inl hpath)
    | some n =>
      rw [hpath] at h
      cases ok with
      | false =>
        cases h
        exact .openFailed hj (.inr rfl)
      | true =>
        cases h
        exact .openRead hj hpath
  | pread ok =>
    simp only [stepSig] at h
    split at h
    · rename_i n hj
      cases ok with
      | true =>
        cases h
        exact .pread hj
      | false =>
        cases h
        exact .readFailed hj
    · cases h
  | kill others =>
    simp only [stepSig] at h
    split at h
    · rename_i c hj
      cases h
      exact .kill others hj rfl
    · cases h

def step (p : Parties ι κ) (a : Action ι κ) (s : System ι κ) : Option (System ι κ) :=
  match a with
  | .inst i a =>
    (Instance.step (p.pid i) (p.master i) a s.fs (s.inst i)).map fun (fs, x) =>
      { s with fs := fs }.setInst i x
  | .sig j a => s.stepSig p j a
  | .send i signo =>
    let x := s.inst i
    if x.isLive ∧ signo ∈ signals.map (·.signo) then
      some (s.setInst i { x with pending := Function.update x.pending signo true })
    else none
  | .test => some { s with fs := (s.fs.openWrite (O_RDWR ||| O_CREAT)).1 }

end System

variable {pid : Int32} {master ok : Bool} {fs fs' : Fs} {x x' : Instance} {n m k w flags : ℕ}
  {signo : ℤ} {line c : Bytes}

theorem foldl_writeByte_over (bs c : Bytes) :
    (copied (bs.getD · 0) 0 bs.length 0).foldl writeByte c =
      bs ++ c.drop bs.length := by
  have hfront (k : ℕ) (hk : k ≤ bs.length) :
      (copied (bs.getD · 0) 0 k 0).foldl writeByte c = bs.take k ++ c.drop k := by
    induction k with
    | zero => simp
    | succ k ih =>
      have hone : copied (bs.getD · 0) (0 + k) 1 (0 + k) = [((k : ℤ), bs[k])] := by
        simp [copied, List.getElem?_eq_getElem (Nat.lt_of_succ_le hk)]
      have htake : (bs.take k).length = k := by simp; omega
      rw [copied_add, List.foldl_append, ih (by omega), hone, List.foldl_cons, List.foldl_nil,
        List.take_succ_eq_append_getElem (Nat.lt_of_succ_le hk), writeByte]
      simp only [Int.toNat_natCast, List.length_append, htake, List.length_drop]
      split_ifs with hlt
      · rw [List.set_append_right _ _ htake.le, htake, Nat.sub_self, List.append_assoc,
          List.drop_eq_getElem_cons (by omega : k < c.length)]
        rfl
      · have hdrop : c.drop k = [] := List.drop_eq_nil_of_le (by omega)
        have hdrop' : c.drop (k + 1) = [] := List.drop_eq_nil_of_le (by omega)
        rw [hdrop, hdrop', show k - (k + (c.length - k)) = 0 by omega]
        simp
  rw [hfront _ le_rfl, List.take_length]

namespace Fs

theorem data_write_self (log : List (ℤ × Byte)) :
    (fs.write n log).data n = log.foldl writeByte (fs.data n) := by
  simp [write]

theorem data_write_ne (log : List (ℤ × Byte)) (h : m ≠ n) :
    (fs.write n log).data m = fs.data m := by
  simp [write, h]

@[simp] theorem data_unlink : (fs.unlink ok).data = fs.data := by
  cases ok <;> rfl

theorem openedContent_eq (flags : ℕ) (c : Bytes) :
    openedContent flags (some c) = c ∨ openedContent flags (some c) = [] := by
  rw [openedContent]
  split_ifs
  · exact .inr rfl
  · exact .inl rfl

theorem data_openWrite (m : ℕ) :
    (fs.openWrite flags).1.data m = fs.data m ∨ (fs.openWrite flags).1.data m = [] := by
  rw [openWrite]
  cases fs.path with
  | some n =>
    by_cases hm : m = n
    · subst hm
      simpa using openedContent_eq flags (fs.data m)
    · exact .inl (Function.update_of_ne hm _ _)
  | none =>
    by_cases hm : m = fs.next
    · subst hm
      simp [openedContent]
    · exact .inl (Function.update_of_ne hm _ _)

theorem path_openWrite : (fs.openWrite flags).1.path = some (fs.openWrite flags).2 := by
  rw [openWrite]
  cases fs.path <;> rfl

theorem data_openWrite_self (h : flags &&& O_TRUNC ≠ 0) :
    (fs.openWrite flags).1.data (fs.openWrite flags).2 = [] := by
  rw [openWrite]
  cases fs.path <;> simp [openedContent, h]

theorem openWrite_of_path (h : flags &&& O_TRUNC = 0) (hn : fs.path = some n) :
    (fs.openWrite flags).1.path = some n ∧ (fs.openWrite flags).1.data = fs.data := by
  rw [openWrite, hn]
  exact ⟨rfl, by simp [openedContent, h]⟩

end Fs

namespace Instance

theorem phase_deliver (t : ProcessType) : (x.deliver t signo).phase =
    if x.phase = .starting then .killed else x.phase := by
  rw [deliver]
  split_ifs <;> rfl

theorem phase_deliver_eq {t : ProcessType} {ph : Phase} (h : ph ≠ .starting ∧ ph ≠ .killed) :
    (x.deliver t signo).phase = ph ↔ x.phase = ph := by
  rw [phase_deliver]
  split_ifs with hx
  · rw [hx]
    exact iff_of_false h.2.symm h.1.symm
  · rfl

/-- A step opens the file, writes to it, takes its path away, or leaves it as it is. -/
theorem Steps.fs_cases {a : Act} (h : x.Steps pid master a fs fs' x') :
    (a = .openPid true ∧ fs' = (fs.openWrite (O_RDWR ||| O_CREAT ||| O_TRUNC)).1 ∧
      x'.phase = .writing (fs.openWrite (O_RDWR ||| O_CREAT ||| O_TRUNC)).2 0) ∨
    (∃ n w k, a = .pwrite (.wrote k) ∧ x.phase = .writing n w ∧ 1 ≤ k ∧
      w + k ≤ (pidLine pid).text.length ∧
      fs' = fs.write n (copied ((pidLine pid).text.getD · 0) w k w) ∧
      x'.phase = if w + k = (pidLine pid).text.length then .created else .writing n (w + k)) ∨
    (∃ ok, a = .iterate ok ∧ x.phase = .cycle ∧ x.flags.any = true ∧ fs' = fs.unlink ok ∧
      x'.phase = .deleted) ∨
    fs' = fs ∧ (∀ n w, x'.phase = .writing n w → x.phase = .writing n w) ∧
      (x'.phase.isRunning → x.phase.isRunning) ∧ (x'.phase.hasOpened → x.phase.hasOpened) := by
  have hkept {ph ph' : Phase} (h : ph' = ph ∨ ph'.hasOpened = false ∨
      ph'.isRunning ∧ ph.isRunning) : (∀ n w, ph' = .writing n w → ph = .writing n w) ∧
      (ph'.isRunning → ph.isRunning) ∧ (ph'.hasOpened → ph.hasOpened) := by
    rcases h with rfl | h | h
    · exact ⟨fun _ _ h => h, id, id⟩
    all_goals cases ph' <;> cases ph <;> simp_all [Phase.isRunning, Phase.hasOpened]
  cases h with
  | openPid _ => exact .inl ⟨rfl, rfl, rfl⟩
  | wrote hw hk hle => exact .inr (.inl ⟨_, _, _, rfl, hw, hk, hle, rfl, rfl⟩)
  | delete ok hx hflags => exact .inr (.inr (.inl ⟨ok, rfl, hx, hflags, rfl, rfl⟩))
  | initSignals ok _ =>
    exact .inr (.inr (.inr ⟨rfl, hkept (.inr (.inl (by cases ok <;> rfl)))⟩))
  | redirect ok hx =>
    refine .inr (.inr (.inr ⟨rfl, hkept (.inr ?_)⟩))
    cases ok with
    | false => exact .inl rfl
    | true => exact .inr ⟨rfl, by rw [hx]; rfl⟩
  | initProcess ok hx =>
    refine .inr (.inr (.inr ⟨rfl, hkept (.inr ?_)⟩))
    cases master with
    | true => exact .inl rfl
    | false =>
      cases ok with
      | false => exact .inl rfl
      | true => exact .inr ⟨rfl, by rw [hx]; rfl⟩
  | deliver signo _ _ =>
    refine .inr (.inr (.inr ⟨rfl, hkept ?_⟩))
    rw [phase_deliver]
    split_ifs
    · exact .inr (.inl rfl)
    · exact .inl rfl
  | interrupted _ => exact .inr (.inr (.inr ⟨rfl, hkept (.inl rfl)⟩))
  | iterate _ _ _ => exact .inr (.inr (.inr ⟨rfl, hkept (.inl rfl)⟩))
  | openFailed _ => exact .inr (.inr (.inr ⟨rfl, hkept (.inr (.inl rfl))⟩))
  | writeFailed _ => exact .inr (.inr (.inr ⟨rfl, hkept (.inr (.inl rfl))⟩))
  | exit _ => exact .inr (.inr (.inr ⟨rfl, hkept (.inr (.inl rfl))⟩))
  | crash _ => exact .inr (.inr (.inr ⟨rfl, hkept (.inr (.inl rfl))⟩))

theorem steps_of_step {a : Act} (h : step pid master a fs x = some (fs', x')) :
    Steps pid master a fs x fs' x' := by
  cases a with
  | initSignals ok =>
    obtain ⟨hx, ⟨⟩⟩ := Option.ite_none_right_eq_some.mp h
    exact .initSignals ok hx
  | openPid ok =>
    obtain ⟨hx, h⟩ := Option.ite_none_right_eq_some.mp h
    cases ok with
    | false =>
      cases h
      exact .openFailed hx
    | true =>
      cases h
      exact .openPid hx
  | pwrite o =>
    simp only [step] at h
    split at h
    · rename_i n w hx
      cases o with
      | interrupted =>
        cases h
        exact .interrupted hx
      | failed =>
        cases h
        exact .writeFailed hx
      | wrote k =>
        obtain ⟨⟨hk, hle⟩, ⟨⟩⟩ := Option.ite_none_right_eq_some.mp h
        exact .wrote hx hk hle
    · cases h
  | redirect ok =>
    obtain ⟨hx, ⟨⟩⟩ := Option.ite_none_right_eq_some.mp h
    exact .redirect ok hx
  | initProcess ok =>
    obtain ⟨hx, ⟨⟩⟩ := Option.ite_none_right_eq_some.mp h
    exact .initProcess ok hx
  | iterate ok =>
    obtain ⟨hx, h⟩ := Option.ite_none_right_eq_some.mp h
    cases hflags : x.flags.any with
    | false =>
      rw [hflags, if_neg (by simp)] at h
      cases h
      exact .iterate ok hx hflags
    | true =>
      rw [if_pos hflags] at h
      cases h
      exact .delete ok hx hflags
  | exit =>
    obtain ⟨hx, ⟨⟩⟩ := Option.ite_none_right_eq_some.mp h
    exact .exit hx
  | deliver signo =>
    obtain ⟨⟨hx, hp⟩, ⟨⟩⟩ := Option.ite_none_right_eq_some.mp h
    exact .deliver signo hx hp
  | crash =>
    obtain ⟨hx, ⟨⟩⟩ := Option.ite_none_right_eq_some.mp h
    exact .crash hx

theorem Steps.step_eq {a : Act} (h : x.Steps pid master a fs fs' x') :
    step pid master a fs x = some (fs', x') := by
  cases h with
  | initSignals ok hx => exact if_pos hx
  | openFailed hx => exact if_pos hx
  | openPid hx => exact if_pos hx
  | interrupted hw => simp only [step, hw]
  | writeFailed hw => simp only [step, hw]
  | wrote hw hk hle =>
    simp only [step, hw]
    exact if_pos ⟨hk, hle⟩
  | redirect ok hx => exact if_pos hx
  | initProcess ok hx => exact if_pos hx
  | iterate ok hx hflags => exact (if_pos hx).trans (if_neg (by simp [hflags]))
  | delete ok hx hflags => exact (if_pos hx).trans (if_pos hflags)
  | exit hx => exact if_pos hx
  | deliver signo hlive hp => exact if_pos ⟨hlive, hp⟩
  | crash hlive => exact if_pos hlive

end Instance

namespace System

variable {ι κ : Type} [Fintype ι] [DecidableEq ι] [DecidableEq κ] {p : Parties ι κ}
  {s s' : System ι κ} {i : ι} {j : κ}

omit [Fintype ι] [DecidableEq κ] in
@[simp] theorem setInst_inst_self (x : Instance) : (s.setInst i x).inst i = x := by
  simp [setInst]

omit [Fintype ι] [DecidableEq κ] in
@[simp] theorem setInst_inst_of_ne {i' : ι} (h : i' ≠ i) (x : Instance) :
    (s.setInst i x).inst i' = s.inst i' := by
  simp [setInst, h]

omit [Fintype ι] [DecidableEq ι] in
@[simp] theorem setSig_sig_self (x : Signaller) : (s.setSig j x).sig j = x := by
  simp [setSig]

omit [Fintype ι] [DecidableEq ι] in
@[simp] theorem setSig_sig_of_ne {j' : κ} (h : j' ≠ j) (x : Signaller) :
    (s.setSig j x).sig j' = s.sig j' := by
  simp [setSig, h]

namespace SigSteps

variable {a : Signaller.Act}

omit [DecidableEq ι] in
theorem fs_eq (h : s.SigSteps p j a s') : s'.fs = s.fs := by
  cases h <;> rfl

omit [DecidableEq ι] in
theorem phase_eq (h : s.SigSteps p j a s') : (s'.inst i).phase = (s.inst i).phase := by
  cases h <;> rfl

omit [DecidableEq ι] in
theorem flags_eq (h : s.SigSteps p j a s') : (s'.inst i).flags = (s.inst i).flags := by
  cases h <;> rfl

omit [DecidableEq ι] in
theorem pending_mono {signo : ℤ} (h : s.SigSteps p j a s') (hp : (s.inst i).pending signo) :
    (s'.inst i).pending signo := by
  cases h with
  | kill others hj hr => simp [setSig, receive, hp]
  | _ => exact hp

omit [DecidableEq ι] in
theorem sig_of_ne (h : s.SigSteps p j a s') {j' : κ} (hne : j' ≠ j) : s'.sig j' = s.sig j' := by
  cases h <;> exact setSig_sig_of_ne hne _

omit [DecidableEq ι] in
theorem step_eq (h : s.SigSteps p j a s') : s.stepSig p j a = some s' := by
  cases h with
  | openRead hj hpath =>
    refine (if_pos hj).trans ?_
    rw [hpath]
  | openFailed hj hfail =>
    refine (if_pos hj).trans ?_
    rcases hfail with hnone | rfl
    · rw [hnone]
    · cases s.fs.path <;> rfl
  | pread hj =>
    rw [stepSig]
    simp only [hj]
    rfl
  | readFailed hj =>
    rw [stepSig]
    simp only [hj]
    rfl
  | kill others hj hr =>
    rw [stepSig]
    simp only [hj, hr]

omit [DecidableEq ι] in
theorem sig_self (h : s.SigSteps p j a s') : (∃ n, s'.sig j = .opened n) ∨
    (∃ n, s'.sig j = .read (s.fs.data n)) ∨
    ∃ r, s'.sig j = .ended r ∧ (r.kills = [] ∨ ∃ c others, s.sig j = .read c ∧
      r = signalProcess (s.kill p others) p.path (some (pidFile p.path c)) (p.name j)) := by
  cases h with
  | openRead _ _ => exact .inl ⟨_, setSig_sig_self _⟩
  | openFailed _ _ => exact .inr (.inr ⟨_, setSig_sig_self _, .inl rfl⟩)
  | pread _ => exact .inr (.inl ⟨_, setSig_sig_self _⟩)
  | readFailed _ => exact .inr (.inr ⟨_, setSig_sig_self _, .inl rfl⟩)
  | kill others hj hr => exact .inr (.inr ⟨_, setSig_sig_self _, .inr ⟨_, others, hj, hr⟩⟩)

end SigSteps

theorem exists_step_inst {a : Instance.Act} {fs : Fs} {x : Instance}
    (h : (s.inst i).Steps (p.pid i) (p.master i) a s.fs fs x) :
    ∃ s', step p (.inst i a) s = some s' ∧ s'.fs = fs ∧ s'.inst i = x ∧ s'.sig = s.sig :=
  ⟨{ s with fs := fs }.setInst i x, by rw [step, h.step_eq]; rfl, rfl, setInst_inst_self x, rfl⟩

theorem step_cases {a : Action ι κ} (h : step p a s = some s') :
    (∃ i a' fs x, a = .inst i a' ∧
      (s.inst i).Steps (p.pid i) (p.master i) a' s.fs fs x ∧
      s' = { s with fs := fs }.setInst i x) ∨
    (∃ j a', a = .sig j a' ∧ s.SigSteps p j a' s') ∨
    (∃ i signo, a = .send i signo ∧ (s.inst i).isLive ∧ signo ∈ signals.map (·.signo) ∧
      s' = s.setInst i { s.inst i with
        pending := Function.update (s.inst i).pending signo true }) ∨
    (a = .test ∧ s' = { s with fs := (s.fs.openWrite (O_RDWR ||| O_CREAT)).1 }) := by
  cases a with
  | inst i a =>
    obtain ⟨⟨fs, x⟩, ha, rfl⟩ := Option.map_eq_some_iff.mp h
    exact .inl ⟨i, a, fs, x, rfl, Instance.steps_of_step ha, rfl⟩
  | sig j a => exact .inr (.inl ⟨j, a, rfl, sigSteps_of_step h⟩)
  | send i signo =>
    obtain ⟨⟨hlive, hsigno⟩, ⟨⟩⟩ := Option.ite_none_right_eq_some.mp h
    exact .inr (.inr (.inl ⟨i, signo, rfl, hlive, hsigno, rfl⟩))
  | test =>
    cases h
    exact .inr (.inr (.inr ⟨rfl, rfl⟩))

/-- One instance in a step of the system: the step is its own, or leaves it where it is and
takes no signals from it. -/
theorem inst_cases (i : ι) {a : Action ι κ} (h : step p a s = some s') :
    (∃ a', a = .inst i a' ∧
      (s.inst i).Steps (p.pid i) (p.master i) a' s.fs s'.fs (s'.inst i)) ∨
    (∀ a', a ≠ .inst i a') ∧ (s'.inst i).phase = (s.inst i).phase ∧
      (s'.inst i).flags = (s.inst i).flags ∧
      ∀ signo, (s.inst i).pending signo → (s'.inst i).pending signo := by
  rcases step_cases h with ⟨k, a', fs, x, rfl, hsteps, rfl⟩ | ⟨j, a', rfl, hsteps⟩ |
    ⟨k, signo, rfl, -, -, rfl⟩ | ⟨rfl, rfl⟩
  · by_cases hk : i = k
    · subst hk
      refine .inl ⟨a', rfl, ?_⟩
      rw [setInst_inst_self]
      exact hsteps
    · have hother : ({ s with fs := fs }.setInst k x).inst i = s.inst i := setInst_inst_of_ne hk x
      rw [hother]
      exact .inr ⟨by rintro _ ⟨⟩; exact hk rfl, rfl, rfl, fun _ => id⟩
  · exact .inr ⟨nofun, hsteps.phase_eq, hsteps.flags_eq, fun signo => hsteps.pending_mono⟩
  · refine .inr ⟨nofun, ?_⟩
    by_cases hk : i = k
    · subst hk
      rw [setInst_inst_self]
      refine ⟨rfl, rfl, fun signo' hp => ?_⟩
      by_cases hsame : signo' = signo
      · simp [hsame]
      · simpa [hsame] using hp
    · rw [setInst_inst_of_ne hk]
      exact ⟨rfl, rfl, fun _ => id⟩
  · exact .inr ⟨nofun, rfl, rfl, fun _ => id⟩

section Call

variable {buf : ℕ → Byte} {f : File} {outcomes : List Pwrite} {log : List (ℤ × Byte)} {n w len : ℕ}

theorem copied_congr {buf' : ℕ → Byte} {off : ℤ} (h : ∀ j < len, buf (w + j) = buf' (w + j)) :
    copied buf w len off = copied buf' w len off :=
  List.map_congr_left fun j hj => by rw [h j (List.mem_range.mp hj)]

theorem writeLoop_run {r : WriteResult} (hphase : (s.inst i).phase = .writing n w)
    (hpath : s.fs.path = some n) (hdata : s.fs.data n = log.foldl writeByte [])
    (hlen : w + len = (pidLine (p.pid i)).text.length) (hpos : 1 ≤ len)
    (hbuf : ∀ m < w + len, buf m = (pidLine (p.pid i)).text.getD m 0) (ho : Outcomes len outcomes)
    (hr : File.writeLoop buf outcomes f w len w log = some r) :
    ∃ l s', l <+: outcomes ∧ run (step p) (l.map fun o => .inst i (.pwrite o)) s = some s' ∧
      s'.fs.content = some (r.log.foldl writeByte []) ∧
      (s'.inst i).phase = if r.rc = -1 then .ended 1 else .created := by
  induction outcomes generalizing s f w len log with
  | nil => cases hr
  | cons o outcomes ih =>
    cases o with
    | interrupted =>
      obtain ⟨s₁, h₁, hfs, hi, -⟩ := exists_step_inst (p := p) (.interrupted hphase)
      obtain ⟨l, s', hl, hrun, hres⟩ := ih (hi ▸ hphase) (hfs ▸ hpath) (hfs ▸ hdata) hlen hpos hbuf
        ho hr
      exact ⟨.interrupted :: l, s', List.cons_prefix_cons.mpr ⟨rfl, hl⟩,
        run_cons_eq_some.mpr ⟨s₁, h₁, hrun⟩, hres⟩
    | failed =>
      obtain ⟨s₁, h₁, hfs, hi, -⟩ := exists_step_inst (p := p) (.writeFailed hphase)
      cases hr
      refine ⟨[.failed], s₁, by simp, run_singleton.trans h₁, ?_, by rw [hi]; rfl⟩
      rw [hfs, Fs.content, hpath, ← hdata]
      rfl
    | wrote k =>
      obtain ⟨hk, hpos', hrest⟩ := ho
      obtain ⟨s₁, h₁, hfs, hi, -⟩ := exists_step_inst (p := p)
        (.wrote hphase (hpos' (by omega)) (by omega : w + k ≤ (pidLine (p.pid i)).text.length))
      have hpath₁ : s₁.fs.path = some n := by rw [hfs]; exact hpath
      have hdata₁ : s₁.fs.data n = (log ++ copied buf w k w).foldl writeByte [] := by
        have hcongr : copied buf w k w = copied ((pidLine (p.pid i)).text.getD · 0) w k w :=
          copied_congr fun j hj => hbuf _ (by omega)
        rw [hfs, Fs.data_write_self, hdata, List.foldl_append, hcongr]
      rw [File.writeLoop] at hr
      split_ifs at hr with hall
      · cases hr
        have hdone : (s₁.inst i).phase = .created := by
          rw [hi]
          exact if_pos (by omega)
        have hrc : ((w + k : ℕ) : ℤ) ≠ -1 := by omega
        refine ⟨[.wrote k], s₁, by simp, run_singleton.trans h₁, ?_, hdone.trans (if_neg hrc).symm⟩
        rw [Fs.content, hpath₁, ← hdata₁]
        rfl
      · have hphase₁ : (s₁.inst i).phase = .writing n (w + k) := by
          rw [hi]
          exact if_neg (by omega)
        obtain ⟨l, s', hl, hrun, hres⟩ := ih hphase₁ hpath₁ hdata₁ (by omega) (by omega)
          (fun m hm => hbuf m (by omega)) (hrest hall) (by push_cast; exact hr)
        exact ⟨.wrote k :: l, s', List.cons_prefix_cons.mpr ⟨rfl, hl⟩,
          run_cons_eq_some.mpr ⟨s₁, h₁, hrun⟩, hres⟩

/-- `Create_pidfile` as a whole is a run of the steps of the instance: with the same outcomes
of the calls it leaves the path with what the call leaves, and goes on or ends as `main` does
with the result. -/
theorem createPidfile_run {path : Bytes} {file : Option File} {r : PidfileRun}
    (hready : (s.inst i).phase = .ready) (ho : Outcomes (pidLine (p.pid i)).text.length outcomes)
    (hr : createPidfile (Instance.processType (p.master i)) false (p.pid i) path file s.fs.content
      outcomes = some r) :
    ∃ l s', l <+: outcomes ∧ run (step p) (.inst i (.openPid file.isSome) ::
        l.map fun o => .inst i (.pwrite o)) s = some s' ∧ s'.fs.content = r.content ∧
      (s'.inst i).phase = if r.rc = OK then .created else .ended 1 := by
  have hmaster : ¬ ProcessType.master.toNat < (Instance.processType (p.master i)).toNat := by
    cases p.master i <;> decide
  have hopened : openedContent (O_RDWR ||| O_CREAT ||| O_TRUNC) s.fs.content = [] := rfl
  rw [createPidfile, if_neg hmaster] at hr
  simp only [Bool.false_eq_true, if_false, hopened] at hr
  cases file with
  | none =>
    cases hr
    obtain ⟨s₁, h₁, hfs, hi, -⟩ := exists_step_inst (p := p) (.openFailed hready)
    exact ⟨[], s₁, List.nil_prefix, run_singleton.trans h₁, by rw [hfs], by rw [hi]; rfl⟩
  | some file =>
    obtain ⟨s₁, h₁, hfs, hi, -⟩ := exists_step_inst (p := p) (.openPid hready)
    obtain ⟨n, hn⟩ : ∃ n, n = (s.fs.openWrite (O_RDWR ||| O_CREAT ||| O_TRUNC)).2 := ⟨_, rfl⟩
    have hphase₁ : (s₁.inst i).phase = .writing n 0 := by rw [hi, hn]
    have hpath₁ : s₁.fs.path = some n := by rw [hfs, hn, Fs.path_openWrite]
    have hdata₁ : s₁.fs.data n = ([] : List (ℤ × Byte)).foldl writeByte [] := by
      rw [hfs, hn, Fs.data_openWrite_self (by decide), List.foldl_nil]
    generalize hfmt : vsnprintf _ _ _ _ = out at hr
    obtain ⟨mem, len⟩ := out
    obtain ⟨rfl, hmem⟩ := snprintf_pidLine (p.pid i) hfmt
    have hlt := length_pidLine_lt (p.pid i)
    have hpos : 1 ≤ (pidLine (p.pid i)).text.length := by simp [pidLine]
    simp only [Int.toNat_natCast] at hr
    rw [if_neg (by omega)] at hr
    cases hw : file.write (mem.getD · 0) (pidLine (p.pid i)).text.length 0 outcomes with
    | none =>
      rw [hw] at hr
      cases hr
    | some w =>
      simp only [hw] at hr
      have hbuf : ∀ m < 0 + (pidLine (p.pid i)).text.length,
          mem.getD m 0 = (pidLine (p.pid i)).text.getD m 0 := by
        obtain ⟨t, rfl⟩ := hmem
        intro m hm
        simp [List.getElem?_append_left ((Nat.zero_add _).symm ▸ hm : m < _)]
      obtain ⟨l, s', hl, hrun, hcontent, hphase⟩ := writeLoop_run hphase₁ hpath₁ hdata₁
        (Nat.zero_add _) hpos hbuf ho hw
      refine ⟨l, s', hl, run_cons_eq_some.mpr ⟨s₁, h₁, hrun⟩, ?_⟩
      rw [hcontent, hphase]
      split_ifs at hr with hrc
      · cases hr
        exact ⟨rfl, by rw [if_pos hrc]; rfl⟩
      · cases hr
        exact ⟨rfl, by rw [if_neg hrc]; rfl⟩

/-- Instances 4321 and 77, and a stop. -/
def twoParties : Parties (Fin 2) (Fin 1) :=
  ⟨fun i => if i = 0 then 4321 else 77, fun _ => false, fun _ => ascii "stop", ascii "pid"⟩

/-- The first of them is in front of `Create_pidfile`, with an old file there. -/
def readySystem : System (Fin 2) (Fin 1) :=
  (init (some (ascii "1234567"))).setInst 0 { Instance.init with phase := .ready }

theorem createPidfile_run_two : ∃ (l : List Pwrite) (s' : System (Fin 2) (Fin 1)),
    run (step twoParties) (.inst 0 (.openPid true) :: l.map fun o => .inst 0 (.pwrite o))
      readySystem = some s' ∧
    s'.fs.content = some (ascii "4321\n") ∧ (s'.inst 0).phase = .created := by
  have hr : createPidfile .single false 4321 (ascii "pid") (some (pidFile (ascii "pid") []))
      (some (ascii "1234567")) [.wrote 2, .interrupted, .wrote 3] =
        some ⟨OK, some (ascii "4321\n"), []⟩ := by decide
  obtain ⟨l, s', -, hrun, hcontent, hphase⟩ := createPidfile_run (p := twoParties) (i := 0)
    (s := readySystem) rfl (show Outcomes 5 _ by simp [Outcomes]) hr
  exact ⟨l, s', hrun, hcontent, hphase⟩

end Call

end System

end Lingx.Process
