import Lingx.Logs.Table
import Lingx.Process.Pidfile

/-! `Daemonize`. The process forks, and the child, which the rest of `main` runs in, leaves the
session and lets the first two descriptors be open on `/dev/null`. The outcomes of the calls are
inputs; a call that takes a descriptor can also fail because of the table. -/

namespace Lingx.Process

open Library
open Logs (Handle)

def STDIN_FILENO : ℤ := 0
def STDOUT_FILENO : ℤ := 1

/-- A process, and the global `Pid` in it. -/
structure Proc where
  getpid : Int32
  files : Descriptors Handle
  umask : ℕ
  sessionLeader : Bool
  pid : Int32

/-- What `fork()` returns, and in which process. -/
inductive Fork where
  | failed
  | child (getpid : Int32)
  | parent
  deriving DecidableEq, Repr

/-- Whether the calls of `Daemonize` succeed, as far as the table does not decide it. -/
structure DaemonCalls where
  fork : Fork
  setsid : Bool
  openNull : Bool
  dup2Stdin : Bool
  dup2Stdout : Bool
  close : Bool
  deriving DecidableEq, Repr

/-- The messages of `Daemonize`, all of level EMERG. -/
inductive DaemonMessage where
  | fork
  | setsid
  | openNull
  | dup2Stdin
  | dup2Stdout
  | close
  deriving DecidableEq, Repr

/-- `Daemonize` returns `OK` in a process, or `ERROR` with a message, or it calls `exit()`. -/
inductive DaemonEnd where
  | ok (p : Proc)
  | error (m : DaemonMessage)
  | exits (status : ℤ)

def devNull : Bytes := ascii "/dev/null"

/-- The `dup2()` calls and the `close()`, for the descriptor that is open on `/dev/null`. -/
def daemonizeFiles (c : DaemonCalls) (fd : ℤ) (files : Descriptors Handle) :
    Except DaemonMessage (Descriptors Handle) :=
  match if c.dup2Stdin then files.dup2 fd STDIN_FILENO else none with
  | none => .error .dup2Stdin
  | some files =>
    match if c.dup2Stdout then files.dup2 fd STDOUT_FILENO else none with
    | none => .error .dup2Stdout
    | some files =>
      if Logs.STDERR_FILENO < fd then
        match if c.close then files.close fd else none with
        | none => .error .close
        | some files => .ok files
      else .ok files

/-- The part of `Daemonize` behind `fork()`, in the child. -/
def daemonizeChild (c : DaemonCalls) (getpid : Int32) (p : Proc) : Except DaemonMessage Proc :=
  let p := { p with getpid := getpid, sessionLeader := false, pid := getpid }
  if c.setsid then
    let p := { p with sessionLeader := true, umask := 0 }
    match if c.openNull then p.files.openFile (.named devNull) else none with
    | none => .error .openNull
    | some (fd, files) => do
      let files ← daemonizeFiles c fd files
      .ok { p with files := files }
  else .error .setsid

/-- `Daemonize`. -/
def daemonize (c : DaemonCalls) (p : Proc) : DaemonEnd :=
  match c.fork with
  | .failed => .error .fork
  | .parent => .exits 0
  | .child getpid =>
    match daemonizeChild c getpid p with
    | .ok p => .ok p
    | .error m => .error m

variable {c : DaemonCalls} {p : Proc} {fd d : ℤ} {files files' : Descriptors Handle} {f : Handle}

/-- What is open on the descriptors behind `Daemonize`. -/
def daemonFile (files : Descriptors Handle) (d : ℤ) : Option Handle :=
  if d = STDIN_FILENO ∨ d = STDOUT_FILENO ∨ d = Logs.STDERR_FILENO ∧ files.lowest = some d then
    some (.named devNull)
  else files.file d

theorem dup2_file {target : ℤ} (hfd : files.file fd = some f)
    (h : files.dup2 fd target = some files') : files' = files.set target (some f) := by
  obtain ⟨-, -, -, rfl⟩ := Descriptors.dup2_eq_some.mp h
  rw [hfd]

theorem ite_none_eq_some {α : Type} {b : Bool} {x : Option α} {y : α}
    (h : (if b then x else none) = some y) : x = some y := by
  cases b with
  | false => cases h
  | true => exact h

/-- The calls on the descriptors leave `/dev/null` on the first two, and where the file was
opened only if this is in front of the others. -/
theorem daemonizeFiles_file (hfd : files.file fd = some f)
    (h : daemonizeFiles c fd files = .ok files') (d : ℤ) :
    files'.file d = if d = STDIN_FILENO ∨ d = STDOUT_FILENO then some f
      else if d = fd ∧ Logs.STDERR_FILENO < fd then none else files.file d := by
  unfold daemonizeFiles at h
  split at h
  · cases h
  rename_i files₁ h₁
  split at h
  · cases h
  rename_i files₂ h₂
  have h₁ := dup2_file hfd (ite_none_eq_some h₁)
  subst h₁
  have hfd₁ : (files.set STDIN_FILENO (some f)).file fd = some f := by
    rw [Descriptors.set_file]
    split_ifs
    · rfl
    · exact hfd
  have h₂ := dup2_file hfd₁ (ite_none_eq_some h₂)
  subst h₂
  have hout : ((files.set STDIN_FILENO (some f)).set STDOUT_FILENO (some f)).file d =
      if d = STDIN_FILENO ∨ d = STDOUT_FILENO then some f else files.file d := by
    rw [Descriptors.set_file, Descriptors.set_file]
    split_ifs with ho hi hor hor hor <;> first | rfl | simp_all
  by_cases hlt : Logs.STDERR_FILENO < fd
  · rw [if_pos hlt] at h
    split at h
    · cases h
    rename_i files₃ h₃
    obtain ⟨-, rfl⟩ := Descriptors.close_eq_some.mp (ite_none_eq_some h₃)
    cases h
    have hstd : ¬ (fd = STDIN_FILENO ∨ fd = STDOUT_FILENO) := by
      unfold Logs.STDERR_FILENO at hlt
      unfold STDIN_FILENO STDOUT_FILENO
      omega
    rw [Descriptors.set_file]
    by_cases hd : d = fd
    · subst hd
      rw [if_pos rfl, if_neg hstd, if_pos ⟨rfl, hlt⟩]
    · have hnot : ¬ (d = fd ∧ Logs.STDERR_FILENO < fd) := fun hand => hd hand.1
      rw [if_neg hd, hout, if_neg hnot]
  · rw [if_neg hlt] at h
    cases h
    have hnot : ¬ (d = fd ∧ Logs.STDERR_FILENO < fd) := fun hand => hlt hand.2
    rw [hout, if_neg hnot]

/-- The child leads a session, and its descriptors are those of the parent but for the ones that
are open on `/dev/null`. -/
theorem daemonizeChild_ok {getpid : Int32} {p' : Proc} (h : daemonizeChild c getpid p = .ok p') :
    ∃ files, p' = ⟨getpid, files, 0, true, getpid⟩ ∧
      ∀ d, files.file d = daemonFile p.files d := by
  unfold daemonizeChild at h
  split_ifs at h
  dsimp only at h
  split at h
  · cases h
  rename_i fd files hopen
  obtain ⟨files', hfiles, h⟩ := bind_eq_ok.mp h
  cases h
  obtain ⟨hlow, rfl⟩ := Descriptors.openFile_eq_some.mp hopen
  obtain ⟨hnonneg, -, hfree, -⟩ := Descriptors.lowest_spec hlow
  refine ⟨files', rfl, fun d => ?_⟩
  rw [daemonizeFiles_file Descriptors.set_file_self hfiles, daemonFile, hlow, Descriptors.set_file]
  by_cases hstd : d = STDIN_FILENO ∨ d = STDOUT_FILENO
  · rw [if_pos hstd, if_pos (by tauto)]
  have hge (hd : d = fd) : Logs.STDERR_FILENO ≤ d := by
    unfold STDIN_FILENO STDOUT_FILENO at hstd
    unfold Logs.STDERR_FILENO
    omega
  rw [if_neg hstd]
  by_cases hd : d = fd
  · rcases (hge hd).lt_or_eq with hlt | heq
    · rw [if_pos ⟨hd, hd ▸ hlt⟩, if_neg (by rintro (h | h | ⟨h, -⟩) <;> omega), hd, hfree]
    · rw [if_neg (by omega), if_pos hd, if_pos (.inr (.inr ⟨heq.symm, congrArg some hd.symm⟩))]
  · have hnot : ¬ (d = STDIN_FILENO ∨ d = STDOUT_FILENO ∨
        d = Logs.STDERR_FILENO ∧ some fd = some d) := by
      rintro (h | h | ⟨-, h⟩)
      · exact hstd (.inl h)
      · exact hstd (.inr h)
      · exact hd (Option.some.inj h).symm
    rw [if_neg fun h => hd h.1, if_neg hd, if_neg hnot]

theorem daemonize_ok {p' : Proc} (h : daemonize c p = .ok p') : ∃ getpid files,
    c.fork = .child getpid ∧ p' = ⟨getpid, files, 0, true, getpid⟩ ∧
      ∀ d, files.file d = daemonFile p.files d := by
  unfold daemonize at h
  split at h
  · cases h
  · cases h
  rename_i getpid hfork
  split at h
  · rename_i hchild
    cases h
    obtain ⟨files, rfl, hfiles⟩ := daemonizeChild_ok hchild
    exact ⟨getpid, files, hfork, rfl, hfiles⟩
  · cases h

end Lingx.Process
