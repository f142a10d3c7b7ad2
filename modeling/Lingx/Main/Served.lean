import Lingx.Main.Start

/-! The process that serves. Its descriptors are those it was started with and those of its logs,
and nothing is left open of what `main` opens on its way; the pid file holds its pid, whether it
is a daemon or not. Descriptors that are closed in the beginning are taken by the first files that
are opened, and a daemon loses what has taken the place of stdin and stdout. -/

namespace Lingx.Main

open Library Logs Process

section Table

variable {o : Options} {e : StartConf} {c : StartCalls} {content : Option Bytes} {p : Proc}
  {r : Running} {log f : OpenFile} {files : Descriptors Handle} {s : Boot} {d : ℤ}

namespace Serves

/-- The built-in log has taken no descriptor from another file. -/
theorem extends_files (g : Serves o e c content p r log files s) : p.files.Extends files := by
  rcases g.opened with ⟨-, rfl⟩ | hopen
  · exact .refl _
  · exact Descriptors.extends_openFile hopen

theorem files_of_ne (g : Serves o e c content p r log files s) (hd : d ≠ log.fd) :
    files.file d = p.files.file d := by
  rcases g.opened with ⟨-, rfl⟩ | hopen
  · rfl
  · obtain ⟨-, rfl⟩ := Descriptors.openFile_eq_some.mp hopen
    exact Descriptors.set_file_of_ne hd

/-- Where the built-in log is not on stderr, its descriptor was free. -/
theorem log_free (g : Serves o e c content p r log files s) (hlog : log.fd ≠ STDERR_FILENO) :
    p.files.file log.fd = none ∧ files.file log.fd ≠ none := by
  rcases g.opened with ⟨h, -⟩ | hopen
  · exact absurd h hlog
  · obtain ⟨hlow, rfl⟩ := Descriptors.openFile_eq_some.mp hopen
    refine ⟨(Descriptors.lowest_spec hlow).2.2.1, ?_⟩
    rw [Descriptors.set_file_self]
    exact Option.some_ne_none _

theorem fd_ne_log (g : Serves o e c content p r log files s) (hf : f ∈ s.logs.opened.openFiles)
    (hfd : f.fd ≠ STDERR_FILENO) : f.fd ≠ log.fd := by
  intro hlog
  have hopen := (g.log_free (hlog ▸ hfd)).2
  have hname : f.name ≠ [] := fun h => hfd (g.good.held.unnamed f hf h)
  exact hopen (hlog ▸ (g.good.held.named f hf hname).2.1)

theorem head_mem (g : Serves o e c content p r log files s) (hf : (s.logs.log 0).file = some f) :
    f ∈ s.logs.opened.openFiles :=
  g.good.mem f ⟨0, hf⟩

end Serves

/-- What is open on a descriptor when the process serves: the null device on stdin and stdout of
a daemon, the file of the first log on stderr, unless a log is on stderr, the files of the logs,
and else what was open in the beginning. -/
def servedFile (core : Modules.CoreConf) (logs : LogCycle) (files : Descriptors Handle) (d : ℤ) :
    Option Handle :=
  if d = STDIN_FILENO ∨ d = STDOUT_FILENO then
    if core.daemon ≠ 0 then some (.named devNull) else files.file d
  else
    let f := if d = STDERR_FILENO then
        if logs.logUseStderr then none else (logs.log 0).file
      else logs.opened.openFiles.find? (·.fd = d)
    match f with
    | none => files.file d
    | some f => if f.name = [] then files.file d else some (.named f.name)

namespace Serves

/-- What was open in the beginning is open in front of the part for the daemon. -/
theorem kept (g : Serves o e c content p r log files s) (hd : p.files.file d ≠ none) :
    s.files.file d = p.files.file d := by
  obtain ⟨y, hy⟩ := Option.ne_none_iff_exists'.mp hd
  rw [hy, g.good.held.kept d y (g.extends_files d y hy)]

theorem ne_log (g : Serves o e c content p r log files s) (hd : p.files.file d ≠ none) :
    ¬ (d = log.fd ∧ log.fd ≠ STDERR_FILENO) := by
  rintro ⟨rfl, hne⟩
  exact hd (g.log_free hne).1

/-- The file of a log is not on a descriptor that was open in the beginning. -/
theorem fd_ne (g : Serves o e c content p r log files s) (hf : f ∈ s.logs.opened.openFiles)
    (hname : f.name ≠ []) (hd : p.files.file d ≠ none) : f.fd ≠ d := by
  rintro rfl
  obtain ⟨y, hy⟩ := Option.ne_none_iff_exists'.mp hd
  have hfree := (g.good.held.named f hf hname).2.1
  rw [g.extends_files _ y hy] at hfree
  cases hfree

theorem table_other (g : Serves o e c content p r log files s) (hin : d ≠ STDIN_FILENO)
    (hout : d ≠ STDOUT_FILENO) (herr : d ≠ STDERR_FILENO) :
    r.proc.files.file d = servedFile e.core s.logs p.files d := by
  obtain ⟨x, -, htable⟩ := g.table
  rw [htable, if_neg herr, startedFile_eq hin hout (.inl herr), servedFile,
    if_neg (not_or.mpr ⟨hin, hout⟩), if_neg herr]
  dsimp only
  cases hfound : s.logs.opened.openFiles.find? (·.fd = d) with
  | none =>
    have hfd : ∀ f ∈ s.logs.opened.openFiles, f.fd ≠ d := by
      simpa using List.find?_eq_none.mp hfound
    split_ifs with hlog
    · rw [hlog.1, (g.log_free hlog.2).1]
    · have hne : d ≠ log.fd := fun h => hlog ⟨h, h ▸ herr⟩
      rw [g.good.held.rest d hfd (Option.some_ne_none d).symm, g.files_of_ne hne]
  | some f =>
    have hf := List.mem_of_find?_eq_some hfound
    have hfd : f.fd = d := by simpa using List.find?_some hfound
    have hname : f.name ≠ [] := fun h => herr (hfd ▸ g.good.held.unnamed f hf h)
    have hne : ¬ (d = log.fd ∧ log.fd ≠ STDERR_FILENO) := fun h =>
      g.fd_ne_log hf (hfd ▸ herr) (hfd.trans h.1)
    rw [if_neg hne, ← hfd]
    dsimp only
    rw [if_neg hname]
    exact (g.good.held.named f hf hname).1

variable (hstd : ∀ d, 0 ≤ d → d ≤ STDERR_FILENO → p.files.file d ≠ none)

include hstd

theorem started_named (g : Serves o e c content p r log files s)
    (hf : f ∈ s.logs.opened.openFiles) (hname : f.name ≠ []) :
    startedFile e.core s.files f.fd = some (.named f.name) := by
  have hne {d : ℤ} (h₀ : 0 ≤ d) (h : d ≤ STDERR_FILENO) : f.fd ≠ d := g.fd_ne hf hname (hstd d h₀ h)
  rw [startedFile_eq (hne (by decide) (by decide)) (hne (by decide) (by decide))
    (.inl (hne (by decide) (by decide)))]
  exact (g.good.held.named f hf hname).1

theorem started_stderr (g : Serves o e c content p r log files s) :
    startedFile e.core s.files STDERR_FILENO = p.files.file STDERR_FILENO := by
  have herr := hstd STDERR_FILENO (by decide) le_rfl
  rw [startedFile_eq (by decide) (by decide) (.inr (by rwa [g.kept herr])), g.kept herr]

theorem table_std (g : Serves o e c content p r log files s)
    (hd : d = STDIN_FILENO ∨ d = STDOUT_FILENO) :
    r.proc.files.file d = servedFile e.core s.logs p.files d := by
  obtain ⟨x, -, htable⟩ := g.table
  have hopen : p.files.file d ≠ none := by
    rcases hd with rfl | rfl
    · exact hstd _ (by decide) (by decide)
    · exact hstd _ (by decide) (by decide)
  have hne : d ≠ STDERR_FILENO := by rcases hd with rfl | rfl <;> decide
  rw [htable, if_neg (g.ne_log hopen), if_neg hne, startedFile_std hd, g.kept hopen, servedFile,
    if_pos hd]

theorem table_stderr (g : Serves o e c content p r log files s) :
    r.proc.files.file STDERR_FILENO = servedFile e.core s.logs p.files STDERR_FILENO := by
  obtain ⟨x, hx, htable⟩ := g.table
  rw [htable, if_neg (g.ne_log (hstd _ (by decide) le_rfl)), if_pos rfl, servedFile,
    if_neg (by decide), if_pos rfl]
  rcases logRedirectStderr_cases hx with ⟨huse, rfl⟩ | ⟨huse, f, hf, h⟩
  · rw [huse, if_pos rfl]
    exact g.started_stderr hstd
  rw [huse, if_neg Bool.false_ne_true, hf]
  dsimp only
  rcases h with ⟨hfd, rfl⟩ | ⟨hfd, rfl⟩
  · have hname : f.name = [] := by
      by_contra hname
      exact g.fd_ne (g.head_mem hf) hname (hstd _ (by decide) le_rfl) hfd
    rw [if_pos hname]
    exact g.started_stderr hstd
  · have hname : f.name ≠ [] := fun h => hfd (g.good.held.unnamed f (g.head_mem hf) h)
    rw [if_neg hname]
    exact g.started_named hstd (g.head_mem hf) hname

end Serves

/-- A process that is started with its standard descriptors open, and that comes to the process
cycle, has exactly these descriptors open: none has been lost, and none is left over of the
built-in log, the configuration, the pid file and the null device. -/
theorem start_files (hstd : ∀ d, 0 ≤ d → d ≤ STDERR_FILENO → p.files.file d ≠ none)
    (h : start o e c content p = .ok r) (d : ℤ) :
    r.proc.files.file d = servedFile e.core r.logs p.files d := by
  obtain ⟨log, files, s, g⟩ := start_ok h
  rw [g.logs]
  by_cases hnull : d = STDIN_FILENO ∨ d = STDOUT_FILENO
  · exact g.table_std hstd hnull
  by_cases herr : d = STDERR_FILENO
  · rw [herr]
    exact g.table_stderr hstd
  · exact g.table_other (fun h => hnull (.inl h)) (fun h => hnull (.inr h)) herr

/-- A process whose standard descriptors are open from one on. -/
def startedProc (low : ℤ) : Proc :=
  ⟨7, ⟨16, fun d => if low ≤ d ∧ d ≤ STDERR_FILENO then some (.started d) else none⟩, 18, false, -1⟩

def plainOptions : Options := .init ⟨ascii "/p", ascii "lingx.conf"⟩

/-- A daemon with a log of the `-g` text and one of the file. -/
def daemonConf : StartConf where
  errorLogPath := ascii "error.log"
  param := [⟨[ascii "error_log", ascii "g.log"], true⟩]
  file := [⟨[ascii "error_log", ascii "f.log", ascii "info"], true⟩]
  core := ⟨Modules.ON, Modules.OFF, ascii "/p/pid"⟩

def daemonCalls : StartCalls where
  openLog := true
  openConf := true
  openDefault := true
  sigaction := fun _ => true
  daemon := ⟨.child 8, true, true, true, true, true⟩
  openPid := true
  pwrite := [.wrote 1, .interrupted, .wrote 1]
  dup2Stderr := true

/-- The log of level info is the first one of the chain. -/
theorem start_files_daemon : ∃ r, start plainOptions daemonConf daemonCalls none (startedProc 0) =
    .ok r ∧ r.proc.files.file 1 = some (.named devNull) ∧
      r.proc.files.file 2 = some (.named (ascii "/p/f.log")) ∧ r.proc.files.file 3 = none ∧
      r.proc.files.file 4 = some (.named (ascii "/p/g.log")) ∧ r.proc.files.file 5 = none := by
  have hstd : ∀ d, 0 ≤ d → d ≤ STDERR_FILENO → (startedProc 0).files.file d ≠ none := by
    intro d h₀ h
    have hd : (startedProc 0).files.file d = some (.started d) := if_pos ⟨h₀, h⟩
    rw [hd]
    exact Option.some_ne_none _
  obtain ⟨r, hr, hlogs⟩ : ∃ r, start plainOptions daemonConf daemonCalls none (startedProc 0) =
      .ok r ∧ [1, 2, 3, 4, 5].map (servedFile daemonConf.core r.logs (startedProc 0).files) =
        [some (.named devNull), some (.named (ascii "/p/f.log")), none,
          some (.named (ascii "/p/g.log")), none] := ⟨_, rfl, rfl⟩
  simp only [List.map_cons, List.cons.injEq, ← start_files hstd hr] at hlogs
  exact ⟨r, hr, hlogs.1, hlogs.2.1, hlogs.2.2.1, hlogs.2.2.2.1, hlogs.2.2.2.2.1⟩

/-- Behind the part for the daemon there is the null device, or what was there before. -/
theorem startedFile_cases {core : Modules.CoreConf} {x : Handle}
    (h : startedFile core files d = some x) : x = .named devNull ∨ files.file d = some x := by
  unfold startedFile daemonFile at h
  split_ifs at h
  · exact .inl (Option.some.inj h).symm
  · exact .inr h
  · exact .inr h

theorem Serves.started_iff (g : Serves o e c content p r log files s)
    (hf : f ∈ s.logs.opened.openFiles) (hname : f.name ≠ []) (hnull : f.name ≠ devNull) :
    startedFile e.core s.files f.fd = some (.named f.name) ↔
      (e.core.daemon ≠ 0 → f.fd ≠ STDIN_FILENO ∧ f.fd ≠ STDOUT_FILENO) := by
  have hopen := (g.good.held.named f hf hname).1
  by_cases hstd : f.fd = STDIN_FILENO ∨ f.fd = STDOUT_FILENO
  · rw [startedFile_std hstd]
    split_ifs with hdaemon
    · refine iff_of_false (fun h => hnull ?_) fun h => ?_
      · exact (Handle.named.inj (Option.some.inj h)).symm
      · exact not_or.mpr (h hdaemon) hstd
    · exact iff_of_true hopen fun h => absurd h hdaemon
  · obtain ⟨hin, hout⟩ := not_or.mp hstd
    have hne : s.files.file f.fd ≠ none := by
      rw [hopen]
      exact Option.some_ne_none _
    exact iff_of_true ((startedFile_eq hin hout (.inr hne)).trans hopen) fun _ => ⟨hin, hout⟩

/-- Whatever descriptors a process is started with, a log writes to its own file when the process
serves, unless the file is on a descriptor that the daemon gives to the null device, or it has
taken the place of stderr, which is then given to another log. -/
theorem start_log_kept_iff (h : start o e c content p = .ok r) (hf : f ∈ r.logs.opened.openFiles)
    (hname : f.name ≠ []) (hnull : f.name ≠ devNull) :
    r.proc.files.file f.fd = some (.named f.name) ↔
      (e.core.daemon ≠ 0 → f.fd ≠ STDIN_FILENO ∧ f.fd ≠ STDOUT_FILENO) ∧
      (f.fd = STDERR_FILENO → r.logs.logUseStderr = true ∨ (r.logs.log 0).file = some f) := by
  obtain ⟨log, files, s, g⟩ := start_ok h
  rw [g.logs] at hf ⊢
  obtain ⟨x, hx, htable⟩ := g.table
  have hlog : ¬ (f.fd = log.fd ∧ log.fd ≠ STDERR_FILENO) := fun h =>
    (g.log_free h.2).2 (h.1 ▸ (g.good.held.named f hf hname).2.1)
  have hstarted := g.started_iff hf hname hnull
  rw [htable, if_neg hlog, ← hstarted]
  by_cases herr : f.fd = STDERR_FILENO
  · rw [if_pos herr]
    rcases logRedirectStderr_cases hx with ⟨huse, rfl⟩ | ⟨huse, f', hf', ⟨hfd, rfl⟩ | ⟨hfd, rfl⟩⟩
    · rw [Option.getD_none, ← herr]
      exact ⟨fun h => ⟨h, fun _ => .inl huse⟩, fun h => h.1⟩
    · have hsame : f' = f := g.good.held.fd_inj _ (g.head_mem hf') _ hf (hfd.trans herr.symm)
      rw [Option.getD_none, ← herr]
      exact ⟨fun h => ⟨h, fun _ => .inr (hsame ▸ hf')⟩, fun h => h.1⟩
    · have hne : f' ≠ f := fun h => hfd (h ▸ herr)
      have hname' : f'.name ≠ [] := fun h =>
        hfd (g.good.held.unnamed f' (g.head_mem hf') h)
      refine iff_of_false (fun h => ?_) fun h => ?_
      · rcases startedFile_cases h with hd | hopen
        · exact hnull (Handle.named.inj hd)
        · have hopen' := (g.good.held.named f' (g.head_mem hf') hname').1
          have hsame := Handle.named.inj (Option.some.inj (hopen'.symm.trans hopen))
          exact hne (g.good.held.name_inj _ (g.head_mem hf') _ hf hsame)
      · rcases h.2 herr with huse' | hhead
        · exact absurd (huse.symm.trans huse') Bool.false_ne_true
        · exact hne (Option.some.inj (hf'.symm.trans hhead))
  · rw [if_neg herr]
    exact ⟨fun h => ⟨h, fun h => absurd h herr⟩, fun h => h.1⟩

/-- Without stdin and stdout the built-in log and that of the `-g` text take their place, and the
daemon gives them to the null device. -/
theorem start_log_kept_iff_daemon : ∃ r,
    start plainOptions daemonConf daemonCalls none (startedProc 2) = .ok r ∧
      r.logs.opened.openFiles = [⟨1, ascii "/p/g.log"⟩, ⟨4, ascii "/p/f.log"⟩] ∧
      r.proc.files.file 1 ≠ some (.named (ascii "/p/g.log")) ∧
      r.proc.files.file 4 = some (.named (ascii "/p/f.log")) := by
  obtain ⟨r, hr, hfiles⟩ : ∃ r, start plainOptions daemonConf daemonCalls none (startedProc 2) =
      .ok r ∧ r.logs.opened.openFiles = [⟨1, ascii "/p/g.log"⟩, ⟨4, ascii "/p/f.log"⟩] :=
    ⟨_, rfl, rfl⟩
  have hlost := start_log_kept_iff hr (f := ⟨1, ascii "/p/g.log"⟩) (by simp [hfiles]) (by decide)
    (by decide)
  have hkept := start_log_kept_iff hr (f := ⟨4, ascii "/p/f.log"⟩) (by simp [hfiles]) (by decide)
    (by decide)
  refine ⟨r, hr, hfiles, fun h => ?_, hkept.mpr ⟨fun _ => by decide, fun h => ?_⟩⟩
  · exact ((hlost.mp h).1 (by decide)).2 rfl
  · exact absurd h (by decide)

end Table

section Pid

variable {o o' : Options} {e : StartConf} {c : StartCalls} {content content' : Option Bytes}
  {p : Proc} {status : ℤ} {messages : List StartMessage}

/-- A signal has been asked for exactly where the process is a signal process. -/
def SignalType (o : Options) : Prop :=
  o.processType = if o.optSignal = [] then .single else .signaller

theorem setFlag_signalType {ch : Byte} (h : setFlag o ch = some o') (g : SignalType o) :
    SignalType o' := by
  unfold setFlag at h
  split_ifs at h <;> cases h <;> exact g

theorem setValue_signalType {opt : Opt} {value : Bytes} (h : setValue o opt value = .ok o')
    (g : SignalType o) : SignalType o' := by
  cases opt with
  | p => cases h; exact g
  | c => cases h; exact g
  | g => cases h; exact g
  | s =>
    have hvalue : value ∈ Main.signals := allowed_of_setValue h rfl
    have hne : value ≠ [] := by
      rintro rfl
      revert hvalue
      decide
    rw [setValue, if_pos hvalue] at h
    cases h
    exact (if_neg hne).symm

theorem readLetters_signalType {args : Bytes} {next : Option Bytes} {taken : Bool}
    (h : readLetters o args next = .ok (o', taken)) (g : SignalType o) : SignalType o' := by
  induction args generalizing o with
  | nil =>
    cases h
    exact g
  | cons ch args ih =>
    rw [readLetters] at h
    split at h
    · rename_i o₁ hflag
      exact ih h (setFlag_signalType hflag g)
    split at h
    · cases h
    rename_i opt hopt
    split_ifs at h
    · obtain ⟨o₁, hset, h⟩ := bind_eq_ok.mp h
      cases h
      exact setValue_signalType hset g
    · split at h
      · cases h
      · obtain ⟨o₁, hset, h⟩ := bind_eq_ok.mp h
        cases h
        exact setValue_signalType hset g

theorem readArgument_signalType {arg : Bytes} {next : Option Bytes} {taken : Bool}
    (h : readArgument o arg next = .ok (o', taken)) (g : SignalType o) : SignalType o' := by
  unfold readArgument at h
  split at h
  · cases h
  · split_ifs at h
    exact readLetters_signalType h g

theorem getOptionsLoop_signalType {args : List Bytes} (h : getOptionsLoop o args = .ok o')
    (g : SignalType o) : SignalType o' := by
  induction o, args using getOptionsLoop.induct with
  | case1 o =>
    cases h
    exact g
  | case2 o arg =>
    obtain ⟨⟨o₁, taken⟩, harg, h⟩ := bind_eq_ok.mp h
    cases h
    exact readArgument_signalType harg g
  | case3 o arg value args ihTaken ih =>
    obtain ⟨⟨o₁, taken⟩, harg, h⟩ := bind_eq_ok.mp h
    have g₁ := readArgument_signalType harg g
    cases taken with
    | true => exact ihTaken o₁ h g₁
    | false => exact ih o₁ h g₁

theorem getOptions_signalType {d : Defaults} {argv : List Bytes} (h : getOptions d argv = .ok o) :
    SignalType o :=
  getOptionsLoop_signalType h rfl

/-- A pid file is written by `Create_pidfile` where it returns `OK`. -/
theorem createPidfile_ok {type : ProcessType} (htype : type = .single ∨ type = .master)
    {pid : Int32} {path : Bytes} {file : Option Conf.File} {outcomes : List Conf.Pwrite}
    {run : PidfileRun} (ho : Conf.Outcomes (pidLine pid).text.length outcomes)
    (hr : createPidfile type false pid path file content outcomes = some run) (hok : run.rc = OK) :
    run.content = some (pidLine pid).text := by
  cases file with
  | some file => exact createPidfile_content htype ho hr hok
  | none =>
    have hmaster : ¬ ProcessType.master.toNat < type.toNat := by
      rcases htype with rfl | rfl <;> decide
    rw [createPidfile, if_neg hmaster] at hr
    cases hr
    cases hok

theorem startDaemon_exit {core : Modules.CoreConf} {calls : DaemonCalls}
    (h : startDaemon core calls content p = .error (.exit 0 content' messages)) :
    core.daemon ≠ 0 ∧ calls.fork = .parent ∧ content' = content ∧ messages = [] := by
  unfold startDaemon at h
  split_ifs at h with hdaemon
  split at h
  · cases h
  · cases h
  · rename_i status hexit
    cases h
    unfold daemonize at hexit
    split at hexit
    · cases hexit
    · rename_i hfork
      exact ⟨hdaemon, hfork, rfl, rfl⟩
    · split at hexit <;> cases hexit

theorem startPidfile_exit {type : ProcessType} {path : Bytes}
    (h : startPidfile type path c content p = .error (.exit status content' messages)) :
    status = 1 := by
  unfold startPidfile at h
  dsimp only at h
  split at h
  · cases h
  rename_i run hrun
  by_cases hrc : run.rc ≠ OK
  · rw [if_pos hrc] at h
    cases h
    rfl
  · rw [if_neg hrc] at h
    cases h

theorem startRedirect_exit {logs : LogCycle}
    (h : startRedirect logs c content p = .error (.exit status content' messages)) :
    status = 1 := by
  unfold startRedirect at h
  split at h
  · cases h
  · cases h
  · split at h
    · cases h
      rfl
    · cases h

theorem initNewCycleLogs_exit {paths : LogPaths} {confFile : Bytes} {s : Boot}
    (h : initNewCycleLogs paths e c confFile content s =
      .error (.exit status content' messages)) : status = 1 := by
  unfold initNewCycleLogs at h
  split at h
  · cases h
    rfl
  split at h
  · cases h
  split at h
  · cases h
    rfl
  · split at h
    · cases h
      rfl
    · cases h

theorem start_exit (h : start o e c content p = .error (.exit 0 content' messages)) :
    e.core.daemon ≠ 0 ∧ c.daemon.fork = .parent ∧ content' = content ∧ messages = [] := by
  unfold start at h
  by_cases hserving : o.optShowVersion ∨ o.optTestConfig ∨ o.optSignal ≠ []
  · rw [if_pos hserving] at h
    cases h
  rw [if_neg hserving] at h
  dsimp only at h
  split at h
  · rename_i hcycle
    cases h
    exact absurd (initNewCycleLogs_exit hcycle) (by decide)
  split at h
  · cases h
  rcases bind_eq_error.mp h with hdaemon | ⟨p₁, -, h⟩
  · exact startDaemon_exit hdaemon
  rcases bind_eq_error.mp h with hpid | ⟨⟨p₂, content₂⟩, -, h⟩
  · exact absurd (startPidfile_exit hpid) (by decide)
  rcases bind_eq_error.mp h with hredirect | ⟨p₃, -, h⟩
  · exact absurd (startRedirect_exit hredirect) (by decide)
  · cases h

/-- `main` comes to the process cycle with the line of the pid of this process in the pid file,
whether it has become a daemon or not; or it ends, with 0 only in the parent of the daemon, which
leaves the pid file as it was. -/
theorem start_pidfile {d : Defaults} {argv : List Bytes} (hopt : getOptions d argv = .ok o) :
    (∀ r, start o e c content p = .ok r →
      Conf.Outcomes (pidLine r.proc.getpid).text.length c.pwrite →
      r.content = some (pidLine r.proc.getpid).text ∧
      (r.processType = .master ∧ e.core.master ≠ 0 ∨
        r.processType = .single ∧ e.core.master = 0) ∧
      (e.core.daemon ≠ 0 ∧ c.daemon.fork = .child r.proc.getpid ∧
          r.proc.sessionLeader = true ∧ r.proc.umask = 0 ∨
        e.core.daemon = 0 ∧ r.proc.getpid = p.getpid)) ∧
    ∀ content' messages, start o e c content p = .error (.exit 0 content' messages) →
      e.core.daemon ≠ 0 ∧ c.daemon.fork = .parent ∧ content' = content ∧ messages = [] := by
  refine ⟨fun r h ho => ?_, fun content' messages => start_exit⟩
  obtain ⟨log, files, s, g⟩ := start_ok h
  obtain ⟨file, run, hrun, hrc, hcontent⟩ := g.pidfile
  have hsingle : o.processType = .single := by
    have htype := getOptions_signalType hopt
    rwa [SignalType, if_pos g.serving] at htype
  have htype : r.processType = .master ∧ e.core.master ≠ 0 ∨
      r.processType = .single ∧ e.core.master = 0 := by
    rw [g.type, serveType, hsingle]
    split_ifs with hmaster
    · exact .inl ⟨rfl, hmaster.1⟩
    · exact .inr ⟨rfl, by_contra fun h => hmaster ⟨h, rfl⟩⟩
  rw [← g.type] at hrun
  refine ⟨?_, htype, g.daemon⟩
  rw [hcontent]
  exact createPidfile_ok (htype.symm.imp And.left And.left) ho hrun hrc

/-- The daemon, and its parent. -/
theorem start_pidfile_daemon :
    (∃ r, start plainOptions daemonConf daemonCalls none (startedProc 0) = .ok r ∧
      r.content = some (ascii "8\n") ∧ r.processType = .single) ∧
    ∃ messages, start plainOptions daemonConf
      { daemonCalls with daemon := { daemonCalls.daemon with fork := .parent } }
      (some (ascii "5\n")) (startedProc 0) = .error (.exit 0 (some (ascii "5\n")) messages) := by
  have hopt : getOptions ⟨ascii "/p", ascii "lingx.conf"⟩ [ascii "lingx"] = .ok plainOptions := rfl
  constructor
  · obtain ⟨r, hr, hpid⟩ : ∃ r, start plainOptions daemonConf daemonCalls none (startedProc 0) =
        .ok r ∧ r.proc.getpid = 8 := ⟨_, rfl, rfl⟩
    have hwrites : Conf.Outcomes (pidLine r.proc.getpid).text.length daemonCalls.pwrite := by
      have hlen : (pidLine r.proc.getpid).text.length = 2 := by
        rw [hpid]
        rfl
      rw [hlen]
      simp [Conf.Outcomes, daemonCalls]
    obtain ⟨hcontent, htype, -⟩ := (start_pidfile hopt).1 r hr hwrites
    rw [hpid] at hcontent
    exact ⟨r, hr, hcontent, htype.elim (fun h => absurd rfl h.2) And.left⟩
  · exact ⟨[], rfl⟩

end Pid

end Lingx.Main
