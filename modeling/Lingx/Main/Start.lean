import Lingx.Main.Options
import Lingx.Modules.Shipped
import Lingx.Process.Daemon
import Lingx.Process.Stop

/-! `main` up to the process cycle, in the process that it runs in: the built-in log, the logs of
the configuration, the signals, the daemon, the pid file, and the descriptors that are given to
stderr and closed. The outcomes of the calls are inputs, and so are the directives `error_log`
of the configuration and the settings of the core. -/

namespace Lingx.Main

open Library Logs Process

/-- The messages of `main` and of the functions it calls. -/
inductive StartMessage where
  | openLog (path : Bytes)
  | sigaction (signame : Bytes)
  | daemon (m : DaemonMessage)
  | pidfile (m : PidfileMessage)
  | dup2Stderr
  | closeLog
  deriving DecidableEq, Repr

/-- What the configuration says: the directives of the `-g` text and of the file, and the
settings of the core. -/
structure StartConf where
  errorLogPath : Bytes
  param : List Directive
  file : List Directive
  core : Modules.CoreConf

/-- Whether the calls succeed, as far as the descriptors do not decide it. -/
structure StartCalls where
  openLog : Bool
  openConf : Bool
  openDefault : Bool
  sigaction : ℤ → Bool
  daemon : DaemonCalls
  openPid : Bool
  pwrite : List Conf.Pwrite
  dup2Stderr : Bool

/-- What the process cycle begins with. -/
structure Running where
  processType : ProcessType
  proc : Proc
  logs : LogCycle
  content : Option Bytes
  messages : List StartMessage

/-- How `main` ends in front of the process cycle: it returns or exits, with what the pid file
holds then and the messages of the call that has failed; it comes to a null file; it is in
`pwrite()`; or it is not asked to serve. -/
inductive StartEnd where
  | exit (status : ℤ) (content : Option Bytes) (messages : List StartMessage)
  | nullFile
  | writing
  | notServing

/-- `Init_new_log` -/
def initNewLog (prefix_ errorLogPath : Bytes) (canOpen : Bool) (files : Descriptors Handle) :
    OpenFile × Descriptors Handle × List StartMessage :=
  if errorLogPath = [] then (⟨STDERR_FILENO, []⟩, files, [])
  else
    let path := getFullName prefix_ errorLogPath
    match if canOpen then files.openFile (.named path) else none with
    | none => (⟨STDERR_FILENO, []⟩, files, [.openLog path])
    | some (fd, files) => (⟨fd, path⟩, files, [])

/-- What `Init_new_cycle` does with the descriptors; a rejected configuration ends `main` with 1.
`parse` with an empty name goes through the null `conf_file_`. -/
def initNewCycleLogs (p : LogPaths) (e : StartConf) (c : StartCalls) (confFile : Bytes)
    (content : Option Bytes) (s : Boot) : Except StartEnd Boot :=
  match e.param.foldlM (Boot.errorLog p) s with
  | .error _ => .error (.exit 1 content [])
  | .ok s =>
    if confFile = [] then .error .nullFile
    else
      match if c.openConf then s.files.openFile (.named confFile) else none with
      | none => .error (.exit 1 content [])
      | some (fd, files) =>
        match e.file.foldlM (Boot.errorLog p) { s with files := files } with
        | .error _ => .error (.exit 1 content [])
        | .ok s =>
          let s := { s with files := (s.files.close fd).getD s.files }
          .ok (s.openDefault p c.openDefault)

/-- `Init_signals`, with the name in its message if it fails. -/
def initSignals (sigaction : ℤ → Bool) : Option Bytes :=
  (signames.find? fun s => !sigaction s.1).map (·.2)

/-- The part for `ccf->daemon`. -/
def startDaemon (core : Modules.CoreConf) (c : DaemonCalls) (content : Option Bytes) (p : Proc) :
    Except StartEnd Proc :=
  if core.daemon ≠ 0 then
    match daemonize c p with
    | .ok p => .ok p
    | .error m => .error (.exit 1 content [.daemon m])
    | .exits status => .error (.exit status content [])
  else .ok p

/-- `Create_pidfile` in a process; its file is closed when it returns. -/
def startPidfile (type : ProcessType) (path : Bytes) (c : StartCalls) (content : Option Bytes)
    (p : Proc) : Except StartEnd (Proc × Option Bytes) :=
  let opened := if c.openPid then p.files.openFile (.named path) else none
  let file := opened.map fun fd => (⟨fd.1, path, 0, 0, fun _ _ => none⟩ : Conf.File)
  let files := (opened.bind fun fd => fd.2.close fd.1).getD p.files
  match createPidfile type false p.pid path file content c.pwrite with
  | none => .error .writing
  | some r =>
    if r.rc ≠ OK then .error (.exit 1 r.content (r.messages.map .pidfile))
    else .ok ({ p with files := files }, r.content)

/-- `Cycle::log_redirect_stderr` in a process. -/
def startRedirect (logs : LogCycle) (c : StartCalls) (content : Option Bytes) (p : Proc) :
    Except StartEnd Proc :=
  match logRedirectStderr logs with
  | none => .error .nullFile
  | some none => .ok p
  | some (some fd) =>
    match if c.dup2Stderr then p.files.dup2 fd STDERR_FILENO else none with
    | none => .error (.exit 1 content [.dup2Stderr])
    | some files => .ok { p with files := files }

/-- The part that closes the built-in log. -/
def closeLog (log : OpenFile) (p : Proc) : Proc × List StartMessage :=
  if log.fd ≠ STDERR_FILENO then
    match p.files.close log.fd with
    | none => (p, [.closeLog])
    | some files => ({ p with files := files }, [])
  else (p, [])

/-- `main` behind `Get_options_`, up to the process cycle. -/
def start (o : Options) (e : StartConf) (c : StartCalls) (content : Option Bytes) (p : Proc) :
    Except StartEnd Running :=
  if o.optShowVersion ∨ o.optTestConfig ∨ o.optSignal ≠ [] then .error .notServing
  else
    let p := { p with pid := p.getpid }
    let (log, files, messages) := initNewLog o.optPrefix e.errorLogPath c.openLog p.files
    let cycle := processOptions o NOTICE
    match initNewCycleLogs ⟨cycle.prefix_, e.errorLogPath⟩ e c cycle.confFile content
      ⟨files, .init⟩ with
    | .error ended => .error ended
    | .ok s =>
      let type :=
        if e.core.master ≠ 0 ∧ o.processType = .single then .master else o.processType
      match initSignals c.sigaction with
      | some signame => .error (.exit 1 content [.sigaction signame])
      | none => do
        let p ← startDaemon e.core c.daemon content { p with files := s.files }
        let (p, content) ← startPidfile type e.core.pidPath c content p
        let p ← startRedirect s.logs c content p
        let (p, closed) := closeLog log p
        .ok ⟨type, p, s.logs, content, messages ++ closed⟩

section Steps

variable {o : Options} {e : StartConf} {c : StartCalls} {content content' : Option Bytes}
  {p p' : Proc} {r : Running} {files files' : Descriptors Handle} {log : OpenFile}
  {messages : List StartMessage} {s : Boot} {d : ℤ}

/-- The built-in log is on stderr, or on a descriptor of its own. -/
theorem initNewLog_cases {prefix_ path : Bytes} {canOpen : Bool}
    (h : initNewLog prefix_ path canOpen files = (log, files', messages)) :
    (log.fd = STDERR_FILENO ∧ files' = files) ∨
      files.openFile (.named log.name) = some (log.fd, files') := by
  unfold initNewLog at h
  split_ifs at h
  · cases h
    exact .inl ⟨rfl, rfl⟩
  · dsimp only at h
    split at h
    · cases h
      exact .inl ⟨rfl, rfl⟩
    · rename_i hopen
      cases h
      exact .inr hopen
  · dsimp only at h
    cases h
    exact .inl ⟨rfl, rfl⟩

theorem initNewCycleLogs_good {paths : LogPaths} {confFile : Bytes}
    (h : initNewCycleLogs paths e c confFile content ⟨files, .init⟩ = .ok s) :
    Boot.Good files none s := by
  unfold initNewCycleLogs at h
  split at h
  · cases h
  rename_i s₁ hparam
  have g₁ := (Boot.good_init files).errorLogs hparam
  split at h
  · cases h
  split at h
  · cases h
  rename_i fd files₁ hopen
  have g₂ := g₁.openFile (ite_none_eq_some hopen)
  split at h
  · cases h
  rename_i s₂ hfile
  have g₃ := g₂.errorLogs hfile
  have hclose : s₂.files.close fd = some (s₂.files.set fd none) :=
    Descriptors.close_eq_some.mpr ⟨(g₃.held.extra_open fd rfl).1, rfl⟩
  dsimp only at h
  rw [hclose, Option.getD_some] at h
  cases h
  exact (g₃.close hclose).openDefault

/-- What is open behind the part for the daemon. -/
def startedFile (core : Modules.CoreConf) (files : Descriptors Handle) (d : ℤ) : Option Handle :=
  if core.daemon ≠ 0 then daemonFile files d else files.file d

theorem startDaemon_ok {core : Modules.CoreConf} {calls : DaemonCalls}
    (h : startDaemon core calls content p = .ok p') :
    (∀ d, p'.files.file d = startedFile core p.files d) ∧
      (core.daemon ≠ 0 ∧ (∃ getpid, calls.fork = .child getpid ∧
        p' = ⟨getpid, p'.files, 0, true, getpid⟩) ∨ core.daemon = 0 ∧ p' = p) := by
  unfold startDaemon at h
  unfold startedFile
  split_ifs at h with hdaemon
  · split at h
    · rename_i p₁ hrun
      cases h
      obtain ⟨getpid, files, hfork, rfl, hfiles⟩ := daemonize_ok hrun
      simp only [if_pos hdaemon]
      exact ⟨hfiles, .inl ⟨hdaemon, getpid, hfork, rfl⟩⟩
    · cases h
    · cases h
  · cases h
    simp only [if_neg hdaemon]
    exact ⟨fun _ => trivial, .inr ⟨not_not.mp hdaemon, trivial⟩⟩

theorem startPidfile_ok {type : ProcessType} {path : Bytes}
    (h : startPidfile type path c content p = .ok (p', content')) :
    p' = p ∧ ∃ file run, createPidfile type false p.pid path file content c.pwrite = some run ∧
      run.rc = OK ∧ content' = run.content := by
  unfold startPidfile at h
  dsimp only at h
  split at h
  · cases h
  rename_i run hrun
  by_cases hrc : run.rc ≠ OK
  · rw [if_pos hrc] at h
    cases h
  rw [if_neg hrc] at h
  cases h
  refine ⟨?_, _, run, hrun, not_not.mp hrc, rfl⟩
  have hclosed : ((if c.openPid then p.files.openFile (.named path) else none).bind
      fun fd => fd.2.close fd.1).getD p.files = p.files := by
    cases hopen : if c.openPid then p.files.openFile (.named path) else none with
    | none => rfl
    | some x => rw [Option.bind_some, Descriptors.close_of_openFile (ite_none_eq_some hopen),
        Option.getD_some]
  rw [hclosed]

/-- The descriptors where stderr has been made a copy of another one. -/
def redirected (x : Option ℤ) (files : Descriptors Handle) : Descriptors Handle :=
  match x with
  | none => files
  | some fd => files.set STDERR_FILENO (files.file fd)

theorem startRedirect_ok {logs : LogCycle} (h : startRedirect logs c content p = .ok p') :
    ∃ x, logRedirectStderr logs = some x ∧ p' = { p with files := redirected x p.files } := by
  unfold startRedirect at h
  split at h
  · cases h
  · rename_i hx
    cases h
    exact ⟨none, hx, rfl⟩
  · rename_i fd hx
    split at h
    · cases h
    rename_i files hdup
    cases h
    obtain ⟨-, -, -, rfl⟩ := Descriptors.dup2_eq_some.mp (ite_none_eq_some hdup)
    exact ⟨some fd, hx, rfl⟩

theorem closeLog_file (log : OpenFile) (p : Proc) (d : ℤ) :
    (closeLog log p).1.files.file d =
      if d = log.fd ∧ log.fd ≠ STDERR_FILENO then none else p.files.file d := by
  unfold closeLog
  split_ifs with hlog hd hd
  · split
    · rename_i hclose
      rw [hd.1]
      by_contra hopen
      have := Descriptors.close_eq_some.mpr ⟨Option.isSome_iff_ne_none.mpr hopen, rfl⟩
      rw [hclose] at this
      cases this
    · rename_i hclose
      obtain ⟨-, rfl⟩ := Descriptors.close_eq_some.mp hclose
      rw [hd.1]
      exact Descriptors.set_file_self
  · split
    · rfl
    · rename_i hclose
      obtain ⟨-, rfl⟩ := Descriptors.close_eq_some.mp hclose
      exact Descriptors.set_file_of_ne fun h => hd ⟨h, hlog⟩
  · exact absurd hd.2 (not_not.mpr (not_not.mp hlog))
  · rfl

theorem closeLog_proc (log : OpenFile) (p : Proc) :
    (closeLog log p).1 = { p with files := (closeLog log p).1.files } := by
  unfold closeLog
  split_ifs
  · split <;> rfl
  · rfl

theorem redirected_file (x : Option ℤ) (files : Descriptors Handle) (d : ℤ) :
    (redirected x files).file d =
      if d = STDERR_FILENO then files.file (x.getD STDERR_FILENO) else files.file d := by
  cases x with
  | none =>
    split_ifs with hd
    · rw [hd]
      rfl
    · rfl
  | some fd => exact Descriptors.set_file

/-- The type of the process that serves. -/
def serveType (core : Modules.CoreConf) (type : ProcessType) : ProcessType :=
  if core.master ≠ 0 ∧ type = .single then .master else type

/-- What a start has done that comes to the process cycle: with the built-in log, the table
behind it, and the cycle in it. -/
structure Serves (o : Options) (e : StartConf) (c : StartCalls) (content : Option Bytes) (p : Proc)
    (r : Running) (log : OpenFile) (files : Descriptors Handle) (s : Boot) : Prop where
  serving : o.optSignal = []
  opened : (log.fd = STDERR_FILENO ∧ files = p.files) ∨
    p.files.openFile (.named log.name) = some (log.fd, files)
  good : Boot.Good files none s
  logs : r.logs = s.logs
  type : r.processType = serveType e.core o.processType
  pid : r.proc.pid = r.proc.getpid
  daemon : e.core.daemon ≠ 0 ∧ c.daemon.fork = .child r.proc.getpid ∧
      r.proc.sessionLeader = true ∧ r.proc.umask = 0 ∨
    e.core.daemon = 0 ∧ r.proc.getpid = p.getpid
  pidfile : ∃ file run, createPidfile (serveType e.core o.processType) false r.proc.getpid
    e.core.pidPath file content c.pwrite = some run ∧ run.rc = OK ∧ r.content = run.content
  table : ∃ x, logRedirectStderr s.logs = some x ∧ ∀ d, r.proc.files.file d =
    if d = log.fd ∧ log.fd ≠ STDERR_FILENO then none
    else startedFile e.core s.files (if d = STDERR_FILENO then x.getD STDERR_FILENO else d)

theorem start_ok (h : start o e c content p = .ok r) :
    ∃ log files s, Serves o e c content p r log files s := by
  unfold start at h
  by_cases hserving : o.optShowVersion ∨ o.optTestConfig ∨ o.optSignal ≠ []
  · rw [if_pos hserving] at h
    cases h
  rw [if_neg hserving] at h
  dsimp only at h
  split at h
  · cases h
  rename_i s hcycle
  split at h
  · cases h
  obtain ⟨p₁, hdaemon, h⟩ := bind_eq_ok.mp h
  obtain ⟨⟨p₂, content₂⟩, hpid, h⟩ := bind_eq_ok.mp h
  obtain ⟨p₃, hredirect, h⟩ := bind_eq_ok.mp h
  cases h
  obtain ⟨hfiles, hchild⟩ := startDaemon_ok hdaemon
  obtain ⟨rfl, file, run, hrun, hrc, hcontent⟩ := startPidfile_ok hpid
  obtain ⟨x, hx, rfl⟩ := startRedirect_ok hredirect
  obtain ⟨log, files, messages, hlog⟩ : ∃ log files messages,
      initNewLog o.optPrefix e.errorLogPath c.openLog p.files = (log, files, messages) :=
    ⟨_, _, _, rfl⟩
  have hself : p₂.pid = p₂.getpid := by
    rcases hchild with ⟨-, getpid, -, hp⟩ | ⟨-, hp⟩ <;> rw [hp]
  rw [hlog] at hcycle
  refine ⟨log, files, s, ?_, initNewLog_cases hlog, initNewCycleLogs_good hcycle, rfl, rfl,
    ?_, ?_, ⟨file, run, ?_, hrc, hcontent⟩, x, hx, fun d => ?_⟩
  · by_contra hsignal
    exact hserving (.inr (.inr hsignal))
  · rw [closeLog_proc]
    exact hself
  · rw [closeLog_proc]
    rcases hchild with ⟨hdaemon, getpid, hfork, hp⟩ | ⟨hdaemon, hp⟩
    · rw [hp]
      exact .inl ⟨hdaemon, hfork, rfl, rfl⟩
    · rw [hp]
      exact .inr ⟨hdaemon, rfl⟩
  · rw [closeLog_proc]
    rw [hself] at hrun
    exact hrun
  · rw [closeLog_file, redirected_file, hlog]
    split_ifs <;> first | rfl | exact hfiles _

/-- Away from the first descriptors the daemon leaves what is open. -/
theorem startedFile_eq {core : Modules.CoreConf} (hin : d ≠ STDIN_FILENO) (hout : d ≠ STDOUT_FILENO)
    (herr : d ≠ STDERR_FILENO ∨ files.file d ≠ none) : startedFile core files d = files.file d := by
  have hlow : ¬ (d = STDERR_FILENO ∧ files.lowest = some d) := by
    rintro ⟨hd, hlow⟩
    exact herr.elim (fun h => h hd) fun h => h (Descriptors.lowest_spec hlow).2.2.1
  unfold startedFile daemonFile
  split_ifs with hdaemon hstd
  · exact absurd hstd (by tauto)
  · rfl
  · rfl

theorem startedFile_std {core : Modules.CoreConf} (hd : d = STDIN_FILENO ∨ d = STDOUT_FILENO) :
    startedFile core files d =
      if core.daemon ≠ 0 then some (.named devNull) else files.file d := by
  have hnull : d = STDIN_FILENO ∨ d = STDOUT_FILENO ∨
      d = STDERR_FILENO ∧ files.lowest = some d := by tauto
  unfold startedFile daemonFile
  rw [if_pos hnull]

theorem logRedirectStderr_cases {logs : LogCycle} {x : Option ℤ}
    (h : logRedirectStderr logs = some x) :
    logs.logUseStderr = true ∧ x = none ∨ logs.logUseStderr = false ∧
      ∃ f, (logs.log 0).file = some f ∧ (f.fd = STDERR_FILENO ∧ x = none ∨
        f.fd ≠ STDERR_FILENO ∧ x = some f.fd) := by
  unfold logRedirectStderr at h
  cases huse : logs.logUseStderr with
  | true =>
    rw [huse] at h
    exact .inl ⟨rfl, (Option.some.inj h).symm⟩
  | false =>
    rw [huse, if_neg Bool.false_ne_true] at h
    obtain ⟨f, hf, h⟩ := Option.bind_eq_some_iff.mp h
    refine .inr ⟨rfl, f, hf, ?_⟩
    obtain rfl := Option.some.inj h
    split_ifs with hfd
    · exact .inr ⟨hfd, rfl⟩
    · exact .inl ⟨not_not.mp hfd, rfl⟩

end Steps

end Lingx.Main
