import Lingx.Bytes
import Mathlib.Data.BitVec

/-! Log objects and open files. The objects of class `Log` live at addresses, the
head `new_log_` of a cycle at address 0; a log is linked to the next one by a
pointer, and its file is a pointer that may be null. The outcomes of the `open()`
calls are an input, one for each call. -/

namespace Lingx.Logs

/-- `Log::Level`. -/
abbrev Level := BitVec 32

def STDERR : Level := 0
def EMERG : Level := 1
def ALERT : Level := 2
def CRIT : Level := 3
def ERROR : Level := 4
def WARN : Level := 5
def NOTICE : Level := 6
def INFO : Level := 7
def DEBUG : Level := 8
def DEBUG_FIRST : Level := 0x010
def DEBUG_ALL : Level := 0x7ffffff0

def STDERR_FILENO : ℤ := 2

/-- `Log_levels_`. -/
def logLevels : List Bytes :=
  ["", "emerg", "alert", "crit", "error", "warn", "notice", "info", "debug"].map ascii

/-- `Debug_levels_`. -/
def debugLevels : List Bytes :=
  ["debug_core", "debug_alloc", "debug_mutex", "debug_event", "debug_http", "debug_mail",
    "debug_stream"].map ascii

structure OpenFile where
  fd : ℤ
  name : Bytes
  deriving DecidableEq, Repr

structure Log where
  level : Level := STDERR
  file : Option OpenFile := none
  next : Option ℕ := none
  deriving DecidableEq, Repr

/-- What the log code finds around it: the cycle's prefix, the default path, and the
outcome of each call of `open()`. -/
structure Env where
  prefix_ : Bytes
  errorLogPath : Bytes
  openRc : ℕ → ℤ

/-- The open files of a cycle, the number of `open()` calls made for them, and the
names in the messages that report a failed one. -/
structure Opened where
  openFiles : List OpenFile := []
  opens : ℕ := 0
  failed : List Bytes := []
  deriving DecidableEq, Repr

/-- The members of class `Cycle` that the log code uses, with the log objects. -/
structure LogCycle where
  log : ℕ → Log
  logN : ℕ
  opened : Opened
  logUseStderr : Bool

/-- A new cycle has its head log only. -/
def LogCycle.init : LogCycle := ⟨fun _ => {}, 1, {}, false⟩

/-- The errors of the directive. -/
inductive LogError where
  | missingArgument
  | duplicateLevel (value : Bytes)
  | invalidLevel (value : Bytes)
  | withoutDebugSupport
  | notYetSupport
  deriving DecidableEq, Repr

/-- `Path::Tail_separator`. -/
def tailSeparator (path : Bytes) : Bytes :=
  if path ≠ [] ∧ path.getLast? ≠ some 0x2f then path ++ [0x2f] else path

/-- `Path::Get_full_name`. -/
def getFullName (prefix_ name : Bytes) : Bytes :=
  if name.head? = some 0x2f then name else tailSeparator prefix_ ++ name

/-- The file with a descriptor, added to the open files if there is none. -/
def fileOf (o : Opened) (fd : ℤ) (fname : Bytes) : Option OpenFile × Opened :=
  match o.openFiles.find? (·.fd = fd) with
  | some f => (some f, o)
  | none => (some ⟨fd, fname⟩, { o with openFiles := o.openFiles ++ [⟨fd, fname⟩] })

/-- `Cycle::log_open_file`. -/
def logOpenFile (env : Env) (o : Opened) (name : Bytes) : Option OpenFile × Opened :=
  if name = [] then fileOf o STDERR_FILENO []
  else
    let fname := getFullName env.prefix_ name
    match o.openFiles.find? (·.name = fname) with
    | some f => (some f, o)
    | none =>
      let fd := env.openRc o.opens
      let o := { o with opens := o.opens + 1 }
      if fd = -1 then (none, { o with failed := o.failed ++ [fname] }) else fileOf o fd fname

/-- The search for a value in `Log_levels_`, with whether it was found. -/
def findLogLevel (level : Level) (value : Bytes) : Except LogError (Level × Bool) :=
  match (logLevels.drop 1).findIdx? (· = value) with
  | none => .ok (level, false)
  | some n =>
    if level ≠ STDERR then .error (.duplicateLevel value) else .ok (BitVec.ofNat 32 (n + 1), true)

/-- The search in `Debug_levels_`, behind the other one. -/
def findDebugLevel (level : Level) (found : Bool) (value : Bytes) :
    Except LogError (Level × Bool) :=
  match debugLevels.findIdx? (· = value) with
  | none => .ok (level, found)
  | some n =>
    if level &&& ~~~DEBUG_ALL ≠ 0 then .error (.invalidLevel value)
    else .ok (level ||| DEBUG_FIRST <<< n, true)

/-- One turn of the loop of `Log_set_levels_`. -/
def logSetLevel (level : Level) (value : Bytes) : Except LogError Level := do
  let (level, found) ← findLogLevel level value
  let (level, found) ← findDebugLevel level found value
  if found then .ok level else .error (.invalidLevel value)

/-- `Log_set_levels_`, for the arguments behind the file. -/
def logSetLevels (level : Level) (values : List Bytes) : Except LogError Level :=
  if values = [] then .ok ERROR
  else do
    let level ← values.foldlM logSetLevel level
    pure (if level = DEBUG then DEBUG_ALL else level)

/-- The file of a directive. -/
def directiveFile (env : Env) (o : Opened) (file : Bytes) :
    Except LogError (Option OpenFile × Opened) :=
  if file = ascii "stderr" then .ok (logOpenFile env o [])
  else if file.take 7 = ascii "memory:" then .error .withoutDebugSupport
  else if file.take 7 = ascii "syslog:" then .error .notYetSupport
  else .ok (logOpenFile env o file)

namespace LogCycle

def setLog (s : LogCycle) (a : ℕ) (l : Log) : LogCycle :=
  { s with log := Function.update s.log a l }

def setLevel (s : LogCycle) (a : ℕ) (level : Level) : LogCycle :=
  s.setLog a { s.log a with level := level }

def setFile (s : LogCycle) (a : ℕ) (file : Option OpenFile) : LogCycle :=
  s.setLog a { s.log a with file := file }

def setNext (s : LogCycle) (a : ℕ) (next : Option ℕ) : LogCycle :=
  s.setLog a { s.log a with next := next }

/-- `std::make_shared<Log>()`. -/
def makeLog (s : LogCycle) : ℕ × LogCycle :=
  (s.logN, { s.setLog s.logN {} with logN := s.logN + 1 })

end LogCycle

/-- The loop of `Log_insert`, for at most `k` logs. -/
def logInsertLoop : ℕ → LogCycle → ℕ → ℕ → LogCycle
  | 0, s, _, _ => s
  | k + 1, s, log, newLog => match (s.log log).next with
    | none => s.setNext log (some newLog)
    | some next =>
      if (s.log next).level < (s.log newLog).level then
        (s.setNext newLog (some next)).setNext log (some newLog)
      else logInsertLoop k s next newLog

/-- `Log_insert`. -/
def logInsert (s : LogCycle) (log newLog : ℕ) : LogCycle :=
  if (s.log log).level < (s.log newLog).level then
    let l := s.log log
    let s := (s.setLog log (s.log newLog)).setLog newLog l
    s.setNext log (some newLog)
  else logInsertLoop s.logN s log newLog

/-- The file and the levels of a new log. -/
def logSetFields (env : Env) (newLog : ℕ) (file : Bytes) (levels : List Bytes) (s : LogCycle) :
    Except LogError LogCycle := do
  let (f, opened) ← directiveFile env s.opened file
  let s := { s with
    opened := opened
    logUseStderr := s.logUseStderr || file = ascii "stderr" }
  let s := s.setFile newLog f
  let level ← logSetLevels (s.log newLog).level levels
  pure (s.setLevel newLog level)

/-- `Log_set_log`; the head is not null. -/
def logSetLog (env : Env) (head : ℕ) (args : List Bytes) (s : LogCycle) :
    Except LogError LogCycle :=
  match args with
  | _ :: file :: levels => do
    let (newLog, s) := if (s.log head).level = STDERR then (head, s) else s.makeLog
    let s ← logSetFields env newLog file levels s
    pure (if head ≠ newLog then logInsert s head newLog else s)
  | _ => .error .missingArgument

/-- The accepted `error_log` directives of a configuration. -/
def configureLogs (env : Env) (s : LogCycle) (directives : List (List Bytes)) :
    Except LogError LogCycle :=
  directives.foldlM (fun s args => logSetLog env 0 args s) s

/-- `Get_file_log`, for at most `k` logs. -/
def getFileLog (s : LogCycle) : ℕ → Option ℕ → Option ℕ
  | 0, _ => none
  | _, none => none
  | k + 1, some a => if (s.log a).file.isSome then some a else getFileLog s k (s.log a).next

/-- `Cycle::log_open_default_`. -/
def logOpenDefault (env : Env) (s : LogCycle) : LogCycle :=
  if (getFileLog s s.logN (some 0)).isSome then s
  else
    let (log, s) := if (s.log 0).level ≠ STDERR then s.makeLog else (0, s)
    let s := s.setLevel log ERROR
    let (f, opened) := logOpenFile env s.opened env.errorLogPath
    let s := { s with opened := opened }.setFile log f
    if log ≠ 0 then logInsert s 0 log else s

/-- A line written to the file of a log, or to stderr. -/
inductive Write where
  | file (log : ℕ) (fd : ℤ)
  | stderr
  deriving DecidableEq, Repr

/-- The loop of `Log::log`, for at most `k` logs; `none` is a null file. -/
def logWrites (s : LogCycle) (lvl : Level) : ℕ → Option ℕ → Option (List Write)
  | 0, _ => some []
  | _, none => some []
  | k + 1, some a =>
    if (s.log a).level < lvl then some []
    else do
      let f ← (s.log a).file
      let ws ← logWrites s lvl k (s.log a).next
      some (.file a f.fd :: ws)

/-- A line of the loop went to stderr. -/
def wroteStderr (ws : List Write) : Bool :=
  ws.any fun
    | .file _ fd => fd = STDERR_FILENO
    | .stderr => false

/-- `Log::log` on the head of the chain. -/
def logLog (s : LogCycle) (useStderr : Bool) (lvl : Level) : Option (List Write) := do
  let ws ← logWrites s lvl s.logN (some 0)
  some (if !useStderr || WARN < lvl || wroteStderr ws then ws else ws ++ [.stderr])

/-- The descriptor `Cycle::log_redirect_stderr` makes a copy of; the outer `none` is a
null file. -/
def logRedirectStderr (s : LogCycle) : Option (Option ℤ) :=
  if s.logUseStderr then some none
  else do
    let f ← (s.log 0).file
    some (if f.fd ≠ STDERR_FILENO then some f.fd else none)

end Lingx.Logs
