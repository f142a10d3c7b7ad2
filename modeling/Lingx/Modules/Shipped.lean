import Lingx.Conf.Missed
import Lingx.Http.Block
import Lingx.Logs.State
import Lingx.Strings

/-! The modules of the program, the setters of their commands, and `Init_new_cycle` up to
the `init_conf` calls. The state is what these calls share: the configurations, which the
commands reach through pointers to context vectors, and the indices of the modules. -/

namespace Lingx.Modules

open Lingx.Conf Http
open Strings (cstr)

/-- `Modules`. -/
inductive Mod where
  | core
  | errlog
  | events
  | eventCore
  | eventPoll
  | http
  | httpCore
  deriving DecidableEq, Repr

def modules : List Mod := [.core, .errlog, .events, .eventCore, .eventPoll, .http, .httpCore]

def Mod.type : Mod → ℕ
  | .core | .errlog | .events | .http => CORE_MODULE
  | .eventCore | .eventPoll => EVENT_MODULE
  | .httpCore => HTTP_MODULE

/-- `Preinit_modules`. -/
def Mod.index (mod : Mod) : ℕ := modules.idxOf mod

def OFF : UInt32 := 0

def ON : UInt32 := 1

/-- `(T) UNSET` -/
def UNSET : UInt32 := 0xffffffff

def DEFAULT_CONNECTIONS : UInt32 := 512

structure CoreConf where
  daemon : UInt32
  master : UInt32
  pidPath : Bytes

/-- The name is a pointer, `none` where it is not set. -/
structure EventConf where
  connections : UInt32
  use : UInt32
  multiAccept : UInt32
  name : Option Bytes

/-- The word at an offset of the configuration. -/
def CoreConf.word (ccf : CoreConf) : ℕ → Option UInt32
  | 0 => some ccf.daemon
  | 4 => some ccf.master
  | _ => none

def CoreConf.setWord (ccf : CoreConf) (w : UInt32) : ℕ → CoreConf
  | 0 => { ccf with daemon := w }
  | 4 => { ccf with master := w }
  | _ => ccf

def EventConf.word (ecf : EventConf) : ℕ → Option UInt32
  | 0 => some ecf.connections
  | 4 => some ecf.use
  | 8 => some ecf.multiAccept
  | _ => none

def EventConf.setWord (ecf : EventConf) (w : UInt32) : ℕ → EventConf
  | 0 => { ecf with connections := w }
  | 4 => { ecf with use := w }
  | 8 => { ecf with multiAccept := w }
  | _ => ecf

/-- What is given from outside: the surroundings of the logs, `LNX_PID_PATH`, and the
modules of the old cycle. -/
structure Setup where
  logs : Logs.Env
  pidPath : Bytes
  oldCycle : Option (List Mod)

def Setup.cycle (e : Setup) : Modules.Cycle Mod := ⟨modules, e.oldCycle⟩

/-- The cycle while it is configured. The vector of `events` and the context of `http` are
null until their block begins. A setter that goes through null sets `fault`; one that fails
ends the run, and what it has set by then is left out. -/
structure State where
  ctxIndex : Mod → UInt32
  core : CoreConf
  events : ConfCtxPtr EventConf
  http : Option (HttpConfCtx Unit)
  logs : Logs.LogCycle
  connectionN : UInt32
  fault : Bool

def State.faulted (st : State) : State := { st with fault := true }

/-- `&cycle->conf_ctx()`, `&conf_ctx->conf` of the events, `&conf_ctx->main_conf` of http. -/
def CYCLE_CTX : ℕ := 0

def EVENTS_CTX : ℕ := 1

def HTTP_CTX : ℕ := 2

/-- Where `Init_new_cycle` parses, and where the block of `events` is parsed. -/
def mainScope : Scope := ⟨some CYCLE_CTX, CORE_MODULE, MAIN_CONF⟩

def eventsScope : Scope := ⟨some EVENTS_CTX, EVENT_MODULE, EVENT_CONF⟩

namespace State

/-- The flag at an offset of the configuration in a slot; `none` if there is none. -/
def word (st : State) (conf : Option (ℕ × ℕ)) (offset : ℕ) : Option UInt32 :=
  match conf with
  | none => none
  | some (ctx, idx) =>
    if ctx = CYCLE_CTX then
      if idx = Mod.core.index then st.core.word offset else none
    else if ctx = EVENTS_CTX then
      match (st.events.getD [])[idx]? with
      | some (some ecf) => ecf.word offset
      | _ => none
    else none

def setWord (st : State) (conf : Option (ℕ × ℕ)) (offset : ℕ) (w : UInt32) : State :=
  match conf with
  | none => st
  | some (ctx, idx) =>
    if ctx = CYCLE_CTX then { st with core := st.core.setWord w offset }
    else if ctx = EVENTS_CTX then
      { st with events := st.events.map (·.modify idx (·.map (·.setWord w offset))) }
    else st

end State

/-- How a setter ends early. -/
def Exit.done (ex : Exit) (st : State) : Setter State :=
  match ex with
  | .rv ret => .done ret st
  | .fault _ => .done .error st.faulted

inductive FlagError where
  | duplicate
  | invalid (arg : Bytes)
  deriving DecidableEq, Repr

/-- What `parse_flag_arg` returns; an invalid value has been reported by then. -/
def FlagError.rv : FlagError → Rv
  | .duplicate => .text (ascii "is duplicate")
  | .invalid _ => .error

/-- The value of an argument, up to its first NUL. -/
def flagOf (arg : Bytes) : Option UInt32 :=
  if cstr arg = ascii "on" then some ON
  else if cstr arg = ascii "off" then some OFF
  else none

def parseFlagArg (args : List Bytes) (fp : UInt32) : Except FlagError UInt32 :=
  if fp ≠ UNSET then .error .duplicate
  else
    let arg := args.getD 1 []
    match flagOf arg with
    | none => .error (.invalid (cstr arg))
    | some v => .ok v

def setFlagSlot (offset : ℕ) (call : Call) (st : State) : Setter State :=
  match st.word call.conf offset with
  | none => .done .error st.faulted
  | some fp =>
    match parseFlagArg call.args fp with
    | .error err => .done err.rv st
    | .ok v => .done .ok (st.setWord call.conf offset v)

/-- `Conf_init_value`. -/
def confInitValue (conf val : UInt32) : UInt32 := if conf = UNSET then val else conf

/-- `Error_log`. -/
def errorLog (e : Setup) (call : Call) (st : State) : Setter State :=
  match Logs.logSetLog e.logs 0 call.args st.logs with
  | .error _ => .done .error st
  | .ok logs => .done .ok { st with logs := logs }

section Events

/-- The names in the contexts of the event modules. -/
def eventName : Mod → Bytes
  | .eventCore => ascii "event_core"
  | .eventPoll => ascii "poll"
  | _ => []

/-- The `create_conf` of the event modules. -/
def eventCreateConf : Mod → Option (Option EventConf)
  | .eventCore => some (some ⟨UNSET, UNSET, UNSET, none⟩)
  | _ => none

def createEventConf (idx : Mod → UInt32) (v : ConfCtxPtr EventConf) (mod : Mod) :
    Except Exit (ConfCtxPtr EventConf) :=
  if mod.type ≠ EVENT_MODULE then .ok v else create (eventCreateConf mod) (idx mod) v

/-- `Event_core_init_conf_`. -/
def eventCoreInitConf (conf : Option EventConf) (st : State) : Except Exit State :=
  match modules.find? fun mod => mod.type = EVENT_MODULE ∧ eventName mod ≠ eventName .eventCore with
  | none => .error (.rv .error)
  | some module =>
    match conf with
    | none => .error (.fault .null)
    | some ecf => do
      let ecf := { ecf with connections := confInitValue ecf.connections DEFAULT_CONNECTIONS }
      let st := { st with connectionN := ecf.connections }
      let ecf := { ecf with
        use := confInitValue ecf.use (st.ctxIndex module)
        name := ecf.name.or (some (eventName module))
        multiAccept := confInitValue ecf.multiAccept OFF }
      let v ← store st.events (st.ctxIndex .eventCore) (some ecf)
      .ok { st with events := v }

/-- `Event_poll_init_conf_`; what it returns does not depend on the method in use. -/
def eventPollInitConf (st : State) : Except Exit State := do
  let ecf ← load st.events (st.ctxIndex .eventCore)
  if ecf.isNone then .error (.fault .null) else .ok st

/-- The `init_conf` of an event module. -/
def eventInitConf (st : State) (mod : Mod) : Except Exit State :=
  if mod.type ≠ EVENT_MODULE then .ok st
  else do
    let conf ← load st.events (st.ctxIndex mod)
    if mod = .eventCore then eventCoreInitConf conf st else eventPollInitConf st

/-- The part of `Events_block_` behind the parse of the block. -/
def eventsInit (rv : Rv) (st : State) : Setter State :=
  if rv ≠ .ok then .done rv st
  else
    match modules.foldlM eventInitConf st with
    | .error ex => ex.done st
    | .ok st => .done .ok st

def eventsBlock (e : Setup) (_ : Call) (st : State) : Setter State :=
  if st.events.isSome then .done (.text (ascii "is duplicate")) st
  else
    match countModules e.cycle Mod.type EVENT_MODULE st.ctxIndex with
    | none => .done .error st.faulted
    | some (idx, size) =>
      match modules.foldlM (createEventConf idx) (some (List.replicate size.toNat none)) with
      | .error ex => ex.done { st with ctxIndex := idx }
      | .ok v => .parse eventsScope { st with ctxIndex := idx, events := v } eventsInit

end Events

section Http

/-- `Http_core_module_ctx_`: no configuration is created yet. -/
def httpModuleCtx : Mod → HttpModuleCtx Unit
  | .httpCore => ⟨some fun _ => OK, some fun _ => none, some fun _ _ => .ok, some fun _ => none,
      some fun _ => none⟩
  | _ => ⟨none, none, none, none, none⟩

/-- The part of `Http_block_` behind the parse of the block. -/
def httpInit (idx : Mod → UInt32) (hc : HttpConfCtx Unit) (ncf : Http.Conf Unit) (rv : Rv)
    (st : State) : Setter State :=
  if rv ≠ .ok then .done rv st
  else
    match load hc.mainConf (idx .httpCore) with
    | .error ex => ex.done st
    | .ok _ =>
      match modules.foldlM (initConfs Mod.type httpModuleCtx ncf idx hc) () with
      | .error ex => ex.done st
      | .ok _ => .done .ok st

def httpBlock (e : Setup) (call : Call) (st : State) : Setter State :=
  match httpPrepare Mod.type httpModuleCtx ⟨none, call.scope.moduleType, call.scope.cmdType⟩
    e.cycle st.ctxIndex st.http with
  | none => .done .error st.faulted
  | some (.error ex) => ex.done st
  | some (.ok (idx, hc, ncf)) => .parse ⟨some HTTP_CTX, ncf.moduleType, ncf.cmdType⟩
      { st with ctxIndex := idx, http := some hc } (httpInit idx hc ncf)

def HTTP_SRV_CONF : ℕ := 0x04000000

/-- `Http_core_server_`, whose block is parsed behind the creation of the configurations. -/
def httpCoreServer (call : Call) (st : State) : Setter State :=
  let size := ((st.http.bind (·.mainConf)).getD []).length
  let hc : HttpConfCtx Unit :=
    ⟨none, some (List.replicate size none), some (List.replicate size none)⟩
  let ctx mod : HttpModuleCtx Unit := { httpModuleCtx mod with createMainConf := none }
  match modules.foldlM (createConfs Mod.type ctx ⟨none, call.scope.moduleType, call.scope.cmdType⟩
    st.ctxIndex) hc with
  | .error ex => ex.done st
  | .ok _ => .parse ⟨some HTTP_CTX, call.scope.moduleType, HTTP_SRV_CONF⟩ st .done

end Http

/-- The vectors that `commands()` of the modules refers to. `Event_poll_module` is made with a
temporary one, which has been destroyed when `main` begins. -/
def commands (e : Setup) : Mod → Option (List (Command State))
  | .core => some [⟨ascii "daemon", MAIN_CONF ||| CONF_FLAG, 0, setFlagSlot 0⟩,
      ⟨ascii "master_process", MAIN_CONF ||| CONF_FLAG, 0, setFlagSlot 4⟩]
  | .errlog => some [⟨ascii "error_log", MAIN_CONF ||| CONF_1MORE, 0, errorLog e⟩]
  | .events => some [⟨ascii "events", MAIN_CONF ||| CONF_BLOCK ||| CONF_NOARGS, 0, eventsBlock e⟩]
  | .eventCore => some [⟨ascii "multi_accept", EVENT_CONF ||| CONF_FLAG, 0, setFlagSlot 8⟩]
  | .eventPoll => none
  | .http => some [⟨ascii "http", MAIN_CONF ||| CONF_BLOCK ||| CONF_NOARGS, 0, httpBlock e⟩]
  | .httpCore => some [⟨ascii "server", HTTP_MAIN_CONF ||| CONF_BLOCK ||| CONF_NOARGS, 0,
      httpCoreServer⟩]

/-- The entry of a module. -/
def confModule (e : Setup) (mod : Mod) : Module State :=
  ⟨mod.type, mod.index, fun st => (st.ctxIndex mod).toNat, (commands e mod).getD []⟩

/-- The tables in front of the one that has been destroyed. The search of `handle_` goes through
them first; where it finds no command in them it reads the destroyed vector. -/
def confModules (e : Setup) : List (Module State) :=
  (modules.takeWhile fun mod => (commands e mod).isSome).map (confModule e)

/-- What has been seen of a run. A search that finds no command has no message: it does not come
to its end. -/
def seen (r : Run State) : List Obs := r.trace.filter fun o => !o.isMiss

/-- The state behind the `create_conf` calls; of the core modules only the core has one. -/
def createConf (ctxIndex : Mod → UInt32) : State :=
  ⟨ctxIndex, ⟨UNSET, UNSET, []⟩, none, none, .init, 0, false⟩

/-- `Core_module_init_conf_`. -/
def coreInitConf (e : Setup) (st : State) : State :=
  let ccf := { st.core with
    daemon := confInitValue st.core.daemon ON
    master := confInitValue st.core.master ON
    pidPath := if st.core.pidPath = [] then e.pidPath else st.core.pidPath }
  { st with core := { ccf with pidPath := Logs.getFullName e.logs.prefix_ ccf.pidPath } }

/-- The `init_conf` of a core module. -/
def initConf (e : Setup) (st : State) : Mod → Option State
  | .core => some (coreInitConf e st)
  | .events => if st.events.isNone then none else some st
  | _ => some st

/-- What `Init_new_cycle` has made, null if the configuration is rejected; what has been
seen in both parses, and how many bytes they have left. Behind a `fault` the behaviour is
undefined: a search has read the destroyed vector, or a setter has gone through null. -/
structure NewCycle where
  cycle : Option State
  fault : Bool
  trace : List Obs
  remaining : ℕ

/-- The configuration is accepted with a state, or it can be, as the behaviour is undefined. -/
def NewCycle.MayAccept (c : NewCycle) (st : State) : Prop := c.fault = true ∨ c.cycle = some st

/-- `Init_new_cycle` up to the `init_conf` calls. -/
def initNewCycle (e : Setup) (ctxIndex : Mod → UInt32) (text filename : Bytes) (o : Opened) :
    Option NewCycle :=
  match param (confModules e) text mainScope (createConf ctxIndex) with
  | none => none
  | some (rv, r) =>
    if rv ≠ .ok then some ⟨none, r.missed || r.st.fault, seen r, r.cf.remaining⟩
    else
      match parseFile (confModules e) o filename mainScope r.st with
      | none => none
      | some (rv, r') =>
        let fault := r.missed || r'.missed || r'.st.fault
        let trace := seen r ++ seen r'
        let remaining := r.cf.remaining + r'.cf.remaining
        if rv ≠ .ok then some ⟨none, fault, trace, remaining⟩
        else some ⟨modules.foldlM (initConf e) r'.st, fault, trace, remaining⟩

end Lingx.Modules
