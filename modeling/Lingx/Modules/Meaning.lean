import Lingx.Conf.Written
import Lingx.Library.Machine
import Lingx.Modules.Reports
import Mathlib.Tactic.IntervalCases

/-! What a configuration of the program means. The tree of the `-g` text and that of the file
are read as directives; which of them there are, and what they say, decides whether the
configuration is accepted, and with which settings. Only the `error_log` directives
depend on their order. `Init_new_cycle` comes to this meaning from the texts. -/

namespace Lingx.Modules

open Conf Http Library.Machine

/-- What a directive of the main scope says. A block of `events` has the values that it
gives to `multi_accept`. -/
inductive Directive where
  | daemon (value : UInt32)
  | master (value : UInt32)
  | errorLog (args : List Bytes)
  | events (multiAccept : List UInt32)
  deriving DecidableEq, Repr

/-- The only value of a list, or a default if it has none. -/
def onlyOr {α : Type} (default : α) : List α → Option α
  | [] => some default
  | [a] => some a
  | _ => none

structure Settings where
  daemon : UInt32
  master : UInt32
  multiAccept : UInt32
  logs : Logs.LogCycle

/-- The values that the directives give to `daemon`. -/
def daemons (ds : List Directive) : List UInt32 :=
  ds.filterMap fun
    | .daemon v => some v
    | _ => none

def masters (ds : List Directive) : List UInt32 :=
  ds.filterMap fun
    | .master v => some v
    | _ => none

def errorLogs (ds : List Directive) : List (List Bytes) :=
  ds.filterMap fun
    | .errorLog args => some args
    | _ => none

def eventBlocks (ds : List Directive) : List (List UInt32) :=
  ds.filterMap fun
    | .events vs => some vs
    | _ => none

/-- The settings of directives: each flag is given once at most, there is one block of
`events`, and the logs can be configured. -/
def settings (e : Setup) (ds : List Directive) : Option Settings :=
  match eventBlocks ds with
  | [vs] => do
    let daemon ← onlyOr ON (daemons ds)
    let master ← onlyOr ON (masters ds)
    let multiAccept ← onlyOr OFF vs
    let logs ← (Logs.configureLogs e.logs .init (errorLogs ds)).toOption
    some ⟨daemon, master, multiAccept, logs⟩
  | _ => none

section Progress

/-- What has been set so far; `multi_accept` is set by the end of its block. -/
structure Progress where
  daemon : Option UInt32
  master : Option UInt32
  multiAccept : Option UInt32
  logs : Logs.LogCycle

def Progress.init : Progress := ⟨none, none, none, .init⟩

/-- A directive is added. -/
def Progress.add (e : Setup) : Directive → Progress → Option Progress
  | .daemon v, p => if p.daemon = none then some { p with daemon := some v } else none
  | .master v, p => if p.master = none then some { p with master := some v } else none
  | .errorLog args, p =>
    (Logs.logSetLog e.logs 0 args p.logs).toOption.map fun logs => { p with logs := logs }
  | .events vs, p =>
    if p.multiAccept = none then
      (onlyOr OFF vs).map fun v => { p with multiAccept := some v }
    else none

/-- A variable that each of some values is written to, if it has none. -/
def once {α : Type} : Option α → List α → Option (Option α)
  | o, [] => some o
  | none, v :: vs => once (some v) vs
  | some _, _ :: _ => none

variable {e : Setup} {p p' : Progress} {ds : List Directive}

end Progress

section Commands
variable {e : Setup} {name : Bytes} {args : List Bytes} {mod : Module State} {cmd : Command State}
  {st : State} {last : Rc} {err : ConfError} {flag : Flag}

/-- The scope in which a flag can be set. -/
def Flag.scope : Flag → Scope
  | .daemon | .master => mainScope
  | .multiAccept => eventsScope

end Commands

section Simulation
variable {e : Setup} {name : Bytes} {args : List Bytes} {st : State} {p : Progress} {w : UInt32}
  {flag : Flag}

/-- A flag may hold a value that is not the marker. -/
structure Holds (w : UInt32) (o : Option UInt32) : Prop where
  eq : w = o.getD UNSET
  ne : o ≠ some UNSET

theorem Holds.init {o : Option UInt32} (h : Holds w o) (d : UInt32) :
    confInitValue w d = o.getD d := by
  obtain ⟨rfl, hne⟩ := h
  cases o with
  | none => rfl
  | some v => exact if_neg (by simpa using hne)

/-- A configuration of the event core with nothing set but `multi_accept`. -/
def eventConf (m : UInt32) : EventConf := ⟨UNSET, UNSET, m, none⟩

variable {l : List (Option EventConf)} {m : UInt32} {f : Forest}

end Simulation

section Cycle
variable {e : Setup} {st : State} {p : Progress}

end Cycle

end Lingx.Modules
