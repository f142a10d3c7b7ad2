import Lingx.Library.Cursor
import Lingx.Strings
import Mathlib.Data.BitVec
import Mathlib.Logic.Function.Basic

/-! The cached time. `Time_update` and `Time_sigsafe_update` write the slots of one ring,
and the readers look at the published ones. The readings of the clock and whether the
lock was free are inputs, and the conversions of the C library are a parameter. -/

namespace Lingx.Times

open Strings Library Cursor

def TIME_SLOTS : ℕ := 64

/-- `struct timeval`. -/
structure Timeval where
  sec : ℤ
  usec : ℤ
  deriving DecidableEq, Repr

/-- `struct tm`. -/
structure Tm where
  year : ℤ
  mon : ℤ
  mday : ℤ
  hour : ℤ
  min : ℤ
  sec : ℤ
  gmtoff : ℤ
  deriving DecidableEq, Repr

/-- `gmtime_r` and `localtime_r`. -/
structure Zone where
  gmtime : ℤ → Tm
  localtime : ℤ → Tm

/-- The local time is a constant number of minutes ahead. -/
def Zone.Ahead (z : Zone) (minutes : ℤ) : Prop :=
  ∀ sec, z.localtime sec = { z.gmtime (sec + minutes * 60) with gmtoff := minutes * 60 }

structure Time where
  sec : ℤ := 0
  msec : ℤ := 0
  gmtoff : ℤ := 0
  deriving DecidableEq, Repr

/-- The variables of the module. The published pointers are places in the arrays, null at
first; the text is a view, with its length. -/
structure Clock where
  slot : ℕ := 0
  cachedGmtoff : ℤ := 0
  cachedTimes : ℕ → Time := fun _ => {}
  cachedErrLogTimes : ℕ → Bytes := fun _ => []
  currentMsec : BitVec 64 := 0
  cachedTime : Option ℕ := none
  cachedErrLogTime : Option (ℕ × ℕ) := none

/-- A conversion with a least width: `%4d` with a blank, `%02d` with a zero in front. -/
def padded (fill : Byte) (width : ℕ) (i : ℤ) : Bytes :=
  List.replicate (width - (decimal i).length) fill ++ decimal i

/-- `sprintf` with the format `"%4d/%02d/%02d %02d:%02d:%02d"`. -/
def printTime (tm : Tm) : Bytes :=
  padded 32 4 tm.year ++ [0x2f] ++ padded 48 2 tm.mon ++ [0x2f] ++ padded 48 2 tm.mday ++ [32] ++
    padded 48 2 tm.hour ++ [0x3a] ++ padded 48 2 tm.min ++ [0x3a] ++ padded 48 2 tm.sec

namespace Clock

/-- The slot that the next update looks at. -/
def current (s : Clock) : Time := s.cachedTimes s.slot

/-- The object that `Cached_time` points to. -/
def published (s : Clock) : Option Time := s.cachedTime.map s.cachedTimes

/-- The text of `Cached_err_log_time`. -/
def errLogText (s : Clock) : Option Bytes :=
  s.cachedErrLogTime.map fun (slot, len) => (s.cachedErrLogTimes slot).take len

def setTime (s : Clock) (slot : ℕ) (t : Time) : Clock :=
  { s with cachedTimes := Function.update s.cachedTimes slot t }

/-- The text is written to a slot and published. -/
def setErrLogTime (s : Clock) (slot : ℕ) (p1 : Bytes) : Clock :=
  { s with
    cachedErrLogTimes := Function.update s.cachedErrLogTimes slot p1
    cachedErrLogTime := some (slot, p1.length) }

end Clock

/-- `Time_update`. -/
def timeUpdate (z : Zone) (tryLock : Bool) (tv : Timeval) (s : Clock) : Clock :=
  if ¬ tryLock then s
  else
    let sec := tv.sec
    let msec := tv.usec.tdiv 1000
    let s := { s with currentMsec := BitVec.ofInt 64 sec * 1000 + BitVec.ofInt 64 msec }
    if s.current.sec = sec then s.setTime s.slot { s.current with msec := msec }
    else
      let slot := next TIME_SLOTS s.slot
      let tm := z.localtime sec
      let tm := { tm with mon := tm.mon + 1, year := tm.year + 1900 }
      let gmtoff := tm.gmtoff.tdiv 60
      let s := { s with slot := slot, cachedGmtoff := gmtoff }
      let s := (s.setTime slot ⟨sec, msec, gmtoff⟩).setErrLogTime slot (printTime tm)
      { s with cachedTime := some slot }

/-- `Time_sigsafe_update`. -/
def timeSigsafeUpdate (z : Zone) (tryLock : Bool) (tv : Timeval) (s : Clock) : Clock :=
  if ¬ tryLock then s
  else
    let sec := tv.sec
    if s.current.sec = sec then s
    else
      let slot := next TIME_SLOTS s.slot
      let tm := z.gmtime (sec + s.cachedGmtoff * 60)
      let s := { s with slot := slot }
      (s.setTime slot { s.cachedTimes slot with sec := 0 }).setErrLogTime slot (printTime tm)

/-- `Time_init` up to its call of `Time_update`. -/
def Clock.started (s : Clock) : Clock := { s with cachedTime := some 0 }

def timeInit (z : Zone) (tryLock : Bool) (tv : Timeval) (s : Clock) : Clock :=
  timeUpdate z tryLock tv s.started

/-- `Cached_time->sec = 0`, in `Init_new_cycle`. -/
def Clock.reset (s : Clock) : Clock :=
  match s.cachedTime with
  | none => s
  | some p => s.setTime p { s.cachedTimes p with sec := 0 }

/-- What happens to the clock behind `Time_init`. -/
inductive Op where
  | update (tv : Timeval)
  | sigsafe (tv : Timeval)
  | reset
  deriving DecidableEq, Repr

/-- The reading of the clock. -/
def Op.reading : Op → Option Timeval
  | .update tv => some tv
  | .sigsafe tv => some tv
  | .reset => none

/-- An operation that gets the lock. -/
def Op.run (z : Zone) (s : Clock) : Op → Clock
  | .update tv => timeUpdate z true tv s
  | .sigsafe tv => timeSigsafeUpdate z true tv s
  | .reset => s.reset

/-- `Time_init` and the operations behind it. -/
def clockRun (z : Zone) (tv₀ : Timeval) (ops : List Op) : Clock :=
  ops.foldl (Op.run z) (timeInit z true tv₀ {})

end Lingx.Times
