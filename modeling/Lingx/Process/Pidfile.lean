import Lingx.Conf.FileWrite
import Lingx.Process
import Lingx.Process.Signals

/-! The pid file. A single or a master process writes its pid, as a line of decimal
digits, in place of what the file holds, and the signal process reads it back. -/

namespace Lingx.Process

open Conf Strings Library.Decimal

def OK : ℤ := 0
def ERROR : ℤ := -1

def O_RDWR : ℕ := 0x2
def O_CREAT : ℕ := 0x40
def O_TRUNC : ℕ := 0x200

/-- The messages of `Create_pidfile`. -/
inductive PidfileMessage where
  | openFailed (path : Bytes)
  | writeFailed (path : Bytes)
  deriving DecidableEq, Repr

/-- What `Create_pidfile` returns, with what the path holds then. -/
structure PidfileRun where
  rc : ℤ
  content : Option Bytes
  messages : List PidfileMessage
  deriving DecidableEq, Repr

/-- What a file that is opened for writing holds, created if there is none. -/
def openedContent (flags : ℕ) (content : Option Bytes) : Bytes :=
  if flags &&& O_TRUNC ≠ 0 then [] else content.getD []

/-- A byte written at a position; a gap in front of it reads as zeros. -/
def writeByte (content : Bytes) (w : ℤ × Byte) : Bytes :=
  let pos := w.1.toNat
  if pos < content.length then content.set pos w.2
  else content ++ List.replicate (pos - content.length) 0 ++ [w.2]

/-- The text of the format `"%d\n"`. -/
def pidLine (pid : Int32) : Formatted where
  text := decimal pid.toInt ++ [10]
  length_le := by
    have := length_decimal_le pid
    have hmax : INT_MAX = 2147483647 := rfl
    rw [List.length_append, List.length_singleton]
    omega

/-- `Create_pidfile` on a path with the content that it has; `open()` fails where the
file is `none`. There is no result where `pwrite()` has too few outcomes. -/
def createPidfile (processType : ProcessType) (testConfig : Bool) (pid : Int32) (path : Bytes)
    (file : Option File) (content : Option Bytes) (outcomes : List Pwrite) :
    Option PidfileRun :=
  if ProcessType.master.toNat < processType.toNat then some ⟨OK, content, []⟩
  else
    let flags := O_RDWR ||| O_CREAT
    let flags := if testConfig then flags else flags ||| O_TRUNC
    match file with
    | none => some ⟨ERROR, content, [.openFailed path]⟩
    | some file =>
      let content := openedContent flags content
      if testConfig then some ⟨OK, some content, []⟩
      else
        let size := MAX_INT_LEN + 2
        let (buf, len) := vsnprintf (List.replicate size 0) 0 size (pidLine pid)
        if len ≤ 0 ∨ size ≤ len.toNat then some ⟨ERROR, some content, []⟩
        else
          match file.write (buf.getD · 0) len.toNat 0 outcomes with
          | none => none
          | some r =>
            let content := r.log.foldl writeByte content
            if r.rc = -1 then some ⟨ERROR, some content, [.writeFailed path]⟩
            else some ⟨OK, some content, []⟩

variable {processType : ProcessType} {pid : Int32} {path content sig : Bytes}
  {kill : ℤ → ℤ → ℤ} {buf : ℕ → Byte} {i len : ℕ}

theorem writeByte_end {pos : ℤ} (h : pos = content.length) (c : Byte) :
    writeByte content (pos, c) = content ++ [c] := by
  simp [writeByte, h]

/-- Bytes written one behind the other at the end extend the content. -/
theorem foldl_writeByte (content : Bytes) (i len : ℕ) :
    (copied buf i len content.length).foldl writeByte content =
      content ++ (List.range len).map fun j => buf (i + j) := by
  induction len with
  | zero => simp
  | succ len ih =>
    have hend : (content.length : ℤ) + len =
        (content ++ (List.range len).map fun j => buf (i + j)).length := by simp
    have hone : copied buf (i + len) 1 (content.length + len) =
        [((content.length : ℤ) + len, buf (i + len))] := by simp [copied]
    rw [copied_add, List.foldl_append, ih, hone, List.foldl_cons, writeByte_end hend,
      List.foldl_nil, List.range_succ, List.map_append, List.append_assoc]
    rfl

theorem map_getD_range {s mem : Bytes} (h : s <+: mem) :
    (List.range s.length).map (mem.getD · 0) = s := by
  obtain ⟨t, rfl⟩ := h
  refine List.ext_getElem (by simp) fun j hj hj' => ?_
  simp [List.getElem?_append_left hj', List.getElem?_eq_getElem hj']

theorem length_pidLine_lt (pid : Int32) : (pidLine pid).text.length < MAX_INT_LEN + 2 := by
  have := length_decimal_le pid
  have hmax : MAX_INT_LEN = 11 := rfl
  simp only [pidLine, List.length_append, List.length_singleton]
  omega

theorem decimal_of_pos (hpid : 1 ≤ pid.toInt) : decimal pid.toInt = text pid.toInt.natAbs := by
  rw [decimal, if_neg (by omega), List.nil_append, text]

theorem snprintf_pidLine (pid : Int32) {buf : Bytes} {len : ℤ}
    (h : vsnprintf (List.replicate (MAX_INT_LEN + 2) 0) 0 (MAX_INT_LEN + 2) (pidLine pid) =
      (buf, len)) :
    len = (pidLine pid).text.length ∧ (pidLine pid).text <+: buf := by
  have hlt := length_pidLine_lt pid
  have htake : (pidLine pid).text.take (MAX_INT_LEN + 2 - 1) = (pidLine pid).text :=
    List.take_of_length_le (by omega)
  obtain ⟨hbuf, hlen⟩ := Prod.mk.inj h
  rw [if_neg (Nat.succ_ne_zero _), htake] at hbuf
  have hstore : [] ++ ((pidLine pid).text ++ [0]) <+: buf :=
    hbuf ▸ Library.Store.prefix_store (List.nil_prefix) (by simp; omega)
  exact ⟨hlen.symm, (List.prefix_append _ [0]).trans hstore⟩

theorem createPidfile_content (htype : processType = .single ∨ processType = .master)
    {file : File} {content : Option Bytes} {outcomes : List Pwrite} {r : PidfileRun}
    (ho : Outcomes (pidLine pid).text.length outcomes)
    (hr : createPidfile processType false pid path (some file) content outcomes = some r)
    (hok : r.rc = OK) : r.content = some (pidLine pid).text := by
  have hmaster : ¬ ProcessType.master.toNat < processType.toNat := by
    rcases htype with rfl | rfl <;> decide
  have hopened : openedContent (O_RDWR ||| O_CREAT ||| O_TRUNC) content = [] := rfl
  rw [createPidfile, if_neg hmaster] at hr
  simp only [Bool.false_eq_true, if_false, hopened] at hr
  generalize hfmt : vsnprintf _ _ _ _ = out at hr
  obtain ⟨buf, len⟩ := out
  obtain ⟨rfl, hbuf⟩ := snprintf_pidLine pid hfmt
  simp only [Int.toNat_natCast] at hr
  split_ifs at hr
  · cases hr
    cases hok
  · cases hw : file.write (buf.getD · 0) (pidLine pid).text.length 0 outcomes with
    | none =>
      rw [hw] at hr
      cases hr
    | some w =>
      have hinit : Wrote (buf.getD · 0) file (pidLine pid).text.length 0 file 0
          (pidLine pid).text.length 0 [] := ⟨rfl, Nat.zero_add _, rfl, rfl⟩
      simp only [hw] at hr
      split_ifs at hr with hrc
      · cases hr
        cases hok
      · cases hr
        rcases File.writeLoop_spec hinit ho hw with ⟨-, hwrote⟩ | ⟨hfail, -⟩
        · have hlog : w.log.foldl writeByte [] = (pidLine pid).text := by
            rw [hwrote.log]
            refine (foldl_writeByte [] 0 _).trans ?_
            simp only [Nat.zero_add, List.nil_append]
            exact map_getD_range hbuf
          exact congrArg some hlog
        · exact absurd hfail hrc

theorem atoi_pidLine (hpid : 1 ≤ pid.toInt) :
    atoi (((pidLine pid).text.take (MAX_INT_LEN + 2)).rdropWhile (IsEol ·)) = pid.toInt := by
  have hlt := length_pidLine_lt pid
  have hmax := pid.toInt_lt
  have hcast : (pid.toInt.natAbs : ℤ) = pid.toInt := by omega
  have hline : (pidLine pid).text = text pid.toInt.natAbs ++ [10] := by
    rw [← decimal_of_pos hpid, pidLine]
  rw [List.take_of_length_le (by omega), hline,
    rdropWhile_digits isDigit_text (by simp [IsEol]), ← hcast, atoi_eq_natCast]
  exact ⟨text_ne_nil, isDigit_text, value_text _, by rw [INT_MAX]; omega⟩

theorem osSignalLoop_of_notMem {sigs : List Signal} {pid : ℤ} (h : sig ∉ sigs.map (·.name)) :
    (osSignalLoop kill sig pid sigs).kills = [] := by
  induction sigs with
  | nil => rfl
  | cons entry sigs ih =>
    rw [List.map_cons, List.mem_cons, not_or] at h
    rw [osSignalLoop, if_neg h.1, ih h.2]

/-- An entry with a name of its own is sent once, whatever `kill()` returns. -/
theorem osSignalLoop_of_mem {sigs : List Signal} {pid : ℤ} {s : Signal}
    (hnodup : (sigs.map (·.name)).Nodup) (hs : s ∈ sigs) :
    (osSignalLoop kill s.name pid sigs).kills = [(pid, s.signo)] := by
  induction sigs with
  | nil => cases hs
  | cons entry sigs ih =>
    rw [List.map_cons, List.nodup_cons] at hnodup
    obtain ⟨hnew, hnodup⟩ := hnodup
    rw [osSignalLoop]
    rcases List.mem_cons.mp hs with rfl | hs
    · rw [if_pos rfl]
      split_ifs
      · rfl
      · exact congrArg _ (osSignalLoop_of_notMem hnew)
    · have hne : s.name ≠ entry.name := fun h => hnew (h ▸ List.mem_map_of_mem hs)
      rw [if_neg hne]
      exact ih hnodup hs

/-- The round trip of the pid file: what a single or a master process has written is the
line of its pid, within the buffers, and a signal process that reads it calls
`Os_signal_process` for that pid, which sends it the signal of the name. -/
theorem pidfile_roundTrip (htype : processType = .single ∨ processType = .master)
    (hpid : 1 ≤ pid.toInt) {file : File} {content : Option Bytes} {outcomes : List Pwrite}
    {r : PidfileRun} (ho : Outcomes (pidLine pid).text.length outcomes)
    (hr : createPidfile processType false pid path (some file) content outcomes = some r)
    (hok : r.rc = OK) (kill : ℤ → ℤ → ℤ) (sig : Bytes) :
    ∃ text, r.content = some text ∧ text.length < MAX_INT_LEN + 2 ∧
      (signalProcess kill path (some (pidFile path text)) sig).target = some pid.toInt ∧
      (signalProcess kill path (some (pidFile path text)) sig).rc =
        (osSignalProcess kill sig pid.toInt).rc ∧
      ∀ s ∈ signals, sig = s.name →
        (signalProcess kill path (some (pidFile path text)) sig).kills =
          [(pid.toInt, s.signo)] := by
  refine ⟨_, createPidfile_content htype ho hr hok, length_pidLine_lt pid, ?_⟩
  have hatoi := atoi_pidLine hpid
  rcases signalProcess_cases kill path (pidLine pid).text sig with
    ⟨hbad, -⟩ | ⟨v, hv, htarget, hkills, hrc⟩
  · rw [hatoi] at hbad
    omega
  · rw [hatoi] at hv
    rw [hv]
    refine ⟨htarget, hrc, fun s hs hsig => ?_⟩
    rw [hkills, hsig]
    exact osSignalLoop_of_mem (by decide) hs

/-- Pid 4321 over an old content, written by two calls with an interruption in between. -/
theorem pidfile_roundTrip_example :
    (createPidfile .master false 4321 (ascii "pid") (some (pidFile (ascii "pid") []))
      (some (ascii "1234567")) [.wrote 2, .interrupted, .wrote 3]).map (·.content) =
        some (some (ascii "4321\n")) ∧
    (signalProcess (fun _ _ => 0) (ascii "pid") (some (pidFile (ascii "pid") (ascii "4321\n")))
      (ascii "quit")).kills = [(4321, SIGQUIT)] := by
  have hr : createPidfile .master false 4321 (ascii "pid") (some (pidFile (ascii "pid") []))
      (some (ascii "1234567")) [.wrote 2, .interrupted, .wrote 3] =
        some ⟨OK, some (ascii "4321\n"), []⟩ := by decide
  obtain ⟨_, ⟨⟩, -, -, -, hkills⟩ := pidfile_roundTrip (.inr rfl) (by decide)
    (by simp [Outcomes, pidLine]; decide) hr rfl (fun _ _ => 0) (ascii "quit")
  exact ⟨congrArg _ hr, hkills ⟨SIGQUIT, ascii "quit"⟩ (by decide) rfl⟩

end Lingx.Process
