import Lingx.Conf.File
import Lingx.Logs.State
import Lingx.Strings
import Mathlib.Data.List.DropRight

/-! The signal process. It reads the pid of a running one from the pid file, at most
`MAX_INT_LEN + 2` bytes of it, and sends it the signal that was asked for. The outcomes
of `open()`, `pread()` and `kill()` are inputs. -/

namespace Lingx.Process

open Conf Strings Library.Decimal

/-- `sizeof("-2147483648") - 1`. -/
def MAX_INT_LEN : ℕ := 11

def SIGINT : ℤ := 2
def SIGQUIT : ℤ := 3
def SIGTERM : ℤ := 15

/-- An entry of `Signals_`, the members that `Os_signal_process` uses. -/
structure Signal where
  signo : ℤ
  name : Bytes
  deriving DecidableEq, Repr

/-- `Signals_`, up to the entry that ends it. -/
def signals : List Signal :=
  [⟨SIGTERM, ascii "stop"⟩, ⟨SIGQUIT, ascii "quit"⟩, ⟨SIGINT, []⟩]

/-- The messages of the functions. -/
inductive PidMessage where
  | signalStarted
  | openFailed (path : Bytes)
  | readFailed (path : Bytes)
  | invalidPid (text path : Bytes)
  | killFailed (pid signo : ℤ)
  deriving DecidableEq, Repr

/-- What a function returns, with the calls of `kill()` and the messages it makes. -/
structure SignalRun where
  rc : ℤ
  kills : List (ℤ × ℤ)
  messages : List PidMessage
  deriving DecidableEq, Repr

/-- The loop of `Os_signal_process`. -/
def osSignalLoop (kill : ℤ → ℤ → ℤ) (name : Bytes) (pid : ℤ) : List Signal → SignalRun
  | [] => ⟨1, [], []⟩
  | sig :: sigs =>
    if name = sig.name then
      if kill pid sig.signo = 0 then ⟨0, [(pid, sig.signo)], []⟩
      else
        let run := osSignalLoop kill name pid sigs
        ⟨run.rc, (pid, sig.signo) :: run.kills, .killFailed pid sig.signo :: run.messages⟩
    else osSignalLoop kill name pid sigs

def osSignalProcess (kill : ℤ → ℤ → ℤ) (name : Bytes) (pid : ℤ) : SignalRun :=
  osSignalLoop kill name pid signals

/-- The byte is a CR or an LF. -/
def IsEol (c : Byte) : Prop := c = 13 ∨ c = 10

instance (c : Byte) : Decidable (IsEol c) := inferInstanceAs (Decidable (_ ∨ _))

/-- The loop that leaves out CR and LF at the end of the first `n` bytes. -/
def trimEol (buf : Bytes) : ℕ → ℕ
  | 0 => 0
  | n + 1 => if ∃ c ∈ buf[n]?, IsEol c then trimEol buf n else n + 1

/-- The run of `Signal_process`, with the pid that it calls `Os_signal_process` with. -/
structure Signalled extends SignalRun where
  target : Option ℤ
  deriving DecidableEq, Repr

/-- `Signal_process`; the file is `none` where `open()` fails. -/
def signalProcess (kill : ℤ → ℤ → ℤ) (path : Bytes) (file : Option File) (sig : Bytes) :
    Signalled :=
  let failed (message : PidMessage) : Signalled := ⟨⟨1, [], [.signalStarted, message]⟩, none⟩
  match file with
  | none => failed (.openFailed path)
  | some file =>
    match file.read (MAX_INT_LEN + 2) 0 with
    | none => failed (.readFailed path)
    | some (buf, _) =>
      if buf.length = 0 then failed (.readFailed path)
      else
        let n := trimEol buf buf.length
        let pid := atoi (buf.take n)
        if pid = -1 then failed (.invalidPid (buf.take n) path)
        else
          let run := osSignalProcess kill sig pid
          ⟨⟨run.rc, run.kills, .signalStarted :: run.messages⟩, some pid⟩

/-- A file that can be read, with its content. -/
def pidFile (path content : Bytes) : File :=
  ⟨3, path, content.length, 0, fun len off => some ((content.drop off).take len)⟩

variable {kill : ℤ → ℤ → ℤ} {path content sig buf s t : Bytes} {n v : ℕ} {pid : ℤ} {c : Byte}

theorem not_isEol_of_isDigit (h : IsDigit c) : ¬ IsEol c := by
  rintro (rfl | rfl) <;> revert h <;> decide

theorem trimEol_le (buf : Bytes) (n : ℕ) : trimEol buf n ≤ n := by
  induction n with
  | zero => exact le_rfl
  | succ n ih =>
    rw [trimEol]
    split_ifs
    · exact Nat.le_succ_of_le ih
    · exact le_rfl

theorem trimEol_append (h : n ≤ s.length) : trimEol (s ++ t) n = trimEol s n := by
  induction n with
  | zero => rfl
  | succ n ih => rw [trimEol, trimEol, List.getElem?_append_left h, ih (Nat.le_of_succ_le h)]

theorem take_trimEol (buf : Bytes) :
    buf.take (trimEol buf buf.length) = buf.rdropWhile (IsEol ·) := by
  induction buf using List.reverseRecOn with
  | nil => rfl
  | append_singleton buf c ih =>
    rw [List.rdropWhile_concat, List.length_append, List.length_singleton, trimEol,
      trimEol_append le_rfl]
    have hle := trimEol_le buf buf.length
    by_cases hc : IsEol c
    · simp [hc, List.take_append_of_le_length hle, ih]
    · simp [hc]

theorem rdropWhile_digits (hs : ∀ c ∈ s, IsDigit c) (ht : ∀ c ∈ t, IsEol c) :
    (s ++ t).rdropWhile (IsEol ·) = s := by
  induction t using List.reverseRecOn with
  | nil =>
    rw [List.append_nil, List.rdropWhile_eq_self_iff]
    intro hnil
    simpa using not_isEol_of_isDigit (hs _ (List.getLast_mem hnil))
  | append_singleton t c ih =>
    rw [← List.append_assoc, List.rdropWhile_concat_pos _ _ _ (by simpa using ht c (by simp))]
    exact ih fun c hc => ht c (by simp [hc])

theorem osSignalLoop_kills {sigs : List Signal} :
    ∀ k ∈ (osSignalLoop kill sig pid sigs).kills, k.1 = pid := by
  induction sigs with
  | nil => nofun
  | cons entry sigs ih =>
    rw [osSignalLoop]
    split_ifs
    · simp
    · simpa using ih
    · exact ih

theorem signalProcess_cases (kill : ℤ → ℤ → ℤ) (path content sig : Bytes) :
    let text := (content.take (MAX_INT_LEN + 2)).rdropWhile (IsEol ·)
    let r := signalProcess kill path (some (pidFile path content)) sig
    (atoi text = -1 ∧ r.target = none ∧ r.kills = [] ∧ r.rc = 1) ∨
      ∃ pid : ℕ, atoi text = pid ∧ r.target = some (pid : ℤ) ∧
        r.kills = (osSignalProcess kill sig pid).kills ∧
        r.rc = (osSignalProcess kill sig pid).rc := by
  intro text r
  have hread : (pidFile path content).read (MAX_INT_LEN + 2) 0 = some
      (content.take (MAX_INT_LEN + 2), { pidFile path content with
        offset := (content.take (MAX_INT_LEN + 2)).length }) := by
    simp [File.read, pidFile]
  have hr : r = if (content.take (MAX_INT_LEN + 2)).length = 0 then
        ⟨⟨1, [], [.signalStarted, .readFailed path]⟩, none⟩
      else if atoi text = -1 then ⟨⟨1, [], [.signalStarted, .invalidPid text path]⟩, none⟩
      else ⟨⟨(osSignalProcess kill sig (atoi text)).rc,
        (osSignalProcess kill sig (atoi text)).kills,
        .signalStarted :: (osSignalProcess kill sig (atoi text)).messages⟩, some (atoi text)⟩ := by
    simp only [r, signalProcess, hread, take_trimEol, text]
  rcases atoi_cases text with h | ⟨pid, h⟩
  · rw [if_pos h] at hr
    split_ifs at hr <;> exact .inl ⟨h, by rw [hr], by rw [hr], by rw [hr]⟩
  · have hlen : (content.take (MAX_INT_LEN + 2)).length ≠ 0 := fun hlen => by
      rw [List.length_eq_zero_iff] at hlen
      simp only [text, hlen] at h
      exact absurd h nofun
    rw [if_neg hlen, if_neg (by omega), h] at hr
    exact .inr ⟨pid, h, by rw [hr], by rw [hr], by rw [hr]⟩

/-- The content is a pid: the digits of an int that is not zero, with CR and LF behind
them and nothing else. -/
def PidText (content : Bytes) (pid : ℤ) : Prop :=
  ∃ digits eol, content = digits ++ eol ∧ digits ≠ [] ∧ (∀ c ∈ digits, IsDigit c) ∧
    (∀ c ∈ eol, IsEol c) ∧ (value digits : ℤ) = pid ∧ 1 ≤ pid ∧ pid ≤ 2 ^ 31 - 1

/-- `Os_signal_process` and `kill()` are called for the pid that is the content, and for
any other content there is no call and the result is 1. -/
structure SignalsOnlyPid (content : Bytes) (r : Signalled) : Prop where
  target : ∀ pid ∈ r.target, PidText content pid
  kills : ∀ k ∈ r.kills, PidText content k.1
  other : (¬ ∃ pid, PidText content pid) → r.target = none ∧ r.kills = [] ∧ r.rc = 1

/-- If the bytes that are read denote an int, then it is not zero and the bytes that are
not read are CR and LF. -/
def PidFits (content : Bytes) : Prop :=
  ∀ digits eol, content.take (MAX_INT_LEN + 2) = digits ++ eol → digits ≠ [] →
    (∀ c ∈ digits, IsDigit c) → (∀ c ∈ eol, IsEol c) → value digits ≤ INT_MAX →
      1 ≤ value digits ∧ ∀ c ∈ content.drop (MAX_INT_LEN + 2), IsEol c

/-- Digits that go on behind those that denote a pid denote another one, so that a
content that is a pid has only CR and LF behind the bytes that are read. -/
theorem isEol_of_pidText (h : PidText content v)
    (hread : value ((content.take n).rdropWhile (IsEol ·)) = v) :
    ∀ c ∈ content.drop n, IsEol c := by
  obtain ⟨digits, eol, rfl, -, hdigits, heol, hv, hpos, -⟩ := h
  have hv : value digits = v := by exact_mod_cast hv
  have hpos : 0 < v := by exact_mod_cast hpos
  intro c hc
  rcases le_or_gt digits.length n with hle | hlt
  · rw [List.drop_append, List.drop_eq_nil_of_le hle, List.nil_append] at hc
    exact heol c (List.mem_of_mem_drop hc)
  · have htake : ((digits ++ eol).take n).rdropWhile (IsEol ·) = digits.take n := by
      have hdigits' := fun c hc => hdigits c (List.mem_of_mem_take (i := n) hc)
      rw [List.take_append_of_le_length hlt.le]
      simpa using rdropWhile_digits hdigits' (List.forall_mem_nil IsEol)
    have hne : digits.drop n ≠ [] := by simpa using hlt
    have hmore := lt_valueFrom hpos hne
    rw [← hread, htake, value, ← valueFrom_append, List.take_append_drop] at hmore
    rw [value] at hv
    rw [htake, value] at hread
    omega

/-- A content with only CR and LF behind what is read is the pid that is read. -/
theorem pidText_of_fits (h : PidFits content)
    (hatoi : atoi ((content.take (MAX_INT_LEN + 2)).rdropWhile (IsEol ·)) = v) :
    PidText content v := by
  obtain ⟨hne, hdigits, hv, hmax⟩ := atoi_eq_natCast.mp hatoi
  have hsplit : content.take (MAX_INT_LEN + 2) =
      (content.take (MAX_INT_LEN + 2)).rdropWhile (IsEol ·) ++
        (content.take (MAX_INT_LEN + 2)).rtakeWhile (IsEol ·) :=
    List.rdropWhile_append_rtakeWhile.symm
  have heol : ∀ c ∈ (content.take (MAX_INT_LEN + 2)).rtakeWhile (IsEol ·), IsEol c :=
    fun c hc => by simpa using List.mem_rtakeWhile_imp hc
  obtain ⟨hpos, hrest⟩ := h _ _ hsplit hne hdigits heol (hv ▸ hmax)
  refine ⟨_, (content.take (MAX_INT_LEN + 2)).rtakeWhile (IsEol ·) ++
    content.drop (MAX_INT_LEN + 2), ?_, hne, hdigits, ?_, congrArg _ hv, ?_, ?_⟩
  · rw [← List.append_assoc, ← hsplit, List.take_append_drop]
  · intro c hc
    exact (List.mem_append.mp hc).elim (heol c) (hrest c)
  · exact_mod_cast hv ▸ hpos
  · have hmax' : INT_MAX = 2147483647 := rfl
    omega

/-- `Signal_process` signals only the pid that the file holds exactly if what it reads is
not zero and what it does not read is CR and LF; where the file cannot be read it signals
nothing. -/
theorem signalProcess_pid_iff (kill : ℤ → ℤ → ℤ) (path content sig : Bytes) :
    (SignalsOnlyPid content (signalProcess kill path (some (pidFile path content)) sig) ↔
      PidFits content) ∧
    SignalsOnlyPid content (signalProcess kill path none sig) ∧
    SignalsOnlyPid content (signalProcess kill path
      (some { pidFile path content with pread := fun _ _ => none }) sig) := by
  refine ⟨?_, ⟨nofun, nofun, fun _ => ⟨rfl, rfl, rfl⟩⟩, ⟨nofun, nofun, fun _ => ⟨rfl, rfl, rfl⟩⟩⟩
  rcases signalProcess_cases kill path content sig with
    ⟨hatoi, htarget, hkills, hrc⟩ | ⟨v, hatoi, htarget, hkills, hrc⟩
  · refine iff_of_true ⟨?_, ?_, fun _ => ⟨htarget, hkills, hrc⟩⟩ ?_
    · rw [htarget]
      exact nofun
    · rw [hkills]
      exact nofun
    · intro digits eol hsplit hne hdigits heol hmax
      rw [hsplit, rdropWhile_digits hdigits heol] at hatoi
      have := atoi_eq_natCast.mpr ⟨hne, hdigits, rfl, hmax⟩
      omega
  · constructor
    · intro h digits eol hsplit _ hdigits heol _
      have hpid := h.target v htarget
      have hread := (atoi_eq_natCast.mp hatoi).2.2.1
      have hrest := isEol_of_pidText hpid hread
      rw [hsplit, rdropWhile_digits hdigits heol] at hread
      obtain ⟨-, -, -, -, -, -, -, hpos, -⟩ := hpid
      exact ⟨by omega, hrest⟩
    · intro h
      have hpid := pidText_of_fits h hatoi
      refine ⟨?_, fun k hk => ?_, fun hno => absurd ⟨_, hpid⟩ hno⟩
      · rw [htarget]
        rintro _ ⟨⟩
        exact hpid
      · rw [hkills] at hk
        rwa [osSignalLoop_kills k hk]

/-- A pid file with a zero: the signal goes to pid 0, the whole process group. -/
theorem signalProcess_zero :
    (signalProcess (fun _ _ => 0) (ascii "pid") (some (pidFile (ascii "pid") (ascii "0\n")))
      (ascii "stop")).kills = [(0, SIGTERM)] ∧
    ¬ SignalsOnlyPid (ascii "0\n") (signalProcess (fun _ _ => 0) (ascii "pid")
      (some (pidFile (ascii "pid") (ascii "0\n"))) (ascii "stop")) := by
  refine ⟨by decide, fun h => ?_⟩
  obtain ⟨-, -, -, -, -, -, -, hpos, -⟩ := h.kills (0, SIGTERM) (by decide)
  exact absurd hpos (by decide)

end Lingx.Process
