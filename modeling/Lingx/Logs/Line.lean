import Lingx.Errors
import Lingx.Logs.State

/-! The line of `Log::log`. It is put together in an array of fixed size, which lies in a
memory of other bytes: the time, the level and the process, the message, the error, and
a line feed. The copy for stderr overwrites the end of what stands in front of the
message. -/

namespace Lingx.Logs

open Library.Store Strings Errors

def lf : Byte := 0x0a

def space : Byte := 0x20

abbrev LineLevel := Fin logLevels.length

def levelName (lvl : LineLevel) : Bytes := logLevels.get lvl

theorem length_levelName_le (lvl : LineLevel) : (levelName lvl).length ≤ 6 := by
  have h : ∀ lvl : LineLevel, (levelName lvl).length ≤ 6 := by decide
  exact h lvl

/-- `" [%s] "` with its argument. -/
def levelText (lvl : LineLevel) : Formatted where
  text := ascii " [" ++ levelName lvl ++ ascii "] "
  length_le := by
    have := length_levelName_le lvl
    simp only [List.length_append, INT_MAX]
    have h : (ascii " [").length = 2 ∧ (ascii "] ").length = 2 := by decide
    omega

/-- `"%d#%d: "` with its arguments. -/
def pidText (pid : Int32) : Formatted where
  text := decimal pid.toInt ++ ascii "#" ++ decimal 0 ++ ascii ": "
  length_le := by
    have := length_decimal_le pid
    have h : (ascii "#").length = 1 ∧ (ascii ": ").length = 2 ∧ (decimal 0).length = 1 := by decide
    simp only [List.length_append, INT_MAX]
    omega

/-- `"lingx: [%s] "` with its argument. -/
def copyText (lvl : LineLevel) : Formatted where
  text := ascii "lingx: [" ++ levelName lvl ++ ascii "] "
  length_le := by
    have := length_levelName_le lvl
    have h : (ascii "lingx: [").length = 8 ∧ (ascii "] ").length = 2 := by decide
    simp only [List.length_append, INT_MAX]
    omega

/-- What `vsnprintf` makes of the message: its text, or a failure, with what it has stored
by then. -/
inductive Output where
  | text (fmt : Formatted)
  | failure (stored : Bytes)

def Output.message : Output → Bytes
  | .text fmt => fmt.text
  | .failure _ => []

/-- `Vslprintf` for a message; a failure is discarded. -/
def vslprintfOutput (mem : Bytes) (buf last : ℕ) : Output → Bytes × ℕ
  | .text fmt => vslprintf mem buf last fmt
  | .failure stored =>
    (if buf < last then store mem buf (stored.take (last - buf)) else mem, buf)

/-- What `Log::log` finds around it: `Cached_err_log_time`, `Pid` and the messages of the
system. -/
structure LineEnv where
  time : Bytes
  pid : Int32
  message : Int32 → Bytes

/-- The part of `Log::log` in front of its loop: the memory, `msg` and `p`. -/
def logLine (env : LineEnv) (mem : Bytes) (errstr : ℕ) (lvl : LineLevel) (err : Int32)
    (out : Output) : Bytes × ℕ × ℕ :=
  let last := errstr + MAX_ERROR_STR - 1
  let (mem, p) := (store mem errstr env.time, errstr + env.time.length)
  let (mem, p) := slprintf mem p last (levelText lvl)
  let (mem, p) := slprintf mem p last (pidText env.pid)
  let msg := p
  let (mem, p) := vslprintfOutput mem p last out
  let (mem, p) := if err ≠ 0 then strerrno env.message mem p last err else (mem, p)
  (mem.set p lf, msg, p + 1)

/-- The part of `Log::log` behind its loop, up to the last `write`: the memory and `msg`. -/
def logCopy (mem : Bytes) (msg : ℕ) (lvl : LineLevel) : Bytes × ℕ :=
  let len := 8 + (levelName lvl).length + 2
  let msg := msg - len
  let (mem, _) := vsnprintf mem msg len (copyText lvl)
  (mem.set (msg + len - 1) space, msg)

def bytesOf (mem : Bytes) (start stop : ℕ) : Bytes := (mem.drop start).take (stop - start)

def Write.fd : Write → ℤ
  | .file _ fd => fd
  | .stderr => STDERR_FILENO

/-- `Log::log`: the memory it leaves and what is given to `write`, with the descriptors;
`none` is a null file. -/
def log (env : LineEnv) (s : LogCycle) (useStderr : Bool) (mem : Bytes) (errstr : ℕ)
    (lvl : LineLevel) (err : Int32) (out : Output) : Option (Bytes × List (ℤ × Bytes)) := do
  let (mem, msg, p) := logLine env mem errstr lvl err out
  let ws ← logWrites s (BitVec.ofNat 32 lvl) s.logN (some 0)
  let written := ws.map fun w => (w.fd, bytesOf mem errstr p)
  if !useStderr || WARN < BitVec.ofNat 32 lvl || wroteStderr ws then some (mem, written)
  else
    let (mem, msg) := logCopy mem msg lvl
    some (mem, written ++ [(STDERR_FILENO, bytesOf mem msg p)])

def linePrefix (env : LineEnv) (lvl : LineLevel) : Bytes :=
  env.time ++ (levelText lvl).text ++ (pidText env.pid).text

/-- The part of a line behind the prefix, in so much room, without the line feed. -/
def lineBody (message : Int32 → Bytes) (room : ℕ) (err : Int32) (text : Bytes) : Bytes :=
  if err = 0 then text.take (room - 1) else errnoLine message room err text

/-- What the prefix leaves of the array, up to the byte for the line feed. -/
def lineRoom (env : LineEnv) (lvl : LineLevel) : ℕ :=
  MAX_ERROR_STR - 1 - (linePrefix env lvl).length

def lineRest (env : LineEnv) (lvl : LineLevel) (err : Int32) (text : Bytes) : Bytes :=
  lineBody env.message (lineRoom env lvl) err text ++ [lf]

def logged (env : LineEnv) (lvl : LineLevel) (err : Int32) (text : Bytes) : Write → ℤ × Bytes
  | .file _ fd => (fd, linePrefix env lvl ++ lineRest env lvl err text)
  | .stderr => (STDERR_FILENO, (copyText lvl).text ++ lineRest env lvl err text)

/-- An array of `MAX_ERROR_STR` bytes in a memory. -/
def Within (pre post mem : Bytes) : Prop :=
  ∃ errstr : Bytes, errstr.length = MAX_ERROR_STR ∧ mem = pre ++ errstr ++ post

section Writers
variable {tail s mem text : Bytes} {last p room : ℕ}

theorem filled_vslprintf (h : Filled tail last s mem p) (hp : p < last) (fmt : Formatted) :
    Filled tail last (s ++ fmt.text.take (last - p - 1)) (vslprintf mem p last fmt).1
      (vslprintf mem p last fmt).2 := by
  have hpos := h.pos
  rw [vslprintf_eq fmt hp]
  refine h.storeEnd _ 0 ?_
  rw [List.length_take]
  omega

theorem filled_slprintf (h : Filled tail last s mem p) (fmt : Formatted)
    (hlen : s.length + fmt.text.length < last) :
    Filled tail last (s ++ fmt.text) (slprintf mem p last fmt).1 (slprintf mem p last fmt).2 := by
  have hpos := h.pos
  have hall : fmt.text.take (last - p - 1) = fmt.text := List.take_of_length_le (by omega)
  have hw := filled_vslprintf h (by omega) fmt
  rwa [hall] at hw

theorem filled_output (h : Filled tail last s mem p) (hp : p < last) (out : Output) :
    Filled tail last (s ++ out.message.take (last - p - 1)) (vslprintfOutput mem p last out).1
      (vslprintfOutput mem p last out).2 := by
  have hpos := h.pos
  cases out with
  | text fmt => exact filled_vslprintf h hp fmt
  | failure stored =>
    have hlen : s.length + (stored.take (last - p)).length ≤ last := by
      rw [List.length_take]
      omega
    have hback := (h.store _ hlen).back
    simp only [vslprintfOutput, if_pos hp, Output.message, List.take_nil, List.append_nil]
    rwa [← hpos] at hback

theorem length_errnoLine_le (message : Int32 → Bytes) (err : Int32) (h : 66 ≤ room)
    (text : Bytes) : (errnoLine message room err text).length ≤ room := by
  have hlead := length_leadIn_le (show 50 ≤ room by omega) text
  have hno := length_errnoText_le err
  simp only [errnoLine, errnoHead, List.length_append, List.length_take, List.length_singleton]
  omega

/-- `Strerrno` behind a message that was cut to leave room for a NUL. -/
theorem filled_strerrno (message : Int32 → Bytes) (err : Int32)
    (h : Filled tail last (s ++ text.take (room - 1)) mem p) (hroom : s.length + room = last)
    (h66 : 66 ≤ room) :
    Filled tail last (s ++ errnoLine message room err text) (strerrno message mem p last err).1
      (strerrno message mem p last err).2 := by
  obtain ⟨mid, hsplit, hmid⟩ := h.split
  have hpre : s ++ text.take (room - 1) <+: mem := by
    rw [hsplit, List.append_assoc]
    exact List.prefix_append _ _
  have hlast : last ≤ mem.length := by
    rw [hsplit, List.length_append, List.length_append, hmid]
    exact Nat.le_add_right _ _
  have hline := length_errnoLine_le message err h66 text
  rw [strerrno_eq message err hpre h.pos hroom h66 hlast]
  exact h.replace (by rw [List.length_append]; omega)

end Writers

section Line
variable {env : LineEnv} {pre post mem : Bytes}

theorem length_linePrefix_le (htime : env.time.length = 19) (lvl : LineLevel) :
    (linePrefix env lvl).length ≤ 44 := by
  have hlevel := length_levelName_le lvl
  have hpid := length_decimal_le env.pid
  have h : (ascii " [").length = 2 ∧ (ascii "] ").length = 2 ∧ (ascii "#").length = 1 ∧
    (ascii ": ").length = 2 ∧ (decimal 0).length = 1 := by decide
  simp only [linePrefix, levelText, pidText, List.length_append]
  omega

theorem length_copyText_le (htime : env.time.length = 19) (lvl : LineLevel) :
    (copyText lvl).text.length ≤ (linePrefix env lvl).length := by
  have h : (ascii " [").length = 2 ∧ (ascii "] ").length = 2 ∧ (ascii "lingx: [").length = 8 := by
    decide
  simp only [linePrefix, levelText, copyText, List.length_append]
  omega

/-- The array up to its last byte, which is kept for the line feed. -/
theorem filled_of_within (h : Within pre post mem) :
    ∃ b, Filled (b :: post) (pre.length + MAX_ERROR_STR - 1) pre mem pre.length := by
  obtain ⟨errstr, hlen, rfl⟩ := h
  obtain rfl | ⟨l, b, rfl⟩ := List.eq_nil_or_concat' errstr
  · cases hlen
  · rw [List.length_append, List.length_singleton] at hlen
    exact ⟨b, ⟨l, by simp, by omega⟩, rfl⟩

theorem within_of_filled {s : Bytes} {p : ℕ}
    (h : Filled post (pre.length + MAX_ERROR_STR) (pre ++ s) mem p) : Within pre post mem := by
  obtain ⟨⟨mid, rfl, hmid⟩, -⟩ := h
  rw [List.length_append] at hmid
  exact ⟨s ++ mid, by rw [List.length_append]; omega, by simp⟩

theorem filled_logLine (hmem : Within pre post mem) (htime : env.time.length = 19)
    (lvl : LineLevel) (err : Int32) (out : Output) :
    Filled post (pre.length + MAX_ERROR_STR)
        (pre ++ linePrefix env lvl ++ lineRest env lvl err out.message)
        (logLine env mem pre.length lvl err out).1 (logLine env mem pre.length lvl err out).2.2 ∧
      (logLine env mem pre.length lvl err out).2.1 = (pre ++ linePrefix env lvl).length := by
  obtain ⟨b, h₀⟩ := filled_of_within hmem
  have hprefix := length_linePrefix_le htime lvl
  have hlast : pre.length + MAX_ERROR_STR - 1 =
      (pre ++ linePrefix env lvl).length + lineRoom env lvl := by
    rw [List.length_append, lineRoom, MAX_ERROR_STR]
    omega
  have hroom : 66 ≤ lineRoom env lvl := by
    rw [lineRoom, MAX_ERROR_STR]
    omega
  have hparts := congrArg List.length (linePrefix.eq_def env lvl)
  simp only [List.length_append] at hparts hlast
  simp only [logLine]
  generalize hl : pre.length + MAX_ERROR_STR - 1 = last at h₀ hlast ⊢
  have h₁ := h₀.store env.time (by omega)
  have h₂ := filled_slprintf h₁ (levelText lvl) (by rw [List.length_append]; omega)
  generalize slprintf _ _ last (levelText lvl) = q at h₂ ⊢
  have h₃ := filled_slprintf h₂ (pidText env.pid) (by simp only [List.length_append]; omega)
  rw [List.append_assoc, List.append_assoc, ← List.append_assoc env.time, ← linePrefix] at h₃
  generalize slprintf _ _ last (pidText env.pid) = q at h₃ ⊢
  have h₄ := filled_output h₃ (by rw [h₃.pos, List.length_append]; omega) out
  have hr : last - q.2 = lineRoom env lvl := by
    rw [h₃.pos, List.length_append]
    omega
  rw [hr] at h₄
  generalize vslprintfOutput _ _ last out = r at h₄ ⊢
  -- the error, if there is one
  have h₅ : Filled (b :: post) last
      (pre ++ linePrefix env lvl ++ lineBody env.message (lineRoom env lvl) err out.message)
      (if err ≠ 0 then strerrno env.message r.1 r.2 last err else (r.1, r.2)).1
      (if err ≠ 0 then strerrno env.message r.1 r.2 last err else (r.1, r.2)).2 := by
    by_cases herr : err = 0
    · rwa [if_neg (not_not.mpr herr), lineBody, if_pos herr]
    · rw [if_pos herr]
      rw [lineBody, if_neg herr]
      exact filled_strerrno env.message err h₄ (by rw [List.length_append]; omega) hroom
  generalize (if err ≠ 0 then strerrno env.message r.1 r.2 last err else (r.1, r.2)) = w at h₅ ⊢
  refine ⟨?_, h₃.pos⟩
  have hle := h₅.le_last
  have h₆ := h₅.widen.store [lf] (by rw [← h₅.pos, List.length_singleton]; omega)
  have hwide : last + 1 = pre.length + MAX_ERROR_STR := by
    rw [← hl, MAX_ERROR_STR]
    omega
  rw [hwide, List.append_assoc _ _ [lf]] at h₆
  exact h₆

/-- The NUL at the end of the copied text is replaced by the blank it took the place of. -/
theorem logCopy_eq {a b c : Bytes} {lvl : LineLevel} (h : b.length = (copyText lvl).text.length) :
    logCopy (a ++ b ++ c) (a ++ b).length lvl = (a ++ (copyText lvl).text ++ c, a.length) := by
  have hlit : (ascii "lingx: [").length = 8 ∧ ascii "] " = ascii "]" ++ [space] ∧
    (ascii "]").length = 1 := by decide
  obtain ⟨hfront, hend, hone⟩ := hlit
  have htext : (copyText lvl).text =
      ascii "lingx: [" ++ levelName lvl ++ ascii "]" ++ [space] := by
    simp [copyText, hend]
  generalize hhead : ascii "lingx: [" ++ levelName lvl ++ ascii "]" = head at htext
  have hlen : 8 + (levelName lvl).length + 2 = head.length + 1 := by
    rw [← hhead, List.length_append, List.length_append]
    omega
  rw [htext, List.length_append, List.length_singleton] at h
  have hmsg : (a ++ b).length - (head.length + 1) = a.length := by
    rw [List.length_append]
    omega
  have hstore : store (a ++ b ++ c) a.length (head ++ [0]) = a ++ (head ++ [0]) ++ c :=
    store_append (by simp [h])
  simp only [logCopy, hlen, hmsg, vsnprintf, if_neg (Nat.succ_ne_zero _), htext,
    Nat.add_sub_cancel, List.take_left, hstore]
  simp

theorem bytesOf_append (a b c : Bytes) : bytesOf (a ++ b ++ c) a.length (a ++ b).length = b := by
  simp [bytesOf]

theorem filled_logCopy {rest : Bytes} {p : ℕ} (htime : env.time.length = 19) (lvl : LineLevel)
    (h : Filled post (pre.length + MAX_ERROR_STR) (pre ++ linePrefix env lvl ++ rest) mem p) :
    Within pre post (logCopy mem (pre ++ linePrefix env lvl).length lvl).1 ∧
      bytesOf (logCopy mem (pre ++ linePrefix env lvl).length lvl).1
        (logCopy mem (pre ++ linePrefix env lvl).length lvl).2 p = (copyText lvl).text ++ rest := by
  have hle := length_copyText_le htime lvl
  obtain ⟨a, b, hab, hb⟩ : ∃ a b, linePrefix env lvl = a ++ b ∧
      b.length = (copyText lvl).text.length := by
    refine ⟨_, _, (List.take_append_drop
      ((linePrefix env lvl).length - (copyText lvl).text.length) _).symm, ?_⟩
    rw [List.length_drop]
    omega
  obtain ⟨⟨mid, rfl, hmid⟩, rfl⟩ := h
  rw [hab, ← List.append_assoc pre] at hmid ⊢
  have hcopy := logCopy_eq (a := pre ++ a) (c := rest ++ mid ++ post) hb
  have hbytes := bytesOf_append (pre ++ a) ((copyText lvl).text ++ rest) (mid ++ post)
  simp only [List.append_assoc, List.length_append] at hcopy hbytes hmid ⊢
  rw [hcopy]
  refine ⟨⟨a ++ ((copyText lvl).text ++ (rest ++ mid)), ?_, by simp⟩, ?_⟩
  · simp only [List.length_append]
    omega
  · rw [hb]
    exact hbytes

theorem eq_file_of_mem_logWrites {s : LogCycle} {lvl : Level} {k : ℕ} {q : Option ℕ}
    {ws : List Write} (h : logWrites s lvl k q = some ws) {w : Write} (hw : w ∈ ws) :
    ∃ a fd, w = .file a fd := by
  induction k generalizing q ws with
  | zero =>
    obtain rfl := Option.some.inj h
    cases hw
  | succ k ih =>
    cases q with
    | none =>
      obtain rfl := Option.some.inj h
      cases hw
    | some a =>
      rw [logWrites] at h
      split_ifs at h with hlvl
      · obtain rfl := Option.some.inj h
        cases hw
      · obtain ⟨f, -, h⟩ := Option.bind_eq_some_iff.mp h
        obtain ⟨ws', hrest, h⟩ := Option.bind_eq_some_iff.mp h
        obtain rfl := Option.some.inj h
        rcases List.mem_cons.mp hw with rfl | hw
        · exact ⟨a, f.fd, rfl⟩
        · exact ih hrest hw

/-- A line is complete: the prefix, the message and the error, each as far as there is room
for it, and a line feed. The copy has its own prefix, which is not longer. All writes are
within the array. -/
theorem log_spec (s : LogCycle) (useStderr : Bool) (hmem : Within pre post mem)
    (htime : env.time.length = 19) (lvl : LineLevel) (err : Int32) (out : Output) :
    Within pre post (logLine env mem pre.length lvl err out).1 ∧
      (∀ r ∈ log env s useStderr mem pre.length lvl err out, Within pre post r.1) ∧
      (copyText lvl).text.length ≤ (linePrefix env lvl).length ∧
      (log env s useStderr mem pre.length lvl err out).map Prod.snd =
        (logLog s useStderr (BitVec.ofNat 32 lvl)).map
          (List.map (logged env lvl err out.message)) := by
  obtain ⟨hline, hmsg⟩ := filled_logLine hmem htime lvl err out
  have hin : Within pre post (logLine env mem pre.length lvl err out).1 := by
    rw [List.append_assoc] at hline
    exact within_of_filled hline
  obtain ⟨hcopyIn, hcopy⟩ := filled_logCopy htime lvl hline
  have hbytes : bytesOf (logLine env mem pre.length lvl err out).1 pre.length
      (logLine env mem pre.length lvl err out).2.2 =
        linePrefix env lvl ++ lineRest env lvl err out.message := by
    obtain ⟨⟨mid, hsplit, -⟩, hp⟩ := hline
    rw [hsplit, hp]
    have := bytesOf_append pre (linePrefix env lvl ++ lineRest env lvl err out.message)
      (mid ++ post)
    simpa using this
  rw [← hmsg] at hcopyIn hcopy
  simp only [log, logLog]
  generalize logLine env mem pre.length lvl err out = line at *
  cases hws : logWrites s (BitVec.ofNat 32 lvl) s.logN (some 0) with
  | none => exact ⟨hin, nofun, length_copyText_le htime lvl, rfl⟩
  | some ws =>
    have hfiles : ws.map (fun w => (w.fd, bytesOf line.1 pre.length line.2.2)) =
        ws.map (logged env lvl err out.message) := by
      refine List.map_congr_left fun w hw => ?_
      obtain ⟨a, fd, rfl⟩ := eq_file_of_mem_logWrites hws hw
      rw [hbytes]
      rfl
    simp only [Option.bind_eq_bind, Option.bind_some, hfiles]
    split_ifs
    · exact ⟨hin, by rintro r ⟨⟩; exact hin, length_copyText_le htime lvl, rfl⟩
    · refine ⟨hin, by rintro r ⟨⟩; exact hcopyIn, length_copyText_le htime lvl, ?_⟩
      simp only [Option.map_some, List.map_append, hcopy]
      rfl

end Line

theorem log_spec_stderr :
    (log ⟨List.replicate 19 48, 7, fun _ => [109]⟩ .init true (List.replicate 1024 0) 0
      ⟨4, by decide⟩ 2 (.text ⟨[97], by decide⟩)).map Prod.snd =
        some [(2, ascii "lingx: [error] a (2: m)" ++ [lf])] :=
  (log_spec .init true (show Within [] [] _ from ⟨List.replicate 1024 0, List.length_replicate,
    (List.append_nil _).symm⟩) List.length_replicate ⟨4, by decide⟩ 2
    (.text ⟨[97], by decide⟩)).2.2.2.trans (by decide)

end Lingx.Logs
