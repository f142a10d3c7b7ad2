import Lingx.Conf.File

/-! The bounds of the scan. Whatever the reads return, the places stay in the buffer, each
iteration that goes on takes one of the bytes that remain, and so every call of
`read_token_` returns. -/

namespace Lingx.Conf

variable {cf cf' : ConfFile} {s s' : Scan} {rc : Rc}

/-- What every call of `read_token_` finds and keeps: no byte of the buffer is scanned
twice, and a buffer that may be refilled has the size of the source. -/
structure ConfFile.Bounded (cf : ConfFile) : Prop where
  pos_le : cf.buffer.pos ≤ cf.buffer.last
  last_le : cf.file.offset < cf.file.stSize →
    cf.buffer.last ≤ cf.buffer.bend ∧ cf.buffer.bend = MAX_CONF_BUFFER

theorem ConfFile.bounded_opened (fd : ℤ) (name : Bytes) (stSize : ℕ)
    (pread : ℕ → ℕ → Option Bytes) : (ConfFile.opened fd name stSize pread).Bounded :=
  ⟨le_rfl, fun _ => ⟨Nat.zero_le _, rfl⟩⟩

theorem ConfFile.bounded_param (text : Bytes) : (ConfFile.param text).Bounded :=
  ⟨Nat.zero_le _, fun h => absurd h (Nat.lt_irrefl _)⟩

/-- The beginning of an iteration: a byte to scan, with as many bytes remaining as before,
or the end of the call. -/
inductive Filled (cf : ConfFile) (s : Scan) : Refill → Prop
  | more {cf' : ConfFile} {s' : Scan} : cf'.Bounded → cf'.buffer.pos < cf'.buffer.last →
      cf'.remaining = cf.remaining → cf'.file.fd = cf.file.fd → s'.start ≤ cf'.buffer.pos →
      Filled cf s (.more cf' s')
  | done : cf.remaining = 0 → Filled cf s (.ret (endOfInput cf.file.fd s) cf s)
  | fail {e : ConfError} {cf' : ConfFile} {s' : Scan} : cf'.Bounded →
      cf'.remaining ≤ cf.remaining → cf'.file.fd = cf.file.fd →
      Filled cf s (.ret (.error e) cf' s')

theorem readMore_filled (g : cf.Bounded) (hoff : cf.file.offset < cf.file.stSize)
    (hend : cf.buffer.last ≤ cf.buffer.pos) {mem : ℕ → Byte} {len : ℕ}
    (hlen : len < MAX_CONF_BUFFER) : Filled cf s (readMore cf mem len s) := by
  obtain ⟨hlast, hbend⟩ := g.last_le hoff
  have hpos := g.pos_le
  simp only [readMore, File.read]
  cases cf.file.pread (min (cf.file.stSize - cf.file.offset) (cf.buffer.bend - len))
      cf.file.offset with
  | none => exact .fail ⟨hpos, g.last_le⟩ le_rfl rfl
  | some data =>
    dsimp only
    by_cases hsize : data.length = min (cf.file.stSize - cf.file.offset) (cf.buffer.bend - len)
    · rw [if_neg fun h => h hsize]
      refine .more ⟨Nat.le_add_right _ _, fun _ => ⟨?_, hbend⟩⟩ ?_ ?_ rfl (Nat.zero_le len)
      · show len + data.length ≤ cf.buffer.bend
        omega
      · show len < len + data.length
        omega
      · simp only [ConfFile.remaining]
        omega
    · rw [if_pos hsize]
      refine .fail ⟨hpos, fun h => ?_⟩ ?_ rfl
      · have hn : cf.file.offset + data.length < cf.file.stSize := h
        exact g.last_le (by omega)
      · simp only [ConfFile.remaining, ConfFile.setMem]
        omega

theorem fill_filled (g : cf.Bounded) (hs : s.start ≤ cf.buffer.pos) :
    Filled cf s (fill cf s) := by
  have hpos := g.pos_le
  rw [fill]
  by_cases hend : cf.buffer.last ≤ cf.buffer.pos
  · rw [if_pos hend, refill]
    by_cases hoff : cf.file.stSize ≤ cf.file.offset
    · rw [if_pos hoff]
      refine .done ?_
      rw [ConfFile.remaining]
      omega
    · rw [if_neg hoff]
      dsimp only
      by_cases hlen : cf.buffer.pos - s.start = MAX_CONF_BUFFER
      · rw [if_pos hlen]
        exact .fail g le_rfl rfl
      · rw [if_neg hlen]
        obtain ⟨hlast, hbend⟩ := g.last_le (by omega)
        exact readMore_filled g (by omega) hend (by omega)
  · rw [if_neg hend]
    exact .more g (by omega) rfl rfl hs

/-- A read fails, or leaves a state for the front of the buffer. -/
theorem readMore_cases (cf : ConfFile) (mem : ℕ → Byte) (len : ℕ) (s : Scan) :
    (∃ e cf', readMore cf mem len s = .ret (.error e) cf' s) ∨
      ∃ cf', readMore cf mem len s = .more cf' { s with start := 0 } := by
  simp only [readMore]
  cases cf.file.read (min (cf.file.stSize - cf.file.offset) (cf.buffer.bend - len))
      cf.file.offset with
  | none => exact .inl ⟨_, _, rfl⟩
  | some r =>
    dsimp only
    split_ifs
    · exact .inl ⟨_, _, rfl⟩
    · exact .inr ⟨_, rfl⟩

/-- The beginning of an iteration changes the start of the word only. -/
theorem fill_more_scan (h : fill cf s = .more cf' s') :
    ∃ start, s' = { s with start := start } := by
  unfold fill at h
  split_ifs at h
  · simp only [refill] at h
    split_ifs at h
    rcases readMore_cases cf (moveToFront cf.buffer.mem s.start (cf.buffer.pos - s.start))
      (cf.buffer.pos - s.start) s with ⟨e, cf₁, hr⟩ | ⟨cf₁, hr⟩ <;> rw [hr] at h <;> cases h
    exact ⟨0, rfl⟩
  · cases h
    exact ⟨s.start, rfl⟩

/-- Where it ends the call, the input is at its end or there is an error. -/
theorem fill_ret_scan (h : fill cf s = .ret rc cf' s') :
    s'.args = s.args ∧ (rc = endOfInput cf.file.fd s ∨ ∃ e, rc = .error e) := by
  unfold fill at h
  split_ifs at h
  simp only [refill] at h
  split_ifs at h
  · cases h
    exact ⟨rfl, .inl rfl⟩
  · cases h
    exact ⟨rfl, .inr ⟨_, rfl⟩⟩
  · rcases readMore_cases cf (moveToFront cf.buffer.mem s.start (cf.buffer.pos - s.start))
      (cf.buffer.pos - s.start) s with ⟨e, cf₁, hr⟩ | ⟨cf₁, hr⟩ <;> rw [hr] at h <;> cases h
    exact ⟨rfl, .inr ⟨e, rfl⟩⟩

/-- A turn leaves the start of the word where it is or moves it on to the byte or behind
it, and does not end the file. -/
def Turn.Moves (start pos : ℕ) : Turn → Prop
  | .next s => start ≤ s.start ∧ s.start ≤ pos + 1
  | .ret rc _ => rc ≠ .fileDone

theorem startWord_moves {start pos : ℕ} {ch : Byte} (h : start ≤ s.start) (hs : s.start ≤ pos) :
    (startWord pos ch s).Moves start pos := by
  simp only [startWord]
  split_ifs <;> simp [Turn.Moves] <;> omega

theorem endWord_start {ch : Byte} (h : endWord ch s = some s') : s'.start = s.start := by
  simp only [endWord] at h
  split_ifs at h <;> cases h <;> rfl

theorem wordFound_moves {mem : ℕ → Byte} {start pos : ℕ} {ch : Byte} (h : start ≤ s.start)
    (hs : s.start ≤ pos) : (wordFound mem pos ch s).Moves start pos := by
  simp only [wordFound]
  split_ifs
  · exact nofun
  · exact nofun
  · exact ⟨h, by dsimp only; omega⟩

theorem inWord_moves {mem : ℕ → Byte} {start pos : ℕ} {ch : Byte} (h : start ≤ s.start)
    (hs : s.start ≤ pos) : (inWord mem pos ch s).Moves start pos := by
  simp only [inWord]
  split_ifs
  · exact ⟨h, by omega⟩
  · exact ⟨h, by dsimp only; omega⟩
  · exact ⟨h, by dsimp only; omega⟩
  · split
    · exact ⟨h, by dsimp only; omega⟩
    · rename_i s' hs'
      have hstart := endWord_start hs'
      dsimp only at hstart
      exact wordFound_moves (by omega) (by omega)

theorem scanByte_moves {mem : ℕ → Byte} {start pos : ℕ} {ch : Byte} (h : start ≤ s.start)
    (hs : s.start ≤ pos) : (scanByte mem pos ch s).Moves start pos := by
  rw [scanByte]
  split_ifs
  · exact startWord_moves h hs
  · exact inWord_moves h hs

theorem afterQuote_moves {mem : ℕ → Byte} {start pos : ℕ} {ch : Byte} (h : start ≤ s.start)
    (hs : s.start ≤ pos) : (afterQuote mem pos ch s).Moves start pos := by
  rw [afterQuote]
  split_ifs
  · exact ⟨h, by dsimp only; omega⟩
  · exact nofun
  · exact nofun
  · exact scanByte_moves h hs
  · exact nofun

theorem countLine_start (ch : Byte) (s : Scan) : (countLine ch s).start = s.start := by
  rw [countLine]
  split_ifs <;> rfl

theorem turn_moves (mem : ℕ → Byte) {pos : ℕ} (hs : s.start ≤ pos) :
    (turn mem pos s).Moves s.start pos := by
  have hstart := countLine_start (mem pos) s
  simp only [turn]
  split_ifs
  · exact ⟨hstart.ge, by omega⟩
  · exact ⟨hstart.ge, by dsimp only; omega⟩
  · exact afterQuote_moves hstart.ge (by omega)
  · exact scanByte_moves hstart.ge (by omega)

/-- What a call of `read_token_` leaves: every code but an error and the end of the file
takes a byte, and the end of the file is met with no byte and no word left. -/
structure Scanned (cf cf' : ConfFile) (rc : Rc) (s' : Scan) : Prop where
  bounded : cf'.Bounded
  fd : cf'.file.fd = cf.file.fd
  remaining_le : cf'.remaining ≤ cf.remaining
  remaining_lt : rc = .ok ∨ rc = .blockStart ∨ rc = .blockDone → cf'.remaining < cf.remaining
  fileDone : rc = .fileDone → cf'.remaining = 0 ∧ s'.args = []

theorem readLoop_scanned {k : ℕ} (g : cf.Bounded) (hs : s.start ≤ cf.buffer.pos)
    (hk : cf.remaining < k) :
    ∃ rc cf' s', readLoop k cf s = some (rc, cf', s') ∧ Scanned cf cf' rc s' := by
  induction k generalizing cf s with
  | zero => omega
  | succ k ih =>
    have hfill := fill_filled g hs
    rw [readLoop]
    cases hf : fill cf s with
    | ret rc cf₁ s₁ =>
      rw [hf] at hfill
      cases hfill with
      | done hrem =>
        refine ⟨_, _, _, rfl, g, rfl, le_rfl, fun h => ?_, fun h => ⟨hrem, ?_⟩⟩
        · rw [endOfInput] at h
          split_ifs at h <;> simp at h
        · rw [endOfInput] at h
          split_ifs at h with hargs
          · simp only [not_or, not_not] at hargs
            exact hargs.1
      | fail g₁ hrem hfd => exact ⟨_, _, _, rfl, g₁, hfd, hrem, by simp, by simp⟩
    | more cf₁ s₁ =>
      rw [hf] at hfill
      cases hfill with
      | more g₁ hlt hrem hfd hs₁ =>
        have hpos : (cf₁.setPos (cf₁.buffer.pos + 1)).Bounded := ⟨hlt, g₁.last_le⟩
        have hrem' : (cf₁.setPos (cf₁.buffer.pos + 1)).remaining + 1 = cf.remaining := by
          rw [← hrem]
          simp only [ConfFile.remaining, ConfFile.setPos]
          omega
        have hmoves := turn_moves cf₁.buffer.mem hs₁
        dsimp only
        cases ht : turn cf₁.buffer.mem cf₁.buffer.pos s₁ with
        | ret rc s₂ =>
          rw [ht] at hmoves
          exact ⟨_, _, _, rfl, hpos, hfd, by omega, fun _ => by omega, fun h => absurd h hmoves⟩
        | next s₂ =>
          rw [ht] at hmoves
          obtain ⟨rc, cf', s', hrun, hsc⟩ := ih hpos hmoves.2 (by omega)
          refine ⟨rc, cf', s', hrun, hsc.bounded, hsc.fd.trans hfd, ?_, fun h => ?_, hsc.fileDone⟩
          · exact hsc.remaining_le.trans (by omega)
          · exact (hsc.remaining_lt h).trans (by omega)

end Lingx.Conf
