import Lingx.Conf.File

/-! `File::write`. The outcomes of the `pwrite()` calls are an input, in the order of
the calls; a run that wants more of them has not returned. What the calls write is
kept as the bytes with their positions in the file, in the order they are written. -/

namespace Lingx.Conf

/-- The outcome of a `pwrite()`: a count, `EINTR` or another error. -/
inductive Pwrite where
  | wrote (n : ℕ)
  | interrupted
  | failed
  deriving DecidableEq, Repr

/-- `len` bytes of a memory from a place on, with their positions in the file. -/
def copied (buf : ℕ → Byte) (i len : ℕ) (off : ℤ) : List (ℤ × Byte) :=
  (List.range len).map fun j : ℕ => (off + j, buf (i + j))

/-- What `File::write` returns and leaves. -/
structure WriteResult where
  rc : ℤ
  file : File
  log : List (ℤ × Byte)

/-- The loop of `File::write`. -/
def File.writeLoop (buf : ℕ → Byte) : List Pwrite → File → (written len : ℕ) → (off : ℤ) →
    List (ℤ × Byte) → Option WriteResult
  | [], _, _, _, _, _ => none
  | .interrupted :: outcomes, f, written, len, off, log =>
    writeLoop buf outcomes f written len off log
  | .failed :: _, f, _, _, _, log => some ⟨-1, f, log⟩
  | .wrote n :: outcomes, f, written, len, off, log =>
    let log := log ++ copied buf written n off
    let f := { f with offset := f.offset + n }
    if n = len then some ⟨(written + n : ℕ), f, log⟩
    else writeLoop buf outcomes f (written + n) (len - n) (off + n) log

/-- `File::write`. -/
def File.write (f : File) (buf : ℕ → Byte) (len : ℕ) (off : ℤ) (outcomes : List Pwrite) :
    Option WriteResult :=
  writeLoop buf outcomes f 0 len off []

/-- The outcomes that `pwrite()` can have: a count is at most what it was called for, and
zero only if that was nothing. -/
def Outcomes : ℕ → List Pwrite → Prop
  | _, [] => True
  | len, .interrupted :: outcomes => Outcomes len outcomes
  | _, .failed :: _ => True
  | len, .wrote n :: outcomes =>
    n ≤ len ∧ (len ≠ 0 → 1 ≤ n) ∧ (n ≠ len → Outcomes (len - n) outcomes)

section Loop

variable {buf : ℕ → Byte} {f f' : File} {written len n : ℕ} {off : ℤ} {log : List (ℤ × Byte)}
  {outcomes : List Pwrite} {r : WriteResult}

@[simp] theorem copied_zero (i : ℕ) : copied buf i 0 off = [] := rfl

theorem copied_add (i m : ℕ) :
    copied buf i (m + n) off = copied buf i m off ++ copied buf (i + m) n (off + m) := by
  rw [copied, List.range_add, List.map_append, List.map_map]
  congr 1
  apply List.map_congr_left
  intro j _
  simp only [Function.comp_apply, Nat.cast_add, add_assoc]

theorem copied_nodup (i : ℕ) : ((copied buf i len off).map Prod.fst).Nodup := by
  rw [copied, List.map_map]
  refine List.nodup_range.map fun a b h => ?_
  simpa using h

/-- The state of the loop when `written` bytes of `len` are in the file. -/
structure Wrote (buf : ℕ → Byte) (f₀ : File) (len₀ : ℕ) (off₀ : ℤ) (f : File)
    (written len : ℕ) (off : ℤ) (log : List (ℤ × Byte)) : Prop where
  file : f = { f₀ with offset := f₀.offset + written }
  len : written + len = len₀
  off : off = off₀ + written
  log : log = copied buf 0 written off₀

theorem Wrote.step {f₀ : File} {len₀ : ℕ} {off₀ : ℤ}
    (h : Wrote buf f₀ len₀ off₀ f written len off log) (hn : n ≤ len) :
    Wrote buf f₀ len₀ off₀ { f with offset := f.offset + n } (written + n) (len - n) (off + n)
      (log ++ copied buf written n off) where
  file := by rw [h.file, Nat.add_assoc]
  len := by have := h.len; omega
  off := by rw [h.off, Nat.cast_add, add_assoc]
  log := by rw [h.log, copied_add, h.off, Nat.zero_add]

theorem File.writeLoop_spec {f₀ : File} {len₀ : ℕ} {off₀ : ℤ}
    (h : Wrote buf f₀ len₀ off₀ f written len off log) (ho : Outcomes len outcomes)
    (hr : writeLoop buf outcomes f written len off log = some r) :
    (r.rc = len₀ ∧ Wrote buf f₀ len₀ off₀ r.file len₀ 0 (off₀ + len₀) r.log) ∨
    (r.rc = -1 ∧ ∃ k off', Wrote buf f₀ len₀ off₀ r.file k (len₀ - k) off' r.log) := by
  induction outcomes generalizing f written len off log with
  | nil => cases hr
  | cons o outcomes ih =>
    cases o with
    | interrupted => exact ih h ho hr
    | failed =>
      cases hr
      have hl : len₀ - written = len := by have := h.len; omega
      exact .inr ⟨rfl, written, off, hl ▸ h⟩
    | wrote n =>
      obtain ⟨hn, -, hrest⟩ := ho
      have hs := h.step hn
      rw [writeLoop] at hr
      split_ifs at hr with he
      · cases hr
        subst he
        have hl : written + n = len₀ := h.len
        have ho : off + n = off₀ + len₀ := by rw [h.off, ← hl, Nat.cast_add, add_assoc]
        rw [hl, Nat.sub_self, ho] at hs
        exact .inl ⟨congrArg _ hl, hs⟩
      · exact ih hs (hrest he) hr

/-- The loop ends when there are outcomes enough, the interrupted calls not counted. -/
theorem File.writeLoop_ends (ho : Outcomes len outcomes)
    (hc : len < (outcomes.filter (· ≠ .interrupted)).length) :
    (writeLoop buf outcomes f written len off log).isSome := by
  induction outcomes generalizing f written len off log with
  | nil => simp at hc
  | cons o outcomes ih =>
    cases o with
    | interrupted => exact ih ho (by simpa using hc)
    | failed => rfl
    | wrote n =>
      obtain ⟨hn, h1, hrest⟩ := ho
      rw [writeLoop]
      split_ifs with he
      · rfl
      · have hc' : len < (outcomes.filter (· ≠ .interrupted)).length + 1 := by simpa using hc
        refine ih (hrest he) ?_
        have := h1 (by omega)
        omega

end Loop

/-- `File::write` writes everything exactly once: a value that is not negative is the
length, with every byte of the buffer at its position; on a failure a prefix of the
buffer was written that way. The offset grows by what was written. -/
theorem File.write_spec (f : File) (buf : ℕ → Byte) (len : ℕ) (off : ℤ) (outcomes : List Pwrite)
    (r : WriteResult) (ho : Outcomes len outcomes) (hr : f.write buf len off outcomes = some r) :
    (0 ≤ r.rc → r.rc = len ∧ r.log = copied buf 0 len off ∧
      r.file = { f with offset := f.offset + len }) ∧
    (r.rc < 0 → r.rc = -1 ∧ ∃ k ≤ len, r.log = copied buf 0 k off ∧
      r.file = { f with offset := f.offset + k }) ∧
    (r.log.map Prod.fst).Nodup := by
  have h : Wrote buf f len off f 0 len off [] := ⟨rfl, Nat.zero_add len, (add_zero off).symm, rfl⟩
  rcases writeLoop_spec h ho hr with ⟨hrc, hw⟩ | ⟨hrc, k, off', hw⟩
  · exact ⟨fun _ => ⟨hrc, hw.log, hw.file⟩, fun hneg => by omega, hw.log ▸ copied_nodup 0⟩
  · have hk : k ≤ len := by have := hw.len; omega
    exact ⟨fun h0 => by omega, fun _ => ⟨hrc, k, hk, hw.log, hw.file⟩, hw.log ▸ copied_nodup 0⟩

/-- Three bytes written by two calls, with an interruption between them. -/
theorem File.write_three :
    ((ConfFile.param []).file.write (fun i => [7, 8, 9].getD i 0) 3 5
      [.wrote 2, .interrupted, .wrote 1]).map (fun r => (r.rc, r.log)) =
        some (3, [(5, 7), (6, 8), (7, 9)]) ∧
    ∀ r, (ConfFile.param []).file.write (fun i => [7, 8, 9].getD i 0) 3 5
      [.wrote 2, .interrupted, .wrote 1] = some r → 0 ≤ r.rc → r.file.offset = 3 :=
  ⟨by decide, fun r hr h0 =>
    congrArg File.offset (((File.write_spec _ _ 3 5 _ r (by simp [Outcomes]) hr).1 h0).2.2)⟩

/-- `File::write` returns when it gets as many outcomes other than `EINTR` as it has bytes
to write, and one more. -/
theorem File.write_ends (f : File) (buf : ℕ → Byte) (len : ℕ) (off : ℤ) (outcomes : List Pwrite)
    (ho : Outcomes len outcomes) (hc : len < (outcomes.filter (· ≠ .interrupted)).length) :
    (f.write buf len off outcomes).isSome :=
  writeLoop_ends ho hc

end Lingx.Conf
