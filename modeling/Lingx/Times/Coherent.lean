import Lingx.Times

/-! The published time after an update. The slot that is looked at next has the second of
what is published, or zero; so that a `Time_update` is coherent whatever went before, and
a `Time_sigsafe_update` exactly if it finds the second that it reads. -/

namespace Lingx.Times

open Strings Library Cursor

/-- The text of a second, in local time. -/
def timeText (z : Zone) (sec : ℤ) : Bytes :=
  let tm := z.localtime sec
  printTime { tm with mon := tm.mon + 1, year := tm.year + 1900 }

variable {z : Zone} {minutes sec : ℤ} {tv tv₀ : Timeval} {ops : List Op} {s : Clock}

section Text

variable {i j : ℤ} {c : Byte}

theorem mem_decimal (h : c ∈ decimal i) : c = 45 ∨ Library.Decimal.IsDigit c := by
  rw [decimal_eq, List.mem_append] at h
  rcases h with h | h
  · split_ifs at h
    · exact .inl (List.mem_singleton.mp h)
    · cases h
  · exact .inr (Library.Decimal.isDigit_text c h)

theorem notMem_decimal (hc : c = 32 ∨ c = 0x2f) : c ∉ decimal i := fun h => by
  rcases mem_decimal h with rfl | hdigit
  · revert hc
    decide
  · rcases hc with rfl | rfl <;> revert hdigit <;> decide

/-- The number of a conversion, from the text up to the next slash. -/
theorem takeWhile_padded (i : ℤ) (s : Bytes) :
    ((padded 32 4 i ++ 0x2f :: s).takeWhile (· ≠ 0x2f)).filter (· ≠ 32) = decimal i := by
  have hslash : ∀ c ∈ padded 32 4 i, decide (c ≠ 0x2f) = true := by
    intro c hc
    rcases List.mem_append.mp hc with hc | hc
    · rw [List.eq_of_mem_replicate hc]
      rfl
    · exact decide_eq_true fun h => notMem_decimal (.inr h) hc
  have hblank : (decimal i).filter (· ≠ 32) = decimal i :=
    List.filter_eq_self.mpr fun c hc => decide_eq_true fun h => notMem_decimal (.inl h) hc
  rw [List.takeWhile_append_of_pos hslash, List.takeWhile_cons_of_neg (by decide),
    List.append_nil, padded, List.filter_append, List.filter_replicate_of_neg (by decide), hblank,
    List.nil_append]

theorem printTime_year_inj {tm tm' : Tm} (h : printTime tm = printTime tm') :
    tm.year = tm'.year := by
  have hyear (tm : Tm) :
      ((printTime tm).takeWhile (· ≠ 0x2f)).filter (· ≠ 32) = decimal tm.year := by
    simp only [printTime, List.append_assoc, List.singleton_append]
    exact takeWhile_padded tm.year _
  exact decimal_injective (by rw [← hyear tm, h, hyear tm'])

/-- The text that `Time_sigsafe_update` prints is not that of any second with the same
year. -/
theorem printTime_ne_timeText (hz : z.Ahead minutes) :
    printTime (z.gmtime (sec + minutes * 60)) ≠ timeText z sec := fun h => by
  have hyear := printTime_year_inj h
  simp only [hz sec] at hyear
  omega

end Text

/-- If the slot that is looked at has a second then it is published, with its text. -/
def Clock.Kept (z : Zone) (s : Clock) : Prop :=
  s.current.sec ≠ 0 → s.cachedTime = some s.slot ∧ s.errLogText = some (timeText z s.current.sec)

/-- The published time agrees with a reading. -/
structure Clock.Coherent (z : Zone) (tv : Timeval) (s : Clock) : Prop where
  msec : s.currentMsec = BitVec.ofInt 64 (tv.sec * 1000 + tv.usec.tdiv 1000)
  time : ∃ t, s.published = some t ∧ t.sec = tv.sec ∧ t.msec = tv.usec.tdiv 1000
  text : s.errLogText = some (timeText z tv.sec)

theorem kept_init (z : Zone) : (Clock.started {}).Kept z := fun h => absurd rfl h

theorem timeUpdate_of_eq (h : s.current.sec = tv.sec) : timeUpdate z true tv s =
    { s with
      currentMsec := BitVec.ofInt 64 tv.sec * 1000 + BitVec.ofInt 64 (tv.usec.tdiv 1000)
      cachedTimes := Function.update s.cachedTimes s.slot
        { s.current with msec := tv.usec.tdiv 1000 } } :=
  if_pos h

theorem timeUpdate_of_ne (h : s.current.sec ≠ tv.sec) : timeUpdate z true tv s =
    { slot := next TIME_SLOTS s.slot
      cachedGmtoff := (z.localtime tv.sec).gmtoff.tdiv 60
      cachedTimes := Function.update s.cachedTimes (next TIME_SLOTS s.slot)
        ⟨tv.sec, tv.usec.tdiv 1000, (z.localtime tv.sec).gmtoff.tdiv 60⟩
      cachedErrLogTimes := Function.update s.cachedErrLogTimes (next TIME_SLOTS s.slot)
        (timeText z tv.sec)
      currentMsec := BitVec.ofInt 64 tv.sec * 1000 + BitVec.ofInt 64 (tv.usec.tdiv 1000)
      cachedTime := some (next TIME_SLOTS s.slot)
      cachedErrLogTime := some (next TIME_SLOTS s.slot, (timeText z tv.sec).length) } :=
  if_neg h

theorem timeUpdate_sec (z : Zone) (tv : Timeval) (s : Clock) :
    (timeUpdate z true tv s).current.sec = tv.sec := by
  by_cases h : s.current.sec = tv.sec
  · rw [timeUpdate_of_eq h]
    simpa [Clock.current] using h
  · rw [timeUpdate_of_ne h]
    simp [Clock.current]

theorem timeSigsafeUpdate_of_eq (h : s.current.sec = tv.sec) :
    timeSigsafeUpdate z true tv s = s := if_pos h

/-- Another second: the next slot gets a text, and a zero for its second. -/
theorem timeSigsafeUpdate_of_ne (h : s.current.sec ≠ tv.sec) : timeSigsafeUpdate z true tv s =
    { s with
      slot := next TIME_SLOTS s.slot
      cachedTimes := Function.update s.cachedTimes (next TIME_SLOTS s.slot)
        { s.cachedTimes (next TIME_SLOTS s.slot) with sec := 0 }
      cachedErrLogTimes := Function.update s.cachedErrLogTimes (next TIME_SLOTS s.slot)
        (printTime (z.gmtime (tv.sec + s.cachedGmtoff * 60)))
      cachedErrLogTime := some (next TIME_SLOTS s.slot,
        (printTime (z.gmtime (tv.sec + s.cachedGmtoff * 60))).length) } :=
  if_neg h

theorem msec_eq (sec msec : ℤ) :
    BitVec.ofInt 64 sec * 1000 + BitVec.ofInt 64 msec = BitVec.ofInt 64 (sec * 1000 + msec) := by
  rw [BitVec.ofInt_add, BitVec.ofInt_mul]
  rfl

/-- A `Time_update` publishes what it reads, or finds it published. -/
theorem Clock.Kept.update_coherent (g : s.Kept z) (hpos : 1 ≤ tv.sec) :
    (timeUpdate z true tv s).Coherent z tv := by
  by_cases h : s.current.sec = tv.sec
  · obtain ⟨htime, htext⟩ := g (by omega)
    rw [timeUpdate_of_eq h]
    refine ⟨msec_eq _ _, ⟨_, congrArg _ htime, ?_⟩, by rw [← h]; exact htext⟩
    simp [h]
  · rw [timeUpdate_of_ne h]
    exact ⟨msec_eq _ _, ⟨_, rfl, by simp⟩, by simp [Clock.errLogText]⟩

theorem Clock.Kept.update (g : s.Kept z) (tv : Timeval) : (timeUpdate z true tv s).Kept z := by
  by_cases h : s.current.sec = tv.sec
  · rw [timeUpdate_of_eq h]
    intro h0
    simp only [Clock.current, Function.update_self] at h0 ⊢
    exact g h0
  · rw [timeUpdate_of_ne h]
    exact fun _ => ⟨rfl, by simp [Clock.errLogText, Clock.current]⟩

theorem Clock.Kept.sigsafe (g : s.Kept z) (tv : Timeval) :
    (timeSigsafeUpdate z true tv s).Kept z := by
  by_cases h : s.current.sec = tv.sec
  · rwa [timeSigsafeUpdate_of_eq h]
  · rw [timeSigsafeUpdate_of_ne h]
    exact fun h0 => absurd (by simp [Clock.current]) h0

theorem Clock.Kept.reset (g : s.Kept z) : s.reset.Kept z := by
  cases hp : s.cachedTime with
  | none => rwa [Clock.reset, hp]
  | some p =>
    rw [Clock.reset, hp]
    intro h0
    by_cases hslot : s.slot = p
    · exact absurd (by simp [Clock.current, Clock.setTime, hslot]) h0
    · have hcurrent : (s.setTime p { s.cachedTimes p with sec := 0 }).current = s.current :=
        Function.update_of_ne hslot ..
      rw [hcurrent] at h0 ⊢
      exact g h0

theorem Clock.Kept.run (g : s.Kept z) (op : Op) : (op.run z s).Kept z := by
  cases op with
  | update tv => exact g.update tv
  | sigsafe tv => exact g.sigsafe tv
  | reset => exact g.reset

theorem foldl_keeps {P : Clock → Prop} (hrun : ∀ s, ∀ op : Op, P s → P (op.run z s))
    (g : P s) (ops : List Op) : P (ops.foldl (Op.run z) s) := by
  induction ops generalizing s with
  | nil => exact g
  | cons op ops ih => exact ih (hrun s op g)

theorem Clock.Kept.foldl (g : s.Kept z) (ops : List Op) : (ops.foldl (Op.run z) s).Kept z :=
  foldl_keeps (P := Clock.Kept z) (fun _ op h => h.run op) g ops

theorem update_gmtoff (hz : z.Ahead minutes)
    (h : s.cachedGmtoff = minutes ∨ s.current.sec ≠ tv.sec) :
    (timeUpdate z true tv s).cachedGmtoff = minutes := by
  by_cases hsec : s.current.sec = tv.sec
  · rw [timeUpdate_of_eq hsec]
    exact h.resolve_right fun hne => hne hsec
  · rw [timeUpdate_of_ne hsec, hz]
    exact Int.mul_tdiv_cancel minutes (by decide)

theorem run_gmtoff (hz : z.Ahead minutes) (h : s.cachedGmtoff = minutes) (op : Op) :
    (op.run z s).cachedGmtoff = minutes := by
  cases op with
  | update tv => exact update_gmtoff hz (.inl h)
  | sigsafe tv =>
    by_cases hsec : s.current.sec = tv.sec
    · rwa [Op.run, timeSigsafeUpdate_of_eq hsec]
    · rwa [Op.run, timeSigsafeUpdate_of_ne hsec]
  | reset =>
    cases hp : s.cachedTime with
    | none => rwa [Op.run, Clock.reset, hp]
    | some p => rwa [Op.run, Clock.reset, hp]

theorem clockRun_gmtoff (hz : z.Ahead minutes) (h₀ : 1 ≤ tv₀.sec) (ops : List Op) :
    (clockRun z tv₀ ops).cachedGmtoff = minutes := by
  have hinit : (timeInit z true tv₀ {}).cachedGmtoff = minutes :=
    update_gmtoff hz (.inr fun h => absurd (h.trans_ge h₀) (by decide))
  exact foldl_keeps (P := fun s => s.cachedGmtoff = minutes)
    (fun _ op h => run_gmtoff hz h op) hinit ops

/-- A `Time_sigsafe_update` publishes the text of what it reads exactly if it finds that
second. -/
theorem sigsafe_text_iff (hz : z.Ahead minutes) (g : s.Kept z) (h : s.cachedGmtoff = minutes)
    (hpos : 1 ≤ tv.sec) :
    (timeSigsafeUpdate z true tv s).errLogText = some (timeText z tv.sec) ↔
      s.current.sec = tv.sec := by
  constructor
  · intro htext
    by_contra hsec
    rw [timeSigsafeUpdate_of_ne hsec, h] at htext
    have htext : printTime (z.gmtime (tv.sec + minutes * 60)) = timeText z tv.sec := by
      simpa [Clock.errLogText] using htext
    exact printTime_ne_timeText hz htext
  · intro hsec
    rw [timeSigsafeUpdate_of_eq hsec, ← hsec]
    exact (g (by omega)).2

/-- Every `Time_update` of the run, the one in `Time_init` included, is coherent. -/
def UpdatesCoherent (z : Zone) (tv₀ : Timeval) (ops : List Op) : Prop :=
  (clockRun z tv₀ []).Coherent z tv₀ ∧ ∀ done tv, done ++ [.update tv] <+: ops →
    (clockRun z tv₀ (done ++ [.update tv])).Coherent z tv

/-- Every `Time_sigsafe_update` of the run leaves the text of what it reads. -/
def SigsafesCoherent (z : Zone) (tv₀ : Timeval) (ops : List Op) : Prop :=
  ∀ done tv, done ++ [.sigsafe tv] <+: ops →
    (clockRun z tv₀ (done ++ [.sigsafe tv])).errLogText = some (timeText z tv.sec)

/-- Every `Time_sigsafe_update` of the run finds the second that it reads in the slot that
it looks at. -/
def SigsafesFind (z : Zone) (tv₀ : Timeval) (ops : List Op) : Prop :=
  ∀ done tv, done ++ [.sigsafe tv] <+: ops → (clockRun z tv₀ done).current.sec = tv.sec

/-- The cached clock is coherent after every update of a run exactly if every
`Time_sigsafe_update` finds the second that it reads; after a `Time_update` it always is. -/
theorem clock_coherent_iff (hz : z.Ahead minutes) (h₀ : 1 ≤ tv₀.sec)
    (hops : ∀ op ∈ ops, ∀ tv ∈ op.reading, 1 ≤ tv.sec) :
    UpdatesCoherent z tv₀ ops ∧
      (UpdatesCoherent z tv₀ ops ∧ SigsafesCoherent z tv₀ ops ↔ SigsafesFind z tv₀ ops) := by
  have hkept (done : List Op) : (clockRun z tv₀ done).Kept z :=
    ((kept_init z).update tv₀).foldl done
  have hread {done : List Op} {op : Op} {tv : Timeval} (hdone : done ++ [op] <+: ops)
      (htv : tv ∈ op.reading) : 1 ≤ tv.sec := hops op (hdone.subset (by simp)) tv htv
  have hlast (done : List Op) (op : Op) :
      clockRun z tv₀ (done ++ [op]) = op.run z (clockRun z tv₀ done) := by
    rw [clockRun, List.foldl_append]
    rfl
  have hupdates : UpdatesCoherent z tv₀ ops := by
    refine ⟨(kept_init z).update_coherent h₀, fun done tv hdone => ?_⟩
    rw [hlast]
    exact (hkept done).update_coherent (hread hdone rfl)
  have hsigsafe {done : List Op} {tv : Timeval} (hdone : done ++ [.sigsafe tv] <+: ops) :=
    sigsafe_text_iff hz (hkept done) (clockRun_gmtoff hz h₀ done) (hread hdone rfl)
  refine ⟨hupdates, fun h done tv hdone => ?_, fun h => ⟨hupdates, fun done tv hdone => ?_⟩⟩
  · have htext := h.2 done tv hdone
    rw [hlast] at htext
    exact (hsigsafe hdone).mp htext
  · rw [hlast]
    exact (hsigsafe hdone).mpr (h done tv hdone)

/-- The first day of 1970, as `gmtime_r` has it, at Greenwich. -/
def firstDay : Zone :=
  let gmtime (sec : ℤ) : Tm := ⟨70, 0, 1, sec / 3600, sec / 60 % 60, sec % 60, 0⟩
  ⟨gmtime, gmtime⟩

theorem firstDay_ahead : firstDay.Ahead 0 := fun sec => by simp [firstDay]

/-- A forced update, the same second again and a signal. -/
theorem clock_coherent_iff_reset :
    UpdatesCoherent firstDay ⟨1, 0⟩ [.reset, .update ⟨1, 5000⟩, .sigsafe ⟨2, 0⟩] :=
  (clock_coherent_iff firstDay_ahead (by decide) (by simp [Op.reading])).1

/-- A signal in the next second: its text has the year and the month of `struct tm`. -/
theorem clock_coherent_fails :
    (clockRun firstDay ⟨1, 0⟩ [.sigsafe ⟨2, 0⟩]).errLogText = some (ascii "  70/00/01 00:00:02") ∧
    timeText firstDay 2 = ascii "1970/01/01 00:00:02" ∧
    ¬ SigsafesCoherent firstDay ⟨1, 0⟩ [.sigsafe ⟨2, 0⟩] := by
  refine ⟨by decide, by decide, fun h => ?_⟩
  have htext := h [] ⟨2, 0⟩ (List.prefix_refl _)
  exact absurd htext (by decide)

end Lingx.Times
