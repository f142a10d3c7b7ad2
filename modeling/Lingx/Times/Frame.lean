import Lingx.Times.Coherent

/-! What the signal path does to the published time. Each `Time_sigsafe_update` that finds
another second takes the next slot of the ring, and only its own; the published one is
taken when as many have been taken as it is slots away. -/

namespace Lingx.Times

open Library Cursor

/-- The slots that updates in signal handlers take, from one with the second `cur` on; a
slot that has been taken has a zero. -/
def slotsTaken (cur : ℤ) : List Timeval → ℕ
  | [] => 0
  | tv :: tvs => if cur = tv.sec then slotsTaken cur tvs else slotsTaken 0 tvs + 1

/-- Calls of `Time_sigsafe_update`. -/
def sigsafeUpdates (z : Zone) (tvs : List Timeval) (s : Clock) : Clock :=
  tvs.foldl (fun s tv => timeSigsafeUpdate z true tv s) s

/-- `Cached_time` points to the same object, with the same content. -/
def Undisturbed (s s' : Clock) : Prop :=
  s'.cachedTime = s.cachedTime ∧ s'.published = s.published

/-- The slot and the published pointer are places in the arrays. -/
structure Clock.InRing (s : Clock) : Prop where
  slot_lt : s.slot < TIME_SLOTS
  published : ∃ p < TIME_SLOTS, s.cachedTime = some p

variable {z : Zone} {tv : Timeval} {tvs : List Timeval} {s : Clock} {p : ℕ}

theorem inRing_started : (Clock.started {}).InRing := ⟨by decide, 0, by decide, rfl⟩

theorem Clock.InRing.update (g : s.InRing) (tv : Timeval) : (timeUpdate z true tv s).InRing := by
  by_cases h : s.current.sec = tv.sec
  · rw [timeUpdate_of_eq h]
    exact ⟨g.slot_lt, g.published⟩
  · rw [timeUpdate_of_ne h]
    exact ⟨next_lt g.slot_lt, _, next_lt g.slot_lt, rfl⟩

theorem Clock.InRing.sigsafe (g : s.InRing) (tv : Timeval) :
    (timeSigsafeUpdate z true tv s).InRing := by
  by_cases h : s.current.sec = tv.sec
  · rwa [timeSigsafeUpdate_of_eq h]
  · rw [timeSigsafeUpdate_of_ne h]
    exact ⟨next_lt g.slot_lt, g.published⟩

theorem Clock.InRing.reset (g : s.InRing) : s.reset.InRing := by
  obtain ⟨p, hp, hptr⟩ := g.published
  rw [Clock.reset, hptr]
  exact ⟨g.slot_lt, p, hp, hptr⟩

theorem Clock.InRing.run (g : s.InRing) (op : Op) : (op.run z s).InRing := by
  cases op with
  | update tv => exact g.update tv
  | sigsafe tv => exact g.sigsafe tv
  | reset => exact g.reset

theorem Clock.InRing.foldl (g : s.InRing) (ops : List Op) : (ops.foldl (Op.run z) s).InRing :=
  foldl_keeps (P := Clock.InRing) (fun _ op h => h.run op) g ops

theorem sigsafeUpdates_cachedTime (z : Zone) (tvs : List Timeval) (s : Clock) :
    (sigsafeUpdates z tvs s).cachedTime = s.cachedTime := by
  induction tvs generalizing s with
  | nil => rfl
  | cons tv tvs ih =>
    rw [sigsafeUpdates, List.foldl_cons]
    refine (ih _).trans ?_
    by_cases h : s.current.sec = tv.sec
    · rw [timeSigsafeUpdate_of_eq h]
    · rw [timeSigsafeUpdate_of_ne h]

/-- A slot keeps what it has until the calls have come to it; then its second is zero. -/
theorem sigsafeUpdates_cachedTimes (hslot : s.slot < TIME_SLOTS) (hp : p < TIME_SLOTS) :
    (sigsafeUpdates z tvs s).cachedTimes p =
      if slotsTaken s.current.sec tvs < distance TIME_SLOTS s.slot p then s.cachedTimes p
      else { s.cachedTimes p with sec := 0 } := by
  induction tvs generalizing s with
  | nil => rw [slotsTaken, if_pos (distance_pos hslot), sigsafeUpdates, List.foldl_nil]
  | cons tv tvs ih =>
    rw [sigsafeUpdates, List.foldl_cons, slotsTaken]
    by_cases h : s.current.sec = tv.sec
    · rw [timeSigsafeUpdate_of_eq h, if_pos h]
      exact ih hslot
    · rw [timeSigsafeUpdate_of_ne h, if_neg h]
      refine (ih (next_lt hslot)).trans ?_
      simp only [Clock.current, Function.update_self]
      by_cases hnext : next TIME_SLOTS s.slot = p
      · have hreached : ¬ slotsTaken 0 tvs + 1 < 1 := by omega
        rw [(next_eq_iff hslot hp).mp hnext, hnext, Function.update_self, if_neg hreached]
        split_ifs <;> rfl
      · have hdist := distance_next hslot hp hnext
        rw [Function.update_of_ne (Ne.symm hnext), ← hdist]
        simp only [Nat.add_lt_add_iff_right]

/-- The calls leave the published time alone until they have come round to it. -/
theorem undisturbed_iff (g : s.InRing) : Undisturbed s (sigsafeUpdates z tvs s) ↔
    ∀ p ∈ s.cachedTime, (s.cachedTimes p).sec = 0 ∨
      slotsTaken s.current.sec tvs < distance TIME_SLOTS s.slot p := by
  obtain ⟨p, hp, hptr⟩ := g.published
  rw [Undisturbed, Clock.published, Clock.published, sigsafeUpdates_cachedTime, hptr]
  simp only [Option.map_some, Option.some.injEq, true_and, Option.mem_def, forall_eq']
  rw [sigsafeUpdates_cachedTimes g.slot_lt hp]
  split_ifs with hfar
  · simp [hfar]
  · simp only [hfar, or_false]
    constructor
    · intro h
      rw [← h]
    · intro h
      rw [← h]

/-- Behind a `Time_update`, after any calls before it (the first one is that of
`Time_init`), the calls of `Time_sigsafe_update` leave the published time alone exactly if
its second is zero or they take fewer slots than it is away; it is a full turn away if the
second that was read is not zero. -/
theorem sigsafeUpdates_undisturbed_iff (z : Zone) (ops : List Op) (tv : Timeval)
    (tvs : List Timeval) :
    let s := timeUpdate z true tv (ops.foldl (Op.run z) (Clock.started {}))
    (Undisturbed s (sigsafeUpdates z tvs s) ↔ ∀ p ∈ s.cachedTime, (s.cachedTimes p).sec = 0 ∨
      slotsTaken s.current.sec tvs < distance TIME_SLOTS s.slot p) ∧
    (tv.sec ≠ 0 →
      (Undisturbed s (sigsafeUpdates z tvs s) ↔ slotsTaken tv.sec tvs < TIME_SLOTS)) := by
  intro s
  have g : s.InRing := (inRing_started.foldl ops).update tv
  have hkept : s.Kept z := ((kept_init z).foldl ops).update tv
  refine ⟨undisturbed_iff g, fun hsec => ?_⟩
  have hcurrent : s.current.sec = tv.sec := timeUpdate_sec z tv _
  obtain ⟨hptr, -⟩ := hkept (hcurrent ▸ hsec)
  have hpublished : (s.cachedTimes s.slot).sec = tv.sec := hcurrent
  rw [undisturbed_iff g, hptr]
  simp [hcurrent, hpublished, hsec]

/-- The signals of a second, 64 of them, behind a `Time_update` in the one before. -/
theorem sigsafeUpdates_disturb :
    let s := clockRun firstDay ⟨1, 0⟩ []
    let s' := sigsafeUpdates firstDay (List.replicate 64 ⟨2, 0⟩) s
    s.published = some ⟨1, 0, 0⟩ ∧ s'.published = some ⟨0, 0, 0⟩ ∧ ¬ Undisturbed s s' := by
  intro s s'
  have hbefore : s.published = some ⟨1, 0, 0⟩ := rfl
  have hptr : s.cachedTime = some 1 := rfl
  have htaken : slotsTaken s.current.sec (List.replicate 64 ⟨2, 0⟩) = 64 := rfl
  have hdist : distance TIME_SLOTS s.slot 1 = 64 := rfl
  have hafter : s'.published = some ⟨0, 0, 0⟩ := by
    rw [Clock.published, sigsafeUpdates_cachedTime, hptr, Option.map_some,
      sigsafeUpdates_cachedTimes (by decide) (by decide), htaken, hdist, if_neg (lt_irrefl 64)]
    rfl
  refine ⟨hbefore, hafter, fun h => ?_⟩
  rw [Undisturbed, hbefore, hafter] at h
  exact absurd h.2 (by decide)

end Lingx.Times
