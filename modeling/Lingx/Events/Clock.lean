import Lingx.Events.PollProcess
import Lingx.Library.ClockWord

/-! The readers of a timer's key. `Event_find_timer` takes the signed difference of
the key and `Current_msec`, `Event_expire_timers` compares the two as unsigned
numbers, and `Poll_process_events_` passes what the first returns to `poll` as an
int. They agree as long as no value passes through a limit of its type. -/

namespace Lingx.Events

open Library ClockWord

variable {E C : Type} {w : ℕ}

/-- `(int) timer`, the timeout `Poll_process_events_` passes to `poll`. -/
def pollTimeout (timer : Msec w) : ℤ := (timer.setWidth 32).toInt

def loneTimer (key now : Msec 64) : World Unit Unit 64 :=
  { (World.zero () : World Unit Unit 64) with
    event _ := ⟨(), false, false, false, false, true, false, INVALID_INDEX, key⟩
    timerRbtree := [()]
    currentMsec := now }

section Wrap
variable [DecidableEq E] {handler : E → World E C w → World E C w} {n armed delay now : ℕ}
  {s : World E C w} {ev : E}

/-- A timer armed at one instant and looked at at another; its delay and the time it
is overdue by are below half the range of `msec_t`. -/
structure Timely (w armed delay now : ℕ) : Prop where
  armed_le : armed ≤ now
  delay_lt : delay < 2 ^ (w - 1)
  overdue_lt : now < armed + delay + 2 ^ (w - 1)

/-- `Event_find_timer` and `Event_expire_timers` at one `Current_msec` agree on the
timer `ev`. -/
structure KeyUsersAgree (handler : E → World E C w → World E C w) (n : ℕ) (s : World E C w)
    (ev : E) : Prop where
  zero_iff_fires : eventFindTimer s = 0 ↔ ev ∈ firedTimers handler n s
  time_left : eventFindTimer s ≠ 0 → eventFindTimer s = s.timerKey ev - s.currentMsec

theorem Timely.near (h : Timely w armed delay now) : Near w (armed + delay) now := by
  obtain ⟨ha, hd, ho⟩ := h
  cases w with
  | zero => simp only [Near, Nat.zero_sub, pow_zero] at *; omega
  | succ w => simp only [Near, Nat.add_sub_cancel, pow_succ] at *; omega

theorem mem_firedTimers_iff (ht : s.timerRbtree = [ev]) (hn : n ≠ 0) :
    ev ∈ firedTimers handler n s ↔ s.timerKey ev ≤ s.currentMsec := by
  obtain ⟨m, rfl⟩ := Nat.exists_eq_succ_of_ne_zero hn
  by_cases hk : s.currentMsec < s.timerKey ev
  · have hk' : ¬ s.timerKey ev ≤ s.currentMsec := BitVec.not_le.mpr hk
    simp [firedTimers, expireTimersTurn, ht, hk, hk']
  · have hk' : s.timerKey ev ≤ s.currentMsec := BitVec.not_lt.mp hk
    simp [firedTimers, expireTimersTurn, ht, hk, hk']

omit [DecidableEq E] in
theorem eventFindTimer_near {tree : List E} {due : ℕ} (h : Near w due now)
    (ht : s.timerRbtree = ev :: tree) (hk : s.timerKey ev = reading w due)
    (hc : s.currentMsec = reading w now) : eventFindTimer s =
      if now < due then s.timerKey ev - s.currentMsec else 0 := by
  have hd := h.toInt_sub
  rw [← hk, ← hc] at hd
  simp only [eventFindTimer, ht, hd]
  exact if_congr (by omega) rfl rfl

/-- The two agree if and only if the instant the timer is due at and that of
`Current_msec` lie in one lap of the clock. -/
theorem keyUsersAgree_iff (h : Timely w armed delay now) (ht : s.timerRbtree = [ev])
    (hk : s.timerKey ev = reading w armed + reading w delay) (hc : s.currentMsec = reading w now)
    (hn : n ≠ 0) : KeyUsersAgree handler n s ev ↔ lap w (armed + delay) = lap w now := by
  rw [← reading_add] at hk
  have hnear := h.near
  have hfind := eventFindTimer_near hnear ht hk hc
  have hfire : ev ∈ firedTimers handler n s ↔ reading w (armed + delay) ≤ reading w now := by
    rw [mem_firedTimers_iff ht hn, hk, hc]
  have hzero : eventFindTimer s = 0 ↔ armed + delay ≤ now := by
    rw [hfind]
    split_ifs with hlt
    · refine iff_of_false (fun h0 => ?_) (by omega)
      have hd := hnear.toInt_sub
      rw [← hk, ← hc, h0] at hd
      have hz : (0 : BitVec w).toInt = 0 := BitVec.toInt_zero
      omega
    · exact iff_of_true rfl (by omega)
  rw [← hnear.reading_le_iff_le_iff]
  constructor
  · rintro ⟨hagree, -⟩
    rw [← hfire, ← hagree, hzero]
  · intro hle
    refine ⟨by rw [hzero, hfire, hle], fun hne => ?_⟩
    rw [hfind] at hne ⊢
    exact if_pos (by_contra fun hlt => hne (if_neg hlt))

/-- A timer armed for five milliseconds, three before its time. -/
theorem keyUsersAgree_iff_early : KeyUsersAgree (fun _ s => s) 1 (loneTimer 15 12) () ↔
    lap 64 15 = lap 64 12 :=
  keyUsersAgree_iff (show Timely 64 10 5 12 from ⟨by omega, by omega, by omega⟩) rfl
    (by decide) (by decide) one_ne_zero

/-- In the last millisecond before the clock wraps a timer armed for two more is fired
at once. -/
theorem keyUsersAgree_fails : ¬ ∀ (handler : Unit → World Unit Unit 64 → World Unit Unit 64)
    (n armed delay now : ℕ) (s : World Unit Unit 64), Timely 64 armed delay now →
    s.timerRbtree = [()] → s.timerKey () = reading 64 armed + reading 64 delay →
    s.currentMsec = reading 64 now → n ≠ 0 → KeyUsersAgree handler n s () := by
  intro h
  have hz := (h (fun _ s => s) 1 (2 ^ 64 - 1) 2 (2 ^ 64 - 1) (loneTimer 1 (BitVec.allOnes 64))
    ⟨by omega, by omega, by omega⟩ rfl (by decide) (by decide) one_ne_zero).zero_iff_fires
  revert hz
  decide

end Wrap

section Timeout
variable {s : World E C 64} {ev : E} {tree : List E}

def World.remaining (s : World E C w) (ev : E) : ℕ :=
  (s.timerKey ev).toNat - s.currentMsec.toNat

/-- A timeout with which `poll` does not outlast the earliest timer and returns at once
only for a timer that is due. -/
structure TimeoutFits (s : World E C w) (timeout : ℤ) : Prop where
  forever : timeout < 0 ↔ s.timerRbtree = []
  le_remaining : ∀ ev ∈ s.timerRbtree, timeout ≤ s.remaining ev
  due : timeout = 0 → ∃ ev ∈ s.timerRbtree, s.timerKey ev ≤ s.currentMsec

/-- The distance between the earliest key and `Current_msec` passes unchanged through
`signed_msec_t`, and the low half of it through `int`. -/
def TimeoutRange (key now : ℕ) : Prop :=
  key ≤ now ∧ (now - key ≤ 2 ^ 63 ∨ 2 ^ 32 ∣ now - key) ∨
    now < key ∧ key - now < 2 ^ 63 ∧ 0 < (key - now) % 2 ^ 32 ∧ (key - now) % 2 ^ 32 < 2 ^ 31

theorem pollTimeout_infinite : pollTimeout (TIMER_INFINITE : Msec 64) = -1 := by decide

theorem pollTimeout_eq (timer : Msec 64) : pollTimeout timer =
    if timer.toNat % 2 ^ 32 < 2 ^ 31 then ((timer.toNat % 2 ^ 32 : ℕ) : ℤ)
    else (timer.toNat % 2 ^ 32 : ℕ) - 2 ^ 32 := by
  rw [pollTimeout, BitVec.toInt_eq_toNat_cond, BitVec.toNat_setWidth]
  split_ifs <;> first | rfl | omega

theorem eventFindTimer_toNat (ht : s.timerRbtree = ev :: tree) : (eventFindTimer s).toNat =
    let timer := (2 ^ 64 - s.currentMsec.toNat + (s.timerKey ev).toNat) % 2 ^ 64
    if timer < 2 ^ 63 then timer else 0 := by
  have hd : (s.timerKey ev - s.currentMsec).toNat =
      (2 ^ 64 - s.currentMsec.toNat + (s.timerKey ev).toNat) % 2 ^ 64 := BitVec.toNat_sub _ _
  simp only [eventFindTimer, ht, ← hd, BitVec.toInt_eq_toNat_cond]
  split_ifs <;> first | rfl | (simp; omega)

theorem timeoutFits_cons {t : ℤ} (ho : s.TimersOrdered) (ht : s.timerRbtree = ev :: tree) :
    TimeoutFits s t ↔
      0 ≤ t ∧ t ≤ s.remaining ev ∧ (t = 0 → s.timerKey ev ≤ s.currentMsec) := by
  have hhead : ∀ e ∈ tree, s.timerKey ev < s.timerKey e := by
    rw [World.TimersOrdered, ht] at ho
    exact (List.pairwise_cons.mp ho).1
  constructor
  · rintro ⟨hf, hle, hd⟩
    refine ⟨?_, hle ev (by simp [ht]), fun h0 => ?_⟩
    · rw [ht] at hf
      exact not_lt.mp fun hlt => by simpa using hf.mp hlt
    · obtain ⟨e, he, hk⟩ := hd h0
      rw [ht] at he
      rcases List.mem_cons.mp he with rfl | he
      · exact hk
      · exact BitVec.le_trans (BitVec.le_of_lt (hhead e he)) hk
  · rintro ⟨h0, hle, hd⟩
    refine ⟨⟨fun hlt => absurd hlt (by omega), fun hnil => by simp [ht] at hnil⟩, fun e he => ?_,
      fun h => ⟨ev, by simp [ht], hd h⟩⟩
    rw [ht] at he
    rcases List.mem_cons.mp he with rfl | he
    · exact hle
    · have hlt := BitVec.lt_def.mp (hhead e he)
      simp only [World.remaining] at hle ⊢
      omega

/-- The timeout fits the earliest of the timers if and only if it passes the types of
`Event_find_timer` and `poll` unchanged. -/
theorem timeoutFits_iff (ho : s.TimersOrdered) :
    TimeoutFits s (pollTimeout (eventFindTimer s)) ↔
      ∀ ev ∈ s.timerRbtree.head?, TimeoutRange (s.timerKey ev).toNat s.currentMsec.toNat := by
  cases ht : s.timerRbtree with
  | nil =>
    have hinf : eventFindTimer s = TIMER_INFINITE := by simp [eventFindTimer, ht]
    rw [hinf, pollTimeout_infinite]
    refine iff_of_true ⟨by simp [ht], by simp [ht], by simp⟩ (by simp)
  | cons ev tree =>
    have hk := (s.timerKey ev).isLt
    have hc := s.currentMsec.isLt
    have hfind := eventFindTimer_toNat ht
    rw [timeoutFits_cons ho ht, pollTimeout_eq, hfind, BitVec.le_def, World.remaining]
    simp only [List.head?_cons, Option.mem_def, Option.some.injEq, forall_eq', TimeoutRange]
    generalize (s.timerKey ev).toNat = key at *
    generalize s.currentMsec.toNat = now at *
    clear hfind ht ho
    split_ifs <;> omega

theorem timeoutFits_iff_soon : TimeoutFits (loneTimer 15 10) (pollTimeout
      (eventFindTimer (loneTimer 15 10))) ↔
    ∀ ev ∈ (loneTimer 15 10).timerRbtree.head?,
      TimeoutRange ((loneTimer 15 10).timerKey ev).toNat (loneTimer 15 10).currentMsec.toNat :=
  timeoutFits_iff (List.pairwise_singleton _ _)

/-- For a timer 2 ^ 31 milliseconds away `poll` waits for ever. -/
theorem timeoutFits_fails : ¬ ∀ s : World Unit Unit 64, s.TimersOrdered →
    TimeoutFits s (pollTimeout (eventFindTimer s)) := by
  intro h
  have hf := (h (loneTimer (2 ^ 31) 0) (List.pairwise_singleton _ _)).forever
  revert hf
  decide

end Timeout

end Lingx.Events
