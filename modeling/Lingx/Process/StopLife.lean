import Lingx.Process.StopPids

/-! When a process stops. An instance leaves its loop exactly if a signal has been handled,
and only signals that somebody has sent are; a signal that has been sent stays until it is
handled, the loop turns at most once more, and the pid file goes with the last instance. -/

namespace Lingx.Process

open Conf Strings Library.Decimal Library.Machine

namespace Instance

variable {pid : Int32} {master : Bool} {a : Act} {fs fs' : Fs} {x x' : Instance} {signo : ℤ}

theorem any_signalHandler (t : ProcessType) (signo : ℤ) {flags : StopFlags} (h : flags.any) :
    (signalHandler t signo flags).1.any := by
  cases t with
  | master | single =>
    rw [StopFlags.any, Bool.or_eq_true] at h
    simp only [signalHandler]
    split_ifs <;> simp [StopFlags.any, h]
  | signaller | worker | helper => exact h

theorem any_of_mem_signals {flags : StopFlags} (hsigno : signo ∈ signals.map (·.signo)) :
    (signalHandler (processType master) signo flags).1.any := by
  have hor : signo = SIGQUIT ∨ signo = SIGTERM ∨ signo = SIGINT := by
    rw [signals] at hsigno
    simpa [or_left_comm] using hsigno
  cases master with
  | true | false =>
    simp only [processType, signalHandler]
    rcases hor with h | h
    · simp [h, StopFlags.any]
    · split_ifs <;> simp [StopFlags.any]

/-- The instance has left its loop, or has been ended. -/
def HasLeft (x : Instance) : Prop :=
  x.phase = .deleted ∨ x.phase = .ended 0 ∨ x.phase = .killed

theorem flags_deliver (t : ProcessType) : (x.deliver t signo).flags =
    if x.phase = .starting then x.flags else (signalHandler t signo x.flags).1 := by
  rw [deliver]
  split_ifs <;> rfl

theorem pending_deliver (t : ProcessType) :
    (x.deliver t signo).pending = Function.update x.pending signo false := by
  rw [deliver]
  split_ifs <;> rfl

namespace Steps

theorem pending_of (h : x.Steps pid master a fs fs' x') (hp : x'.pending signo) :
    x.pending signo := by
  cases h with
  | deliver signo' _ _ =>
    rw [pending_deliver] at hp
    by_cases hs : signo = signo'
    · simp [hs] at hp
    · simpa [hs] using hp
  | _ => exact hp

theorem flags_of (h : x.Steps pid master a fs fs' x') (hf : x'.flags.any) :
    x.flags.any ∨ ∃ signo, a = .deliver signo ∧ x.pending signo := by
  cases h with
  | deliver signo' _ hp => exact .inr ⟨signo', rfl, hp⟩
  | _ => exact .inl hf

theorem flags_mono (h : x.Steps pid master a fs fs' x') (hf : x.flags.any) : x'.flags.any := by
  cases h with
  | deliver signo' _ _ =>
    rw [flags_deliver]
    split_ifs
    · exact hf
    · exact any_signalHandler _ _ hf
  | _ => exact hf

theorem deleted_of (h : x.Steps pid master a fs fs' x') (hd : x'.phase = .deleted) :
    x.phase = .deleted ∨ x.flags.any ∧ ∃ ok, a = .iterate ok ∧ fs' = fs.unlink ok := by
  cases h with
  | delete ok _ hflags => exact .inr ⟨hflags, ok, rfl, rfl⟩
  | deliver _ _ _ => exact .inl ((phase_deliver_eq (by simp)).mp hd)
  | initSignals ok _ => cases ok <;> cases hd
  | redirect ok _ => cases ok <;> cases hd
  | initProcess ok _ => cases master <;> cases ok <;> cases hd
  | wrote _ _ _ =>
    simp only at hd
    split_ifs at hd
  | interrupted _ => exact .inl hd
  | iterate _ _ _ => exact .inl hd
  | _ => cases hd

/-- A process that returns 0 is a master, or has deleted the pid file. -/
theorem exit_of (h : x.Steps pid master a fs fs' x') (hd : x'.phase = .ended 0) :
    master ∨ x.phase = .deleted := by
  cases h with
  | exit hx => exact .inr hx
  | deliver _ hlive _ =>
    rw [isLive, (phase_deliver_eq (by simp)).mp hd] at hlive
    cases hlive
  | initSignals ok _ => cases ok <;> cases hd
  | redirect ok _ => cases ok <;> cases hd
  | initProcess ok _ =>
    cases master with
    | true => exact .inl rfl
    | false => cases ok <;> cases hd
  | wrote _ _ _ =>
    simp only at hd
    split_ifs at hd
  | interrupted hw => cases hw.symm.trans hd
  | iterate _ hcycle _ => cases hcycle.symm.trans hd
  | _ => cases hd

theorem leaves (h : x.Steps pid master a fs fs' x') (hf : x.flags.any) :
    ((∃ ok, a = .iterate ok) ∧ ¬ x.HasLeft ∧ x'.HasLeft) ∨
      (∀ ok, a ≠ .iterate ok) ∧ (x.HasLeft → x'.HasLeft) := by
  have hnot {ph : Phase} (hx : x.phase = ph) (h : ph ≠ .deleted ∧ ph ≠ .ended 0 ∧ ph ≠ .killed) :
      ¬ x.HasLeft := by
    rw [HasLeft, hx]
    exact not_or.mpr ⟨h.1, not_or.mpr h.2⟩
  cases h with
  | iterate _ _ hflags => simp [hf] at hflags
  | delete ok hx _ => exact .inl ⟨⟨ok, rfl⟩, hnot hx (by simp), .inl rfl⟩
  | exit _ => exact .inr ⟨nofun, fun _ => .inr (.inl rfl)⟩
  | crash _ => exact .inr ⟨nofun, fun _ => .inr (.inr rfl)⟩
  | deliver _ _ _ =>
    refine .inr ⟨nofun, fun hleft => ?_⟩
    rw [HasLeft, phase_deliver]
    split_ifs
    · exact .inr (.inr rfl)
    · exact hleft
  | interrupted _ => exact .inr ⟨nofun, id⟩
  | initSignals _ hx => exact .inr ⟨nofun, fun h => absurd h (hnot hx (by simp))⟩
  | openFailed hx => exact .inr ⟨nofun, fun h => absurd h (hnot hx (by simp))⟩
  | openPid hx => exact .inr ⟨nofun, fun h => absurd h (hnot hx (by simp))⟩
  | writeFailed hx => exact .inr ⟨nofun, fun h => absurd h (hnot hx (by simp))⟩
  | wrote hx _ _ => exact .inr ⟨nofun, fun h => absurd h (hnot hx (by simp))⟩
  | redirect _ hx => exact .inr ⟨nofun, fun h => absurd h (hnot hx (by simp))⟩
  | initProcess _ hx => exact .inr ⟨nofun, fun h => absurd h (hnot hx (by simp))⟩

theorem ne_starting (h : x.Steps pid master a fs fs' x') (hx : x.phase ≠ .starting) :
    x'.phase ≠ .starting := by
  cases h with
  | initSignals ok hx' => exact absurd hx' hx
  | redirect ok _ => cases ok <;> nofun
  | initProcess ok _ => cases master <;> cases ok <;> nofun
  | wrote _ _ _ =>
    simp only
    split_ifs <;> nofun
  | deliver _ _ _ =>
    rw [phase_deliver, if_neg hx]
    exact hx
  | interrupted _ => exact hx
  | iterate _ _ _ => exact hx
  | _ => nofun

theorem delivered (h : x.Steps pid master (.deliver signo) fs fs' x') (hx : x.phase ≠ .starting)
    (hsigno : signo ∈ signals.map (·.signo)) : x'.flags.any := by
  cases h with
  | deliver _ _ _ =>
    rw [flags_deliver, if_neg hx]
    exact any_of_mem_signals hsigno

theorem kept (h : x.Steps pid master a fs fs' x') (hp : x.pending signo)
    (ha : a ≠ .deliver signo) : x'.pending signo := by
  cases h with
  | deliver signo' _ _ =>
    have hs : signo ≠ signo' := by
      rintro rfl
      exact ha rfl
    rw [pending_deliver, Function.update_of_ne hs]
    exact hp
  | _ => exact hp

/-- A turn of the loop with a flag set calls `unlink()` on the pid file. -/
theorem unlinks {ok : Bool} (h : x.Steps pid master (.iterate ok) fs fs' x') (hf : x.flags.any) :
    x'.phase = .deleted ∧ fs' = fs.unlink ok := by
  cases h with
  | iterate _ _ hflags => simp [hf] at hflags
  | delete _ _ _ => exact ⟨rfl, rfl⟩

end Steps

end Instance

namespace System

variable {ι κ : Type} [Fintype ι] [DecidableEq ι] [DecidableEq κ] {p : Parties ι κ}
  {c₀ : Option Bytes} {l l' : List (Action ι κ)} {a : Action ι κ} {s s' : System ι κ} {i : ι}
  {j : κ} {signo : ℤ}

/-- The signal has been sent to the instance, by a signal process or from elsewhere. -/
def Sent (p : Parties ι κ) (l : List (Action ι κ)) (s : System ι κ) (i : ι) (signo : ℤ) : Prop :=
  .send i signo ∈ l ∨ ∃ j r, s.sig j = .ended r ∧ ((p.pid i).toInt, signo) ∈ r.kills

/-- The signal is one that has a handler, has been sent and has been delivered. -/
def Stopped (p : Parties ι κ) (l : List (Action ι κ)) (s : System ι κ) (i : ι) : Prop :=
  ∃ signo ∈ signals.map (·.signo), .inst i (.deliver signo) ∈ l ∧ Sent p l s i signo

/-- What holds behind each step of a run. -/
structure Life (p : Parties ι κ) (l : List (Action ι κ)) (s : System ι κ) : Prop where
  pending : ∀ i signo, (s.inst i).pending signo →
    signo ∈ signals.map (·.signo) ∧ Sent p l s i signo
  flags : ∀ i, (s.inst i).flags.any → Stopped p l s i
  deleted : ∀ i, (s.inst i).phase = .deleted → (s.inst i).flags.any
  exit : ∀ i, (s.inst i).phase = .ended 0 → p.master i ∨ (s.inst i).flags.any
  knows : Knows (fun _ => True) (fun _ k => k.2 ∈ signals.map (·.signo)) s

theorem ended_step {r : Signalled} (hj : s.sig j = .ended r) (h : step p a s = some s') :
    s'.sig j = .ended r := by
  rcases step_cases h with ⟨i, a', fs, x, rfl, -, rfl⟩ | ⟨j', a', rfl, hsteps⟩ |
    ⟨i, signo, rfl, -, -, rfl⟩ | ⟨rfl, rfl⟩
  · exact hj
  · by_cases hne : j = j'
    · subst hne
      cases hsteps with
      | openRead hidle _ => cases hj.symm.trans hidle
      | openFailed hidle _ => cases hj.symm.trans hidle
      | pread hopened => cases hj.symm.trans hopened
      | readFailed hopened => cases hj.symm.trans hopened
      | kill _ hread _ => cases hj.symm.trans hread
    · rw [hsteps.sig_of_ne hne, hj]
  · exact hj
  · exact hj

omit [Fintype ι] [DecidableEq ι] [DecidableEq κ] in
theorem Sent.mono (h : Sent p l s i signo) (hl : l ⊆ l')
    (hsig : ∀ j r, s.sig j = .ended r → s'.sig j = .ended r) : Sent p l' s' i signo :=
  h.imp (@hl _) fun ⟨j, r, hj, hk⟩ => ⟨j, r, hsig j r hj, hk⟩

omit [Fintype ι] [DecidableEq ι] [DecidableEq κ] in
theorem Stopped.mono (h : Stopped p l s i) (hl : l ⊆ l')
    (hsig : ∀ j r, s.sig j = .ended r → s'.sig j = .ended r) : Stopped p l' s' i := by
  obtain ⟨signo, hsigno, hdeliver, hsent⟩ := h
  exact ⟨signo, hsigno, hl hdeliver, hsent.mono hl hsig⟩

omit [Fintype ι] [DecidableEq ι] [DecidableEq κ] in
theorem Life.mono (h : Life p l s) (hl : l ⊆ l') : Life p l' s where
  pending i signo hp := (h.pending i signo hp).imp_right fun hs => hs.mono hl fun _ _ => id
  flags i hf := (h.flags i hf).mono hl fun _ _ => id
  deleted := h.deleted
  exit := h.exit
  knows := h.knows

omit [Fintype ι] [DecidableEq κ] in
theorem Life.setInst {fs : Fs} {x : Instance} (h : Life p l s)
    (hpending : ∀ signo, x.pending signo → signo ∈ signals.map (·.signo) ∧ Sent p l s i signo)
    (hflags : x.flags.any → Stopped p l s i) (hdeleted : x.phase = .deleted → x.flags.any)
    (hexit : x.phase = .ended 0 → p.master i ∨ x.flags.any) :
    Life p l ({ s with fs := fs }.setInst i x) := by
  have hother {k : ι} (hne : k ≠ i) : ({ s with fs := fs }.setInst i x).inst k = s.inst k :=
    setInst_inst_of_ne hne x
  refine ⟨fun k => ?_, fun k => ?_, fun k => ?_, fun k => ?_,
    h.knows.of_sig_eq rfl fun _ => trivial⟩
  all_goals by_cases hk : k = i
  · subst hk
    rw [setInst_inst_self]
    exact hpending
  · rw [hother hk]
    exact h.pending k
  · subst hk
    rw [setInst_inst_self]
    exact hflags
  · rw [hother hk]
    exact h.flags k
  · subst hk
    rw [setInst_inst_self]
    exact hdeleted
  · rw [hother hk]
    exact h.deleted k
  · subst hk
    rw [setInst_inst_self]
    exact hexit
  · rw [hother hk]
    exact h.exit k

omit [DecidableEq ι] in
/-- The signals that a signal process makes pending are those of its calls of `kill()`. -/
theorem SigSteps.pending_of {a : Signaller.Act} (h : s.SigSteps p j a s')
    (hp : (s'.inst i).pending signo) : (s.inst i).pending signo ∨
      ∃ r, s'.sig j = .ended r ∧ ((p.pid i).toInt, signo) ∈ r.kills := by
  cases h with
  | kill others hj hr =>
    rename_i r
    have hor : (s.inst i).pending signo = true ∨
        ((s.inst i).isLive = true ∧ ((p.pid i).toInt, signo) ∈ r.kills) := by
      simpa [setSig, receive] using hp
    exact hor.imp_right fun h => ⟨_, setSig_sig_self _, h.2⟩
  | _ => exact .inl hp

omit [Fintype ι] [DecidableEq ι] [DecidableEq κ] in
theorem life_init : Life p [] (init c₀) where
  pending _ _ h := nomatch h
  flags _ h := nomatch h
  deleted _ h := nomatch h
  exit _ h := nomatch h
  knows := knows_init fun _ => trivial

theorem life_step (hs : Life p l s) (h : step p a s = some s') : Life p (l ++ [a]) s' := by
  have hl : l ⊆ l ++ [a] := List.subset_append_left l [a]
  have ha : a ∈ l ++ [a] := List.mem_append_right l List.mem_cons_self
  have hlife : Life p (l ++ [a]) s := hs.mono hl
  rcases step_cases h with ⟨i, a', fs, x, rfl, hsteps, rfl⟩ | ⟨j, a', rfl, hsteps⟩ |
    ⟨i, signo, rfl, hlive, hsigno, rfl⟩ | ⟨rfl, rfl⟩
  · refine hlife.setInst (fun signo hp => ?_) (fun hf => ?_) (fun hd => ?_) fun hd => ?_
    · exact hlife.pending i signo (hsteps.pending_of hp)
    · rcases hsteps.flags_of hf with hf | ⟨signo, rfl, hp⟩
      · exact hlife.flags i hf
      · obtain ⟨hsigno, hsent⟩ := hlife.pending i signo hp
        exact ⟨signo, hsigno, ha, hsent⟩
    · exact hsteps.flags_mono ((hsteps.deleted_of hd).elim (hs.deleted i) And.left)
    · exact (hsteps.exit_of hd).imp_right fun hd => hsteps.flags_mono (hs.deleted i hd)
  · have hsig : ∀ j r, s.sig j = .ended r → s'.sig j = .ended r :=
      fun j r hr => ended_step hr h
    have hknows : Knows (fun _ => True) (fun _ k => k.2 ∈ signals.map (·.signo)) s' := by
      refine hs.knows.sigSteps hsteps fun c kill _ k hk => ?_
      obtain ⟨-, -, sig, hmem, -, hsigno⟩ := signalProcess_kills k hk
      exact hsigno ▸ List.mem_map_of_mem hmem
    refine ⟨fun i signo hp => ?_, fun i hf => ?_, fun i => ?_, fun i => ?_, hknows⟩
    · rcases hsteps.pending_of hp with hp | ⟨r, hr, hk⟩
      · exact (hlife.pending i signo hp).imp_right fun hsent => hsent.mono (fun _ => id) hsig
      · exact ⟨hknows.kills j r hr _ hk, .inr ⟨j, r, hr, hk⟩⟩
    · rw [hsteps.flags_eq] at hf
      exact (hlife.flags i hf).mono (fun _ => id) hsig
    · rw [hsteps.phase_eq, hsteps.flags_eq]
      exact hs.deleted i
    · rw [hsteps.phase_eq, hsteps.flags_eq]
      exact hs.exit i
  · refine hlife.setInst (fun signo' hp => ?_) (hlife.flags i) (hs.deleted i) (hs.exit i)
    by_cases hsame : signo' = signo
    · subst hsame
      exact ⟨hsigno, .inl ha⟩
    · exact hlife.pending i signo' (by simpa [hsame] using hp)
  · exact ⟨hlife.pending, hlife.flags, hs.deleted, hs.exit, hs.knows.of_sig_eq rfl fun _ => trivial⟩

/-- In every run an instance that is not a master deletes the pid file, and returns 0, only
behind a signal of `Signals_` that has been delivered to it, and that somebody has sent: a
signal process with its pid, or one from elsewhere. -/
theorem exit_stopped (h : run (step p) l (init c₀) = some s)
    (hexit : (s.inst i).phase = .deleted ∨ (s.inst i).phase = .ended 0 ∧ p.master i = false) :
    Stopped p l s i := by
  have hlife : Life p l s := run_history (fun l a s s' hs ha => life_step hs ha) h life_init
  refine hlife.flags i ?_
  rcases hexit with hd | ⟨hd, hmaster⟩
  · exact hlife.deleted i hd
  · exact (hlife.exit i hd).resolve_left (by simp [hmaster])

section Effect

/-- A turn of the loop of an instance. -/
def isIterate (i : ι) : Action ι κ → Bool
  | .inst i' (.iterate _) => i' = i
  | _ => false

/-- In a run whose first state has a flag set. -/
structure Leaving (i : ι) (l : List (Action ι κ)) (s : System ι κ) : Prop where
  flags : (s.inst i).flags.any
  turns : l.countP (isIterate i) = 0 ∨ l.countP (isIterate i) = 1 ∧ (s.inst i).HasLeft

theorem leaving_step (hs : Leaving i l s) (h : step p a s = some s') :
    Leaving i (l ++ [a]) s' := by
  have hquiet (ha : isIterate i a = false) (hf : (s'.inst i).flags.any)
      (hleft : (s.inst i).HasLeft → (s'.inst i).HasLeft) : Leaving i (l ++ [a]) s' := by
    refine ⟨hf, ?_⟩
    rw [List.countP_append, List.countP_singleton, ha, if_neg (by simp), Nat.add_zero]
    exact hs.turns.imp_right (And.imp_right hleft)
  rcases inst_cases i h with ⟨a', rfl, hsteps⟩ | ⟨ha, hphase, hflags, -⟩
  · rcases hsteps.leaves hs.flags with ⟨⟨ok, rfl⟩, hnot, hleft⟩ | ⟨ha, hleft⟩
    · refine ⟨hsteps.flags_mono hs.flags, .inr ⟨?_, hleft⟩⟩
      have hcount : l.countP (isIterate i) = 0 := hs.turns.resolve_right fun h => hnot h.2
      rw [List.countP_append, hcount]
      simp [isIterate]
    · refine hquiet ?_ (hsteps.flags_mono hs.flags) hleft
      cases a' <;> first | rfl | exact absurd rfl (ha _)
  · refine hquiet ?_ (hflags ▸ hs.flags) fun hleft => ?_
    · cases a with
      | inst k a' =>
        have hk : k ≠ i := by
          rintro rfl
          exact ha a' rfl
        cases a' <;> simp [isIterate, hk]
      | _ => rfl
    · rw [Instance.HasLeft, hphase]
      exact hleft

/-- A signal is pending as long as it is not delivered, and a flag is set from then on. -/
structure Waiting (i : ι) (signo : ℤ) (l : List (Action ι κ)) (s : System ι κ) : Prop where
  ready : (s.inst i).phase ≠ .starting
  pending : .inst i (.deliver signo) ∉ l → (s.inst i).pending signo
  flags : .inst i (.deliver signo) ∈ l → (s.inst i).flags.any

theorem waiting_step (hsigno : signo ∈ signals.map (·.signo)) (hs : Waiting i signo l s)
    (h : step p a s = some s') : Waiting i signo (l ++ [a]) s' := by
  rcases inst_cases i h with ⟨a', rfl, hsteps⟩ | ⟨ha, hphase, hflags, hpending⟩
  · refine ⟨hsteps.ne_starting hs.ready, fun hl => ?_, fun hl => ?_⟩
    · obtain ⟨hl, ha⟩ : .inst i (.deliver signo) ∉ l ∧ a' ≠ .deliver signo := by
        simpa [eq_comm] using hl
      exact hsteps.kept (hs.pending hl) ha
    · rcases List.mem_append.mp hl with hl | ha
      · exact hsteps.flags_mono (hs.flags hl)
      · obtain rfl : a' = .deliver signo := by simpa [eq_comm] using ha
        exact hsteps.delivered hs.ready hsigno
  · refine ⟨hphase ▸ hs.ready, fun hl => ?_, fun hl => ?_⟩
    · exact hpending signo (hs.pending fun h => hl (List.mem_append_left [a] h))
    · rw [hflags]
      refine hs.flags ((List.mem_append.mp hl).resolve_right fun h => ?_)
      exact ha _ (List.mem_singleton.mp h).symm

/-- What a signal process has sent to an instance behind `Init_signals` waits there. -/
theorem waiting_kill {others : ℤ → ℤ → ℤ} {s₁ : System ι κ} {r : Signalled}
    (hkill : step p (.sig j (.kill others)) s = some s₁) (hr : s₁.sig j = .ended r)
    (hk : ((p.pid i).toInt, signo) ∈ r.kills) (hlive : (s.inst i).isLive)
    (hready : (s.inst i).phase ≠ .starting) :
    signo ∈ signals.map (·.signo) ∧ Waiting i signo ([] : List (Action ι κ)) s₁ := by
  have hstep : stepSig p j (.kill others) s = some s₁ := hkill
  cases sigSteps_of_step hstep with
  | kill _ hj hr' =>
    rw [setSig_sig_self] at hr
    cases hr
    subst hr'
    obtain ⟨-, -, sig, hsig, -, rfl⟩ := signalProcess_kills _ hk
    refine ⟨List.mem_map_of_mem hsig, hready, fun _ => ?_, fun h => absurd h (by simp)⟩
    simp [setSig, receive, hlive, hk]

/-- A signal that a signal process has sent to an instance behind `Init_signals` is not lost.
In each run from then on it is pending as long as it is not delivered, and a flag is set from
its delivery on. Behind the delivery the loop turns at most once more, and the instance has
left it then, to return 0 if it is not ended from outside. This turn calls `unlink()` on the
pid file, and if that does not fail there is none. -/
theorem kill_takes_effect {others : ℤ → ℤ → ℤ} {s₁ : System ι κ} {r : Signalled}
    (hkill : step p (.sig j (.kill others)) s = some s₁) (hr : s₁.sig j = .ended r)
    (hk : ((p.pid i).toInt, signo) ∈ r.kills) (hlive : (s.inst i).isLive)
    (hready : (s.inst i).phase ≠ .starting) (hrun : run (step p) l s₁ = some s') :
    (.inst i (.deliver signo) ∉ l → (s'.inst i).pending signo) ∧
    (.inst i (.deliver signo) ∈ l → (s'.inst i).flags.any) ∧
    (∀ l₁ l₂, l = l₁ ++ .inst i (.deliver signo) :: l₂ →
      l₂.countP (isIterate i) = 0 ∨
        l₂.countP (isIterate i) = 1 ∧ (s'.inst i).HasLeft) ∧
    ∀ l₁ ok l₂ s₂, l = l₁ ++ .inst i (.iterate ok) :: l₂ → .inst i (.deliver signo) ∈ l₁ →
      run (step p) (l₁ ++ [.inst i (.iterate ok)]) s₁ = some s₂ →
      (s₂.inst i).phase = .deleted ∧ (ok = true → s₂.fs.path = none) := by
  obtain ⟨hsigno, hwaits⟩ := waiting_kill hkill hr hk hlive hready
  have hkept {l : List (Action ι κ)} {s' : System ι κ} (hrun : run (step p) l s₁ = some s') :
      Waiting i signo l s' :=
    run_history (fun l a s s' hs ha => waiting_step hsigno hs ha) hrun hwaits
  refine ⟨(hkept hrun).pending, (hkept hrun).flags, ?_, ?_⟩
  · rintro l₁ l₂ rfl
    obtain ⟨s₂, hl₁, hrest⟩ := run_append_eq_some.mp hrun
    obtain ⟨s₃, hdeliver, hl₂⟩ := run_cons_eq_some.mp hrest
    have hflags : (s₃.inst i).flags.any :=
      (waiting_step hsigno (hkept hl₁) hdeliver).flags
        (List.mem_append_right l₁ List.mem_cons_self)
    have hleaving : Leaving i l₂ s' :=
      run_history (fun l a s s' hs ha => leaving_step hs ha) hl₂ ⟨hflags, .inl rfl⟩
    exact hleaving.turns
  · rintro l₁ ok l₂ s₃ rfl hdelivered hrun₃
    obtain ⟨s₂, hl₁, hrest⟩ := run_append_eq_some.mp hrun₃
    obtain ⟨s₃', hturn, hnil⟩ := run_cons_eq_some.mp hrest
    obtain rfl := Option.some.inj hnil
    rcases inst_cases i hturn with ⟨a', ⟨⟩, hsteps⟩ | ⟨ha, -⟩
    · obtain ⟨hphase, hfs⟩ := hsteps.unlinks ((hkept hl₁).flags hdelivered)
      refine ⟨hphase, ?_⟩
      rintro rfl
      rw [hfs]
      rfl
    · exact absurd rfl (ha _)

end Effect

section Clean

/-- The step leaves no pid file behind: it is none of `lingx -t`, and no failed `unlink()`. -/
def Clean (a : Action ι κ) : Prop := a ≠ .test ∧ ∀ i, a ≠ .inst i (.iterate false)

/-- An instance that has opened the pid file and has not deleted it. -/
def Owns (p : Parties ι κ) (l : List (Action ι κ)) (s : System ι κ) (i : ι) : Prop :=
  Opened l i ∧ (p.master i ∨ (s.inst i).phase ≠ .deleted ∧ (s.inst i).phase ≠ .ended 0)

theorem owns_step (hclean : Clean a) {n : ℕ} (hn : s'.fs.path = some n) {k : ι}
    (hk : Owns p l s k) (h : step p a s = some s') : Owns p (l ++ [a]) s' k := by
  refine ⟨hk.1.mono (List.subset_append_left l [a]), ?_⟩
  rcases inst_cases k h with ⟨a', rfl, hsteps⟩ | ⟨-, hphase, -⟩
  · refine or_iff_not_imp_left.mpr fun hmaster => ?_
    obtain ⟨hd, he⟩ := hk.2.resolve_left hmaster
    refine ⟨fun hd' => ?_, fun he' => ?_⟩
    · rcases hsteps.deleted_of hd' with h | ⟨-, ok, rfl, hfs⟩
      · exact hd h
      · cases ok with
        | false => exact hclean.2 k rfl
        | true => cases (congrArg Fs.path hfs).symm.trans hn
    · exact (hsteps.exit_of he').elim hmaster hd
  · rw [hphase]
    exact hk.2

/-- A path that is there after a step was there before, or the step has made it. -/
theorem path_step (hclean : Clean a) {n : ℕ} (hn : s'.fs.path = some n)
    (h : step p a s = some s') : s.fs.path = some n ∨ ∃ i, a = .inst i (.openPid true) ∧
      (s'.inst i).phase ≠ .deleted ∧ (s'.inst i).phase ≠ .ended 0 := by
  rcases step_cases h with ⟨i, a', fs, x, rfl, hsteps, rfl⟩ | ⟨j, a', rfl, hsteps⟩ |
    ⟨i, signo, rfl, -, -, rfl⟩ | ⟨rfl, rfl⟩
  · rcases hsteps.fs_cases with ⟨rfl, -, hx⟩ | ⟨m, w, k, -, -, -, -, rfl, -⟩ |
      ⟨ok, rfl, -, -, rfl, -⟩ | ⟨rfl, -⟩
    · refine .inr ⟨i, rfl, ?_⟩
      rw [setInst_inst_self, hx]
      simp
    · exact .inl hn
    · cases ok with
      | false => exact absurd rfl (hclean.2 i)
      | true => cases hn
    · exact .inl hn
  · exact .inl (hsteps.fs_eq ▸ hn)
  · exact .inl hn
  · exact absurd rfl hclean.1

/-- In every run that starts without a pid file, and in which no `unlink()` fails and no
`lingx -t` takes part, the pid file is gone as soon as each process that has opened it has left
its loop, in whatever order they have opened, written and deleted it. -/
theorem pidFile_gone (hclean : ∀ a ∈ l, Clean a) (h : run (step p) l (init none) = some s)
    (hleft : ∀ i, Opened l i → p.master i = false ∧
      ((s.inst i).phase = .deleted ∨ (s.inst i).phase = .ended 0)) : s.fs.content = none := by
  have howned : (∀ a ∈ l, Clean a) → ∀ n, s.fs.path = some n → ∃ i, Owns p l s i := by
    refine run_history (I := fun l s => (∀ a ∈ l, Clean a) → ∀ n, s.fs.path = some n →
      ∃ i, Owns p l s i) ?_ h fun _ _ hn => nomatch hn
    intro l a s s' hs ha hl n hn
    have hclean : Clean a := hl a (by simp)
    rcases path_step hclean hn ha with hn' | ⟨i, rfl, hx⟩
    · obtain ⟨k, hk⟩ := hs (fun a ha => hl a (by simp [ha])) n hn'
      exact ⟨k, owns_step hclean hn hk ha⟩
    · exact ⟨i, List.mem_append_right l List.mem_cons_self, .inr hx⟩
  refine Option.map_eq_none_iff.mpr (Option.eq_none_iff_forall_not_mem.mpr fun n hn => ?_)
  obtain ⟨i, hopen, hi⟩ := howned hclean n hn
  obtain ⟨hmaster, hend⟩ := hleft i hopen
  rcases hi with hm | ⟨hd, he⟩
  · simp [hmaster] at hm
  · exact hend.elim hd he

end Clean

section Reach

theorem osSignalLoop_rc {kill : ℤ → ℤ → ℤ} {pid : ℤ} {sigs : List Signal} {sig : Signal}
    (hsig : sig ∈ sigs) (hkill : ∀ signo, kill pid signo = 0) :
    (osSignalLoop kill sig.name pid sigs).rc = 0 := by
  induction sigs with
  | nil => cases hsig
  | cons entry sigs ih =>
    rw [osSignalLoop]
    split_ifs with hname hzero
    · rfl
    · exact absurd (hkill entry.signo) hzero
    · rcases List.mem_cons.mp hsig with rfl | hsig
      · exact absurd rfl hname
      · exact ih hsig

omit [Fintype ι] [DecidableEq ι] [DecidableEq κ] in
theorem signalProcess_line (hpid : 1 ≤ (p.pid i).toInt) {kill : ℤ → ℤ → ℤ} {sig : Signal}
    (hsig : sig ∈ signals) (hname : p.name j = sig.name)
    (hkill : ∀ signo, kill (p.pid i).toInt signo = 0) {r : Signalled}
    (hr : r = signalProcess kill p.path
      (some (pidFile p.path (pidLine (p.pid i)).text)) (p.name j)) :
    r.rc = 0 ∧ r.kills = [((p.pid i).toInt, sig.signo)] := by
  rcases signalProcess_cases kill p.path (pidLine (p.pid i)).text (p.name j) with
    ⟨hbad, -⟩ | ⟨v, hv, -, hkills, hrc⟩
  · rw [atoi_pidLine hpid] at hbad
    omega
  · rw [atoi_pidLine hpid] at hv
    rw [← hr, hname, ← hv] at hkills hrc
    rw [hkills, hrc]
    exact ⟨osSignalLoop_rc hsig hkill, osSignalLoop_of_mem (by decide) hsig⟩

/-- As long as the only instance that opens the pid file runs, whatever else happens, the file
holds the line of its pid: a stop that nothing comes between returns 0 and reaches it, and in
its loop it deletes the file and returns 0. -/
theorem stop_running (hpid : 1 ≤ (p.pid i).toInt) (hopen : ∀ i', Opened l i' → i' = i)
    (h : run (step p) l (init c₀) = some s) (hrunning : (s.inst i).phase.isRunning) :
    s.fs.content = some (pidLine (p.pid i)).text ∧
    ∀ j, s.sig j = .starting → ∀ sig ∈ signals, p.name j = sig.name → ∀ others,
      ∃ s₁ r, run (step p) (stopSteps j others) s = some s₁ ∧ s₁.sig j = .ended r ∧ r.rc = 0 ∧
        r.kills = [((p.pid i).toInt, sig.signo)] ∧ (s₁.inst i).pending sig.signo ∧
        ((s.inst i).phase = .cycle → ∃ s₂, run (step p) [.inst i (.deliver sig.signo),
          .inst i (.iterate true), .inst i .exit] s₁ = some s₂ ∧
          (s₂.inst i).phase = .ended 0 ∧ s₂.fs.content = none) := by
  have hcontent := (run_soleWriter hopen h).running hrunning
  have hlive : (s.inst i).isLive := by
    rw [Instance.isLive]
    cases hph : (s.inst i).phase <;> first | rfl | simp [hph, Phase.isRunning] at hrunning
  refine ⟨hcontent, fun j hj sig hsig hname others => ?_⟩
  obtain ⟨s₁, r, hrun, hended, hr, -, hinst⟩ := run_stopSteps p hj hcontent others
  have hkill (signo : ℤ) : s.kill p others (p.pid i).toInt signo = 0 :=
    if_pos ⟨i, rfl, hlive⟩
  obtain ⟨hrc, hkills⟩ := signalProcess_line hpid hsig hname hkill hr
  have hpending : (s₁.inst i).pending sig.signo := by
    rw [hinst, receive, hkills, hlive]
    simp
  refine ⟨s₁, r, hrun, hended, hrc, hkills, hpending, fun hcycle => ?_⟩
  have hcycle₁ : (s₁.inst i).phase = .cycle := by
    rw [hinst]
    exact hcycle
  have hlive₁ : (s₁.inst i).isLive := by rw [Instance.isLive, hcycle₁]
  obtain ⟨s₂, h₂, -, hi₂, -⟩ := exists_step_inst (p := p) (.deliver _ hlive₁ hpending)
  have hcycle₂ : (s₂.inst i).phase = .cycle := by
    rw [hi₂, Instance.phase_deliver, hcycle₁]
    rfl
  have hflags : (s₂.inst i).flags.any := by
    rw [hi₂, Instance.flags_deliver, if_neg (by simp [hcycle₁])]
    exact Instance.any_of_mem_signals (List.mem_map_of_mem hsig)
  obtain ⟨s₃, h₃, hf₃, hi₃, -⟩ := exists_step_inst (p := p) (.delete true hcycle₂ hflags)
  obtain ⟨s₄, h₄, hf₄, hi₄, -⟩ := exists_step_inst (p := p) (i := i) (s := s₃)
    (.exit (by rw [hi₃]))
  refine ⟨s₄, ?_, by rw [hi₄], by rw [hf₄, hf₃]; rfl⟩
  simp only [run_cons_eq_some]
  exact ⟨s₂, h₂, s₃, h₃, s₄, h₄, rfl⟩

end Reach

/-- The steps of an instance from the start to the loop. -/
def startSteps (i : Fin 2) (len : ℕ) : List (Action (Fin 2) (Fin 1)) :=
  [.inst i (.initSignals true), .inst i (.openPid true), .inst i (.pwrite (.wrote len)),
    .inst i (.redirect true), .inst i (.initProcess true)]

/-- The steps of an instance that gets a signal from elsewhere. -/
def endSteps (i : Fin 2) (signo : ℤ) : List (Action (Fin 2) (Fin 1)) :=
  [.send i signo, .inst i (.iterate true), .inst i (.deliver signo), .inst i (.iterate true),
    .inst i .exit]

theorem stop_running_one : ∃ s, run (step twoParties) (startSteps 0 5) (init none) = some s ∧
    s.fs.content = some (ascii "4321\n") := by
  have hrun : (run (step twoParties) (startSteps 0 5) (init none)).map (fun s => (s.inst 0).phase) =
      some .cycle := by decide
  obtain ⟨s, hs, hphase⟩ := Option.map_eq_some_iff.mp hrun
  refine ⟨s, hs, ?_⟩
  have hopen : ∀ i', Opened (startSteps 0 5) i' → i' = 0 := by simp [Opened, startSteps]
  exact (stop_running (by decide) hopen hs (by rw [hphase]; rfl)).1.trans (by decide)

theorem exit_stopped_one : ∃ s, run (step twoParties) (startSteps 0 5 ++ endSteps 0 SIGINT)
    (init none) = some s ∧ Stopped twoParties (startSteps 0 5 ++ endSteps 0 SIGINT) s 0 := by
  have hrun : (run (step twoParties) (startSteps 0 5 ++ endSteps 0 SIGINT) (init none)).map
      (fun s => (s.inst 0).phase) = some (.ended 0) := by decide
  obtain ⟨s, hs, hphase⟩ := Option.map_eq_some_iff.mp hrun
  exact ⟨s, hs, exit_stopped hs (.inr ⟨hphase, rfl⟩)⟩

/-- Two instances that have the path one after the other: the one that ends first takes the
file of the other one with it. -/
def bothSteps (i i' : Fin 2) : List (Action (Fin 2) (Fin 1)) :=
  startSteps i 5 ++ startSteps i' 3 ++ endSteps i SIGTERM ++ endSteps i' SIGQUIT

theorem pidFile_gone_two : ∃ s, run (step twoParties) (bothSteps 0 1) (init none) = some s ∧
    s.fs.content = none := by
  have hrun : (run (step twoParties) (bothSteps 0 1) (init none)).map
      (fun s => ((s.inst 0).phase, (s.inst 1).phase)) = some (.ended 0, .ended 0) := by decide
  obtain ⟨s, hs, hphase⟩ := Option.map_eq_some_iff.mp hrun
  obtain ⟨h₀, h₁⟩ := Prod.mk.inj hphase
  refine ⟨s, hs, pidFile_gone ?_ hs fun i _ => ⟨rfl, .inr ?_⟩⟩
  · simp [bothSteps, startSteps, endSteps, Clean]
  · match i with
    | 0 => exact h₀
    | 1 => exact h₁

/-- The signal process has read the file of a running instance. -/
def readSteps (i : Fin 2) (j : Fin 1) : List (Action (Fin 2) (Fin 1)) :=
  startSteps i 5 ++ [.sig j (.openRead true), .sig j (.pread true)]

theorem kill_takes_effect_one : ∃ s s₁ s',
    run (step twoParties) (readSteps 0 0) (init none) = some s ∧
    step twoParties (.sig 0 (.kill fun _ _ => 0)) s = some s₁ ∧
    run (step twoParties) [.inst 0 (.deliver SIGTERM), .inst 0 (.iterate true), .inst 0 .exit] s₁ =
      some s' ∧ (s'.inst 0).flags.any ∧ (s'.inst 0).HasLeft := by
  have hrun : (run (step twoParties) (readSteps 0 0) (init none)).map (fun s => (s.inst 0).phase) =
      some .cycle := by decide
  obtain ⟨s, hs, hphase⟩ := Option.map_eq_some_iff.mp hrun
  have hrun₁ : ((run (step twoParties) (readSteps 0 0) (init none)).bind
      (step twoParties (.sig 0 (.kill fun _ _ => 0)))).map (·.sig 0) =
        some (.ended ⟨⟨0, [(4321, SIGTERM)], [.signalStarted]⟩, some 4321⟩) := by decide
  rw [hs, Option.bind_some] at hrun₁
  obtain ⟨s₁, hs₁, hended⟩ := Option.map_eq_some_iff.mp hrun₁
  have hrun₂ : (((run (step twoParties) (readSteps 0 0) (init none)).bind
      (step twoParties (.sig 0 (.kill fun _ _ => 0)))).bind (run (step twoParties)
        [.inst 0 (.deliver SIGTERM), .inst 0 (.iterate true), .inst 0 .exit])).isSome := by decide
  rw [hs, Option.bind_some, hs₁, Option.bind_some] at hrun₂
  obtain ⟨s', hs'⟩ := Option.isSome_iff_exists.mp hrun₂
  have hlive : (s.inst 0).isLive := by rw [Instance.isLive, hphase]
  have heffect := kill_takes_effect (i := 0) hs₁ hended
    (show ((4321 : ℤ), SIGTERM) ∈ [((4321 : ℤ), SIGTERM)] by decide) hlive
    (by rw [hphase]; simp) hs'
  refine ⟨s, s₁, s', hs, hs₁, hs', heffect.2.1 (by simp), ?_⟩
  rcases heffect.2.2.1 [] _ rfl with hzero | ⟨-, hleft⟩
  · cases hzero
  · exact hleft

end System

end Lingx.Process
