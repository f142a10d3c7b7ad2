import Lingx.Process.Stop

/-! Which processes a stop reaches. The pid file may be opened, written, read and unlinked
in any order by any number of processes. Where each `pwrite()` of a line is whole, a signal
is sent to nothing but a process that has opened the file, or to the pid that was in the
file before; where it is not, parts of a pid can be taken for a pid. -/

namespace Lingx.Process

open Conf Strings Library.Decimal Library.Machine

/-- The pid that `Signal_process` reads from a content. -/
def pidOf (content : Bytes) : ℤ :=
  atoi ((content.take (MAX_INT_LEN + 2)).rdropWhile (IsEol ·))

variable {kill : ℤ → ℤ → ℤ} {path c sig : Bytes} {pid : Int32}

theorem osSignalLoop_signo {sigs : List Signal} {n : ℤ} :
    ∀ k ∈ (osSignalLoop kill sig n sigs).kills, ∃ s ∈ sigs, s.name = sig ∧ k.2 = s.signo := by
  induction sigs with
  | nil => nofun
  | cons entry sigs ih =>
    have hrest : ∀ k ∈ (osSignalLoop kill sig n sigs).kills,
        ∃ s ∈ entry :: sigs, s.name = sig ∧ k.2 = s.signo := by
      intro k hk
      obtain ⟨s, hs, h⟩ := ih k hk
      exact ⟨s, List.mem_cons_of_mem _ hs, h⟩
    rw [osSignalLoop]
    split_ifs with hname
    · simp [hname]
    · intro k hk
      rcases List.mem_cons.mp hk with rfl | hk
      · exact ⟨entry, List.mem_cons_self, hname.symm, rfl⟩
      · exact hrest k hk
    · exact hrest

theorem signalProcess_kills :
    ∀ k ∈ (signalProcess kill path (some (pidFile path c)) sig).kills,
      k.1 = pidOf c ∧ pidOf c ≠ -1 ∧ ∃ s ∈ signals, s.name = sig ∧ k.2 = s.signo := by
  intro k hk
  rcases signalProcess_cases kill path c sig with ⟨-, -, hkills, -⟩ | ⟨v, hv, -, hkills, -⟩
  · rw [hkills] at hk
    cases hk
  · rw [hkills] at hk
    refine ⟨(osSignalLoop_kills k hk).trans hv.symm, ?_, osSignalLoop_signo k hk⟩
    rw [pidOf, hv]
    omega

theorem pidOf_take (hpid : 1 ≤ pid.toInt) {w : ℕ} (hw : 1 ≤ w) :
    pidOf ((pidLine pid).text.take w) = value ((text pid.toInt.natAbs).take w) := by
  have hmax := pid.toInt_lt
  have hlt := length_pidLine_lt pid
  have hline : (pidLine pid).text = text pid.toInt.natAbs ++ [10] := by
    rw [← decimal_of_pos hpid, pidLine]
  have hdigits : ∀ c ∈ (text pid.toInt.natAbs).take w, IsDigit c :=
    fun c hc => isDigit_text c (List.mem_of_mem_take hc)
  have heol : ∀ c ∈ [10].take (w - (text pid.toInt.natAbs).length), IsEol c := by
    intro c hc
    obtain rfl := List.mem_singleton.mp (List.mem_of_mem_take hc)
    exact .inr rfl
  have hle : value ((text pid.toInt.natAbs).take w) ≤ pid.toInt.natAbs := by
    conv_rhs => rw [← value_text pid.toInt.natAbs, ← List.take_append_drop w (text _), value,
      valueFrom_append]
    exact le_valueFrom _ _
  rw [pidOf, List.take_of_length_le (by simp; omega), hline, List.take_append,
    rdropWhile_digits hdigits heol, atoi_eq_natCast]
  refine ⟨?_, hdigits, rfl, by rw [INT_MAX]; omega⟩
  simpa using ⟨by omega, text_ne_nil⟩

/-- Digits with an end of the line behind them are the digits in front. -/
theorem takeWhile_digits {s t : Bytes} (hs : ∀ c ∈ s, IsDigit c) (ht : ∀ c ∈ t.head?, IsEol c) :
    (s ++ t).takeWhile (IsDigit ·) = s := by
  rw [List.takeWhile_append_of_pos (by simpa using hs)]
  cases t with
  | nil => exact List.append_nil s
  | cons c t =>
    have hc : ¬ IsDigit c := fun hd => not_isEol_of_isDigit hd (ht c rfl)
    rw [List.takeWhile_cons_of_neg (by simpa using hc), List.append_nil]

theorem pidOf_nil : pidOf [] = -1 := by decide

/-- Behind a line a content has no digits that would be read as a part of the pid. -/
theorem pidOf_line (hpid : 1 ≤ pid.toInt) (h : (pidLine pid).text <+: c) :
    pidOf c = pid.toInt ∨ pidOf c = -1 := by
  obtain ⟨rest, rfl⟩ := h
  have hmax := pid.toInt_lt
  have hlt := length_pidLine_lt pid
  obtain ⟨digits, hdigits⟩ : ∃ digits, digits = text pid.toInt.natAbs := ⟨_, rfl⟩
  have hline : (pidLine pid).text = digits ++ [10] := by
    rw [hdigits, ← decimal_of_pos hpid, pidLine]
  have hall : ∀ c ∈ digits, IsDigit c := hdigits ▸ isDigit_text
  rw [pidOf, List.take_append, List.take_of_length_le hlt.le, hline]
  generalize rest.take _ = rest
  rcases atoi_cases ((digits ++ [10] ++ rest).rdropWhile (IsEol ·)) with hbad | ⟨v, hv⟩
  · exact .inr hbad
  obtain ⟨-, hread, hvalue, -⟩ := atoi_eq_natCast.mp hv
  have heq : (digits ++ [10] ++ rest).rdropWhile (IsEol ·) = digits := by
    have heol : ∀ c ∈ ((digits ++ [10] ++ rest).rtakeWhile (IsEol ·)).head?, IsEol c := by
      intro c hc
      simpa using List.mem_rtakeWhile_imp (List.mem_of_mem_head? hc)
    rw [← takeWhile_digits hread heol, List.rdropWhile_append_rtakeWhile, List.append_assoc]
    exact takeWhile_digits hall (by simp [IsEol])
  rw [heq] at hvalue hv ⊢
  rw [hv, ← hvalue, hdigits, value_text]
  exact .inl (by omega)

namespace Instance

variable {master : Bool} {a : Act} {fs fs' : Fs} {x x' : Instance} {n w : ℕ}

/-- An instance that is in `File::write` was there before, or has just opened the file. -/
theorem Steps.writing (h : x.Steps pid master a fs fs' x') (hx : x'.phase = .writing n w) :
    a = .openPid true ∨ ∃ n w, x.phase = .writing n w := by
  rcases h.fs_cases with ⟨ha, -, -⟩ | ⟨n, w, -, -, hw, -⟩ | ⟨-, -, -, -, -, hdel⟩ | ⟨-, hkept, -⟩
  · exact .inl ha
  · exact .inr ⟨n, w, hw⟩
  · cases hdel.symm.trans hx
  · exact .inr ⟨n, w, hkept n w hx⟩

/-- What a step makes of a file, where a line is written at once. -/
theorem Steps.data (h : x.Steps pid master a fs fs' x')
    (hwhole : ∀ k, a = .pwrite (.wrote k) → k = (pidLine pid).text.length) (m : ℕ) :
    fs'.data m = fs.data m ∨ fs'.data m = [] ∨
      ∃ n w, x.phase = .writing n w ∧ (pidLine pid).text <+: fs'.data m := by
  rcases h.fs_cases with ⟨-, rfl, -⟩ | ⟨n, w, k, ha, hw, hk, hle, rfl, -⟩ |
    ⟨ok, -, -, -, rfl, -⟩ | ⟨rfl, -⟩
  · exact (Fs.data_openWrite m).imp_right .inl
  · have hall := hwhole k ha
    obtain rfl : w = 0 := by omega
    by_cases hm : m = n
    · subst hm
      refine .inr (.inr ⟨m, 0, hw, ?_⟩)
      rw [Fs.data_write_self, hall]
      exact ⟨_, (foldl_writeByte_over _ _).symm⟩
    · exact .inl (Fs.data_write_ne _ hm)
  · exact .inl (by rw [Fs.data_unlink])
  · exact .inl rfl

end Instance

namespace System

variable {ι κ : Type} [Fintype ι] [DecidableEq ι] [DecidableEq κ] {p : Parties ι κ}
  {c₀ : Option Bytes} {l l' : List (Action ι κ)} {a : Action ι κ} {s s' : System ι κ} {i : ι}
  {j : κ}

/-- In these steps the instance has opened the pid file. -/
def Opened (l : List (Action ι κ)) (i : ι) : Prop := .inst i (.openPid true) ∈ l

/-- A `pwrite()` that writes anything writes the line. -/
def Whole (p : Parties ι κ) : Action ι κ → Prop
  | .inst i (.pwrite (.wrote n)) => n = (pidLine (p.pid i)).text.length
  | _ => True

/-- What a pid file holds: the content before, nothing, or the line of an instance that has
opened it, with something behind the line. -/
def Held (p : Parties ι κ) (c₀ : Option Bytes) (l : List (Action ι κ)) (c : Bytes) : Prop :=
  c₀ = some c ∨ c = [] ∨ ∃ i, Opened l i ∧ (pidLine (p.pid i)).text <+: c

/-- A signal is the one that has been asked for, and is sent to an instance that has opened
the pid file or to the pid that was in it before, and never to all processes. -/
def Aimed (p : Parties ι κ) (c₀ : Option Bytes) (l : List (Action ι κ)) (j : κ) (k : ℤ × ℤ) :
    Prop :=
  ((∃ i, Opened l i ∧ k.1 = (p.pid i).toInt) ∨ ∃ c, c₀ = some c ∧ k.1 = pidOf c) ∧ k.1 ≠ -1 ∧
    ∃ sig ∈ signals, sig.name = p.name j ∧ k.2 = sig.signo

omit [Fintype ι] [DecidableEq ι] [DecidableEq κ] in
theorem Opened.mono (h : Opened l i) (hl : l ⊆ l') : Opened l' i := hl h

omit [Fintype ι] [DecidableEq ι] [DecidableEq κ] in
theorem Held.mono (h : Held p c₀ l c) (hl : l ⊆ l') : Held p c₀ l' c :=
  h.imp_right (Or.imp_right fun ⟨i, hi, hline⟩ => ⟨i, hi.mono hl, hline⟩)

omit [Fintype ι] [DecidableEq ι] [DecidableEq κ] in
theorem Aimed.mono {k : ℤ × ℤ} (h : Aimed p c₀ l j k) (hl : l ⊆ l') : Aimed p c₀ l' j k :=
  h.imp_left (Or.imp_left fun ⟨i, hi, hk⟩ => ⟨i, hi.mono hl, hk⟩)

omit [Fintype ι] [DecidableEq ι] [DecidableEq κ] in
/-- The signals of a process that has read what a pid file holds. -/
theorem Held.aimed (hpid : ∀ i, 1 ≤ (p.pid i).toInt) (h : Held p c₀ l c) :
    ∀ k ∈ (signalProcess kill path (some (pidFile path c)) (p.name j)).kills,
      Aimed p c₀ l j k := by
  intro k hk
  obtain ⟨hk, hne, hsig⟩ := signalProcess_kills k hk
  refine ⟨?_, hk ▸ hne, hsig⟩
  rcases h with h | rfl | ⟨i, hi, hline⟩
  · exact .inr ⟨c, h, hk⟩
  · exact absurd pidOf_nil hne
  · exact .inl ⟨i, hi, hk.trans ((pidOf_line (hpid i) hline).resolve_right hne)⟩

section Knows

variable {P P' : Bytes → Prop} {Q Q' : κ → ℤ × ℤ → Prop}

/-- Each file holds what `P` allows, each signal process has read that, and has sent what `Q`
allows. -/
structure Knows (P : Bytes → Prop) (Q : κ → ℤ × ℤ → Prop) (s : System ι κ) : Prop where
  data : ∀ n, P (s.fs.data n)
  read : ∀ j c, s.sig j = .read c → P c
  kills : ∀ j r, s.sig j = .ended r → ∀ k ∈ r.kills, Q j k

omit [Fintype ι] [DecidableEq ι] [DecidableEq κ] in
theorem Knows.mono (h : Knows P Q s) (hP : ∀ c, P c → P' c) (hQ : ∀ j k, Q j k → Q' j k) :
    Knows P' Q' s where
  data n := hP _ (h.data n)
  read j c hj := hP c (h.read j c hj)
  kills j r hj k hk := hQ j k (h.kills j r hj k hk)

omit [Fintype ι] [DecidableEq ι] [DecidableEq κ] in
theorem Knows.of_sig_eq (h : Knows P Q s) (hsig : s'.sig = s.sig)
    (hdata : ∀ n, P (s'.fs.data n)) : Knows P Q s' where
  data := hdata
  read j c hj := h.read j c (hsig ▸ hj)
  kills j r hj := h.kills j r (hsig ▸ hj)

omit [Fintype ι] [DecidableEq ι] [DecidableEq κ] in
theorem knows_init (h : ∀ n, P ((Fs.init c₀).data n)) :
    Knows P Q (init c₀ : System ι κ) where
  data := h
  read _ _ h := nomatch h
  kills _ _ h := nomatch h

omit [DecidableEq ι] in
/-- A signal process reads what a file holds, and sends what it has read. -/
theorem Knows.sigSteps {a : Signaller.Act} (h : Knows P Q s) (hsteps : s.SigSteps p j a s')
    (hPQ : ∀ c kill, P c →
      ∀ k ∈ (signalProcess kill p.path (some (pidFile p.path c)) (p.name j)).kills, Q j k) :
    Knows P Q s' := by
  refine ⟨fun n => by rw [hsteps.fs_eq]; exact h.data n, fun j' c hj => ?_, fun j' r hj => ?_⟩
  all_goals by_cases hne : j' = j
  · subst hne
    rcases hsteps.sig_self with ⟨n, hn⟩ | ⟨n, hn⟩ | ⟨r, hr, -⟩
    · cases hn.symm.trans hj
    · cases hn.symm.trans hj
      exact h.data n
    · cases hr.symm.trans hj
  · rw [hsteps.sig_of_ne hne] at hj
    exact h.read j' c hj
  · subst hne
    rcases hsteps.sig_self with ⟨n, hn⟩ | ⟨n, hn⟩ | ⟨r', hr, hkills⟩
    · cases hn.symm.trans hj
    · cases hn.symm.trans hj
    · cases hr.symm.trans hj
      rcases hkills with hnil | ⟨c, others, hread, rfl⟩
      · rw [hnil]
        exact nofun
      · exact hPQ c _ (h.read j' c hread)
  · rw [hsteps.sig_of_ne hne] at hj
    exact h.kills j' r hj

end Knows

/-- What holds behind each step of a run. -/
structure Safe (p : Parties ι κ) (c₀ : Option Bytes) (l : List (Action ι κ)) (s : System ι κ) :
    Prop where
  knows : Knows (Held p c₀ l) (Aimed p c₀ l) s
  writing : ∀ i n w, (s.inst i).phase = .writing n w → Opened l i

theorem data_init (c₀ : Option Bytes) (n : ℕ) :
    some ((Fs.init c₀).data n) = c₀ ∨ (Fs.init c₀).data n = [] := by
  by_cases hn : n = 0
  · cases c₀ with
    | none => exact .inr (if_pos hn)
    | some c => exact .inl (congrArg some (if_pos hn))
  · exact .inr (if_neg hn)

omit [Fintype ι] [DecidableEq ι] [DecidableEq κ] in
theorem safe_init : Safe p c₀ [] (init c₀) where
  knows := knows_init fun n => (data_init c₀ n).imp Eq.symm .inl
  writing _ _ _ h := nomatch h

theorem safe_step (hpid : ∀ i, 1 ≤ (p.pid i).toInt) (hwhole : Whole p a) (hs : Safe p c₀ l s)
    (h : step p a s = some s') : Safe p c₀ (l ++ [a]) s' := by
  have hl : l ⊆ l ++ [a] := List.subset_append_left l [a]
  have hknows : Knows (Held p c₀ (l ++ [a])) (Aimed p c₀ (l ++ [a])) s :=
    hs.knows.mono (fun c hc => hc.mono hl) fun j k hk => hk.mono hl
  have hwriting (i : ι) (n w : ℕ) (hi : (s.inst i).phase = .writing n w) :
      Opened (l ++ [a]) i := (hs.writing i n w hi).mono hl
  rcases step_cases h with ⟨i, a', fs, x, rfl, hsteps, rfl⟩ | ⟨j, a', rfl, hsteps⟩ |
    ⟨i, signo, rfl, -, -, rfl⟩ | ⟨rfl, rfl⟩
  · refine ⟨hknows.of_sig_eq rfl fun m => ?_, fun i' n w hi => ?_⟩
    · rcases hsteps.data (by rintro k rfl; exact hwhole) m with hm | hm | ⟨n, w, hn, hline⟩
      · exact (hm ▸ hknows.data m : Held _ _ _ (fs.data m))
      · exact .inr (.inl hm)
      · exact .inr (.inr ⟨i, hwriting i n w hn, hline⟩)
    · by_cases hne : i' = i
      · subst hne
        rw [setInst_inst_self] at hi
        rcases hsteps.writing hi with rfl | ⟨n, w, hi⟩
        · exact List.mem_append_right l List.mem_cons_self
        · exact hwriting i' n w hi
      · rw [setInst_inst_of_ne hne] at hi
        exact hwriting i' n w hi
  · refine ⟨hknows.sigSteps hsteps fun c kill hc => hc.aimed hpid, fun i n w hi => ?_⟩
    rw [hsteps.phase_eq] at hi
    exact hwriting i n w hi
  · refine ⟨hknows.of_sig_eq rfl hknows.data, fun i' n w hi => hwriting i' n w ?_⟩
    by_cases hne : i' = i
    · subst hne
      rwa [setInst_inst_self] at hi
    · rwa [setInst_inst_of_ne hne] at hi
  · refine ⟨hknows.of_sig_eq rfl fun m => ?_, hwriting⟩
    rcases (Fs.data_openWrite m : (s.fs.openWrite (O_RDWR ||| O_CREAT)).1.data m = _ ∨ _) with
      hm | hm
    · exact (hm ▸ hknows.data m :
        Held _ _ _ ((s.fs.openWrite (O_RDWR ||| O_CREAT)).1.data m))
    · exact .inr (.inl hm)

/-- Whatever the steps of the processes, in whatever order: where each `pwrite()` of a line is
whole, a signal process that has ended has sent nothing but the signal that it was started
for, to an instance that has opened the pid file or to the pid that was in it before. -/
theorem kills_aimed (hpid : ∀ i, 1 ≤ (p.pid i).toInt) (hwhole : ∀ a ∈ l, Whole p a)
    (h : run (step p) l (init c₀) = some s) {r : Signalled} (hr : s.sig j = .ended r) :
    ∀ k ∈ r.kills, Aimed p c₀ l j k := by
  have hsafe : (∀ a ∈ l, Whole p a) → Safe p c₀ l s := by
    refine run_history (I := fun l s => (∀ a ∈ l, Whole p a) → Safe p c₀ l s) ?_ h
      fun _ => safe_init
    intro l a s s' hs ha hl
    exact safe_step hpid (hl a (by simp)) (hs fun a ha => hl a (by simp [ha])) ha
  exact (hsafe hwhole).knows.kills j r hr

/-- Both instances open the file, and the line of the first one goes over that of the second
one, that the stop does not reach. -/
def twoSteps (i i' : Fin 2) (j : Fin 1) : List (Action (Fin 2) (Fin 1)) :=
  [.inst i (.initSignals true), .inst i' (.initSignals true), .inst i (.openPid true),
    .inst i' (.openPid true), .inst i' (.pwrite (.wrote 3)), .inst i (.pwrite (.wrote 5)),
    .sig j (.openRead true), .sig j (.pread true), .sig j (.kill fun _ _ => 0)]

theorem whole_twoSteps : ∀ a ∈ twoSteps 0 1 0, Whole twoParties a := by
  have hfirst : 5 = (pidLine 4321).text.length := by decide
  have hsecond : 3 = (pidLine 77).text.length := by decide
  simp [twoSteps, Whole, twoParties, ← hfirst, ← hsecond]

theorem kills_aimed_two : ∃ s r,
    run (step twoParties) (twoSteps 0 1 0) (init (some (ascii "9"))) = some s ∧
      s.sig 0 = .ended r ∧ r.kills = [(4321, SIGTERM)] ∧
      ∀ k ∈ r.kills, Aimed twoParties (some (ascii "9")) (twoSteps 0 1 0) 0 k := by
  have hrun : (run (step twoParties) (twoSteps 0 1 0) (init (some (ascii "9")))).map (·.sig 0) =
      some (.ended ⟨⟨0, [(4321, SIGTERM)], [.signalStarted]⟩, some 4321⟩) := by decide
  obtain ⟨s, hs, hr⟩ := Option.map_eq_some_iff.mp hrun
  exact ⟨s, _, hs, hr, rfl, kills_aimed (by decide) whole_twoSteps hs hr⟩

section Parts

/-- What a pid file holds that only one instance opens: the content before, or a part of its
line. -/
def Part (p : Parties ι κ) (c₀ : Option Bytes) (i : ι) (c : Bytes) : Prop :=
  c₀ = some c ∨ ∃ w, c = (pidLine (p.pid i)).text.take w

/-- A signal process has sent what has been asked for to a pid that was read from a part. -/
def AimedPart (p : Parties ι κ) (c₀ : Option Bytes) (i : ι) (j : κ) (k : ℤ × ℤ) : Prop :=
  ∃ c, Part p c₀ i c ∧ k.1 = pidOf c ∧ pidOf c ≠ -1 ∧
    ∃ sig ∈ signals, sig.name = p.name j ∧ k.2 = sig.signo

/-- What holds where only one instance opens the file, and writes its line in parts. -/
structure SoleWriter (p : Parties ι κ) (c₀ : Option Bytes) (i : ι) (s : System ι κ) : Prop where
  knows : Knows (Part p c₀ i) (AimedPart p c₀ i) s
  writing : ∀ n w, (s.inst i).phase = .writing n w →
    s.fs.path = some n ∧ s.fs.data n = (pidLine (p.pid i)).text.take w
  running : (s.inst i).phase.isRunning → s.fs.content = some (pidLine (p.pid i)).text
  other : ∀ i' ≠ i, (s.inst i').phase.hasOpened = false

omit [Fintype ι] [DecidableEq ι] [DecidableEq κ] in
theorem soleWriter_init : SoleWriter p c₀ i (init c₀) where
  knows := knows_init fun n => (data_init c₀ n).imp Eq.symm fun h => ⟨0, by simpa using h⟩
  writing _ _ h := nomatch h
  running h := nomatch h
  other _ _ := rfl

/-- The next bytes of the line are written behind those that are there. -/
theorem data_write_part {fs : Fs} {line : Bytes} {n w k : ℕ} (hdata : fs.data n = line.take w)
    (hle : w + k ≤ line.length) :
    (fs.write n (copied (line.getD · 0) w k w)).data n = line.take (w + k) := by
  have hlen : (line.take w).length = w := by simp; omega
  have hfold := @foldl_writeByte (line.getD · 0) (line.take w) w k
  rw [hlen] at hfold
  rw [Fs.data_write_self, hdata, hfold, List.take_add]
  congr 1
  refine List.ext_getElem (by simp; omega) fun j hj hj' => ?_
  have hlt : w + j < line.length := by simp at hj; omega
  simp [List.getElem?_eq_getElem hlt]

omit [Fintype ι] [DecidableEq κ] in
theorem SoleWriter.of_quiet {i i' : ι} {x : Instance} (hs : SoleWriter p c₀ i s)
    (hw : ∀ n w, x.phase = .writing n w → (s.inst i').phase = .writing n w)
    (hr : x.phase.isRunning → (s.inst i').phase.isRunning)
    (ho : x.phase.hasOpened → (s.inst i').phase.hasOpened) :
    SoleWriter p c₀ i (s.setInst i' x) := by
  by_cases hi : i' = i
  · subst hi
    refine ⟨hs.knows.of_sig_eq rfl hs.knows.data, fun n w hn => ?_, fun hx => ?_, fun k hne => ?_⟩
    · rw [setInst_inst_self] at hn
      exact hs.writing n w (hw n w hn)
    · rw [setInst_inst_self] at hx
      exact hs.running (hr hx)
    · rw [setInst_inst_of_ne hne]
      exact hs.other k hne
  · have hself : (s.setInst i' x).inst i = s.inst i := setInst_inst_of_ne (Ne.symm hi) x
    refine ⟨hs.knows.of_sig_eq rfl hs.knows.data, ?_, ?_, fun k hne => ?_⟩
    · rw [hself]
      exact hs.writing
    · rw [hself]
      exact hs.running
    · by_cases hk : k = i'
      · subst hk
        rw [setInst_inst_self]
        exact Bool.eq_false_iff.mpr fun h => by simpa [hs.other k hne] using ho h
      · rw [setInst_inst_of_ne hk]
        exact hs.other k hne

omit [Fintype ι] [DecidableEq κ] in
theorem SoleWriter.of_change {i : ι} {fs : Fs} {x : Instance} (hs : SoleWriter p c₀ i s)
    (hdata : ∀ m, Part p c₀ i (fs.data m))
    (hw : ∀ n w, x.phase = .writing n w →
      fs.path = some n ∧ fs.data n = (pidLine (p.pid i)).text.take w)
    (hr : x.phase.isRunning → fs.content = some (pidLine (p.pid i)).text) :
    SoleWriter p c₀ i ({ s with fs := fs }.setInst i x) := by
  refine ⟨hs.knows.of_sig_eq rfl hdata, ?_, ?_, fun k hne => ?_⟩
  · rw [setInst_inst_self]
    exact hw
  · rw [setInst_inst_self]
    exact hr
  · rw [setInst_inst_of_ne hne]
    exact hs.other k hne

omit [Fintype ι] [DecidableEq κ] in
theorem SoleWriter.of_open {i : ι} {x : Instance} (hs : SoleWriter p c₀ i s)
    (hx : x.phase = .writing (s.fs.openWrite (O_RDWR ||| O_CREAT ||| O_TRUNC)).2 0) :
    SoleWriter p c₀ i
      ({ s with fs := (s.fs.openWrite (O_RDWR ||| O_CREAT ||| O_TRUNC)).1 }.setInst i x) := by
  refine hs.of_change (fun m => ?_) (fun n w hn => ?_) fun h => ?_
  · rcases @Fs.data_openWrite s.fs (O_RDWR ||| O_CREAT ||| O_TRUNC) m with hm | hm
    · exact hm ▸ hs.knows.data m
    · exact .inr ⟨0, by simpa using hm⟩
  · cases hx.symm.trans hn
    exact ⟨Fs.path_openWrite, Fs.data_openWrite_self (by decide)⟩
  · rw [hx] at h
    cases h

omit [Fintype ι] [DecidableEq κ] in
theorem SoleWriter.of_write {i : ι} {x : Instance} {n w k : ℕ} (hs : SoleWriter p c₀ i s)
    (hn : (s.inst i).phase = .writing n w) (hle : w + k ≤ (pidLine (p.pid i)).text.length)
    (hx : x.phase = if w + k = (pidLine (p.pid i)).text.length then .created
      else .writing n (w + k)) :
    SoleWriter p c₀ i ({ s with
      fs := s.fs.write n (copied ((pidLine (p.pid i)).text.getD · 0) w k w) }.setInst i x) := by
  obtain ⟨hpath, hdata⟩ := hs.writing n w hn
  have hwrite := data_write_part hdata hle
  refine hs.of_change (fun m => ?_) (fun m v hm => ?_) fun h => ?_
  · by_cases hm : m = n
    · subst hm
      exact .inr ⟨w + k, hwrite⟩
    · exact (Fs.data_write_ne _ hm).symm ▸ hs.knows.data m
  · rw [hx] at hm
    split_ifs at hm
    cases hm
    exact ⟨hpath, hwrite⟩
  · rw [hx] at h
    split_ifs at h with hall
    · rw [hall, List.take_length] at hwrite
      exact (congrArg (Option.map _) hpath).trans (congrArg some hwrite)
    · cases h

/-- What each step keeps where no other instance opens the file. -/
theorem soleWriter_step {i : ι} (hopen : ∀ i', a = .inst i' (.openPid true) → i' = i)
    (hs : SoleWriter p c₀ i s) (h : step p a s = some s') : SoleWriter p c₀ i s' := by
  rcases step_cases h with ⟨i', a', fs, x, rfl, hsteps, rfl⟩ | ⟨j, a', rfl, hsteps⟩ |
    ⟨i', signo, rfl, -, -, rfl⟩ | ⟨rfl, rfl⟩
  · have hself (h : (s.inst i').phase.hasOpened = true) : i' = i := by
      by_contra hne
      rw [hs.other i' hne] at h
      cases h
    rcases hsteps.fs_cases with ⟨rfl, rfl, hx⟩ | ⟨n, w, k, rfl, hn, hk, hle, rfl, hx⟩ |
      ⟨ok, rfl, hcycle, -, rfl, hx⟩ | ⟨rfl, hw, hr, ho⟩
    · obtain rfl := hopen i' rfl
      exact hs.of_open hx
    · obtain rfl := hself (by rw [hn]; rfl)
      exact hs.of_write hn hle hx
    · obtain rfl := hself (by rw [hcycle]; rfl)
      refine hs.of_change (fun m => ?_) (fun n w hn => ?_) fun h => ?_
      · rw [Fs.data_unlink]
        exact hs.knows.data m
      · cases hx.symm.trans hn
      · rw [hx] at h
        cases h
    · exact hs.of_quiet hw hr ho
  · refine ⟨hs.knows.sigSteps hsteps fun c kill hc k hk => ⟨c, hc, signalProcess_kills k hk⟩,
      ?_, ?_, fun i' hne => ?_⟩
    · rw [hsteps.fs_eq, hsteps.phase_eq]
      exact hs.writing
    · rw [hsteps.fs_eq, hsteps.phase_eq]
      exact hs.running
    · rw [hsteps.phase_eq]
      exact hs.other i' hne
  · exact hs.of_quiet (fun n w hn => hn) id id
  · have hsame (n : ℕ) (hn : s.fs.path = some n) :
        (s.fs.openWrite (O_RDWR ||| O_CREAT)).1.path = some n ∧
          (s.fs.openWrite (O_RDWR ||| O_CREAT)).1.data = s.fs.data :=
      Fs.openWrite_of_path (by decide) hn
    refine ⟨hs.knows.of_sig_eq rfl fun m => ?_, fun n w hn => ?_, fun hx => ?_, hs.other⟩
    · show Part p c₀ i ((s.fs.openWrite (O_RDWR ||| O_CREAT)).1.data m)
      rcases @Fs.data_openWrite s.fs (O_RDWR ||| O_CREAT) m with hm | hm
      · exact hm ▸ hs.knows.data m
      · exact .inr ⟨0, by simpa using hm⟩
    · obtain ⟨hpath, hdata⟩ := hs.writing n w hn
      obtain ⟨hpath', hdata'⟩ := hsame n hpath
      exact ⟨hpath', hdata' ▸ hdata⟩
    · obtain ⟨n, hpath, hdata⟩ := Option.map_eq_some_iff.mp (hs.running hx)
      obtain ⟨hpath', hdata'⟩ := hsame n hpath
      exact Option.map_eq_some_iff.mpr ⟨n, hpath', hdata' ▸ hdata⟩

theorem run_soleWriter {i : ι} (hopen : ∀ i', Opened l i' → i' = i)
    (h : run (step p) l (init c₀) = some s) : SoleWriter p c₀ i s := by
  have hsole : (∀ i', Opened l i' → i' = i) → SoleWriter p c₀ i s := by
    refine run_history (I := fun l s => (∀ i', Opened l i' → i' = i) → SoleWriter p c₀ i s)
      ?_ h fun _ => soleWriter_init
    intro l a s s' hs ha hl
    refine soleWriter_step (fun i' hi => hl i' ?_) (hs fun i' hi => hl i' ?_) ha
    · exact hi ▸ List.mem_append_right l List.mem_cons_self
    · exact List.mem_append_left [a] hi
  exact hsole hopen

/-- The steps of a stop that nothing comes between. -/
def stopSteps (j : κ) (others : ℤ → ℤ → ℤ) : List (Action ι κ) :=
  [.sig j (.openRead true), .sig j (.pread true), .sig j (.kill others)]

theorem run_stopSteps (p : Parties ι κ) {c : Bytes} (hj : s.sig j = .starting)
    (hcontent : s.fs.content = some c) (others : ℤ → ℤ → ℤ) :
    ∃ s' r, run (step p) (stopSteps j others) s = some s' ∧ s'.sig j = .ended r ∧
      r = signalProcess (s.kill p others) p.path (some (pidFile p.path c)) (p.name j) ∧
      s'.fs = s.fs ∧ ∀ i, s'.inst i = receive p r.kills i (s.inst i) := by
  obtain ⟨n, hpath, hdata⟩ := Option.map_eq_some_iff.mp hcontent
  have h₁ := SigSteps.openRead (p := p) hj hpath
  have hopened : (s.setSig j (.opened n)).sig j = .opened n := setSig_sig_self _
  have h₂ := SigSteps.pread (p := p) hopened
  obtain ⟨s₂, hs₂⟩ : ∃ s₂, s₂ = (s.setSig j (.opened n)).setSig j
    (.read ((s.setSig j (.opened n)).fs.data n)) := ⟨_, rfl⟩
  rw [← hs₂] at h₂
  have hread : s₂.sig j = .read c := by
    rw [hs₂, setSig_sig_self, ← hdata]
    rfl
  have hinst : s₂.inst = s.inst := by rw [hs₂]; rfl
  have hkill : s₂.kill p others = s.kill p others := by
    funext pid signo
    rw [System.kill, System.kill, hinst]
  obtain ⟨r, hr⟩ : ∃ r, r =
    signalProcess (s.kill p others) p.path (some (pidFile p.path c)) (p.name j) := ⟨_, rfl⟩
  have h₃ := SigSteps.kill (p := p) (r := r) others hread (by rw [hkill, hr])
  obtain ⟨s₃, hs₃⟩ : ∃ s₃, s₃ = ({ s₂ with inst := fun i => receive p r.kills i (s₂.inst i) } :
    System ι κ).setSig j (.ended r) := ⟨_, rfl⟩
  rw [← hs₃] at h₃
  refine ⟨s₃, r, ?_, by rw [hs₃, setSig_sig_self], hr, by rw [hs₃, hs₂]; rfl, fun i => ?_⟩
  · rw [stopSteps]
    simp only [run_cons_eq_some]
    exact ⟨_, h₁.step_eq, s₂, h₂.step_eq, s₃, h₃.step_eq, rfl⟩
  · rw [hs₃, ← hinst]
    rfl

/-- An instance opens the pid file and writes a part of the line. -/
def partSteps (i : ι) (w : ℕ) : List (Action ι κ) :=
  [.inst i (.initSignals true), .inst i (.openPid true), .inst i (.pwrite (.wrote w))]

theorem run_partSteps (p : Parties ι κ) {w : ℕ} (hw : 1 ≤ w)
    (hle : w ≤ (pidLine (p.pid i)).text.length) :
    ∃ s, run (step p) (partSteps i w) (init none) = some s ∧
      s.fs.content = some ((pidLine (p.pid i)).text.take w) ∧ ∀ j, s.sig j = .starting := by
  obtain ⟨s₀, hs₀⟩ : ∃ s₀ : System ι κ, s₀ = init none := ⟨_, rfl⟩
  have hstart : (s₀.inst i).phase = .starting := by rw [hs₀]; rfl
  obtain ⟨s₁, h₁, -, hi₁, hj₁⟩ := exists_step_inst (p := p) (.initSignals true hstart)
  have hready : (s₁.inst i).phase = .ready := by rw [hi₁]; rfl
  obtain ⟨s₂, h₂, hf₂, hi₂, hj₂⟩ := exists_step_inst (p := p) (.openPid hready)
  obtain ⟨n, hn⟩ : ∃ n, n = (s₁.fs.openWrite (O_RDWR ||| O_CREAT ||| O_TRUNC)).2 := ⟨_, rfl⟩
  have hwriting : (s₂.inst i).phase = .writing n 0 := by rw [hi₂, hn]
  have hpath : s₂.fs.path = some n := by rw [hf₂, hn, Fs.path_openWrite]
  have hdata : s₂.fs.data n = (pidLine (p.pid i)).text.take 0 := by
    rw [hf₂, hn, Fs.data_openWrite_self (by decide), List.take_zero]
  obtain ⟨s₃, h₃, hf₃, -, hj₃⟩ :=
    exists_step_inst (.wrote hwriting hw ((Nat.zero_add w).trans_le hle))
  refine ⟨s₃, ?_, ?_, fun j => by rw [hj₃, hj₂, hj₁, hs₀]; rfl⟩
  · rw [partSteps, ← hs₀]
    simp only [run_cons_eq_some]
    exact ⟨s₁, h₁, s₂, h₂, s₃, h₃, rfl⟩
  · rw [hf₃, Fs.content]
    refine (congrArg (Option.map _) hpath).trans (congrArg some ?_)
    rw [data_write_part hdata (by omega), Nat.zero_add]

/-- Where one instance opens the pid file, that was not there, and its line may be written in
parts, the processes that a stop can reach are those with the pids that the first digits of its
pid make: no other one in any run, and each of these in some run. -/
theorem kills_part_iff {i : ι} {j : κ} (hpid : 1 ≤ (p.pid i).toInt) {sig : Signal}
    (hsig : sig ∈ signals) (hname : p.name j = sig.name) (pid signo : ℤ) :
    (∃ l s r, run (step p) l (init none) = some s ∧ (∀ i', Opened l i' → i' = i) ∧
      s.sig j = .ended r ∧ (pid, signo) ∈ r.kills) ↔
    signo = sig.signo ∧ ∃ w, 1 ≤ w ∧ pid = value ((text (p.pid i).toInt.natAbs).take w) := by
  have hnodup : (signals.map (·.name)).Nodup := by decide
  constructor
  · rintro ⟨l, s, r, hrun, hopen, hr, hk⟩
    obtain ⟨c, hc, hpidOf, hne, sig', hsig', hname', hsigno⟩ :=
      (run_soleWriter hopen hrun).knows.kills j r hr _ hk
    obtain rfl : sig' = sig :=
      List.inj_on_of_nodup_map hnodup hsig' hsig (hname'.trans hname)
    refine ⟨hsigno, ?_⟩
    rcases hc with hc | ⟨w, rfl⟩
    · cases hc
    · have hw : 1 ≤ w := by
        by_contra hw
        obtain rfl : w = 0 := by omega
        exact hne pidOf_nil
      exact ⟨w, hw, hpidOf.trans (pidOf_take hpid hw)⟩
  · rintro ⟨rfl, w, hw, rfl⟩
    have hline : 1 ≤ (pidLine (p.pid i)).text.length := by simp [pidLine]
    obtain ⟨s₁, hrun₁, hcontent, hidle⟩ := run_partSteps p
      (show 1 ≤ min w (pidLine (p.pid i)).text.length by omega) (min_le_right _ _)
    obtain ⟨s, r, hrun, hended, hr, -⟩ := run_stopSteps p (hidle j) hcontent fun _ _ => 0
    refine ⟨_, s, r, run_append_eq_some.mpr ⟨s₁, hrun₁, hrun⟩, fun i' hi => ?_, hended, ?_⟩
    · simpa [Opened, partSteps, stopSteps] using hi
    generalize s₁.kill p (fun _ _ => 0) = kill at hr
    subst hr
    have hpidOf := pidOf_take hpid hw
    rw [← List.take_eq_take_min]
    rcases signalProcess_cases kill p.path ((pidLine (p.pid i)).text.take w) (p.name j) with
      ⟨hbad, -⟩ | ⟨v, hv, -, hkills, -⟩
    · rw [pidOf, hbad] at hpidOf
      omega
    · rw [hkills, hname, osSignalProcess, osSignalLoop_of_mem hnodup hsig, ← hpidOf, pidOf, hv]
      exact List.mem_singleton_self _

/-- The first digit of pid 4321 is the pid of another process. -/
theorem kills_part_iff_four : ∃ l s r, run (step twoParties) l (init none) = some s ∧
    (∀ i', Opened l i' → i' = 0) ∧ s.sig 0 = .ended r ∧ (4, SIGTERM) ∈ r.kills :=
  (kills_part_iff (p := twoParties) (i := 0) (j := 0) (by decide)
    (show ⟨SIGTERM, ascii "stop"⟩ ∈ signals by decide) rfl 4 SIGTERM).mpr
    ⟨rfl, 1, le_rfl, by decide⟩

end Parts

end System

end Lingx.Process
