import Lingx.Logs.Configure
import Lingx.Logs.OpenFiles

/-! Delivery of a message. The chain of the configured logs is sorted, so the loop of
`Log::log`, which stops at the first log of a lower level, writes to exactly the logs
that the message is for. -/

namespace Lingx.Logs

open Library

variable {env : Env} {s t : LogCycle} {es : List Entry}

/-- The write to the file of a log. -/
def WritesTo (s : LogCycle) (a : ℕ) (w : Write) : Prop :=
  ∃ f, (s.log a).file = some f ∧ w = .file a f.fd

/-- The logs that a message of a level is for. -/
def LogCycle.listeners (s : LogCycle) (l : List ℕ) (lvl : Level) : List ℕ :=
  l.filter fun a => lvl ≤ (s.log a).level

/-- The file of one of the logs is stderr. -/
def OnStderr (s : LogCycle) (l : List ℕ) : Prop :=
  ∃ a ∈ l, ∃ f, (s.log a).file = some f ∧ f.fd = STDERR_FILENO

/-- The chain from the head holds one log for each entry, sorted by level, with the
entries of one level in their order. -/
structure LogChain (s : LogCycle) (l : List ℕ) (es : List Entry) : Prop where
  chain : Chain s.next (some 0) (0 :: l)
  nodup : (0 :: l).Nodup
  perm : ((0 :: l).map s.entry).Perm es
  sorted : ((0 :: l).map s.entry).Pairwise fun d e => e.level ≤ d.level
  stable : ∀ level, ((0 :: l).map s.entry).filter (·.level = level) = es.filter (·.level = level)

/-- A message is written once to each log that it is for, and to stderr if it is to go
there and has not. -/
def Delivers (s : LogCycle) (l : List ℕ) (useStderr : Bool) (lvl : Level) : Prop :=
  ∃ ws, List.Forall₂ (WritesTo s) (s.listeners l lvl) ws ∧
    (useStderr = true ∧ lvl ≤ WARN ∧ ¬ OnStderr s (s.listeners l lvl) →
      logLog s useStderr lvl = some (ws ++ [.stderr])) ∧
    (¬ (useStderr = true ∧ lvl ≤ WARN ∧ ¬ OnStderr s (s.listeners l lvl)) →
      logLog s useStderr lvl = some ws)

/-- What is installed where no directive is given. -/
def defaultEntries (env : Env) (ds : List (List Bytes)) : List Entry :=
  if ds = [] then [⟨ERROR, (logOpenFile env {} env.errorLogPath).1⟩] else []

/-- On a sorted chain the loop of `Log::log` writes to each log that is not lower than
the message. -/
theorem logWrites_spec {lvl : Level} {k : ℕ} {p : Option ℕ} {l : List ℕ} (hk : l.length ≤ k)
    (hc : Chain s.next p l) (hs : (l.map s.entry).Pairwise fun d e => e.rank ≤ d.rank)
    (hf : ∀ a ∈ l, (s.log a).file.isSome) :
    ∃ ws, logWrites s lvl k p = some ws ∧
      List.Forall₂ (WritesTo s) (s.listeners l lvl) ws := by
  induction l generalizing k p with
  | nil =>
    obtain rfl : p = none := hc
    exact ⟨[], by cases k <;> rfl, .nil⟩
  | cons a l ih =>
    obtain ⟨rfl, hc⟩ := hc
    obtain ⟨k, rfl⟩ : ∃ k', k = k' + 1 := ⟨k - 1, by simp at hk; omega⟩
    obtain ⟨hle, hs⟩ := List.pairwise_cons.mp hs
    by_cases hlt : (s.log a).level < lvl
    · refine ⟨[], by rw [logWrites, if_pos hlt], ?_⟩
      have hnil : s.listeners (a :: l) lvl = [] := by
        refine List.filter_eq_nil_iff.mpr fun b hb hlb => ?_
        have hlb : lvl.toNat ≤ (s.log b).level.toNat := by simpa [BitVec.le_def] using hlb
        have hal : (s.log a).level.toNat < lvl.toNat := hlt
        rcases List.mem_cons.mp hb with rfl | hb
        · omega
        · have hba : (s.log b).level.toNat ≤ (s.log a).level.toNat :=
            hle (s.entry b) (List.mem_map_of_mem hb)
          omega
      rw [hnil]
      exact .nil
    · obtain ⟨f, hfa⟩ := Option.isSome_iff_exists.mp (hf a (by simp))
      obtain ⟨ws, hws, hall⟩ := ih (by simpa using hk) hc hs fun b hb => hf b (by simp [hb])
      refine ⟨.file a f.fd :: ws, ?_, ?_⟩
      · rw [logWrites, if_neg hlt]
        simp only [LogCycle.next] at hws
        simp [hfa, hws]
      · rw [LogCycle.listeners, List.filter_cons_of_pos (by simpa using BitVec.not_lt.mp hlt)]
        exact .cons ⟨f, hfa, rfl⟩ hall

/-- The lines that go to stderr come from a log whose file it is. -/
theorem wroteStderr_iff {l : List ℕ} {ws : List Write} (h : List.Forall₂ (WritesTo s) l ws) :
    wroteStderr ws = true ↔ OnStderr s l := by
  induction h with
  | nil => simp [wroteStderr, OnStderr]
  | cons hw _ ih =>
    obtain ⟨f, hf, rfl⟩ := hw
    rw [wroteStderr, List.any_cons, Bool.or_eq_true, ← wroteStderr, ih]
    simp [OnStderr, hf]

theorem Installed.logWrites {l : List ℕ} (g : Installed s l es) (hf : ∀ e ∈ es, e.file.isSome)
    (lvl : Level) : ∃ ws, logWrites s lvl s.logN (some 0) = some ws ∧
      List.Forall₂ (WritesTo s) (s.listeners (0 :: l) lvl) ws := by
  refine logWrites_spec g.length_lt g.chain ?_ fun a ha => ?_
  · rw [g.entries]
    exact StableSort.sort_pairwise _ es
  · exact hf _ (g.mem_iff.mpr ⟨a, ha, rfl⟩)

theorem directiveEntry_cases {o o' : Opened} {args : List Bytes} {e : Entry}
    (h : directiveEntry env o args = .ok (e, o')) :
    logOpenFile env o (fileName (args.getD 1 [])) = (e.file, o') := by
  match args, h with
  | [], h => cases h
  | [_], h => cases h
  | _ :: file :: levels, h =>
    obtain ⟨⟨f, o₁⟩, hf, h⟩ := bind_eq_ok.mp h
    obtain ⟨level, -, h⟩ := bind_eq_ok.mp h
    obtain ⟨rfl, rfl⟩ := Prod.mk.inj (pure_eq_ok.mp h)
    exact directiveFile_ok hf

theorem directiveEntries_isSome {ds : List (List Bytes)} {o o' : Opened}
    (h : directiveEntries env o ds = .ok (es, o')) : o.opens ≤ o'.opens ∧
      ((∀ k < o'.opens, env.openRc k ≠ -1) → ∀ e ∈ es, e.file.isSome) := by
  induction ds generalizing o es with
  | nil =>
    obtain ⟨rfl, rfl⟩ := Prod.mk.inj (Except.ok.inj h)
    exact ⟨le_rfl, by simp⟩
  | cons args ds ih =>
    obtain ⟨⟨e, o₁⟩, he, h⟩ := bind_eq_ok.mp h
    obtain ⟨⟨es₁, o₂⟩, hes, h⟩ := bind_eq_ok.mp h
    obtain ⟨rfl, rfl⟩ := Prod.mk.inj (pure_eq_ok.mp h)
    obtain ⟨hle, hsome⟩ := ih hes
    have hfile := directiveEntry_cases he
    have hmono : o.opens ≤ o₁.opens := by
      have := logOpenFile_opens env o (fileName (args.getD 1 []))
      rwa [hfile] at this
    refine ⟨hmono.trans hle, fun hok => List.forall_mem_cons.mpr ⟨?_, hsome hok⟩⟩
    exact logOpenFile_isSome hfile fun k hk => hok k (lt_of_lt_of_le hk hle)

theorem Installed.logChain {l : List ℕ} (g : Installed s l es) : LogChain s l es where
  chain := g.chain
  nodup := g.nodup
  perm := g.entries ▸ StableSort.sort_perm _ es
  sorted := g.entries ▸ StableSort.sort_pairwise Entry.rank es
  stable level := by
    have h := StableSort.filter_sort Entry.rank es level.toNat
    simp only [Entry.rank, BitVec.toNat_inj] at h
    rw [g.entries]
    exact h

theorem Installed.delivers {l : List ℕ} (g : Installed s l es) (hf : ∀ e ∈ es, e.file.isSome)
    (useStderr : Bool) (lvl : Level) : Delivers s (0 :: l) useStderr lvl := by
  obtain ⟨ws, hws, hall⟩ := g.logWrites hf lvl
  have hstderr := wroteStderr_iff hall
  have hlog : logLog s useStderr lvl =
      some (if !useStderr || WARN < lvl || wroteStderr ws then ws else ws ++ [.stderr]) := by
    simp [logLog, hws]
  refine ⟨ws, hall, fun h => ?_, fun h => ?_⟩
  · obtain ⟨hu, hle, hnot⟩ := h
    have hno : wroteStderr ws ≠ true := fun hw => hnot (hstderr.mp hw)
    have hwarn : ¬ WARN < lvl := BitVec.not_lt.mpr hle
    rw [hlog, if_neg]
    simp [hu, hwarn, hno]
  · rw [hlog, if_pos]
    by_contra hcon
    simp only [Bool.or_eq_true, not_or, Bool.not_eq_true', decide_eq_true_eq] at hcon
    obtain ⟨⟨hu, hle⟩, hno⟩ := hcon
    exact h ⟨by simpa using hu, BitVec.not_lt.mp hle, fun hw => hno (hstderr.mpr hw)⟩

/-- The chain of the configured logs, and what a message of each level is written to. -/
theorem logLog_deliver {ds : List (List Bytes)} (h : configureLogs env .init ds = .ok s)
    (hopen : ∀ k < (logOpenDefault env s).opened.opens, env.openRc k ≠ -1) :
    ∃ es l, directiveEntries env {} ds = .ok (es, s.opened) ∧ es.length = ds.length ∧
      LogChain (logOpenDefault env s) l (es ++ defaultEntries env ds) ∧
      ∀ useStderr lvl, Delivers (logOpenDefault env s) (0 :: l) useStderr lvl := by
  have hinit : Configured LogCycle.init [] := .inl ⟨rfl, rfl, Nat.one_pos⟩
  obtain ⟨es, hes, hlen, hne, g⟩ := hinit.configureLogs (by simp) h
  rw [List.nil_append] at g
  obtain ⟨-, hsome⟩ := directiveEntries_isSome hes
  refine ⟨es, ?_⟩
  rcases g.openDefault env hne with ⟨⟨e, he, -⟩, hsame⟩ | ⟨hnone, l, f, hf, g'⟩
  · have hds : ds ≠ [] := by
      rintro rfl
      simp [List.length_eq_zero_iff.mp hlen] at he
    obtain ⟨rfl, -⟩ | ⟨l, g⟩ := g
    · simp at he
    · rw [hsame] at hopen ⊢
      refine ⟨l, hes, hlen, ?_, g.delivers (hsome hopen)⟩
      simpa [defaultEntries, hds] using g.logChain
  · have hmono := logOpenFile_opens env s.opened env.errorLogPath
    rw [hf] at hmono
    have hall := hsome fun k hk => hopen k (lt_of_lt_of_le hk hmono)
    obtain rfl : es = [] := List.eq_nil_iff_forall_not_mem.mpr fun e he => by
      have := hall e he
      rw [hnone e he] at this
      cases this
    obtain rfl : ds = [] := List.length_eq_zero_iff.mp hlen.symm
    have ho : s.opened = {} := ((Prod.mk.inj (Except.ok.inj hes)).2).symm
    have hfs : f.isSome := logOpenFile_isSome hf hopen
    refine ⟨l, hes, hlen, ?_, g'.delivers (by simpa using hfs)⟩
    have hd : defaultEntries env [] = [⟨ERROR, f⟩] := by
      rw [defaultEntries, if_pos rfl, ← ho, hf]
    rw [hd]
    exact g'.logChain

/-- An environment in which every call of `open()` succeeds. -/
def openEnv : Env := ⟨ascii "/lingx", [], fun k => k + 3⟩

/-- Three directives, one of which takes the place of the head. -/
theorem logLog_deliver_three : ∃ s, configureLogs openEnv .init
      [[ascii "error_log", ascii "a"], [ascii "error_log", ascii "b", ascii "debug"],
        [ascii "error_log", ascii "stderr", ascii "error"]] = .ok s ∧
    ∃ es l, es.length = 3 ∧ LogChain (logOpenDefault openEnv s) l (es ++ []) ∧
      Delivers (logOpenDefault openEnv s) (0 :: l) true ERROR := by
  have hopen : ∀ k, openEnv.openRc k ≠ -1 := fun k => by
    show (k : ℤ) + 3 ≠ -1
    omega
  refine ⟨_, rfl, ?_⟩
  obtain ⟨es, l, -, hlen, hc, hd⟩ := @logLog_deliver openEnv _
    [[ascii "error_log", ascii "a"], [ascii "error_log", ascii "b", ascii "debug"],
      [ascii "error_log", ascii "stderr", ascii "error"]] rfl fun k _ => hopen k
  exact ⟨es, l, hlen, hc, hd true ERROR⟩

end Lingx.Logs
