import Lingx.Library.Except
import Lingx.Logs.Insert

/-! The logs of a configuration. Each accepted directive installs one entry, its level
and its file; the chain from the head is the stable sort of the entries installed so
far, in decreasing order of the levels. -/

namespace Lingx.Logs

open Library

variable {env : Env} {s t : LogCycle} {es : List Entry}

/-- What a directive installs, with the open files after it. -/
def directiveEntry (env : Env) (o : Opened) : List Bytes → Except LogError (Entry × Opened)
  | _ :: file :: levels => do
    let (f, o) ← directiveFile env o file
    let level ← logSetLevels STDERR levels
    pure (⟨level, f⟩, o)
  | _ => .error .missingArgument

def directiveEntries (env : Env) (o : Opened) :
    List (List Bytes) → Except LogError (List Entry × Opened)
  | [] => .ok ([], o)
  | args :: directives => do
    let (e, o) ← directiveEntry env o args
    let (es, o) ← directiveEntries env o directives
    pure (e :: es, o)

/-- The chain from the head holds the entries, in the order of their levels. -/
structure Installed (s : LogCycle) (l : List ℕ) (es : List Entry) : Prop where
  chain : Chain s.next (some 0) (0 :: l)
  nodup : (0 :: l).Nodup
  lt : ∀ a ∈ 0 :: l, a < s.logN
  entries : (0 :: l).map s.entry = StableSort.sort Entry.rank es

/-- The head is as it was made, or the entries are installed. -/
def Configured (s : LogCycle) (es : List Entry) : Prop :=
  (es = [] ∧ s.log 0 = {} ∧ 0 < s.logN) ∨ ∃ l, Installed s l es

section Levels

theorem findLogLevel_ne {level level' : Level} {value : Bytes}
    (h : findLogLevel level value = .ok (level', true)) : level' ≠ STDERR := by
  simp only [findLogLevel] at h
  split at h
  · cases h
  · rename_i n hn
    have hlt := (List.findIdx?_eq_some_iff_getElem.mp hn).1
    split_ifs at h
    obtain ⟨rfl, -⟩ := Prod.mk.inj (Except.ok.inj h)
    have hset : ∀ n < 8, BitVec.ofNat 32 (n + 1) ≠ STDERR := by decide
    exact hset n hlt

theorem findDebugLevel_ne {level level' : Level} {found : Bool} {value : Bytes}
    (hf : found = true → level ≠ STDERR)
    (h : findDebugLevel level found value = .ok (level', true)) : level' ≠ STDERR := by
  simp only [findDebugLevel] at h
  split at h
  · obtain ⟨rfl, rfl⟩ := Prod.mk.inj (Except.ok.inj h)
    exact hf rfl
  · rename_i n hn
    have hlt := (List.findIdx?_eq_some_iff_getElem.mp hn).1
    split_ifs at h
    obtain ⟨rfl, -⟩ := Prod.mk.inj (Except.ok.inj h)
    have hset : ∀ n < 7, DEBUG_FIRST <<< n ≠ 0 := by decide
    exact fun hz => hset n hlt (BitVec.or_eq_zero_iff.mp hz).2

theorem logSetLevel_ne {level level' : Level} {value : Bytes}
    (h : logSetLevel level value = .ok level') : level' ≠ STDERR := by
  obtain ⟨⟨l₁, found₁⟩, h₁, h⟩ := bind_eq_ok.mp h
  obtain ⟨⟨l₂, found₂⟩, h₂, h⟩ := bind_eq_ok.mp h
  simp only at h
  split_ifs at h with hfound
  obtain rfl := Except.ok.inj h
  subst hfound
  exact findDebugLevel_ne (fun hf => findLogLevel_ne (hf ▸ h₁)) h₂

theorem foldlM_logSetLevel_ne {level level' : Level} {value : Bytes} {values : List Bytes}
    (h : (value :: values).foldlM logSetLevel level = .ok level') : level' ≠ STDERR := by
  induction values generalizing level value with
  | nil =>
    obtain ⟨l, hl, h⟩ := foldlM_cons_eq_ok.mp h
    exact pure_eq_ok.mp h ▸ logSetLevel_ne hl
  | cons v values ih =>
    obtain ⟨l, -, h⟩ := foldlM_cons_eq_ok.mp h
    exact ih h

theorem logSetLevels_ne {level : Level} {values : List Bytes}
    (h : logSetLevels STDERR values = .ok level) : level ≠ STDERR := by
  rw [logSetLevels] at h
  split_ifs at h with hv
  · cases h
    decide
  · obtain ⟨l, hl, hp⟩ := bind_eq_ok.mp h
    obtain ⟨v, vs, rfl⟩ := List.exists_cons_of_ne_nil hv
    have hne := foldlM_logSetLevel_ne hl
    rw [← pure_eq_ok.mp hp]
    split_ifs
    · decide
    · exact hne

end Levels

theorem directiveEntry_ok {o o' : Opened} {name file : Bytes} {levels : List Bytes}
    {f : Option OpenFile} {level : Level} (hf : directiveFile env o file = .ok (f, o'))
    (hl : logSetLevels STDERR levels = .ok level) :
    directiveEntry env o (name :: file :: levels) = .ok (⟨level, f⟩, o') := by
  exact bind_eq_ok.mpr ⟨_, hf, bind_eq_ok.mpr ⟨_, hl, rfl⟩⟩

theorem logSetFields_ok {a : ℕ} {file : Bytes} {levels : List Bytes}
    (h : logSetFields env a file levels s = .ok t) : ∃ f level,
      directiveFile env s.opened file = .ok (f, t.opened) ∧
      logSetLevels (s.log a).level levels = .ok level ∧ t.logN = s.logN ∧
      t.log = Function.update s.log a ⟨level, f, (s.log a).next⟩ := by
  rw [logSetFields] at h
  obtain ⟨⟨f, o⟩, hf, h⟩ := bind_eq_ok.mp h
  obtain ⟨level, hl, h⟩ := bind_eq_ok.mp h
  obtain rfl := pure_eq_ok.mp h
  refine ⟨f, level, hf, by simpa [LogCycle.setFile, LogCycle.setLog] using hl, rfl, ?_⟩
  simp [LogCycle.setFile, LogCycle.setLevel, LogCycle.setLog]

namespace Installed

variable {l : List ℕ}

theorem head_level (g : Installed s l es) (hne : ∀ e ∈ es, e.level ≠ STDERR) :
    (s.log 0).level ≠ STDERR := by
  have hm : s.entry 0 ∈ StableSort.sort Entry.rank es := by
    rw [← g.entries]
    simp
  exact hne _ ((StableSort.sort_perm _ es).mem_iff.mp hm)

theorem mem_iff (g : Installed s l es) {e : Entry} : e ∈ es ↔ ∃ a ∈ 0 :: l, s.entry a = e := by
  rw [← (StableSort.sort_perm Entry.rank es).mem_iff, ← g.entries, List.mem_map]

theorem length_lt (g : Installed s l es) : l.length < s.logN := by
  have hsub : (0 :: l) ⊆ List.range s.logN := fun a ha => List.mem_range.mpr (g.lt a ha)
  have hle := (g.nodup.subperm hsub).length_le
  rw [List.length_cons, List.length_range] at hle
  exact hle

theorem logInsert (g : Installed s l es) {e : Entry} (hN : t.logN = s.logN + 1)
    (hlog : t.log = Function.update s.log s.logN ⟨e.level, e.file, none⟩) :
    ∃ l', Installed (logInsert t 0 s.logN) l' (es ++ [e]) := by
  have hfresh : s.logN ∉ 0 :: l := fun h => lt_irrefl _ (g.lt _ h)
  have hnext : ∀ a ∈ 0 :: l, t.next a = s.next a := fun a ha => by
    have : a ≠ s.logN := (g.lt a ha).ne
    simp [LogCycle.next, hlog, this]
  have hentry : ∀ a ∈ 0 :: l, t.entry a = s.entry a := fun a ha => by
    have : a ≠ s.logN := (g.lt a ha).ne
    simp [LogCycle.entry, hlog, this]
  have hself : t.entry s.logN = e := by simp [LogCycle.entry, hlog]
  obtain ⟨l', hc, hp, hN', hmap⟩ := logInsert_spec (s := t) (l := l) (h := 0)
    (by have := g.length_lt; omega) (g.chain.congr hnext) g.nodup hfresh
    (by simp [LogCycle.next, hlog])
  have hperm : (0 :: l').Perm (s.logN :: 0 :: l) := (hp.cons 0).trans (.swap _ _ _)
  refine ⟨l', hc, hperm.nodup_iff.mpr (List.nodup_cons.mpr ⟨hfresh, g.nodup⟩), fun a ha => ?_, ?_⟩
  · rw [hN', hN]
    rcases List.mem_cons.mp (hperm.mem_iff.mp ha) with rfl | ha
    · omega
    · have := g.lt a ha
      omega
  · rw [hmap, hself, List.map_congr_left hentry, g.entries, StableSort.sort_concat]

end Installed

theorem installed_head {e : Entry} (hN : 0 < t.logN) (hlog : t.log 0 = ⟨e.level, e.file, none⟩) :
    Installed t [] [e] where
  chain := ⟨rfl, by simp [LogCycle.next, hlog]⟩
  nodup := List.nodup_singleton 0
  lt := by simpa using hN
  entries := by simp [LogCycle.entry, hlog, StableSort.sort, StableSort.insert]

theorem Configured.logSetLog {args : List Bytes} (g : Configured s es)
    (hne : ∀ e ∈ es, e.level ≠ STDERR) (h : logSetLog env 0 args s = .ok t) :
    ∃ e, directiveEntry env s.opened args = .ok (e, t.opened) ∧ e.level ≠ STDERR ∧
      Configured t (es ++ [e]) := by
  match args, h with
  | [], h => cases h
  | [_], h => cases h
  | name :: file :: levels, h =>
    rcases g with ⟨rfl, hlog, hN⟩ | ⟨l, g⟩
    · rw [Logs.logSetLog, if_pos (by rw [hlog])] at h
      obtain ⟨u, hu, h⟩ := bind_eq_ok.mp h
      obtain ⟨f, level, hf, hl, hN', hu'⟩ := logSetFields_ok hu
      obtain rfl : u = t := by simpa using pure_eq_ok.mp h
      rw [hlog] at hl hu'
      exact ⟨⟨level, f⟩, directiveEntry_ok hf hl, logSetLevels_ne hl,
        .inr ⟨[], installed_head (by omega) (by rw [hu', Function.update_self])⟩⟩
    · rw [Logs.logSetLog, if_neg (g.head_level hne)] at h
      obtain ⟨u, hu, h⟩ := bind_eq_ok.mp h
      obtain ⟨f, level, hf, hl, hN, hu'⟩ := logSetFields_ok hu
      have hne0 : (0 : ℕ) ≠ s.logN := (g.lt 0 (by simp)).ne
      obtain rfl : logInsert u 0 s.logN = t := by
        have := pure_eq_ok.mp h
        rwa [if_pos hne0] at this
      have hl' : logSetLevels STDERR levels = .ok level := by
        simpa [LogCycle.setLog] using hl
      obtain ⟨l', g'⟩ := g.logInsert (e := ⟨level, f⟩) hN (by
        rw [hu']
        simp [LogCycle.setLog])
      refine ⟨⟨level, f⟩, ?_, ?_, .inr ⟨l', g'⟩⟩
      · rw [logInsert_opened]
        exact directiveEntry_ok hf hl'
      · exact logSetLevels_ne hl'

/-- The entries of the accepted directives are installed, in their order. -/
theorem Configured.configureLogs {ds : List (List Bytes)} (g : Configured s es)
    (hne : ∀ e ∈ es, e.level ≠ STDERR) (h : configureLogs env s ds = .ok t) :
    ∃ es', directiveEntries env s.opened ds = .ok (es', t.opened) ∧ es'.length = ds.length ∧
      (∀ e ∈ es', e.level ≠ STDERR) ∧ Configured t (es ++ es') := by
  induction ds generalizing s es with
  | nil =>
    obtain rfl := pure_eq_ok.mp h
    exact ⟨[], rfl, rfl, by simp, by simpa using g⟩
  | cons args ds ih =>
    obtain ⟨u, hu, h⟩ := foldlM_cons_eq_ok.mp h
    obtain ⟨e, he, hle, g'⟩ := g.logSetLog hne hu
    have hne' : ∀ e' ∈ es ++ [e], e'.level ≠ STDERR := by
      intro e' he'
      rcases List.mem_append.mp he' with he' | he'
      · exact hne e' he'
      · rwa [List.mem_singleton.mp he']
    obtain ⟨es', hes', hlen, hne'', g''⟩ := ih g' hne' h
    refine ⟨e :: es', ?_, by simp [hlen], ?_, by simpa using g''⟩
    · exact bind_eq_ok.mpr ⟨_, he, bind_eq_ok.mpr ⟨_, hes', rfl⟩⟩
    · exact List.forall_mem_cons.mpr ⟨hle, hne''⟩

/-- A log with a file is found exactly when there is one on the chain. -/
theorem getFileLog_isSome_iff {a k : ℕ} {l : List ℕ} (hk : l.length < k)
    (hc : Chain s.next (some a) (a :: l)) :
    (getFileLog s k (some a)).isSome ↔ ∃ b ∈ a :: l, (s.log b).file.isSome := by
  induction l generalizing a k with
  | nil =>
    obtain ⟨k, rfl⟩ : ∃ k', k = k' + 1 := ⟨k - 1, by omega⟩
    have hnext : (s.log a).next = none := hc.2
    by_cases hf : (s.log a).file.isSome
    · simp [getFileLog, hf]
    · cases k <;> simp [getFileLog, hf, hnext]
  | cons b l ih =>
    obtain ⟨k, rfl⟩ : ∃ k', k = k' + 1 := ⟨k - 1, by omega⟩
    have hnext : (s.log a).next = some b := hc.2.1
    by_cases hf : (s.log a).file.isSome
    · simp [getFileLog, hf]
    · have hb := ih (a := b) (k := k) (by simpa using hk) ⟨rfl, hc.2.2⟩
      rw [getFileLog, if_neg hf, hnext, hb]
      simp [hf]

theorem Configured.openDefault (env : Env) (g : Configured s es)
    (hne : ∀ e ∈ es, e.level ≠ STDERR) :
    ((∃ e ∈ es, e.file.isSome) ∧ logOpenDefault env s = s) ∨
      ((∀ e ∈ es, e.file = none) ∧ ∃ l f,
        logOpenFile env s.opened env.errorLogPath = (f, (logOpenDefault env s).opened) ∧
        Installed (logOpenDefault env s) l (es ++ [⟨ERROR, f⟩])) := by
  rcases g with ⟨rfl, hlog, hN⟩ | ⟨l, g⟩
  · have hnone : getFileLog s s.logN (some 0) = none := by
      obtain ⟨k, hk⟩ : ∃ k, s.logN = k + 1 := ⟨s.logN - 1, by omega⟩
      rw [hk]
      cases k <;> simp [getFileLog, hlog]
    refine .inr ⟨by simp, [], (logOpenFile env s.opened env.errorLogPath).1, ?_, ?_⟩
    · simp [logOpenDefault, hnone, hlog, LogCycle.setFile, LogCycle.setLog,
        LogCycle.setLevel]
    · refine installed_head ?_ ?_
      · simpa [logOpenDefault, hnone, hlog, LogCycle.setFile, LogCycle.setLog,
          LogCycle.setLevel] using hN
      · simp [logOpenDefault, hnone, hlog, LogCycle.setFile, LogCycle.setLog,
          LogCycle.setLevel]
  · have hfound := getFileLog_isSome_iff g.length_lt g.chain
    have hiff : (∃ b ∈ 0 :: l, (s.log b).file.isSome) ↔ ∃ e ∈ es, e.file.isSome := by
      constructor
      · rintro ⟨b, hb, hf⟩
        exact ⟨s.entry b, g.mem_iff.mpr ⟨b, hb, rfl⟩, hf⟩
      · rintro ⟨e, he, hf⟩
        obtain ⟨b, hb, rfl⟩ := g.mem_iff.mp he
        exact ⟨b, hb, hf⟩
    rw [hiff] at hfound
    by_cases hsome : ∃ e ∈ es, e.file.isSome
    · exact .inl ⟨hsome, by rw [logOpenDefault, if_pos (hfound.mpr hsome)]⟩
    · have hnone : ∀ e ∈ es, e.file = none := by simpa using hsome
      obtain ⟨f, hf⟩ : ∃ f, f = (logOpenFile env s.opened env.errorLogPath).1 := ⟨_, rfl⟩
      obtain ⟨u, hu⟩ : ∃ u, u = ({ s.makeLog.2.setLevel s.logN ERROR with
          opened := (logOpenFile env s.opened env.errorLogPath).2 } : LogCycle).setFile s.logN f :=
        ⟨_, rfl⟩
      have hrun : logOpenDefault env s = logInsert u 0 s.logN := by
        have hne0 : s.logN ≠ 0 := (g.lt 0 (by simp)).ne'
        rw [logOpenDefault, if_neg (mt hfound.mp hsome), if_pos (g.head_level hne), hu, hf]
        exact if_pos hne0
      have hlog : u.log = Function.update s.log s.logN ⟨ERROR, f, none⟩ := by
        simp [hu, LogCycle.makeLog, LogCycle.setFile, LogCycle.setLevel, LogCycle.setLog]
      obtain ⟨l', g'⟩ := g.logInsert (e := ⟨ERROR, f⟩) (by rw [hu]; rfl) hlog
      refine .inr ⟨hnone, l', f, ?_, hrun ▸ g'⟩
      rw [hrun, logInsert_opened, hf, hu]
      rfl

end Lingx.Logs
