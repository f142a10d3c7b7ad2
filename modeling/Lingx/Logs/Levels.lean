import Lingx.Logs.State
import Lingx.Library.Except
import Mathlib.Tactic.MkIffOfInductiveProp

/-! The levels of an `error_log` directive. What `Log_set_levels_` accepts is stated on
the tables of the names: no name, one severity, or debug names only, whose masks are
joined. The running level tells the three apart: it is `STDERR` before the first name,
a severity has a bit outside of `DEBUG_ALL`, and masks have none. -/

namespace Lingx.Logs

open Library

/-- A place in `Debug_levels_`. -/
abbrev DebugPlace := Fin debugLevels.length

/-- The bitwise or of the masks of debug names. -/
def debugMask (ns : List DebugPlace) : Level :=
  ns.foldr (fun n level => DEBUG_FIRST <<< n.val ||| level) 0

/-- The level of a severity. -/
def severityLevel (n : ℕ) : Level :=
  if BitVec.ofNat 32 n = DEBUG then DEBUG_ALL else BitVec.ofNat 32 n

/-- The names behind the file that are accepted, with the level they give. -/
@[mk_iff]
inductive AcceptedLevels : List Bytes → Level → Prop
  | file : AcceptedLevels [] ERROR
  | severity {n : ℕ} {value : Bytes} (hn : 1 ≤ n) (hv : logLevels[n]? = some value) :
      AcceptedLevels [value] (severityLevel n)
  | debug {ns : List DebugPlace} (hn : ns ≠ []) :
      AcceptedLevels (ns.map debugLevels.get) (debugMask ns)

section Masks

variable {level mask : Level} {n : ℕ}

/-- A level of debug masks, without a severity. -/
structure IsMask (level : Level) : Prop where
  ne_stderr : level ≠ STDERR
  within : level &&& ~~~DEBUG_ALL = 0

theorem isMask_debug (hn : n < debugLevels.length) : IsMask (DEBUG_FIRST <<< n) := by
  have h : ∀ n : DebugPlace, DEBUG_FIRST <<< n.val ≠ STDERR ∧
    DEBUG_FIRST <<< n.val &&& ~~~DEBUG_ALL = 0 := by decide
  exact ⟨(h ⟨n, hn⟩).1, (h ⟨n, hn⟩).2⟩

theorem IsMask.or (h : IsMask level) (hm : mask &&& ~~~DEBUG_ALL = 0) :
    IsMask (level ||| mask) := by
  constructor
  · intro h0
    exact h.ne_stderr (BitVec.or_eq_zero_iff.1 h0).1
  · rw [BitVec.and_or_distrib_right, h.within, hm, BitVec.or_self]

theorem stderr_or (level : Level) : STDERR ||| level = level := BitVec.zero_or

theorem debugMask_within (ns : List DebugPlace) : debugMask ns &&& ~~~DEBUG_ALL = 0 := by
  induction ns with
  | nil => rfl
  | cons n ns ih =>
    change (DEBUG_FIRST <<< n.val ||| debugMask ns) &&& ~~~DEBUG_ALL = 0
    rw [BitVec.and_or_distrib_right, (isMask_debug n.isLt).within, ih, BitVec.or_self]

theorem IsMask.ne_debug (h : IsMask level) : level ≠ DEBUG := by
  rintro rfl
  exact absurd h.within (by decide)

/-- A bit of the joined masks is a bit of one of them, so their order does not count. -/
theorem debugMask_getLsbD (ns : List DebugPlace) (i : ℕ) :
    (debugMask ns).getLsbD i = true ↔ ∃ n ∈ ns, (DEBUG_FIRST <<< n.val).getLsbD i = true := by
  induction ns with
  | nil => simp [debugMask]
  | cons n ns ih =>
    change (DEBUG_FIRST <<< n.val ||| debugMask ns).getLsbD i = true ↔ _
    rw [BitVec.getLsbD_or, Bool.or_eq_true, ih, List.exists_mem_cons_iff]

theorem debugMask_congr {ns ms : List DebugPlace} (h : ∀ n, n ∈ ns ↔ n ∈ ms) :
    debugMask ns = debugMask ms := by
  apply BitVec.eq_of_getLsbD_eq
  intro i _
  rw [Bool.eq_iff_iff, debugMask_getLsbD, debugMask_getLsbD]
  simp only [h]

end Masks

section Step

variable {level level' : Level} {found : Bool} {value : Bytes}

theorem findIdx?_eq_some_iff_of_nodup {xs : List Bytes} (h : xs.Nodup) {n : ℕ} :
    xs.findIdx? (· = value) = some n ↔ xs[n]? = some value := by
  rw [List.findIdx?_eq_some_iff_getElem, List.getElem?_eq_some_iff]
  constructor
  · rintro ⟨hn, hv, -⟩
    exact ⟨hn, by simpa using hv⟩
  · rintro ⟨hn, hv⟩
    refine ⟨hn, by simpa using hv, fun j hj => ?_⟩
    have hne : xs[j] ≠ xs[n] := fun he => by
      have := (h.getElem_inj_iff).1 he
      omega
    simpa [hv] using hne

theorem logLevels_nodup : (logLevels.drop 1).Nodup := by decide

theorem debugLevels_nodup : debugLevels.Nodup := by decide

theorem not_mem_debugLevels {n : ℕ} (h : logLevels[n]? = some value) : value ∉ debugLevels := by
  have hd : ∀ v ∈ logLevels, v ∉ debugLevels := by decide
  exact hd value (List.mem_of_getElem? h)

/-- A name is a severity, a debug name or unknown. -/
theorem name_cases (value : Bytes) :
    (∃ n, 1 ≤ n ∧ logLevels[n]? = some value) ∨ (∃ n : DebugPlace, debugLevels.get n = value) ∨
      (value ∉ logLevels.drop 1 ∧ value ∉ debugLevels) := by
  by_cases hs : value ∈ logLevels.drop 1
  · obtain ⟨n, hn⟩ := List.mem_iff_getElem?.1 hs
    rw [List.getElem?_drop] at hn
    exact .inl ⟨1 + n, by omega, hn⟩
  by_cases hd : value ∈ debugLevels
  · exact .inr (.inl (List.get_of_mem hd))
  · exact .inr (.inr ⟨hs, hd⟩)

theorem findLogLevel_of_notMem (h : value ∉ logLevels.drop 1) :
    findLogLevel level value = .ok (level, false) := by
  have hn : (logLevels.drop 1).findIdx? (· = value) = none := by
    rw [List.findIdx?_eq_none_iff]
    exact fun v hv => decide_eq_false fun he => h (he ▸ hv)
  rw [findLogLevel, hn]

theorem findDebugLevel_of_notMem (h : value ∉ debugLevels) :
    findDebugLevel level found value = .ok (level, found) := by
  have hn : debugLevels.findIdx? (· = value) = none := by
    rw [List.findIdx?_eq_none_iff]
    exact fun v hv => decide_eq_false fun he => h (he ▸ hv)
  rw [findDebugLevel, hn]

theorem logSetLevel_severity {n : ℕ} (hn : 1 ≤ n) (hv : logLevels[n]? = some value) :
    logSetLevel level value =
      if level = STDERR then .ok (BitVec.ofNat 32 n) else .error (.duplicateLevel value) := by
  obtain ⟨m, rfl⟩ : ∃ m, n = m + 1 := ⟨n - 1, by omega⟩
  have hm : (logLevels.drop 1).findIdx? (· = value) = some m := by
    rw [findIdx?_eq_some_iff_of_nodup logLevels_nodup, List.getElem?_drop, Nat.add_comm 1, hv]
  rw [logSetLevel, findLogLevel, hm]
  by_cases hl : level = STDERR
  · simp only [hl, ne_eq, not_true_eq_false, if_false, ok_bind, if_true,
      findDebugLevel_of_notMem (not_mem_debugLevels hv)]
  · simp only [hl, ne_eq, not_false_eq_true, if_true, error_bind, if_false]

theorem logSetLevel_debug (n : DebugPlace) :
    logSetLevel level (debugLevels.get n) =
      if level &&& ~~~DEBUG_ALL = 0 then .ok (level ||| DEBUG_FIRST <<< n.val)
      else .error (.invalidLevel (debugLevels.get n)) := by
  have hs : debugLevels.get n ∉ logLevels.drop 1 := fun h => by
    obtain ⟨m, hm⟩ := List.mem_iff_getElem?.1 h
    rw [List.getElem?_drop] at hm
    exact not_mem_debugLevels hm (List.get_mem _ n)
  have hn : debugLevels.findIdx? (· = debugLevels.get n) = some n.val := by
    rw [findIdx?_eq_some_iff_of_nodup debugLevels_nodup, List.getElem?_eq_getElem n.isLt,
      List.get_eq_getElem]
  rw [logSetLevel, findLogLevel_of_notMem hs, ok_bind]
  dsimp only
  rw [findDebugLevel, hn]
  by_cases hl : level &&& ~~~DEBUG_ALL = 0
  · simp only [hl, ne_eq, not_true_eq_false, if_false, ok_bind, if_true]
  · simp only [hl, ne_eq, not_false_eq_true, if_true, error_bind, if_false]

theorem logSetLevel_unknown (hs : value ∉ logLevels.drop 1) (hd : value ∉ debugLevels) :
    logSetLevel level value = .error (.invalidLevel value) := by
  rw [logSetLevel, findLogLevel_of_notMem hs, ok_bind]
  dsimp only
  rw [findDebugLevel_of_notMem hd, ok_bind, if_neg Bool.false_ne_true]

end Step

section Names

variable {level level' : Level} {value : Bytes} {values : List Bytes}

theorem foldlM_severity (hs : level ≠ STDERR) (hd : level &&& ~~~DEBUG_ALL ≠ 0) :
    values.foldlM logSetLevel level = .ok level' ↔ values = [] ∧ level' = level := by
  cases values with
  | nil => simp [pure, Except.pure, eq_comm]
  | cons value values =>
    have he : ∃ e, logSetLevel level value = .error e := by
      rcases name_cases value with ⟨n, hn, hv⟩ | ⟨n, rfl⟩ | ⟨hs', hd'⟩
      · exact ⟨_, by rw [logSetLevel_severity hn hv, if_neg hs]⟩
      · exact ⟨_, by rw [logSetLevel_debug, if_neg hd]⟩
      · exact ⟨_, logSetLevel_unknown hs' hd'⟩
    obtain ⟨e, he⟩ := he
    simp [List.foldlM_cons, he]

theorem cons_ne_debug {ns : List DebugPlace} (h : value ∉ debugLevels) :
    value :: values ≠ ns.map debugLevels.get := by
  intro hns
  obtain ⟨n, hn, hvalue⟩ := List.mem_map.mp (hns ▸ List.mem_cons_self)
  exact h (hvalue ▸ List.get_mem _ n)

theorem debug_cons {n : DebugPlace} {ns : List DebugPlace}
    (h : debugLevels.get n :: values = ns.map debugLevels.get) :
    ∃ ms, ns = n :: ms ∧ values = ms.map debugLevels.get := by
  obtain ⟨m, ms, rfl, hm, hms⟩ := List.map_eq_cons_iff.mp h.symm
  obtain rfl : m = n := debugLevels_nodup.injective_get hm
  exact ⟨ms, rfl, hms.symm⟩

/-- Behind debug names debug names are accepted, and their masks are joined. -/
theorem foldlM_debug (h : IsMask level) :
    values.foldlM logSetLevel level = .ok level' ↔
      ∃ ns : List DebugPlace,
        values = ns.map debugLevels.get ∧ level' = level ||| debugMask ns := by
  induction values generalizing level with
  | nil =>
    constructor
    · intro he
      cases he
      exact ⟨[], rfl, (BitVec.or_zero).symm⟩
    · rintro ⟨ns, hns, rfl⟩
      cases ns with
      | nil => simp [debugMask, pure, Except.pure]
      | cons n ns => cases hns
  | cons value values ih =>
    rw [List.foldlM_cons]
    rcases name_cases value with ⟨n, hn, hv⟩ | ⟨n, rfl⟩ | ⟨hs, hd⟩
    · rw [logSetLevel_severity hn hv, if_neg h.ne_stderr, error_bind]
      exact iff_of_false nofun fun ⟨ns, hns, _⟩ => cons_ne_debug (not_mem_debugLevels hv) hns
    · rw [logSetLevel_debug, if_pos h.within, ok_bind,
        ih (h.or (isMask_debug n.isLt).within)]
      constructor
      · rintro ⟨ns, rfl, rfl⟩
        exact ⟨n :: ns, rfl, BitVec.or_assoc _ _ _⟩
      · rintro ⟨ns, hns, rfl⟩
        obtain ⟨ms, rfl, rfl⟩ := debug_cons hns
        exact ⟨ms, rfl, (BitVec.or_assoc _ _ _).symm⟩
    · rw [logSetLevel_unknown hs hd, error_bind]
      exact iff_of_false nofun fun ⟨ns, hns, _⟩ => cons_ne_debug hd hns

theorem severity_outside {n : ℕ} {value : Bytes} (hn : 1 ≤ n) (hv : logLevels[n]? = some value) :
    BitVec.ofNat 32 n ≠ STDERR ∧ BitVec.ofNat 32 n &&& ~~~DEBUG_ALL ≠ 0 := by
  have hlt : n < logLevels.length := (List.getElem?_eq_some_iff.1 hv).1
  have h : ∀ n : Fin logLevels.length, 1 ≤ n.val →
    BitVec.ofNat 32 n ≠ STDERR ∧ BitVec.ofNat 32 n &&& ~~~DEBUG_ALL ≠ 0 := by decide
  exact h ⟨n, hlt⟩ hn

/-- The running level at the end of the names, when there are any. -/
theorem foldlM_stderr (hne : values ≠ []) :
    values.foldlM logSetLevel STDERR = .ok level ↔
      (∃ n value, 1 ≤ n ∧ logLevels[n]? = some value ∧ values = [value] ∧
        level = BitVec.ofNat 32 n) ∨
      ∃ ns : List DebugPlace, ns ≠ [] ∧ values = ns.map debugLevels.get ∧
        level = debugMask ns := by
  obtain ⟨value, values, rfl⟩ := List.exists_cons_of_ne_nil hne
  rw [List.foldlM_cons]
  rcases name_cases value with ⟨n, hn, hv⟩ | ⟨n, rfl⟩ | ⟨hs, hd⟩
  · have ho := severity_outside hn hv
    rw [logSetLevel_severity hn hv, if_pos rfl, ok_bind, foldlM_severity ho.1 ho.2]
    constructor
    · rintro ⟨rfl, rfl⟩
      exact .inl ⟨n, value, hn, hv, rfl, rfl⟩
    · rintro (⟨m, v, hm, hmv, he, rfl⟩ | ⟨ns, -, hns, -⟩)
      · obtain ⟨rfl, rfl⟩ := List.cons.inj he
        have h1 : (logLevels.drop 1)[n - 1]? = some value := by
          rw [List.getElem?_drop, Nat.add_sub_cancel' hn, hv]
        have h2 : (logLevels.drop 1)[m - 1]? = some value := by
          rw [List.getElem?_drop, Nat.add_sub_cancel' hm, hmv]
        rw [← findIdx?_eq_some_iff_of_nodup logLevels_nodup] at h1 h2
        have := Option.some.inj (h1.symm.trans h2)
        exact ⟨rfl, by rw [show m = n by omega]⟩
      · exact absurd hns (cons_ne_debug (not_mem_debugLevels hv))
  · rw [logSetLevel_debug, if_pos (by decide), ok_bind,
      foldlM_debug (by rw [stderr_or]; exact isMask_debug n.isLt)]
    constructor
    · rintro ⟨ns, rfl, rfl⟩
      refine .inr ⟨n :: ns, List.cons_ne_nil _ _, rfl, ?_⟩
      rw [stderr_or]
      rfl
    · rintro (⟨m, v, hm, hmv, he, rfl⟩ | ⟨ns, -, hns, rfl⟩)
      · rw [← (List.cons.inj he).1] at hmv
        exact absurd (List.get_mem _ n) (not_mem_debugLevels hmv)
      · obtain ⟨ms, rfl, rfl⟩ := debug_cons hns
        refine ⟨ms, rfl, ?_⟩
        rw [stderr_or]
        rfl
  · rw [logSetLevel_unknown hs hd, error_bind]
    constructor
    · nofun
    · rintro (⟨m, v, hm, hmv, he, -⟩ | ⟨ns, -, hns, -⟩)
      · rw [← (List.cons.inj he).1] at hmv
        exact absurd (List.mem_of_getElem? (i := m - 1) (by
          rw [List.getElem?_drop, Nat.add_sub_cancel' hm, hmv])) hs
      · exact absurd hns (cons_ne_debug hd)

theorem debugMask_isMask {ns : List DebugPlace} (h : ns ≠ []) : IsMask (debugMask ns) := by
  cases ns with
  | nil => exact absurd rfl h
  | cons n ns => exact (isMask_debug n.isLt).or (debugMask_within ns)

/-- `Log_set_levels_` accepts the lists of the tables, with their levels. -/
theorem logSetLevels_iff :
    logSetLevels STDERR values = .ok level ↔ AcceptedLevels values level := by
  rw [acceptedLevels_iff]
  by_cases hne : values = []
  · subst hne
    simp [logSetLevels, eq_comm]
  · have hlast : logSetLevels STDERR values = .ok level ↔ ∃ l,
        values.foldlM logSetLevel STDERR = .ok l ∧
          (if l = DEBUG then DEBUG_ALL else l) = level := by
      simp only [logSetLevels, if_neg hne, bind_eq_ok, pure_eq_ok]
    rw [hlast, or_iff_right (fun h => hne h.1)]
    constructor
    · rintro ⟨l, hl, rfl⟩
      rcases (foldlM_stderr hne).1 hl with ⟨n, v, hn, hv, rfl, rfl⟩ | ⟨ns, hns, rfl, rfl⟩
      · exact .inl ⟨n, v, hn, hv, rfl, rfl⟩
      · exact .inr ⟨ns, hns, rfl, if_neg (debugMask_isMask hns).ne_debug⟩
    · rintro (⟨n, v, hn, hv, rfl, rfl⟩ | ⟨ns, hns, rfl, rfl⟩)
      · exact ⟨_, (foldlM_stderr hne).2 (.inl ⟨n, v, hn, hv, rfl, rfl⟩), rfl⟩
      · exact ⟨_, (foldlM_stderr hne).2 (.inr ⟨ns, hns, rfl, rfl⟩),
          if_neg (debugMask_isMask hns).ne_debug⟩

end Names

namespace AcceptedLevels

variable {values values' : List Bytes} {level level' : Level} {ns ms : List DebugPlace}

theorem mem_of_names (h : ∀ v, v ∈ ns.map debugLevels.get ↔ v ∈ ms.map debugLevels.get)
    (n : DebugPlace) : n ∈ ns ↔ n ∈ ms := by
  have hn := h (debugLevels.get n)
  rwa [List.mem_map_of_injective debugLevels_nodup.injective_get,
    List.mem_map_of_injective debugLevels_nodup.injective_get] at hn

/-- A list of debug names has no severity. -/
theorem not_mem_names {n : ℕ} {value : Bytes} (hv : logLevels[n]? = some value) :
    value ∉ ns.map debugLevels.get := by
  intro h
  obtain ⟨m, -, rfl⟩ := List.mem_map.1 h
  exact not_mem_debugLevels hv (List.get_mem _ m)

/-- Two accepted lists of the same names give the same level, whatever their order and
their repetitions. -/
theorem level_eq (h : AcceptedLevels values level) (h' : AcceptedLevels values' level')
    (hv : ∀ v, v ∈ values ↔ v ∈ values') : level = level' := by
  cases h with
  | file =>
    have hnil : values' = [] := List.eq_nil_iff_forall_not_mem.2 fun v hm =>
      List.not_mem_nil ((hv v).2 hm)
    have he : AcceptedLevels [] level' := hnil ▸ h'
    rw [← logSetLevels_iff] at he
    cases he
    rfl
  | @severity n value hn hn' =>
    cases h' with
    | file => exact absurd ((hv value).1 (List.mem_singleton_self _)) List.not_mem_nil
    | @severity m value' hm hm' =>
      obtain rfl : value = value' := List.mem_singleton.1 ((hv value).1 (List.mem_singleton_self _))
      have he := logSetLevels_iff.2 (.severity hn hn')
      rw [logSetLevels_iff.2 (.severity hm hm')] at he
      exact (Except.ok.inj he).symm
    | debug hm => exact absurd ((hv value).1 (List.mem_singleton_self _)) (not_mem_names hn')
  | @debug ns hn =>
    cases h' with
    | file =>
      obtain ⟨n, ns, rfl⟩ := List.exists_cons_of_ne_nil hn
      exact absurd ((hv (debugLevels.get n)).1 (List.mem_cons_self ..)) List.not_mem_nil
    | @severity m value' hm hm' =>
      exact absurd ((hv value').2 (List.mem_singleton_self _)) (not_mem_names hm')
    | debug hm => exact debugMask_congr (mem_of_names hv)

/-- A list with the names of an accepted one in another order is accepted, with its
level. -/
theorem perm (h : AcceptedLevels values level) (hp : values.Perm values') :
    AcceptedLevels values' level := by
  cases h with
  | file => exact hp.nil_eq ▸ .file
  | severity hn hv => exact (List.singleton_perm.1 hp) ▸ .severity hn hv
  | @debug ns hn =>
    have hr : values' ∈ Set.range (List.map debugLevels.get) := by
      rw [Set.range_list_map]
      intro v hv
      obtain ⟨n, -, hn⟩ := List.mem_map.1 (hp.mem_iff.2 hv)
      exact ⟨n, hn⟩
    obtain ⟨ms, rfl⟩ := hr
    have hm : ms ≠ [] := fun h => hn (by simpa [h] using hp)
    rw [debugMask_congr (mem_of_names fun v => hp.mem_iff)]
    exact .debug hm

end AcceptedLevels

/-- The levels accepted behind the file of an `error_log` directive, by a log that has
none yet: no name, one severity, or any debug names; two accepted lists of the same
names give the same level, and any order of an accepted list is accepted. -/
theorem logSetLevels_spec (values : List Bytes) :
    (∀ level, logSetLevels STDERR values = .ok level ↔ AcceptedLevels values level) ∧
    (∀ level values', logSetLevels STDERR values = .ok level → values.Perm values' →
      logSetLevels STDERR values' = .ok level) ∧
    ∀ level level' values', logSetLevels STDERR values = .ok level →
      logSetLevels STDERR values' = .ok level' → (∀ v, v ∈ values ↔ v ∈ values') →
      level = level' := by
  refine ⟨fun _ => logSetLevels_iff, ?_, ?_⟩
  · intro level values' h hp
    exact logSetLevels_iff.2 ((logSetLevels_iff.1 h).perm hp)
  · intro level level' values' h h' hv
    exact (logSetLevels_iff.1 h).level_eq (logSetLevels_iff.1 h') hv

end Lingx.Logs
