import Lingx.Conf.Keep
import Lingx.Modules.Event
import Lingx.Modules.Setters
import Mathlib.Data.List.Find

/-! The module that is started is the one that has been chosen. What is handed over is an
index in the configuration of the event core: it is not set when the block of `events`
begins, nothing sets it but `Event_core_init_conf_`, and the indices of the event modules
are distinct. -/

namespace Lingx.Modules.Event

open Library Conf

variable {M C W : Type} {prog : Program M C W}
  {commands : M → List (Command (State M C W))} {st st' : State M C W}

section Use
variable (prog)

/-- The index in the configuration of the event core, if that is in its slot. -/
def coreUse (st : State M C W) : Option UInt32 :=
  match coreConf prog st with
  | .ok ecf => some ecf.use
  | .error _ => none

/-- Neither that index nor one of an event module has changed. -/
structure Undisturbed (st st' : State M C W) : Prop where
  ctxIndex : ∀ mod, prog.type mod = EVENT_MODULE → st'.ctxIndex mod = st.ctxIndex mod
  use : coreUse prog st' = coreUse prog st

variable {prog} {l : List (Option (MConf C))} {ecf ecf' : EventConf} {i : ℕ}

theorem Undisturbed.refl (st : State M C W) : Undisturbed prog st st := ⟨fun _ _ => rfl, rfl⟩

theorem Undisturbed.trans {st₁ st₂ st₃ : State M C W} (h : Undisturbed prog st₁ st₂)
    (h' : Undisturbed prog st₂ st₃) : Undisturbed prog st₁ st₃ :=
  ⟨fun mod ht => (h'.ctxIndex mod ht).trans (h.ctxIndex mod ht), h'.use.trans h.use⟩

theorem Undisturbed.symm (h : Undisturbed prog st st') : Undisturbed prog st' st :=
  ⟨fun mod ht => (h.ctxIndex mod ht).symm, h.use.symm⟩

theorem eventConf_eq_ok {conf : Option (MConf C)} :
    eventConf conf = .ok ecf ↔ conf = some (.core ecf) := by
  rw [eventConf.eq_def]
  split
  · simp
  · rename_i hother
    exact ⟨nofun, fun h => absurd h (hother ecf)⟩

theorem coreConf_eq_ok : coreConf prog st = .ok ecf ↔
    ∃ l, st.conf = some l ∧ l[(st.ctxIndex prog.eventCore).toNat]? = some (some (.core ecf)) := by
  rw [coreConf, bind_eq_ok]
  constructor
  · rintro ⟨conf, hload, hconf⟩
    rw [eventConf_eq_ok] at hconf
    subst hconf
    rw [load.eq_def] at hload
    split at hload
    · cases hload
    · rename_i l hl
      split_ifs at hload with hlt
      exact ⟨l, hl, by rw [List.getElem?_eq_getElem hlt, Except.ok.inj hload]⟩
  · rintro ⟨l, hl, hget⟩
    exact ⟨_, by rw [hl]; exact load_eq_ok hget, eventConf_eq_ok.mpr rfl⟩

theorem coreUse_eq_some {u : UInt32} :
    coreUse prog st = some u ↔ ∃ ecf, coreConf prog st = .ok ecf ∧ ecf.use = u := by
  rw [coreUse]
  cases coreConf prog st <;> simp

/-- The slot of the event core is written with its configuration. -/
theorem coreConf_set (hl : l[(st.ctxIndex prog.eventCore).toNat]? = some (some (.core ecf)))
    (hidx : st'.ctxIndex prog.eventCore = st.ctxIndex prog.eventCore)
    (hconf : st'.conf = some (l.set (st.ctxIndex prog.eventCore).toNat (some (.core ecf')))) :
    coreConf prog st' = .ok ecf' := by
  refine coreConf_eq_ok.mpr ⟨_, hconf, ?_⟩
  rw [hidx]
  exact List.getElem?_set_self (List.getElem?_eq_some_iff.mp hl).1

theorem coreConf_set_of_ne
    (hl : l[(st.ctxIndex prog.eventCore).toNat]? = some (some (.core ecf)))
    (hi : i ≠ (st.ctxIndex prog.eventCore).toNat)
    (hidx : st'.ctxIndex prog.eventCore = st.ctxIndex prog.eventCore)
    (hconf : ∃ p, st'.conf = some (l.set i p)) : coreConf prog st' = .ok ecf := by
  obtain ⟨p, hconf⟩ := hconf
  refine coreConf_eq_ok.mpr ⟨_, hconf, ?_⟩
  rw [hidx, List.getElem?_set_ne hi, hl]

end Use

section Parse

theorem multiAccept_keeps {call : Call} (huse : (coreUse prog st).isSome) :
    (multiAccept call st).Keeps (Undisturbed prog st) := by
  have hsame : Undisturbed prog st st.faulted := ⟨fun _ _ => rfl, rfl⟩
  simp only [multiAccept]
  split
  · exact hsame
  · rename_i ctx idx _
    split_ifs
    · exact hsame
    · split
      · exact hsame
      · rename_i ecf hecf
        split
        · exact .refl st
        · rename_i v _
          refine ⟨fun _ _ => rfl, ?_⟩
          obtain ⟨u, hu⟩ := Option.isSome_iff_exists.mp huse
          obtain ⟨ecf₀, hcore, hu₀⟩ := coreUse_eq_some.mp hu
          obtain ⟨l, hl, hget⟩ := coreConf_eq_ok.mp hcore
          rw [hu]
          by_cases hidx : idx = (st.ctxIndex prog.eventCore).toNat
          · have hsame : ecf = ecf₀ := by
              rw [eventConf_eq_ok, hl, hidx, Option.getD_some, List.getD_eq_getElem?_getD,
                hget] at hecf
              exact (MConf.core.inj (Option.some.inj hecf)).symm
            refine coreUse_eq_some.mpr ⟨_, coreConf_set hget rfl (by rw [hl, hidx]; rfl), ?_⟩
            rw [hsame]
            exact hu₀
          · refine coreUse_eq_some.mpr ⟨ecf₀, coreConf_set_of_ne hget hidx rfl ?_, hu₀⟩
            rw [hl]
            exact ⟨_, rfl⟩

variable [DecidableEq M]

variable (prog commands) in
/-- The event core is among the modules, with another event module. The others have names
of their own and an action `init`, and leave the event core's configuration alone. -/
structure Admissible : Prop where
  core_mem : prog.eventCore ∈ prog.cycle.modules
  core_type : prog.type prog.eventCore = EVENT_MODULE
  other : ∃ mod ∈ prog.cycle.modules, prog.type mod = EVENT_MODULE ∧ mod ≠ prog.eventCore
  names : ∀ mod ∈ prog.cycle.modules, prog.type mod = EVENT_MODULE → mod ≠ prog.eventCore →
    (prog.others mod).name ≠ eventCoreName
  actions : ∀ mod ∈ prog.cycle.modules, prog.type mod = EVENT_MODULE → mod ≠ prog.eventCore →
    (prog.others mod).init ≠ none
  setters : ∀ mod ∈ prog.cycle.modules, mod ≠ prog.eventCore → ∀ cmd ∈ commands mod, ∀ call st,
    (coreUse prog st).isSome → (cmd.set call st).Keeps (Undisturbed prog st)
  initConfs : ∀ mod ∈ prog.cycle.modules, prog.type mod = EVENT_MODULE → mod ≠ prog.eventCore →
    ∀ f, (prog.others mod).initConf = some f → ∀ conf st, (coreUse prog st).isSome →
      Undisturbed prog st (f conf st).2

theorem parse_undisturbed (h : Admissible prog commands) {k depth : ℕ} {kind : Kind}
    {scope : Scope} {r r' : Run (State M C W)} {rv : Rv} (huse : (coreUse prog r.st).isSome)
    (hrun : parseLoop (confModules prog commands) k kind depth scope r = some (rv, r')) :
    Undisturbed prog r.st r'.st := by
  refine parseLoop_keeps (P := Undisturbed prog r.st) ?_ (.refl r.st) hrun
  intro mod hmod cmd hcmd call st hst
  have hsome : (coreUse prog st).isSome := hst.use ▸ huse
  have hsame : Undisturbed prog st = Undisturbed prog r.st := by
    funext st'
    exact propext ⟨hst.trans, hst.symm.trans⟩
  rw [← hsame]
  obtain ⟨m, hm, rfl⟩ := List.mem_map.mp hmod
  dsimp only at hcmd
  split_ifs at hcmd with hcore
  · rw [List.mem_singleton.mp hcmd]
    exact multiAccept_keeps hsome
  · exact h.setters m hm hcore cmd hcmd call st hsome

end Parse

section Create
variable [DecidableEq M] {idx : M → UInt32} {l l' : List (Option (MConf C))} {mods : List M}

/-- `create` leaves the vector as it is, or it puts a pointer in the slot. -/
theorem create_ok {created : Option (Option (MConf C))} {mi : UInt32}
    {v : ConfCtxPtr (MConf C)} (h : create created mi (some l) = .ok v) :
    v = some l ∧ created = none ∨
      ∃ p, created = some p ∧ mi.toNat < l.length ∧ v = some (l.set mi.toNat p) := by
  cases created with
  | none =>
    cases h
    exact .inl ⟨rfl, rfl⟩
  | some p =>
    obtain ⟨v', hstore, h⟩ := bind_eq_ok.mp h
    rw [store.eq_def] at hstore
    dsimp only at hstore
    split_ifs at hstore with hlt
    cases hstore
    obtain ⟨q, -, h⟩ := bind_eq_ok.mp h
    split_ifs at h
    cases h
    exact .inr ⟨p, rfl, hlt, rfl⟩

theorem createConf_ne_ok {v : ConfCtxPtr (MConf C)} {mod : M} {ex : Exit}
    (h : createConf prog idx v mod = .error ex) : ex ≠ .rv .ok := by
  rw [createConf] at h
  split_ifs at h
  · exact create_ne_ok h
  · exact create_ne_ok h

/-- The first loop: behind the event core's turn its configuration is in its slot. -/
theorem foldlM_createConf (hdistinct : ∀ mod ∈ mods, prog.type mod = EVENT_MODULE →
      mod ≠ prog.eventCore → idx mod ≠ idx prog.eventCore)
    (hl : prog.eventCore ∉ mods → l[(idx prog.eventCore).toNat]? = some eventCoreCreateConf)
    {v : ConfCtxPtr (MConf C)} (hcore : prog.type prog.eventCore = EVENT_MODULE)
    (h : mods.foldlM (createConf prog idx) (some l) = .ok v) :
    ∃ l', v = some l' ∧ l'[(idx prog.eventCore).toNat]? = some eventCoreCreateConf := by
  induction mods generalizing l with
  | nil =>
    cases h
    exact ⟨l, rfl, hl (by simp)⟩
  | cons mod mods ih =>
    obtain ⟨v₁, hv₁, hrest⟩ := foldlM_cons_eq_ok.mp h
    have hothers : ∀ m ∈ mods, prog.type m = EVENT_MODULE → m ≠ prog.eventCore →
        idx m ≠ idx prog.eventCore := fun m hm => hdistinct m (List.mem_cons_of_mem _ hm)
    rw [createConf] at hv₁
    by_cases hmod : mod = prog.eventCore
    · subst hmod
      rw [if_neg (not_not.mpr hcore), if_pos rfl] at hv₁
      obtain ⟨-, hnone⟩ | ⟨p, hp, hlt, rfl⟩ := create_ok hv₁
      · cases hnone
      · cases hp
        exact ih hothers (fun _ => List.getElem?_set_self hlt) hrest
    · have hskip : prog.eventCore ∉ mods → prog.eventCore ∉ mod :: mods := fun hm =>
        List.not_mem_cons_of_ne_of_not_mem (Ne.symm hmod) hm
      split_ifs at hv₁ with htype
      · cases hv₁
        exact ih hothers (fun hm => hl (hskip hm)) hrest
      · have hne := hdistinct mod List.mem_cons_self (not_not.mp htype) hmod
        obtain ⟨rfl, -⟩ | ⟨p, -, -, rfl⟩ := create_ok hv₁
        · exact ih hothers (fun hm => hl (hskip hm)) hrest
        · refine ih hothers (fun hm => ?_) hrest
          rw [List.getElem?_set_ne fun he => hne (UInt32.toNat_inj.mp he)]
          exact hl (hskip hm)

end Create

section Init
variable [DecidableEq M] {mod first : M} {mods : List M} {u : UInt32}

theorem selected_eq (h : Admissible prog commands) : selected prog =
    prog.cycle.modules.find? fun mod => prog.type mod = EVENT_MODULE ∧ mod ≠ prog.eventCore := by
  refine List.find?_congr fun mod hmod => ?_
  refine decide_eq_decide.mpr (and_congr_right fun htype => not_congr ?_)
  rw [name]
  split_ifs with hcore
  · exact iff_of_true rfl hcore
  · exact iff_of_false (h.names mod hmod htype hcore) hcore

theorem selected_mem (h : selected prog = some first) :
    first ∈ prog.cycle.modules ∧ prog.type first = EVENT_MODULE := by
  have hfound := List.find?_some h
  simp only [decide_eq_true_eq] at hfound
  exact ⟨List.mem_of_find?_eq_some h, hfound.1⟩

theorem confInitValue_idem (conf val : UInt32) :
    confInitValue (confInitValue conf val) val = confInitValue conf val := by
  simp only [confInitValue]
  split_ifs <;> simp_all

/-- `Event_core_init_conf_` sets the index of the selected module, if none is set. -/
theorem initConf_core (hcore : prog.type prog.eventCore = EVENT_MODULE)
    (hfirst : selected prog = some first) (huse : coreUse prog st = some u)
    (h : initConf prog st prog.eventCore = .ok st') :
    coreUse prog st' = some (confInitValue u (st.ctxIndex first)) ∧
      st'.ctxIndex = st.ctxIndex := by
  obtain ⟨ecf, hecf, rfl⟩ := coreUse_eq_some.mp huse
  obtain ⟨l, hl, hget⟩ := coreConf_eq_ok.mp hecf
  have hlt := (List.getElem?_eq_some_iff.mp hget).1
  rw [initConf, if_neg (not_not.mpr hcore), if_pos rfl, hl] at h
  obtain ⟨conf, hload, h⟩ := bind_eq_ok.mp h
  obtain rfl := Except.ok.inj ((load_eq_ok hget).symm.trans hload)
  simp only [eventCoreInitConf, hfirst] at h
  obtain ⟨ecf', hecf', h⟩ := bind_eq_ok.mp h
  obtain rfl : ecf = ecf' := Except.ok.inj hecf'
  obtain ⟨v, hstore, h⟩ := bind_eq_ok.mp h
  rw [hl] at hstore
  have hv := Except.ok.inj ((if_pos hlt).symm.trans hstore)
  cases h
  exact ⟨coreUse_eq_some.mpr ⟨_, coreConf_set hget rfl hv.symm, rfl⟩, rfl⟩

theorem initConf_other (h : Admissible prog commands) (hmod : mod ∈ prog.cycle.modules)
    (hne : mod ≠ prog.eventCore) (huse : (coreUse prog st).isSome)
    (hinit : initConf prog st mod = .ok st') : Undisturbed prog st st' := by
  rw [initConf] at hinit
  split_ifs at hinit with htype
  · cases hinit
    exact .refl st
  · split at hinit
    · cases hinit
      exact .refl st
    · rename_i f hf
      obtain ⟨conf, -, hinit⟩ := bind_eq_ok.mp hinit
      dsimp only at hinit
      split_ifs at hinit
      cases hinit
      exact h.initConfs mod hmod (not_not.mp htype) hne f hf conf st huse

theorem eventCoreInitConf_ne_ok {conf : Option (MConf C)} {ex : Exit}
    (h : eventCoreInitConf prog conf st = .error ex) : ex ≠ .rv .ok := by
  rw [eventCoreInitConf] at h
  split at h
  · cases h
    simp
  · rcases bind_eq_error.mp h with h | ⟨ecf, -, h⟩
    · rw [eventConf.eq_def] at h
      split at h <;> cases h
      exact Exit.noConfusion
    · rcases bind_eq_error.mp h with h | ⟨v, -, h⟩
      · obtain ⟨f, rfl⟩ := store_eq_error h
        exact Exit.noConfusion
      · cases h

theorem initConf_ne_ok {ex : Exit} (h : initConf prog st mod = .error ex) : ex ≠ .rv .ok := by
  have hload {v : ConfCtxPtr (MConf C)} {i : UInt32} (h : load v i = .error ex) :
      ex ≠ .rv .ok := by
    obtain ⟨f, rfl⟩ := load_eq_error h
    exact Exit.noConfusion
  rw [initConf] at h
  split_ifs at h
  · rcases bind_eq_error.mp h with h | ⟨conf, -, h⟩
    · exact hload h
    · exact eventCoreInitConf_ne_ok h
  · split at h
    · cases h
    · rcases bind_eq_error.mp h with h | ⟨conf, -, h⟩
      · exact hload h
      · dsimp only at h
        split_ifs at h with hrv
        cases h
        exact fun he => hrv (Exit.rv.inj he)

/-- The second loop: behind the event core's turn the index of the selected module is set. -/
theorem foldlM_initConf (h : Admissible prog commands) (hfirst : selected prog = some first)
    (hmods : mods ⊆ prog.cycle.modules) (huse : coreUse prog st = some u)
    (hrun : mods.foldlM (initConf prog) st = .ok st') :
    coreUse prog st' =
        some (if prog.eventCore ∈ mods then confInitValue u (st.ctxIndex first) else u) ∧
      ∀ mod, prog.type mod = EVENT_MODULE → st'.ctxIndex mod = st.ctxIndex mod := by
  obtain ⟨-, htype⟩ := selected_mem hfirst
  induction mods generalizing st u with
  | nil =>
    cases hrun
    exact ⟨by simpa using huse, fun _ _ => rfl⟩
  | cons mod mods ih =>
    obtain ⟨st₁, hstep, hrun₁⟩ := foldlM_cons_eq_ok.mp hrun
    have hrest : mods ⊆ prog.cycle.modules := fun m hm => hmods (List.mem_cons_of_mem _ hm)
    by_cases hmod : mod = prog.eventCore
    · subst hmod
      obtain ⟨huse₁, hidx₁⟩ := initConf_core h.core_type hfirst huse hstep
      obtain ⟨huse', hidx'⟩ := ih hrest huse₁ hrun₁
      rw [hidx₁] at huse' hidx'
      refine ⟨?_, hidx'⟩
      rw [huse', confInitValue_idem, ite_self, if_pos List.mem_cons_self]
    · have hkept := initConf_other h (hmods List.mem_cons_self) hmod (huse ▸ rfl) hstep
      obtain ⟨huse', hidx'⟩ := ih hrest (hkept.use.trans huse) hrun₁
      refine ⟨?_, fun m ht => (hidx' m ht).trans (hkept.ctxIndex m ht)⟩
      rw [huse', hkept.ctxIndex first htype]
      simp only [List.mem_cons, Ne.symm hmod, false_or]

end Init

section Start
variable [DecidableEq M] {r r' : Run (State M C W)} {call : Call}

theorem eventsBlock_ok {parse : Scope → Run (State M C W) → Option (Rv × Run (State M C W))}
    (h : (eventsBlock prog call r.st).run parse r = some (.ok, r')) : ∃ idx size v r₁,
      countModules prog.cycle prog.type EVENT_MODULE r.st.ctxIndex = some (idx, size) ∧
      prog.cycle.modules.foldlM (createConf prog idx) (some (List.replicate size.toNat none)) =
        .ok v ∧
      parse eventsScope { r with st := { r.st with ctxIndex := idx, conf := v } } =
        some (.ok, r₁) ∧
      prog.cycle.modules.foldlM (initConf prog) r₁.st = .ok r'.st := by
  rw [eventsBlock] at h
  split_ifs at h
  · cases h
  split at h
  · cases h
  rename_i idx size hcount
  split at h
  · rename_i ex hcreate
    have hex := of_foldlM_eq_error (fun _ _ _ _ => createConf_ne_ok) hcreate
    cases ex with
    | fault f => cases h
    | rv ret =>
      cases h
      exact absurd rfl hex
  rename_i v hcreate
  rw [Setter.run] at h
  split at h
  · cases h
  rename_i rv r₁ hparse
  rw [eventsInit] at h
  split_ifs at h with hrv
  · cases h
    exact absurd rfl hrv
  obtain rfl := not_not.mp hrv
  split at h
  · rename_i ex hinit
    have hex := of_foldlM_eq_error (fun _ _ _ _ => initConf_ne_ok) hinit
    cases ex with
    | fault f => cases h
    | rv ret =>
      cases h
      exact absurd rfl hex
  · rename_i st hinit
    cases h
    exact ⟨idx, size, v, r₁, hcount, hcreate, hparse, hinit⟩

/-- What the block of `events` leaves if it is accepted: the event core's configuration has
the index of the selected module, and the indices are distinct. -/
theorem eventsBlock_use (h : Admissible prog commands) {k depth : ℕ}
    (hunset : ∀ mod ∈ prog.cycle.modules, prog.type mod = EVENT_MODULE →
      r.st.ctxIndex mod = UNSET_INDEX)
    (hrun : (eventsBlock prog call r.st).run (fun scope r => parseLoop (confModules prog commands)
      k (.nested r.cf) depth scope r) r = some (.ok, r')) :
    ∃ first, selected prog = some first ∧ coreUse prog r'.st = some (r'.st.ctxIndex first) ∧
      ∀ mod ∈ prog.cycle.modules, prog.type mod = EVENT_MODULE →
        r'.st.ctxIndex mod = r'.st.ctxIndex first → mod = first := by
  obtain ⟨idx, size, v, r₁, hcount, hcreate, hparse, hinit⟩ := eventsBlock_ok hrun
  have hdistinct := countModules_distinct hunset hcount
  obtain ⟨l, rfl, hl⟩ := foldlM_createConf
    (fun mod hmod ht hne he => hne ((hdistinct mod hmod ht).2 _ h.core_mem h.core_type he))
    (fun hcore => absurd h.core_mem hcore) h.core_type hcreate
  have huse : coreUse prog { r.st with ctxIndex := idx, conf := some l } = some UNSET :=
    coreUse_eq_some.mpr ⟨_, coreConf_eq_ok.mpr ⟨l, rfl, hl⟩, rfl⟩
  have hparsed := parse_undisturbed h (huse ▸ rfl) hparse
  obtain ⟨first, hfirst⟩ : ∃ first, selected prog = some first := by
    rw [selected_eq h, ← Option.isSome_iff_exists, List.find?_isSome]
    simpa using h.other
  obtain ⟨hmem, htype⟩ := selected_mem hfirst
  obtain ⟨huse', hidx⟩ :=
    foldlM_initConf h hfirst (List.Subset.refl _) (hparsed.use.trans huse) hinit
  refine ⟨first, hfirst, ?_, fun mod hmod ht he => ?_⟩
  · rw [huse', if_pos h.core_mem, hidx first htype]
    exact congrArg some (if_pos rfl)
  · rw [hidx mod ht, hidx first htype, hparsed.ctxIndex mod ht, hparsed.ctxIndex first htype] at he
    exact (hdistinct mod hmod ht).2 first hmem htype he

omit [DecidableEq M] in
theorem connectionsInit_spec (p : Calls W) (st : State M C W) (inits : List M) :
    (connectionsInit p st inits).inits = inits ∧ (connectionsInit p st inits).ending ≠ .fault := by
  rw [connectionsInit]
  split_ifs
  · split
    · exact ⟨rfl, Ending.noConfusion⟩
    · exact ⟨rfl, Ending.noConfusion⟩
  · exact ⟨rfl, Ending.noConfusion⟩

/-- The loop of `Event_core_process_init_` stops at the module whose index is set. -/
theorem processInit_inits {first : M} (p : Calls W)
    (huse : coreUse prog st = some (st.ctxIndex first)) (hmem : first ∈ prog.cycle.modules)
    (htype : prog.type first = EVENT_MODULE)
    (hne : first ≠ prog.eventCore) (hinit : (prog.others first).init ≠ none)
    (hdistinct : ∀ mod ∈ prog.cycle.modules, prog.type mod = EVENT_MODULE →
      st.ctxIndex mod = st.ctxIndex first → mod = first) :
    (processInit prog p st).inits = [first] ∧ (processInit prog p st).ending ≠ .fault := by
  obtain ⟨ecf, hecf, hu⟩ := coreUse_eq_some.mp huse
  have hfind : (prog.cycle.modules.find? fun mod =>
      prog.type mod = EVENT_MODULE ∧ st.ctxIndex mod = ecf.use) = some first := by
    obtain ⟨mod, hmod⟩ : ∃ mod, (prog.cycle.modules.find? fun mod =>
        prog.type mod = EVENT_MODULE ∧ st.ctxIndex mod = ecf.use) = some mod := by
      rw [← Option.isSome_iff_exists, List.find?_isSome]
      exact ⟨first, hmem, by simp [htype, hu]⟩
    have hfound := List.find?_some hmod
    simp only [decide_eq_true_eq, hu] at hfound
    rw [hmod, hdistinct mod (List.mem_of_find?_eq_some hmod) hfound.1 hfound.2]
  obtain ⟨init, hsome⟩ := Option.ne_none_iff_exists'.mp hinit
  have hcoreConf : coreConf prog { st with world := p.queueInit st.world } = .ok ecf := hecf
  simp only [processInit, hcoreConf, hfind, if_neg hne, hsome]
  split_ifs
  · exact ⟨rfl, Ending.noConfusion⟩
  · exact connectionsInit_spec ..

/-- The event module that is chosen is started. If the block of `events` is accepted, the
init action that `Event_core_process_init_` calls is that of the first event module besides
the event core, and it calls no other; the event core's own, which is null, is not called.
Between the two calls anything may be done that leaves the choice and the indices alone. -/
theorem chosen_started (h : Admissible prog commands) (p : Calls W) {k depth : ℕ}
    (hunset : ∀ mod ∈ prog.cycle.modules, prog.type mod = EVENT_MODULE →
      r.st.ctxIndex mod = UNSET_INDEX)
    (hrun : (eventsBlock prog call r.st).run (fun scope r => parseLoop (confModules prog commands)
      k (.nested r.cf) depth scope r) r = some (.ok, r')) :
    ∃ first, (prog.cycle.modules.find? fun mod =>
        prog.type mod = EVENT_MODULE ∧ mod ≠ prog.eventCore) = some first ∧
      ∀ st, Undisturbed prog r'.st st →
        (processInit prog p st).inits = [first] ∧ (processInit prog p st).ending ≠ .fault := by
  obtain ⟨first, hfirst, huse, hdistinct⟩ := eventsBlock_use h hunset hrun
  obtain ⟨hmem, htype⟩ := selected_mem hfirst
  rw [selected_eq h] at hfirst
  have hne : first ≠ prog.eventCore := by
    have hfound := List.find?_some hfirst
    simp only [decide_eq_true_eq] at hfound
    exact hfound.2
  refine ⟨first, hfirst, fun st hst => ?_⟩
  have huse' : coreUse prog st = some (st.ctxIndex first) := by
    rw [hst.use, huse, hst.ctxIndex first htype]
  refine processInit_inits p huse' hmem htype hne (h.actions first hmem htype hne) ?_
  intro mod hmod ht he
  rw [hst.ctxIndex mod ht, hst.ctxIndex first htype] at he
  exact hdistinct mod hmod ht he

end Start

section Shipped
variable {e : Setup} {pollInit : State Mod Unit World → ℤ × State Mod Unit World}

/-- The command `events`; those of the other modules change nothing that is modelled here. -/
def shippedCommands (e : Setup) (pollInit : State Mod Unit World → ℤ × State Mod Unit World) :
    Mod → List (Command (State Mod Unit World))
  | .events => [⟨ascii "events", MAIN_CONF ||| CONF_BLOCK ||| CONF_NOARGS, 0,
      eventsBlock (shipped e pollInit)⟩]
  | _ => []

theorem shipped_admissible : Admissible (shipped e pollInit) (shippedCommands e pollInit) where
  core_mem := mem_modules _
  core_type := rfl
  other := ⟨.eventPoll, mem_modules _, rfl, Mod.noConfusion⟩
  names mod _ ht hne := by
    obtain rfl := (eq_of_type_event ht).resolve_left hne
    change ascii "poll" ≠ ascii "event_core"
    decide
  actions mod _ ht hne := by
    obtain rfl := (eq_of_type_event ht).resolve_left hne
    exact Option.some_ne_none _
  setters mod _ _ cmd hcmd call st huse := by
    cases mod with
    | events =>
      rw [List.mem_singleton.mp hcmd]
      obtain ⟨u, hu⟩ := Option.isSome_iff_exists.mp huse
      obtain ⟨ecf, hecf, -⟩ := coreUse_eq_some.mp hu
      obtain ⟨l, hl, -⟩ := coreConf_eq_ok.mp hecf
      have hdup : st.conf.isSome := by rw [hl]; rfl
      change (eventsBlock (shipped e pollInit) call st).Keeps _
      rw [eventsBlock, if_pos hdup]
      exact .refl st
    | _ => cases hcmd
  initConfs mod _ ht hne f hf conf st _ := by
    obtain rfl := (eq_of_type_event ht).resolve_left hne
    cases hf
    exact .refl st

/-- What the program is set up with, and a run at the beginning of a block. -/
def pollSetup : Setup := ⟨⟨ascii "/", ascii "error.log", fun _ => 0⟩, ascii "lingx.pid", some []⟩

def pollRun : Run (State Mod Unit World) :=
  ⟨.opened 3 (ascii "lingx.conf") 17 (readFrom (ascii "multi_accept on;\x7d")),
    ofState (Modules.createConf fun _ => UNSET_INDEX), []⟩

/-- With the modules of the program and a block that has one directive `poll` is started. -/
theorem chosen_started_poll : ∃ r',
    (eventsBlock (shipped pollSetup fun st => (0, st)) ⟨[], mainScope, none⟩ pollRun.st).run
        (fun scope r => parseLoop (confModules (shipped pollSetup fun st => (0, st))
          (shippedCommands pollSetup fun st => (0, st))) 4 (.nested r.cf) 1 scope r) pollRun =
      some (.ok, r') ∧
      (processInit (shipped pollSetup fun st => (0, st))
        ⟨id, fun _ => 0, fun _ => none, fun _ => id, fun _ => id⟩ r'.st).inits = [.eventPoll] := by
  have hok : ((eventsBlock (shipped pollSetup fun st => (0, st)) ⟨[], mainScope, none⟩
      pollRun.st).run (fun scope r => parseLoop (confModules (shipped pollSetup fun st => (0, st))
        (shippedCommands pollSetup fun st => (0, st))) 4 (.nested r.cf) 1 scope r) pollRun).map
        Prod.fst = some .ok := by
    decide +kernel
  obtain ⟨⟨rv, r'⟩, hrun, rfl⟩ := Option.map_eq_some_iff.mp hok
  obtain ⟨first, hfirst, hstarted⟩ := chosen_started shipped_admissible
    ⟨id, fun _ => 0, fun _ => none, fun _ => id, fun _ => id⟩ (fun _ _ _ => rfl) hrun
  obtain rfl : Mod.eventPoll = first := Option.some.inj hfirst
  exact ⟨r', hrun, (hstarted r'.st (.refl _)).1⟩

end Shipped

end Lingx.Modules.Event
