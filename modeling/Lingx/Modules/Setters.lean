import Lingx.Conf.Keep
import Lingx.Modules.Shipped

/-! What the setters of the commands do that `handle_` can find. The setter of a flag changes
the flag or nothing; `events` is parsed once, on configurations that have nothing set. -/

namespace Lingx.Modules

open Library Conf Http

/-- The flags, each with its place. -/
inductive Flag where
  | daemon
  | master
  | multiAccept
  deriving DecidableEq, Repr

namespace Flag

def name : Flag → Bytes
  | .daemon => ascii "daemon"
  | .master => ascii "master_process"
  | .multiAccept => ascii "multi_accept"

/-- What `init_conf` puts in place of `UNSET`. -/
def default : Flag → UInt32
  | .daemon | .master => ON
  | .multiAccept => OFF

def offset : Flag → ℕ
  | .daemon => 0
  | .master => 4
  | .multiAccept => 8

/-- The context and the index of the configuration that has the flag. -/
def slot (st : State) : Flag → ℕ × ℕ
  | .daemon | .master => (CYCLE_CTX, Mod.core.index)
  | .multiAccept => (EVENTS_CTX, (st.ctxIndex .eventCore).toNat)

/-- What the flag holds, if there is a configuration for it. -/
def value (st : State) (flag : Flag) : Option UInt32 :=
  st.word (some (flag.slot st)) flag.offset

end Flag

section Setter
variable {flag flag' : Flag} {st : State} {conf : Option (ℕ × ℕ)} {offset : ℕ} {w v : UInt32}

theorem Flag.name_inj (h : flag.name = flag'.name) : flag = flag' := by
  revert h
  cases flag <;> cases flag' <;> decide

/-- `Set_flag_slot` with a configuration in its slot: it fails, or the flag was unset and
holds the value of the argument. -/
theorem setFlagSlot_cases (call : Call) (hw : st.word call.conf offset = some w) :
    (∃ rv, rv ≠ .ok ∧ setFlagSlot offset call st = .done rv st) ∨
    w = UNSET ∧ ∃ v, flagOf (call.args.getD 1 []) = some v ∧
      setFlagSlot offset call st = .done .ok (st.setWord call.conf offset v) := by
  simp only [setFlagSlot, hw, parseFlagArg]
  by_cases hset : w = UNSET
  · cases hv : flagOf (call.args.getD 1 []) with
    | none =>
      refine .inl ⟨.error, Rv.noConfusion, ?_⟩
      rw [if_neg (not_not.mpr hset)]
      rfl
    | some v =>
      refine .inr ⟨hset, v, rfl, ?_⟩
      rw [if_neg (not_not.mpr hset)]
  · refine .inl ⟨.text (ascii "is duplicate"), Rv.noConfusion, ?_⟩
    rw [if_pos hset]
    rfl

theorem setFlagSlot_done (offset : ℕ) (call : Call) (st : State) :
    ∃ rv st', setFlagSlot offset call st = .done rv st' ∧
      (st' = st.faulted ∨ st' = st ∨ ∃ v, st' = st.setWord call.conf offset v) := by
  cases hw : st.word call.conf offset with
  | none =>
    refine ⟨.error, _, ?_, .inl rfl⟩
    simp only [setFlagSlot, hw]
  | some w =>
    rcases setFlagSlot_cases call hw with ⟨rv, -, hset⟩ | ⟨-, v, -, hset⟩
    · exact ⟨rv, st, hset, .inr (.inl rfl)⟩
    · exact ⟨.ok, _, hset, .inr (.inr ⟨v, rfl⟩)⟩

@[simp] theorem setWord_fault : (st.setWord conf offset w).fault = st.fault := by
  rw [State.setWord.eq_def]
  split
  · rfl
  · split_ifs <;> rfl

@[simp] theorem setWord_ctxIndex : (st.setWord conf offset w).ctxIndex = st.ctxIndex := by
  rw [State.setWord.eq_def]
  split
  · rfl
  · split_ifs <;> rfl

theorem value_daemon : Flag.daemon.value st = some st.core.daemon := rfl

theorem value_master : Flag.master.value st = some st.core.master := rfl

theorem value_multiAccept_eq : Flag.multiAccept.value st =
    (st.events.getD [])[(st.ctxIndex .eventCore).toNat]?.bind (·.map (·.multiAccept)) := by
  simp only [Flag.value, Flag.slot, State.word, if_neg (show ¬ EVENTS_CTX = CYCLE_CTX by decide),
    if_true]
  rcases (st.events.getD [])[(st.ctxIndex .eventCore).toNat]? with _ | _ | ecf <;> rfl

theorem value_multiAccept : Flag.multiAccept.value st = some w ↔
    ∃ l ecf, st.events = some l ∧ l[(st.ctxIndex .eventCore).toNat]? = some (some ecf) ∧
      ecf.multiAccept = w := by
  rw [value_multiAccept_eq]
  cases st.events with
  | none => simp
  | some l => simp [Option.bind_eq_some_iff, Option.map_eq_some_iff]

theorem setWord_length : (st.setWord conf offset w).events.map List.length =
    st.events.map List.length := by
  rw [State.setWord.eq_def]
  split
  · rfl
  · split_ifs
    · rfl
    · cases st.events <;> simp
    · rfl

theorem value_setWord_self (h : flag.value st = some w) :
    flag.value (st.setWord (some (flag.slot st)) flag.offset v) = some v := by
  cases flag with
  | daemon => rfl
  | master => rfl
  | multiAccept =>
    obtain ⟨l, ecf, hevents, hecf, -⟩ := value_multiAccept.mp h
    refine value_multiAccept.mpr ⟨l.modify (st.ctxIndex .eventCore).toNat
      (·.map (·.setWord v Flag.multiAccept.offset)), { ecf with multiAccept := v }, ?_, ?_, rfl⟩
    · rw [State.setWord, Flag.slot, if_neg (show ¬ EVENTS_CTX = CYCLE_CTX by decide), if_pos rfl,
        hevents]
      rfl
    · simp [hecf, EventConf.setWord, Flag.offset]

/-- Through the slot of a flag, whatever it is, no other flag is set. -/
theorem value_setWord_of_ne (h : flag' ≠ flag) :
    flag'.value (st.setWord conf flag.offset v) = flag'.value st := by
  rcases conf with _ | ⟨ctx, idx⟩
  · rfl
  by_cases hcycle : ctx = CYCLE_CTX
  · subst hcycle
    cases flag' <;> cases flag <;> first | rfl | exact absurd rfl h
  by_cases hevents : ctx = EVENTS_CTX
  · subst hevents
    have hword : st.setWord (some (EVENTS_CTX, idx)) flag.offset v = { st with
        events := st.events.map (·.modify idx (·.map (·.setWord v flag.offset))) } := rfl
    rw [hword]
    cases flag' with
    | daemon => rfl
    | master => rfl
    | multiAccept =>
      have hkept (ecf : EventConf) : (ecf.setWord v flag.offset).multiAccept = ecf.multiAccept := by
        cases flag <;> first | rfl | exact absurd rfl h
      rw [value_multiAccept_eq, value_multiAccept_eq]
      cases st.events with
      | none => rfl
      | some l =>
        simp only [Option.map_some, Option.getD_some, List.getElem?_modify]
        split_ifs
        · rcases l[(st.ctxIndex .eventCore).toNat]? with _ | _ | ecf
          · rfl
          · rfl
          · exact congrArg some (hkept ecf)
        · simp
  · rw [State.setWord, if_neg hcycle, if_neg hevents]

end Setter

section Blocks
variable {e : Setup} {ctxIndex idx : Mod → UInt32} {st : State} {call : Call}

theorem mem_modules (mod : Mod) : mod ∈ modules := by
  cases mod <;> decide

theorem oldCycle_subset (mods : List Mod) (_ : e.cycle.oldCycle = some mods) :
    mods ⊆ e.cycle.modules :=
  fun mod _ => mem_modules mod

theorem numbered {t : ℕ} (h : ∀ mod mod' : Mod, mod.type = t → mod'.type = t →
    ctxIndex mod = ctxIndex mod' → ctxIndex mod = UNSET_INDEX ∨ mod = mod') :
    Numbered e.cycle Mod.type t ctxIndex :=
  ⟨show modules.length < UInt32.size by decide, fun mods h => oldCycle_subset mods h,
    fun mod _ mod' _ => h mod mod'⟩

theorem eq_of_type_event {mod : Mod} (h : mod.type = EVENT_MODULE) :
    mod = .eventCore ∨ mod = .eventPoll := by
  revert h
  cases mod <;> decide

theorem countModules_events : ∃ idx size,
    countModules e.cycle Mod.type EVENT_MODULE ctxIndex = some (idx, size) ∧
      ∀ mod, mod.type = EVENT_MODULE → idx mod < size := by
  by_cases hset : ∀ mod, mod.type = EVENT_MODULE → ctxIndex mod ≠ UNSET_INDEX
  · obtain ⟨size, hcount, hlt⟩ := countModules_set (fun mods h => oldCycle_subset (e := e) mods h)
      fun mod _ => hset mod
    exact ⟨ctxIndex, size, hcount, fun mod => hlt mod (mem_modules mod)⟩
  · have hnum : Numbered e.cycle Mod.type EVENT_MODULE ctxIndex := numbered fun m m' h h' he => by
      obtain ⟨mod, htype, hunset⟩ : ∃ mod, mod.type = EVENT_MODULE ∧
          ctxIndex mod = UNSET_INDEX := by
        simpa using hset
      rcases eq_of_type_event h with rfl | rfl <;> rcases eq_of_type_event h' with rfl | rfl <;>
        rcases eq_of_type_event htype with rfl | rfl <;> simp_all
    obtain ⟨idx, size, hcount, -, hidx, -⟩ := countModules_spec hnum
    exact ⟨idx, size, hcount, fun mod h => (hidx mod (mem_modules mod) h).2⟩

/-- The configurations of the event modules before the block is parsed. -/
theorem foldlM_createEventConf {l : List (Option EventConf)}
    (h : (idx .eventCore).toNat < l.length) : modules.foldlM (createEventConf idx) (some l) =
      .ok (some (l.set (idx .eventCore).toNat (some ⟨UNSET, UNSET, UNSET, none⟩))) := by
  have hskip {v : ConfCtxPtr EventConf} {mods : List Mod} (hmods : ∀ mod ∈ mods, mod ≠ .eventCore) :
      mods.foldlM (createEventConf idx) v = .ok v := by
    induction mods with
    | nil => rfl
    | cons mod mods ih =>
      refine foldlM_cons_eq_ok.mpr ⟨v, ?_, ih fun m hm => hmods m (List.mem_cons_of_mem _ hm)⟩
      have hne := hmods mod List.mem_cons_self
      cases mod <;> first | rfl | exact absurd rfl hne
  have hsplit : modules =
      [.core, .errlog, .events] ++ .eventCore :: [.eventPoll, .http, .httpCore] := rfl
  rw [hsplit, List.foldlM_append]
  refine bind_eq_ok.mpr ⟨_, hskip (by decide), foldlM_cons_eq_ok.mpr ⟨_, create_some h, ?_⟩⟩
  exact hskip (by decide)

/-- What the `init_conf` of the event core makes of its configuration. -/
def EventConf.completed (ecf : EventConf) (poll : UInt32) : EventConf where
  connections := confInitValue ecf.connections DEFAULT_CONNECTIONS
  use := confInitValue ecf.use poll
  multiAccept := confInitValue ecf.multiAccept OFF
  name := ecf.name.or (some (eventName .eventPoll))

/-- The `init_conf` of the event core puts the default in place of `UNSET`. -/
theorem eventCoreInitConf_eq {l : List (Option EventConf)} (ecf : EventConf)
    (hevents : st.events = some l) (hlt : (st.ctxIndex .eventCore).toNat < l.length) :
    eventCoreInitConf (some ecf) st = .ok { st with
      connectionN := (ecf.completed (st.ctxIndex .eventPoll)).connections
      events := some (l.set (st.ctxIndex .eventCore).toNat
        (some (ecf.completed (st.ctxIndex .eventPoll)))) } := by
  have hfind : (modules.find? fun mod => mod.type = EVENT_MODULE ∧
      eventName mod ≠ eventName .eventCore) = some .eventPoll := by decide
  simp only [eventCoreInitConf, hfind]
  rw [hevents]
  exact bind_eq_ok.mpr ⟨_, if_pos hlt, rfl⟩

/-- The part behind the parse succeeds on the configurations that the block has made. -/
theorem eventsInit_eq {l : List (Option EventConf)} {ecf : EventConf}
    (hevents : st.events = some l) (hecf : l[(st.ctxIndex .eventCore).toNat]? = some (some ecf))
    (hpoll : (st.ctxIndex .eventPoll).toNat < l.length) :
    eventsInit .ok st = .done .ok { st with
      connectionN := (ecf.completed (st.ctxIndex .eventPoll)).connections
      events := some (l.set (st.ctxIndex .eventCore).toNat
        (some (ecf.completed (st.ctxIndex .eventPoll)))) } := by
  have hlt : (st.ctxIndex .eventCore).toNat < l.length := (List.getElem?_eq_some_iff.mp hecf).1
  obtain ⟨st', hst'⟩ : ∃ st' : State, st' = { st with
      connectionN := (ecf.completed (st.ctxIndex .eventPoll)).connections
      events := some (l.set (st.ctxIndex .eventCore).toNat
        (some (ecf.completed (st.ctxIndex .eventPoll)))) } := ⟨_, rfl⟩
  have hcoreConf : eventInitConf st .eventCore = .ok st' := by
    rw [eventInitConf, if_neg (by decide), hevents]
    exact bind_eq_ok.mpr ⟨_, load_eq_ok hecf, hst' ▸ eventCoreInitConf_eq ecf hevents hlt⟩
  have hpollConf : eventInitConf st' .eventPoll = .ok st' := by
    have hevents' : st'.events = some _ := congrArg State.events hst'
    have hctx : st'.ctxIndex = st.ctxIndex := by rw [hst']
    rw [eventInitConf, if_neg (by decide), hevents', hctx]
    refine bind_eq_ok.mpr ⟨_, dif_pos (by rwa [List.length_set]), ?_⟩
    rw [if_neg (by decide), eventPollInitConf, hevents', hctx]
    exact bind_eq_ok.mpr ⟨_, load_eq_ok (List.getElem?_set_self hlt), rfl⟩
  have hrun : modules.foldlM eventInitConf st = .ok st' :=
    foldlM_cons_eq_ok.mpr ⟨st, rfl, foldlM_cons_eq_ok.mpr ⟨st, rfl,
      foldlM_cons_eq_ok.mpr ⟨st, rfl, foldlM_cons_eq_ok.mpr ⟨st', hcoreConf,
      foldlM_cons_eq_ok.mpr ⟨st', hpollConf, rfl⟩⟩⟩⟩⟩
  rw [eventsInit, if_neg (by simp), hrun, hst']

theorem eventsInit_ok {l : List (Option EventConf)} {ecf : EventConf}
    (hevents : st.events = some l) (hecf : l[(st.ctxIndex .eventCore).toNat]? = some (some ecf))
    (hpoll : (st.ctxIndex .eventPoll).toNat < l.length) :
    ∃ st', eventsInit .ok st = .done .ok st' ∧
      Flag.multiAccept.value st' = some (confInitValue ecf.multiAccept OFF) ∧
      st'.core = st.core ∧ st'.fault = st.fault :=
  ⟨_, eventsInit_eq hevents hecf hpoll, value_multiAccept.mpr ⟨_, _, rfl,
    List.getElem?_set_self (List.getElem?_eq_some_iff.mp hecf).1, rfl⟩, rfl, rfl⟩

theorem eventsInit_done (rv : Rv) (st : State) : ∃ rv' st', eventsInit rv st = .done rv' st' := by
  rw [eventsInit]
  split
  · exact ⟨_, _, rfl⟩
  · split
    · rename_i ex _
      cases ex <;> exact ⟨_, _, rfl⟩
    · exact ⟨_, _, rfl⟩

/-- `Events_block_`: the first block is parsed with a configuration that has nothing set. -/
theorem eventsBlock_open (e : Setup) (call : Call) (hevents : st.events = none) :
    ∃ idx l, eventsBlock e call st =
        .parse eventsScope { st with ctxIndex := idx, events := some l } eventsInit ∧
      l[(idx .eventCore).toNat]? = some (some ⟨UNSET, UNSET, UNSET, none⟩) ∧
      (idx .eventPoll).toNat < l.length := by
  obtain ⟨idx, size, hcount, hidx⟩ := @countModules_events e st.ctxIndex
  have hlt : ∀ mod, mod.type = EVENT_MODULE →
      (idx mod).toNat < (List.replicate size.toNat (none : Option EventConf)).length :=
    fun mod h => by
      rw [List.length_replicate]
      exact UInt32.lt_iff_toNat_lt.mp (hidx mod h)
  refine ⟨idx, _, ?_, List.getElem?_set_self (hlt .eventCore rfl), ?_⟩
  · rw [eventsBlock, if_neg (by simp [hevents])]
    simp only [hcount, foldlM_createEventConf (hlt .eventCore rfl)]
  · rw [List.length_set]
    exact hlt .eventPoll rfl

theorem eventsBlock_twice (e : Setup) (call : Call) (hevents : st.events.isSome) :
    eventsBlock e call st = .done (.text (ascii "is duplicate")) st := if_pos hevents

theorem eventsBlock_cases (e : Setup) (call : Call) (st : State) :
    (∃ rv, rv ≠ .ok ∧ eventsBlock e call st = .done rv st) ∨
    st.events = none ∧ ∃ idx l, eventsBlock e call st =
        .parse eventsScope { st with ctxIndex := idx, events := some l } eventsInit ∧
      l[(idx .eventCore).toNat]? = some (some ⟨UNSET, UNSET, UNSET, none⟩) ∧
      (idx .eventPoll).toNat < l.length := by
  by_cases hevents : st.events.isSome
  · exact .inl ⟨_, Rv.noConfusion, eventsBlock_twice e call hevents⟩
  · rw [Bool.not_eq_true, Option.isSome_eq_false_iff, Option.isNone_iff_eq_none] at hevents
    exact .inr ⟨hevents, eventsBlock_open e call hevents⟩

end Blocks

section Commands
variable {e : Setup} {st st' : State} {mod : Module State} {cmd : Command State}
  {flag : Flag}

/-- The module and the command of a flag. -/
def Flag.module : Flag → Mod
  | .daemon | .master => .core
  | .multiAccept => .eventCore

def Flag.command (flag : Flag) : Command State :=
  ⟨flag.name, (if flag = .multiAccept then EVENT_CONF else MAIN_CONF) ||| CONF_FLAG, 0,
    setFlagSlot flag.offset⟩

/-- Nothing that a flag depends on is changed. -/
structure Same (st st' : State) : Prop where
  ctxIndex : st'.ctxIndex = st.ctxIndex
  core : st'.core = st.core
  events : st'.events = st.events
  fault : st'.fault = st.fault

theorem Same.refl (st : State) : Same st st := ⟨rfl, rfl, rfl, rfl⟩

theorem Same.value (h : Same st st') : flag.value st' = flag.value st := by
  cases flag with
  | daemon => rw [value_daemon, value_daemon, h.core]
  | master => rw [value_master, value_master, h.core]
  | multiAccept => rw [value_multiAccept_eq, value_multiAccept_eq, h.events, h.ctxIndex]

theorem errorLog_done (e : Setup) (call : Call) (st : State) :
    ∃ rv st', errorLog e call st = .done rv st' ∧ Same st st' := by
  rw [errorLog]
  split
  · exact ⟨_, _, rfl, .refl st⟩
  · exact ⟨_, _, rfl, rfl, rfl, rfl, rfl⟩

theorem ne_name : ∀ name ∈ [ascii "error_log", ascii "events"],
    ∀ flag : Flag, name ≠ flag.name := by
  intro name hname flag
  revert name
  cases flag <;> decide

theorem mem_confModules (h : mod ∈ confModules e) :
    ∃ m ∈ [Mod.core, .errlog, .events, .eventCore], mod = confModule e m := by
  obtain ⟨m, hm, rfl⟩ := List.mem_map.mp h
  exact ⟨m, hm, rfl⟩

/-- What the command is that has been found: it is that of a flag, it changes no flag, or it
is `events`. -/
theorem command_cases (h : (mod, cmd) ∈ allCommands (confModules e)) :
    (∃ flag : Flag, mod.type = flag.module.type ∧ mod.index = flag.module.index ∧
      (∀ st, mod.ctxIndex st = (st.ctxIndex flag.module).toNat) ∧ cmd = flag.command) ∨
    (∀ flag : Flag, cmd.name ≠ flag.name) ∧
      mod.type = CORE_MODULE ∧ ((∀ call st, ∃ rv st', cmd.set call st = .done rv st' ∧
        Same st st') ∨ cmd.set = eventsBlock e) := by
  obtain ⟨hmod, hcmd⟩ := mem_allCommands.mp h
  obtain ⟨m, hm, rfl⟩ := mem_confModules hmod
  cases m with
  | core =>
    rcases List.mem_pair.mp hcmd with rfl | rfl
    · exact .inl ⟨.daemon, rfl, rfl, fun _ => rfl, rfl⟩
    · exact .inl ⟨.master, rfl, rfl, fun _ => rfl, rfl⟩
  | errlog =>
    obtain rfl := List.mem_singleton.mp hcmd
    exact .inr ⟨ne_name (ascii "error_log") (by decide), rfl, .inl (errorLog_done e)⟩
  | events =>
    obtain rfl := List.mem_singleton.mp hcmd
    exact .inr ⟨ne_name (ascii "events") (by decide), rfl, .inr rfl⟩
  | eventCore =>
    obtain rfl := List.mem_singleton.mp hcmd
    exact .inl ⟨.multiAccept, rfl, rfl, fun _ => rfl, rfl⟩
  | eventPoll => cases hcmd
  | http => exact absurd hm (by decide)
  | httpCore => exact absurd hm (by decide)

theorem simple_of_done {s : Setter State} (h : ∃ rv st', s = .done rv st') : s.Simple := by
  obtain ⟨rv, st', rfl⟩ := h
  trivial

theorem eventsBlock_afterParse (e : Setup) (call : Call) (st : State) :
    (eventsBlock e call st).AfterParse := by
  rcases eventsBlock_cases e call st with ⟨rv, hrv, hset⟩ | ⟨-, idx, l, hset, -⟩
  · rw [hset]
    exact hrv
  · rw [hset]
    refine ⟨fun st => simple_of_done (eventsInit_done .ok st), fun rv st hrv => ?_⟩
    rw [eventsInit, if_pos hrv]
    exact hrv

theorem confModules_wellBehaved (e : Setup) : WellBehaved (confModules e) := by
  intro mod hmod cmd hcmd call st
  have hsimple {cmd : Command State} (htype : cmd.type &&& CONF_BLOCK = 0)
      (hdone : ∃ rv st', cmd.set call st = .done rv st') :
      if cmd.isBlock then (cmd.set call st).AfterParse else (cmd.set call st).Simple := by
    rw [Command.isBlock, if_neg (by simpa using htype)]
    exact simple_of_done hdone
  have hblock {cmd : Command State} (htype : cmd.type &&& CONF_BLOCK ≠ 0)
      (hset : (cmd.set call st).AfterParse) :
      if cmd.isBlock then (cmd.set call st).AfterParse else (cmd.set call st).Simple := by
    rw [Command.isBlock, if_pos (by simpa using htype)]
    exact hset
  have hflag (offset : ℕ) : ∃ rv st', setFlagSlot offset call st = .done rv st' := by
    obtain ⟨rv, st', hset, -⟩ := setFlagSlot_done offset call st
    exact ⟨rv, st', hset⟩
  have hmain : (MAIN_CONF ||| CONF_BLOCK ||| CONF_NOARGS) &&& CONF_BLOCK ≠ 0 := by decide
  obtain ⟨m, hm, rfl⟩ := mem_confModules hmod
  cases m with
  | core => rcases List.mem_pair.mp hcmd with rfl | rfl <;> exact hsimple (by decide) (hflag _)
  | errlog =>
    obtain rfl := List.mem_singleton.mp hcmd
    obtain ⟨rv, st', hset, -⟩ := errorLog_done e call st
    exact hsimple (show (MAIN_CONF ||| CONF_1MORE) &&& CONF_BLOCK = 0 by decide) ⟨rv, st', hset⟩
  | events =>
    obtain rfl := List.mem_singleton.mp hcmd
    exact hblock hmain (eventsBlock_afterParse e call st)
  | eventCore =>
    obtain rfl := List.mem_singleton.mp hcmd
    exact hsimple (by decide) (hflag _)
  | eventPoll => cases hcmd
  | http => exact absurd hm (by decide)
  | httpCore => exact absurd hm (by decide)

end Commands

end Lingx.Modules
