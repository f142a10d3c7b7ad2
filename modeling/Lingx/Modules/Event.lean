import Lingx.Events.PollInit
import Lingx.Modules.Shipped
import Lingx.Process.Pidfile

/-! The event module that is started. `Event_core_init_conf_` notes the index of a module,
and `Event_core_process_init_` looks for the module with that index. The modules are any
list with the event core in it, and what the others do is given: a module is code that
may do anything, so long as it leaves the configuration of the event core alone. -/

namespace Lingx.Modules.Event

open Library Conf

/-- The configurations of the event modules. -/
inductive MConf (C : Type) where
  | core (ecf : EventConf)
  | other (conf : C)

/-- The members of `Cycle` and of the modules that are used here; what the other modules
use besides is the `world`. -/
structure State (M C W : Type) where
  ctxIndex : M → UInt32
  conf : ConfCtxPtr (MConf C)
  connectionN : UInt32
  world : W
  fault : Bool

def State.faulted {M C W : Type} (st : State M C W) : State M C W := { st with fault := true }

/-- The context of an event module: its name, what it creates, and two functions, each of
which may be missing. -/
structure EventModuleCtx (M C W : Type) where
  name : Bytes
  createConf : Option (Option (MConf C))
  initConf : Option (Option (MConf C) → State M C W → Rv × State M C W)
  init : Option (State M C W → ℤ × State M C W)

/-- The modules of a cycle, which one is the event core, and the contexts of the others. -/
structure Program (M C W : Type) where
  cycle : Modules.Cycle M
  type : M → ℕ
  index : M → ℕ
  eventCore : M
  others : M → EventModuleCtx M C W

variable {M C W : Type} [DecidableEq M] (prog : Program M C W)

/-- How a setter ends early. -/
def done (ex : Exit) (st : State M C W) : Setter (State M C W) :=
  match ex with
  | .rv ret => .done ret st
  | .fault _ => .done .error st.faulted

/-- A pointer to a configuration as one to an `EventConf`. -/
def eventConf : Option (MConf C) → Except Exit EventConf
  | some (.core ecf) => .ok ecf
  | _ => .error (.fault .null)

section Conf

/-- `Event_core_module_ctx_.name` -/
def eventCoreName : Bytes := ascii "event_core"

/-- `Event_core_create_conf_`. -/
def eventCoreCreateConf : Option (MConf C) := some (.core ⟨UNSET, UNSET, UNSET, none⟩)

def name (mod : M) : Bytes :=
  if mod = prog.eventCore then eventCoreName else (prog.others mod).name

/-- The module that `Event_core_init_conf_` selects. -/
def selected : Option M :=
  prog.cycle.modules.find? fun mod => prog.type mod = EVENT_MODULE ∧ name prog mod ≠ eventCoreName

/-- `Event_core_init_conf_`. -/
def eventCoreInitConf (conf : Option (MConf C)) (st : State M C W) :
    Except Exit (State M C W) :=
  match selected prog with
  | none => .error (.rv .error)
  | some module => do
    let ecf ← eventConf conf
    let ecf := { ecf with connections := confInitValue ecf.connections DEFAULT_CONNECTIONS }
    let st := { st with connectionN := ecf.connections }
    let ecf := { ecf with
      use := confInitValue ecf.use (st.ctxIndex module)
      name := ecf.name.or (some (name prog module))
      multiAccept := confInitValue ecf.multiAccept OFF }
    let v ← store st.conf (st.ctxIndex prog.eventCore) (some (.core ecf))
    .ok { st with conf := v }

/-- The command `multi_accept`, with `Set_flag_slot` as its setter. -/
def multiAccept (call : Call) (st : State M C W) : Setter (State M C W) :=
  match call.conf with
  | none => .done .error st.faulted
  | some (ctx, idx) =>
    if ctx ≠ EVENTS_CTX then .done .error st.faulted
    else
      match eventConf ((st.conf.getD []).getD idx none) with
      | .error _ => .done .error st.faulted
      | .ok ecf =>
        match parseFlagArg call.args ecf.multiAccept with
        | .error err => .done err.rv st
        | .ok v => .done .ok { st with
            conf := st.conf.map (·.set idx (some (.core { ecf with multiAccept := v }))) }

/-- A turn of the first loop of `Events_block_`. -/
def createConf (idx : M → UInt32) (v : ConfCtxPtr (MConf C)) (mod : M) :
    Except Exit (ConfCtxPtr (MConf C)) :=
  if prog.type mod ≠ EVENT_MODULE then .ok v
  else if mod = prog.eventCore then create (some eventCoreCreateConf) (idx mod) v
  else create (prog.others mod).createConf (idx mod) v

/-- A turn of the second loop. -/
def initConf (st : State M C W) (mod : M) : Except Exit (State M C W) :=
  if prog.type mod ≠ EVENT_MODULE then .ok st
  else if mod = prog.eventCore then do
    let conf ← load st.conf (st.ctxIndex mod)
    eventCoreInitConf prog conf st
  else
    match (prog.others mod).initConf with
    | none => .ok st
    | some f => do
      let conf ← load st.conf (st.ctxIndex mod)
      let (rv, st) := f conf st
      if rv ≠ .ok then .error (.rv rv) else .ok st

/-- The part of `Events_block_` behind the parse of the block. -/
def eventsInit (rv : Rv) (st : State M C W) : Setter (State M C W) :=
  if rv ≠ .ok then .done rv st
  else
    match prog.cycle.modules.foldlM (initConf prog) st with
    | .error ex => done ex st
    | .ok st => .done .ok st

def eventsBlock (_ : Call) (st : State M C W) : Setter (State M C W) :=
  if st.conf.isSome then .done (.text (ascii "is duplicate")) st
  else
    match countModules prog.cycle prog.type EVENT_MODULE st.ctxIndex with
    | none => .done .error st.faulted
    | some (idx, size) =>
      match prog.cycle.modules.foldlM (createConf prog idx)
        (some (List.replicate size.toNat none)) with
      | .error ex => done ex { st with ctxIndex := idx }
      | .ok v => .parse eventsScope { st with ctxIndex := idx, conf := v } (eventsInit prog)

/-- The modules with their commands; those of the event core are its own. -/
def confModules (commands : M → List (Command (State M C W))) : List (Conf.Module (State M C W)) :=
  prog.cycle.modules.map fun mod => ⟨prog.type mod, prog.index mod,
    fun st => (st.ctxIndex mod).toNat,
    if mod = prog.eventCore then
      [⟨ascii "multi_accept", EVENT_CONF ||| CONF_FLAG, 0, multiAccept⟩]
    else commands mod⟩

end Conf

section Process
open Lingx.Process (OK ERROR)

/-- What `Event_core_process_init_` calls besides the action of a module. -/
structure Calls (W : Type) where
  queueInit : W → W
  eventFlags : W → BitVec 32
  getrlimit : W → Option ℕ
  resizeFiles : ℕ → W → W
  initConnectionsEvents : UInt32 → W → W

/-- How the function ends. -/
inductive Ending where
  | fault
  | exit (status : ℤ)
  | ret (rc : ℤ)
  deriving DecidableEq, Repr

/-- What it leaves, and the modules whose action `init` it calls. -/
structure ProcessRun (M C W : Type) where
  st : State M C W
  inits : List M
  ending : Ending

variable (p : Calls W)

/-- The part of `Event_core_process_init_` behind its loop. -/
def connectionsInit (st : State M C W) (inits : List M) : ProcessRun M C W :=
  let init st := ⟨{ st with world := p.initConnectionsEvents st.connectionN st.world }, inits,
    .ret OK⟩
  if p.eventFlags st.world &&& Events.USE_FD_EVENT ≠ 0 then
    match p.getrlimit st.world with
    | none => ⟨st, inits, .ret ERROR⟩
    | some n => init { st with world := p.resizeFiles n st.world }
  else init st

/-- `Get_event_conf` of the event core. -/
def coreConf (st : State M C W) : Except Exit EventConf := do
  let conf ← load st.conf (st.ctxIndex prog.eventCore)
  eventConf conf

/-- `Event_core_process_init_`; to call an action that is null is a fault. -/
def processInit (st : State M C W) : ProcessRun M C W :=
  let st := { st with world := p.queueInit st.world }
  match coreConf prog st with
  | .error _ => ⟨st, [], .fault⟩
  | .ok ecf =>
    match prog.cycle.modules.find? fun mod =>
      prog.type mod = EVENT_MODULE ∧ st.ctxIndex mod = ecf.use with
    | none => connectionsInit p st []
    | some mod =>
      match if mod = prog.eventCore then none else (prog.others mod).init with
      | none => ⟨st, [mod], .fault⟩
      | some init =>
        let (rc, st) := init st
        if rc ≠ OK then ⟨st, [mod], .exit 2⟩ else connectionsInit p st [mod]

end Process

section Shipped

/-- The rest of the configuration. -/
abbrev World : Type := CoreConf × Option (Http.HttpConfCtx Unit) × Logs.LogCycle

/-- The modules of the program, with `Event_poll_init_conf_` and an action for `poll`. -/
def shipped (e : Setup) (pollInit : State Mod Unit World → ℤ × State Mod Unit World) :
    Program Mod Unit World where
  cycle := e.cycle
  type := Mod.type
  index := Mod.index
  eventCore := .eventCore
  others
    | .eventPoll => ⟨ascii "poll", none, some fun _ st => (.ok, st), some pollInit⟩
    | _ => ⟨[], none, none, none⟩

variable {e : Setup} {pollInit : State Mod Unit World → ℤ × State Mod Unit World}

/-- A state of the whole configuration, with the rest of it as the world. -/
def ofState (st : Modules.State) : State Mod Unit World :=
  ⟨st.ctxIndex, st.events.map (·.map (·.map .core)), st.connectionN, (st.core, st.http, st.logs),
    st.fault⟩

theorem load_map {C D : Type} (f : Option C → Option D) (v : ConfCtxPtr C) (i : UInt32) :
    load (v.map (·.map f)) i = (load v i).map f := by
  cases v with
  | none => rfl
  | some l => by_cases hi : i.toNat < l.length <;> simp [load, hi, Except.map]

theorem store_map {C D : Type} (f : Option C → Option D) (v : ConfCtxPtr C) (i : UInt32)
    (p : Option C) : store (v.map (·.map f)) i (f p) = (store v i p).map (·.map (·.map f)) := by
  cases v with
  | none => rfl
  | some l => by_cases hi : i.toNat < l.length <;> simp [store, hi, Except.map]

theorem load_ofState {st : Modules.State} {i : UInt32} {conf : Option EventConf}
    (h : load st.events i = .ok conf) : load (ofState st).conf i = .ok (conf.map .core) := by
  rw [ofState, load_map, h]
  rfl

/-- A turn of the second loop of `Events_block_` for the modules of the program is one for
any modules, where it goes well. -/
theorem initConf_ofState {st st' : Modules.State} {mod : Mod}
    (h : eventInitConf st mod = .ok st') :
    initConf (shipped e pollInit) (ofState st) mod = .ok (ofState st') := by
  cases mod with
  | core | errlog | events | http | httpCore =>
    cases h
    rfl
  | eventPoll =>
    obtain ⟨conf, hload, h⟩ := bind_eq_ok.mp h
    obtain ⟨ecf, -, h⟩ := bind_eq_ok.mp h
    split_ifs at h
    cases h
    exact bind_eq_ok.mpr ⟨_, load_ofState hload, rfl⟩
  | eventCore =>
    obtain ⟨conf, hload, h⟩ := bind_eq_ok.mp h
    refine bind_eq_ok.mpr ⟨_, load_ofState hload, ?_⟩
    have hfind : (modules.find? fun mod => mod.type = EVENT_MODULE ∧
        eventName mod ≠ eventName .eventCore) = some .eventPoll := by decide
    have hselected : selected (shipped e pollInit) = some .eventPoll := by rfl
    have h : Modules.eventCoreInitConf conf st = .ok st' := h
    simp only [Modules.eventCoreInitConf, hfind] at h
    cases conf with
    | none => cases h
    | some ecf =>
      obtain ⟨v, hstore, h⟩ := bind_eq_ok.mp h
      cases h
      change eventCoreInitConf (shipped e pollInit) (some (.core ecf)) (ofState st) = _
      simp only [eventCoreInitConf, hselected]
      refine bind_eq_ok.mpr ⟨ecf, rfl, bind_eq_ok.mpr ⟨v.map (·.map (·.map .core)), ?_, rfl⟩⟩
      have hmap := store_map (Option.map (MConf.core : EventConf → MConf Unit)) st.events
        (st.ctxIndex .eventCore)
      exact (hmap _).trans (congrArg (Except.map _) hstore)

theorem create_map {C D : Type} (g : C → D) {created : Option (Option C)} {i : UInt32}
    {v v' : ConfCtxPtr C} (h : create created i v = .ok v') :
    create (created.map (·.map g)) i (v.map (·.map (·.map g))) =
      .ok (v'.map (·.map (·.map g))) := by
  cases created with
  | none =>
    cases h
    rfl
  | some p =>
    obtain ⟨v₁, hstore, h⟩ := bind_eq_ok.mp h
    obtain ⟨q, hload, h⟩ := bind_eq_ok.mp h
    refine bind_eq_ok.mpr ⟨_, (store_map _ v i p).trans (congrArg (Except.map _) hstore), ?_⟩
    refine bind_eq_ok.mpr ⟨_, (load_map _ v₁ i).trans (congrArg (Except.map _) hload), ?_⟩
    split_ifs at h with hq
    cases h
    exact if_neg (by simpa using hq)

theorem createConf_ofState {idx : Mod → UInt32} {v v' : ConfCtxPtr EventConf} {mod : Mod}
    (h : createEventConf idx v mod = .ok v') :
    createConf (shipped e pollInit) idx (v.map (·.map (·.map .core))) mod =
      .ok (v'.map (·.map (·.map .core))) := by
  cases mod with
  | eventCore =>
    rw [createEventConf, if_neg (by decide)] at h
    exact create_map MConf.core h
  | _ =>
    cases h
    rfl

/-- The setter of `events` for the modules of the program is the one for any modules: it
comes to its parse with the same state. -/
theorem eventsBlock_ofState {call : Call} {st st₁ : Modules.State} {scope : Scope}
    {k : Rv → Modules.State → Setter Modules.State}
    (h : Modules.eventsBlock e call st = .parse scope st₁ k) :
    eventsBlock (shipped e pollInit) call (ofState st) =
      .parse scope (ofState st₁) (eventsInit (shipped e pollInit)) := by
  rw [Modules.eventsBlock] at h
  split_ifs at h with hdup
  split at h
  · cases h
  rename_i idx size hcount
  split at h
  · rename_i ex _
    cases ex <;> cases h
  rename_i v hcreate
  cases h
  have hdup' : ¬(ofState st).conf.isSome := by simpa [ofState] using hdup
  have hcount' : countModules (shipped e pollInit).cycle (shipped e pollInit).type EVENT_MODULE
      (ofState st).ctxIndex = some (idx, size) := hcount
  have hcreate' : (shipped e pollInit).cycle.modules.foldlM (createConf (shipped e pollInit) idx)
      (some (List.replicate size.toNat none)) = .ok (v.map (·.map (·.map .core))) := by
    have hstep (v : ConfCtxPtr EventConf) (mod : Mod) (v' : ConfCtxPtr EventConf)
        (h : createEventConf idx v mod = .ok v') : createConf (shipped e pollInit) idx
          (v.map (·.map (·.map .core))) mod = .ok (v'.map (·.map (·.map .core))) :=
      createConf_ofState h
    have hfold := foldlM_map hstep hcreate
    rw [Option.map_some, List.map_replicate] at hfold
    exact hfold
  simp only [eventsBlock, if_neg hdup', hcount', hcreate']
  rfl

theorem eventsInit_ofState {st st' : Modules.State}
    (h : modules.foldlM eventInitConf st = .ok st') :
    eventsInit (shipped e pollInit) .ok (ofState st) = .done .ok (ofState st') := by
  have hrun : (shipped e pollInit).cycle.modules.foldlM (initConf (shipped e pollInit))
      (ofState st) = .ok (ofState st') := foldlM_map (fun _ _ _ => initConf_ofState) h
  rw [eventsInit, if_neg (by simp), hrun]

end Shipped

end Lingx.Modules.Event
