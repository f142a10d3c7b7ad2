import Lingx.Library.WriteOnce
import Lingx.Modules.Setters

/-! The flags of the configuration. The `-g` text and the file are parsed over the same
configurations, and a flag in them is a variable that is written once: it holds the value
of the directive that names it, or its default, and a second directive is refused. -/

namespace Lingx.Modules

open Library.WriteOnce Conf

/-- The directives that name a flag, among those that have been read. -/
def directives (flag : Flag) (trace : List Obs) : List (List Bytes) :=
  trace.filterMap fun
    | .token _ t =>
      if (t.rc = .ok ∨ t.rc = .blockStart) ∧ t.args.head? = some flag.name then some t.args
      else none
    | _ => none

/-- The value that a directive gives to its flag. -/
def directiveValue : List Bytes → Option UInt32
  | [_, arg] => flagOf arg
  | _ => none

/-- The flag holds what the only directive that names it says, or `unset`. -/
def HoldsOnce (unset : UInt32) (flag : Flag) (st : State) (trace : List Obs) : Prop :=
  ∃ w, flag.value st = some w ∧ Once directiveValue unset (directives flag trace) w

section Directives
variable {flag flag' : Flag} {tr tr' : List Obs} {depth : ℕ} {t : Token} {args : List Bytes}

theorem directiveValue_ne (args : List Bytes) : directiveValue args ≠ some UNSET := by
  rw [directiveValue.eq_def]
  split
  · rw [flagOf]
    split_ifs <;> simp [ON, OFF, UNSET]
  · simp

@[simp] theorem directives_append :
    directives flag (tr ++ tr') = directives flag tr ++ directives flag tr' :=
  List.filterMap_append

@[simp] theorem directives_call {block : Bool} :
    directives flag [.call depth block args] = [] := rfl

@[simp] theorem directives_seen (r : Run State) : directives flag (seen r) =
    directives flag r.trace := by
  rw [directives, seen, List.filterMap_filter]
  refine List.filterMap_congr fun o _ => ?_
  cases o with
  | token _ _ => rfl
  | call _ _ _ => rfl
  | message _ err => exact ite_self _

theorem directives_end (h : t.rc = .blockDone ∨ t.rc = .fileDone) :
    directives flag [.token depth t] = [] := by
  rcases h with h | h <;> simp [directives, h]

theorem head?_eq_name : args.head? = some flag.name ↔ args.headD [] = flag.name := by
  cases args with
  | nil => cases flag <;> decide
  | cons a args => simp

theorem directives_token (hrc : t.rc = .ok ∨ t.rc = .blockStart) :
    directives flag [.token depth t] = if t.args.headD [] = flag.name then [t.args] else [] := by
  simp only [directives, List.filterMap_cons, List.filterMap_nil, hrc, true_and, head?_eq_name]
  split_ifs <;> rfl

theorem directives_other {block : Bool} (hrc : t.rc = .ok ∨ t.rc = .blockStart)
    (hname : t.args.headD [] ≠ flag.name) :
    directives flag (tr ++ [.token depth t] ++ [.call depth block t.args]) =
      directives flag tr := by
  rw [directives_append, directives_append, directives_call, directives_token hrc, if_neg hname,
    List.append_nil, List.append_nil]

end Directives

section Invariants
variable {e : Setup} {st st' : State} {tr tr' : List Obs} {flag : Flag} {unset w : UInt32}
  {depth : ℕ} {t : Token} {scope : Scope} {rv : Rv}

theorem HoldsOnce.keep (h : HoldsOnce unset flag st tr) (hvalue : flag.value st' = flag.value st)
    (hnamed : directives flag tr' = directives flag tr) : HoldsOnce unset flag st' tr' := by
  obtain ⟨w, hw, honce⟩ := h
  exact ⟨w, hvalue.trans hw, hnamed ▸ honce⟩

/-- A flag holds the value of the directive that its setter accepts. -/
theorem HoldsOnce.write {block : Bool} (h : HoldsOnce UNSET flag st tr)
    (hrc : t.rc = .ok ∨ t.rc = .blockStart) (hname : t.args.headD [] = flag.name)
    (hargs : t.args.length = 2)
    (hset : setFlagSlot flag.offset ⟨t.args, scope, some (flag.slot st)⟩ st = .done .ok st') :
    HoldsOnce UNSET flag st' (tr ++ [.token depth t] ++ [.call depth block t.args]) := by
  obtain ⟨w, hw, honce⟩ := h
  obtain ⟨name, arg, harg⟩ := List.length_eq_two.mp hargs
  rcases setFlagSlot_cases ⟨t.args, scope, some (flag.slot st)⟩ hw with
    ⟨rv, hrv, hfail⟩ | ⟨hunset, v, hv, hdone⟩
  · rw [hfail] at hset
    cases hset
    exact absurd rfl hrv
  · rw [hdone] at hset
    cases hset
    have hvalue : directiveValue t.args = some v := by
      have hflag : flagOf arg = some v := by simpa [harg] using hv
      rw [harg]
      exact hflag
    refine ⟨v, value_setWord_self hw, ?_⟩
    rw [directives_append, directives_append, directives_call, directives_token hrc,
      if_pos hname, List.append_nil]
    exact honce.write directiveValue_ne hunset hvalue

/-- What the setter of a flag does to the state, where there is a configuration. -/
structure FlagSet (flag : Flag) (st st' : State) : Prop where
  ctxIndex : st'.ctxIndex = st.ctxIndex
  fault : st'.fault = st.fault
  events : st'.events.map List.length = st.events.map List.length
  others : ∀ flag' ≠ flag, flag'.value st' = flag'.value st

theorem setFlagSlot_flagSet (hw : flag.value st = some w)
    (hset : setFlagSlot flag.offset ⟨t.args, scope, some (flag.slot st)⟩ st = .done rv st') :
    FlagSet flag st st' := by
  rcases setFlagSlot_cases ⟨t.args, scope, some (flag.slot st)⟩ hw with
    ⟨rv, -, hfail⟩ | ⟨-, v, -, hdone⟩
  · rw [hfail] at hset
    cases hset
    exact ⟨rfl, rfl, rfl, fun _ _ => rfl⟩
  · rw [hdone] at hset
    cases hset
    exact ⟨setWord_ctxIndex, setWord_fault, setWord_length, fun _ hne => value_setWord_of_ne hne⟩

/-- What holds between the directives of the main scope: the core flags hold their
directives, and `multi_accept` does from the end of the block on. -/
structure Configuring (st : State) (tr : List Obs) : Prop where
  fault : st.fault = false
  core : ∀ flag ≠ Flag.multiAccept, HoldsOnce UNSET flag st tr
  events : st.events = none ∧ directives .multiAccept tr = [] ∨ HoldsOnce OFF .multiAccept st tr

/-- What holds between the directives of the block of `events`. -/
structure InEvents (st : State) (tr : List Obs) : Prop where
  fault : st.fault = false
  flags : ∀ flag, HoldsOnce UNSET flag st tr
  poll : ∃ l, st.events = some l ∧ (st.ctxIndex .eventPoll).toNat < l.length

theorem Configuring.keep (h : Configuring st tr) (hsame : Same st st')
    (hnamed : ∀ flag, directives flag tr' = directives flag tr) : Configuring st' tr' :=
  ⟨hsame.fault.trans h.fault, fun flag hne => (h.core flag hne).keep hsame.value (hnamed flag),
    h.events.imp (fun h => ⟨hsame.events.trans h.1, (hnamed _).trans h.2⟩) fun h =>
      h.keep hsame.value (hnamed _)⟩

theorem InEvents.of_directives (h : InEvents st tr)
    (hnamed : ∀ flag, directives flag tr' = directives flag tr) : InEvents st tr' :=
  ⟨h.fault, fun flag => (h.flags flag).keep rfl (hnamed flag), h.poll⟩

theorem length_of_checkCommand {last : Rc} {args : List Bytes} {name : Bytes}
    (h : checkCommand flag.command last args name = none) : args.length = 2 := by
  have hflag : argumentsOk flag.command.type args.length = decide (args.length = 2) := by
    cases flag <;> rfl
  rw [checkCommand] at h
  split_ifs at h with _ _ hargs
  simpa [hflag] using hargs

theorem flagCommand_run {parse : Scope → Run State → Option (Rv × Run State)} {conf : ℕ × ℕ}
    {args : List Bytes} {r r' : Run State}
    (h : (flag.command.set ⟨args, scope, some conf⟩ st).run parse r = some (rv, r')) :
    setFlagSlot flag.offset ⟨args, scope, some conf⟩ st = .done rv r'.st ∧ r'.trace = r.trace := by
  obtain ⟨rv', st', hset, -⟩ := setFlagSlot_done flag.offset ⟨args, scope, some conf⟩ st
  have hcmd : flag.command.set ⟨args, scope, some conf⟩ st = .done rv' st' := hset
  rw [hcmd] at h
  cases h
  exact ⟨hset, rfl⟩

/-- Behind the directive of a flag all flags hold what their directives say. -/
theorem HoldsOnce.directive {flag' : Flag} {block : Bool} (h : HoldsOnce UNSET flag' st tr)
    (hw : flag.value st = some w) (hrc : t.rc = .ok ∨ t.rc = .blockStart)
    (hname : t.args.headD [] = flag.name) (hargs : t.args.length = 2)
    (hset : setFlagSlot flag.offset ⟨t.args, scope, some (flag.slot st)⟩ st = .done .ok st') :
    HoldsOnce UNSET flag' st' (tr ++ [.token depth t] ++ [.call depth block t.args]) := by
  by_cases hflag : flag' = flag
  · subst hflag
    exact h.write hrc hname hargs hset
  · refine h.keep ((setFlagSlot_flagSet hw hset).others flag' hflag) ?_
    exact directives_other hrc fun he => hflag (Flag.name_inj (he.symm.trans hname))

theorem Configuring.directive {block : Bool} (h : Configuring st tr) (hmain : flag ≠ .multiAccept)
    (hrc : t.rc = .ok ∨ t.rc = .blockStart) (hname : t.args.headD [] = flag.name)
    (hargs : t.args.length = 2)
    (hset : setFlagSlot flag.offset ⟨t.args, scope, some (flag.slot st)⟩ st = .done .ok st') :
    Configuring st' (tr ++ [.token depth t] ++ [.call depth block t.args]) := by
  obtain ⟨w, hw, -⟩ := h.core flag hmain
  have hflag := setFlagSlot_flagSet hw hset
  have hmulti : directives .multiAccept (tr ++ [.token depth t] ++ [.call depth block t.args]) =
      directives .multiAccept tr :=
    directives_other hrc fun he => hmain (Flag.name_inj (hname.symm.trans he))
  refine ⟨hflag.fault.trans h.fault, fun flag' hne => ?_, ?_⟩
  · exact (h.core flag' hne).directive hw hrc hname hargs hset
  · refine h.events.imp (fun hnone => ⟨?_, hmulti.trans hnone.2⟩) fun hheld =>
      hheld.keep (hflag.others .multiAccept hmain.symm) hmulti
    have hlen := hflag.events
    rw [hnone.1] at hlen
    exact Option.map_eq_none_iff.mp hlen

/-- Behind the directive of `multi_accept` in the block of `events`. -/
theorem InEvents.directive {block : Bool} (h : InEvents st tr)
    (hrc : t.rc = .ok ∨ t.rc = .blockStart) (hname : t.args.headD [] = flag.name)
    (hargs : t.args.length = 2)
    (hset : setFlagSlot flag.offset ⟨t.args, scope, some (flag.slot st)⟩ st = .done .ok st') :
    InEvents st' (tr ++ [.token depth t] ++ [.call depth block t.args]) := by
  obtain ⟨w, hw, -⟩ := h.flags flag
  obtain ⟨l, hl, hpoll⟩ := h.poll
  have hflag := setFlagSlot_flagSet hw hset
  refine ⟨hflag.fault.trans h.fault, fun flag' => ?_, ?_⟩
  · exact (h.flags flag').directive hw hrc hname hargs hset
  · have hlen := hflag.events
    rw [hl] at hlen
    obtain ⟨l', hl', hlen⟩ := Option.map_eq_some_iff.mp hlen
    exact ⟨l', hl', by rwa [hflag.ctxIndex, hlen]⟩

theorem inEvents_invariant (e : Setup) (pre : List Obs) : Invariant (confModules e)
    (fun st tr => InEvents st (pre ++ tr)) (fun st => st.fault = false) eventsScope where
  final _ _ h := h.fault
  ends st tr depth t hrc h := h.of_directives fun flag => by simp [directives_end hrc]
  handle k depth t tr r r' rv hrc h htrace hrun := by
    rcases handle_cases hrun with ⟨hrv, hst⟩ | ⟨mod, cmd, rv₁, r₁, hfind, hcheck, hset, hst, hok⟩
    · exact ⟨hst ▸ h.fault, fun hok => absurd hok hrv⟩
    · obtain ⟨hname, htype, -⟩ := findCommand_fits hfind
      rcases command_cases (findCommand_mem hfind) with
        ⟨flag, hmod, -, hctx, rfl⟩ | ⟨-, hmod, -⟩
      · obtain rfl : flag = .multiAccept := by
          cases flag with
          | daemon => exact absurd (hmod.symm.trans htype) (by decide)
          | master => exact absurd (hmod.symm.trans htype) (by decide)
          | multiAccept => rfl
        have hslot : confSlot mod Flag.multiAccept.command eventsScope r.st =
            some (Flag.multiAccept.slot r.st) := by
          rw [confSlot, if_neg (by decide), hctx]
          rfl
        obtain ⟨w, hw, -⟩ := h.flags .multiAccept
        rw [hslot] at hset
        obtain ⟨hdone, htrace₁⟩ := flagCommand_run hset
        refine ⟨hst ▸ (setFlagSlot_flagSet hw hdone).fault.trans h.fault, fun hrv => ?_⟩
        obtain ⟨rfl, rfl⟩ := hok hrv
        rw [htrace₁, Run.see, htrace, ← List.append_assoc, ← List.append_assoc]
        have hnamed : t.args.headD [] = Flag.multiAccept.name := hname
        exact h.directive hrc hnamed (length_of_checkCommand hcheck) hdone
      · exact absurd (hmod.symm.trans htype) (by decide)

theorem Configuring.open (h : Configuring st tr) (hnone : st.events = none)
    {idx : Mod → UInt32} {l : List (Option EventConf)}
    (hecf : l[(idx .eventCore).toNat]? = some (some ⟨UNSET, UNSET, UNSET, none⟩))
    (hpoll : (idx .eventPoll).toNat < l.length) :
    InEvents { st with ctxIndex := idx, events := some l } tr := by
  have hnamed : directives .multiAccept tr = [] := by
    rcases h.events with ⟨-, hnamed⟩ | ⟨w, hw, -⟩
    · exact hnamed
    · obtain ⟨l, _, hl, -⟩ := value_multiAccept.mp hw
      exact absurd (hl.symm.trans hnone) (by simp)
  refine ⟨h.fault, fun flag => ?_, l, rfl, hpoll⟩
  cases flag with
  | daemon => exact (h.core .daemon (by simp)).keep rfl rfl
  | master => exact (h.core .master (by simp)).keep rfl rfl
  | multiAccept =>
    refine ⟨UNSET, value_multiAccept.mpr ⟨l, _, rfl, hecf, rfl⟩, ?_⟩
    rw [hnamed]
    exact .unset

theorem InEvents.close (h : InEvents st tr) : ∃ st', eventsInit .ok st = .done .ok st' ∧
    Configuring st' tr := by
  obtain ⟨l, hl, hpoll⟩ := h.poll
  obtain ⟨w, hw, honce⟩ := h.flags .multiAccept
  obtain ⟨l', ecf, hl', hecf, rfl⟩ := value_multiAccept.mp hw
  obtain rfl : l = l' := Option.some.inj (hl.symm.trans hl')
  obtain ⟨st', hinit, hvalue, hcore, hfault⟩ := eventsInit_ok hl hecf hpoll
  refine ⟨st', hinit, hfault.trans h.fault, fun flag hne => ?_, .inr ⟨_, hvalue, ?_⟩⟩
  · refine (h.flags flag).keep ?_ rfl
    cases flag with
    | daemon => rw [value_daemon, value_daemon, hcore]
    | master => rw [value_master, value_master, hcore]
    | multiAccept => exact absurd rfl hne
  · exact honce.default directiveValue_ne OFF

/-- The setter of `events`, run as a command, with a parse that keeps what holds in the
block. -/
theorem eventsBlock_run {parse : Scope → Run State → Option (Rv × Run State)} {pre : List Obs}
    {call : Call} {r r' : Run State}
    (hparse : ∀ (r : Run State) rv (r' : Run State), InEvents r.st (pre ++ r.trace) →
      parse eventsScope r = some (rv, r') → Comes (fun st tr => InEvents st (pre ++ tr))
        (fun st => st.fault = false) rv r')
    (h : Configuring r.st (pre ++ r.trace))
    (hrun : (eventsBlock e call r.st).run parse r = some (rv, r')) :
    Comes (fun st tr => Configuring st (pre ++ tr)) (fun st => st.fault = false) rv r' := by
  rcases eventsBlock_cases e call r.st with ⟨rv', hrv, hset⟩ | ⟨hnone, idx, l, hset, hecf, hpoll⟩
  · rw [hset] at hrun
    cases hrun
    exact ⟨h.fault, fun hok => absurd hok hrv⟩
  · rw [hset, Setter.run] at hrun
    split at hrun
    · cases hrun
    · rename_i rv₁ r₁ hinner
      obtain ⟨hfault, hin⟩ := hparse _ rv₁ r₁ (h.open hnone hecf hpoll) hinner
      by_cases hrv : rv₁ = .ok
      · subst hrv
        obtain ⟨st', hinit, hclose⟩ := (hin rfl).close
        rw [hinit] at hrun
        cases hrun
        exact ⟨hclose.fault, fun _ => hclose⟩
      · rw [eventsInit, if_pos hrv] at hrun
        cases hrun
        exact ⟨hfault, fun hok => absurd hok hrv⟩

/-- The main scope: the flags of the core can be set, and `events` can be met. -/
theorem configuring_invariant (e : Setup) (pre : List Obs) : Invariant (confModules e)
    (fun st tr => Configuring st (pre ++ tr)) (fun st => st.fault = false) mainScope where
  final _ _ h := h.fault
  ends st tr depth t hrc h := h.keep (.refl st) fun flag => by simp [directives_end hrc]
  handle k depth t tr r r' rv hrc h htrace hrun := by
    rcases handle_cases hrun with ⟨hrv, hst⟩ | ⟨mod, cmd, rv₁, r₁, hfind, hcheck, hset, hst, hok⟩
    · exact ⟨hst ▸ h.fault, fun hok => absurd hok hrv⟩
    obtain ⟨hname, htype, -⟩ := findCommand_fits hfind
    have hseen : pre ++ (r.see (.call depth cmd.isBlock t.args)).trace =
        pre ++ tr ++ [.token depth t] ++ [.call depth cmd.isBlock t.args] := by
      rw [Run.see, htrace, ← List.append_assoc, ← List.append_assoc]
    have hcomes : Comes (fun st tr => Configuring st (pre ++ tr)) (fun st => st.fault = false)
        rv₁ r₁ := by
      rcases command_cases (findCommand_mem hfind) with
        ⟨flag, hmod, hindex, -, rfl⟩ | ⟨hother, -, hdone | hevents⟩
      · have hmain : flag ≠ .multiAccept := by
          rintro rfl
          exact absurd (hmod.symm.trans htype) (by decide)
        have hslot : confSlot mod flag.command mainScope r.st = some (flag.slot r.st) := by
          cases flag with
          | daemon => rw [confSlot, if_pos (by decide), hindex]; rfl
          | master => rw [confSlot, if_pos (by decide), hindex]; rfl
          | multiAccept => exact absurd rfl hmain
        obtain ⟨w, hw, -⟩ := h.core flag hmain
        rw [hslot] at hset
        obtain ⟨hdone, htrace₁⟩ := flagCommand_run hset
        refine ⟨(setFlagSlot_flagSet hw hdone).fault.trans h.fault, ?_⟩
        rintro rfl
        rw [htrace₁, hseen]
        exact h.directive hmain hrc hname (length_of_checkCommand hcheck) hdone
      · obtain ⟨rv', st', hdone, hsame⟩ :=
          hdone ⟨t.args, mainScope, confSlot mod cmd mainScope r.st⟩ r.st
        rw [hdone] at hset
        cases hset
        refine ⟨hsame.fault.trans h.fault, fun _ => h.keep hsame fun flag => ?_⟩
        rw [hseen, directives_other hrc (hname ▸ hother flag)]
      · rw [hevents] at hset
        refine eventsBlock_run (r := r.see (.call depth cmd.isBlock t.args))
          (fun r rv r' hin hrun => ?_) (h.keep (.refl r.st) fun flag => ?_) hset
        · exact (inEvents_invariant e pre).parseLoop hin hrun
        · rw [hseen, directives_other hrc (hname ▸ hother flag)]
    refine ⟨hst ▸ hcomes.1, fun hrv => ?_⟩
    obtain ⟨hrv₁, rfl⟩ := hok hrv
    exact hcomes.2 hrv₁

end Invariants

section Cycle
variable {e : Setup} {ctxIndex : Mod → UInt32} {st st' : State} {tr : List Obs}

/-- The directive of a flag changes no other flag, wherever it is handled. -/
theorem handle_other {parse : Scope → Run State → Option (Rv × Run State)} {scope : Scope}
    {depth : ℕ} {last : Rc} {args : List Bytes} {r r' : Run State} {rv : Rv} {flag flag' : Flag}
    (h : handle (confModules e) parse scope depth last args r = some (rv, r'))
    (hname : args.headD [] = flag.name) (hne : flag' ≠ flag) :
    flag'.value r'.st = flag'.value r.st := by
  rcases handle_cases h with ⟨-, hst⟩ | ⟨mod, cmd, rv₁, r₁, hfind, -, hset, hst, -⟩
  · rw [hst]
  obtain ⟨hcmd, -, -⟩ := findCommand_fits hfind
  rcases command_cases (findCommand_mem hfind) with ⟨flag₁, -, -, -, rfl⟩ | ⟨hother, -⟩
  · obtain rfl : flag₁ = flag := Flag.name_inj (hcmd.symm.trans hname)
    obtain ⟨rv', st', hdone, hst'⟩ := setFlagSlot_done flag₁.offset
      ⟨args, scope, confSlot mod flag₁.command scope r.st⟩ r.st
    have hcmd' : flag₁.command.set ⟨args, scope, confSlot mod flag₁.command scope r.st⟩ r.st =
        .done rv' st' := hdone
    rw [hcmd'] at hset
    cases hset
    rw [hst]
    rcases hst' with rfl | rfl | ⟨v, rfl⟩
    · cases flag' <;> rfl
    · rfl
    · exact value_setWord_of_ne hne
  · exact absurd (hcmd.symm.trans hname) (hother flag)

theorem configuring_createConf : Configuring (createConf ctxIndex) [] := by
  refine ⟨rfl, fun flag hne => ?_, .inl ⟨rfl, rfl⟩⟩
  cases flag with
  | daemon => exact ⟨UNSET, rfl, .unset⟩
  | master => exact ⟨UNSET, rfl, .unset⟩
  | multiAccept => exact absurd rfl hne

/-- The `init_conf` calls: a configuration without `events` is rejected. -/
theorem foldlM_initConf (h : modules.foldlM (initConf e) st = some st') :
    st.events ≠ none ∧ st' = coreInitConf e st := by
  cases hevents : st.events with
  | none =>
    have hrun : modules.foldlM (initConf e) st =
        (initConf e (coreInitConf e st) .events).bind fun st => some st := rfl
    have hnone : initConf e (coreInitConf e st) .events = none :=
      if_pos (Option.isNone_iff_eq_none.mpr hevents)
    rw [hrun, hnone] at h
    cases h
  | some l =>
    have hrun : modules.foldlM (initConf e) st =
        (initConf e (coreInitConf e st) .events).bind fun st => some st := rfl
    have hsome : initConf e (coreInitConf e st) .events = some (coreInitConf e st) :=
      if_neg (by simp [coreInitConf, hevents])
    rw [hrun, hsome] at h
    cases h
    exact ⟨by simp, rfl⟩

theorem Configuring.init (h : Configuring st tr) (hevents : st.events ≠ none) (flag : Flag) :
    HoldsOnce flag.default flag (coreInitConf e st) tr := by
  cases flag with
  | daemon =>
    obtain ⟨w, hw, honce⟩ := h.core .daemon (by simp)
    obtain rfl := Option.some.inj hw
    exact ⟨_, rfl, honce.default directiveValue_ne ON⟩
  | master =>
    obtain ⟨w, hw, honce⟩ := h.core .master (by simp)
    obtain rfl := Option.some.inj hw
    exact ⟨_, rfl, honce.default directiveValue_ne ON⟩
  | multiAccept =>
    rcases h.events with ⟨hnone, -⟩ | hheld
    · exact absurd hnone hevents
    · exact hheld

/-- The calls of `handle_` by `Init_new_cycle`. -/
def Looked (e : Setup) (ctxIndex : Mod → UInt32) (text filename : Bytes) (o : Opened)
    (c : HandleCall State) : Prop :=
  ParamHandles (confModules e) text mainScope (createConf ctxIndex) c ∨
    ∃ r, param (confModules e) text mainScope (createConf ctxIndex) = some (.ok, r) ∧
      FileHandles (confModules e) o filename mainScope r.st c

/-- A call of `handle_` finds a command in front of the destroyed table. -/
def Found (e : Setup) (c : HandleCall State) : Prop :=
  ∃ found, findCommand c.scope (c.args.headD []) false (allCommands (confModules e)) = .ok found

theorem found_iff {c : HandleCall State} : Found e c ↔ ¬ c.Misses (confModules e) := by
  rw [Found, HandleCall.Misses]
  cases findCommand c.scope (c.args.headD []) false (allCommands (confModules e)) <;> simp

/-- What `Init_new_cycle` makes: it comes to undefined behaviour only by a search that finds no
command, and an accepted configuration has been read to its end and holds its flags. -/
theorem initNewCycle_spec (e : Setup) (ctxIndex : Mod → UInt32) (text filename : Bytes)
    (o : Opened) : ∃ c, initNewCycle e ctxIndex text filename o = some c ∧
      (c.fault = true ↔ ∃ call, Looked e ctxIndex text filename o call ∧ ¬ Found e call) ∧
      ∀ st, c.cycle = some st → c.remaining = 0 ∧
        ∀ flag, HoldsOnce flag.default flag st c.trace := by
  obtain ⟨-, rv, r, hparam, -, -⟩ := parse_wellFormed (confModules_wellBehaved e) o filename text
    mainScope (createConf ctxIndex)
  obtain ⟨hfault, hconf⟩ := (configuring_invariant e []).param configuring_createConf hparam
  have hmissed := param_missed hparam
  simp only [initNewCycle, hparam, Looked, found_iff, not_not]
  split_ifs with hrv
  · refine ⟨_, rfl, ?_, by simp⟩
    rw [hfault, Bool.or_false, hmissed]
    simp [hrv]
  obtain rfl := not_not.mp hrv
  obtain ⟨⟨rv', r', hfile, -, hformed⟩, -⟩ := parse_wellFormed (confModules_wellBehaved e) o
    filename text mainScope r.st
  have hstart : Configuring r.st (r.trace ++ []) := by simpa using hconf rfl
  obtain ⟨hfault', hconf'⟩ := (configuring_invariant e r.trace).parseFile hstart hfile
  have hboth : (r.missed || r'.missed || r'.st.fault) = true ↔ ∃ c,
      (ParamHandles (confModules e) text mainScope (createConf ctxIndex) c ∨
        ∃ r₁, some (Rv.ok, r) = some (Rv.ok, r₁) ∧
          FileHandles (confModules e) o filename mainScope r₁.st c) ∧
      c.Misses (confModules e) := by
    rw [hfault', Bool.or_false, Bool.or_eq_true, hmissed, parseFile_missed hfile, ← exists_or]
    simp [or_and_right]
  simp only [hfile]
  split_ifs with hrv'
  · exact ⟨_, rfl, hboth, by simp⟩
  obtain rfl := not_not.mp hrv'
  refine ⟨_, rfl, hboth, fun st hst => ⟨?_, fun flag => ?_⟩⟩
  · have hparamEnd := param_remaining (confModules_wellBehaved e) hparam
    have hfileEnd := (hformed rfl).remaining
    simp only [hparamEnd, hfileEnd]
  · obtain ⟨hevents, rfl⟩ := foldlM_initConf hst
    exact ((hconf' rfl).init hevents flag).keep rfl (by simp)

/-- Each flag of a configuration is set once. If it is accepted both texts have been read to the
end, and each flag holds the value of the single directive that names it, or its default
without one. With two directives that name one flag, wherever they are, it is rejected. The
directive of a flag changes no other. -/
structure NewCycle.FlagsKept (e : Setup) (c : NewCycle) : Prop where
  accepted : ∀ st, c.MayAccept st → c.remaining = 0 ∧
    ∀ flag, HoldsOnce flag.default flag st c.trace
  twice : ∀ flag, 2 ≤ (directives flag c.trace).length → ∀ st, ¬ c.MayAccept st
  others : ∀ parse scope depth last args (r : Run State) rv r' (flag flag' : Flag),
    handle (confModules e) parse scope depth last args r = some (rv, r') →
    args.headD [] = flag.name → flag' ≠ flag → flag'.value r'.st = flag'.value r.st

theorem NewCycle.not_flagsKept {c : NewCycle} (h : c.fault = true) : ¬ c.FlagsKept e := by
  intro hkept
  obtain ⟨w, hvalue, -⟩ := (hkept.accepted (createConf fun _ => 0) (.inl h)).2 .multiAccept
  cases hvalue

/-- The flags are kept, whatever the `-g` text and the file are, exactly if each directive that
is looked up is found in front of the destroyed table. -/
theorem initNewCycle_flags_iff (e : Setup) (ctxIndex : Mod → UInt32) (text filename : Bytes)
    (o : Opened) : ∃ c, initNewCycle e ctxIndex text filename o = some c ∧
      (c.FlagsKept e ↔ ∀ call, Looked e ctxIndex text filename o call → Found e call) := by
  obtain ⟨c, hc, hfault, hheld⟩ := initNewCycle_spec e ctxIndex text filename o
  refine ⟨c, hc, fun hkept => ?_, fun hfound => ?_⟩
  · by_contra hmiss
    push Not at hmiss
    exact c.not_flagsKept (hfault.mpr hmiss) hkept
  have hdefined : ¬ c.fault = true := fun h => by
    obtain ⟨call, hlooked, hmiss⟩ := hfault.mp h
    exact hmiss (hfound call hlooked)
  have haccepted : ∀ st, c.MayAccept st → c.remaining = 0 ∧
      ∀ flag, HoldsOnce flag.default flag st c.trace :=
    fun st hst => hheld st (hst.resolve_left hdefined)
  refine ⟨haccepted, fun flag htwice st hst => ?_, fun _ _ _ _ _ _ _ _ _ _ => handle_other⟩
  obtain ⟨w, -, honce⟩ := (haccepted st hst).2 flag
  have := honce.length_le
  omega

/-- `daemon` is named twice behind a directive that no module has. -/
theorem initNewCycle_flags_foo : ∃ c,
    initNewCycle ⟨⟨ascii "/", ascii "error.log", fun _ => 0⟩, ascii "lingx.pid", none⟩
      (fun _ => UNSET_INDEX) [] (ascii "lingx.conf")
      ⟨3, some 27, readFrom (ascii "foo; daemon on; daemon on;\n")⟩ = some c ∧
      (∀ st, c.MayAccept st) ∧
      ¬ c.FlagsKept ⟨⟨ascii "/", ascii "error.log", fun _ => 0⟩, ascii "lingx.pid", none⟩ := by
  obtain ⟨c, hc, -⟩ := initNewCycle_spec
    ⟨⟨ascii "/", ascii "error.log", fun _ => 0⟩, ascii "lingx.pid", none⟩
    (fun _ => UNSET_INDEX) [] (ascii "lingx.conf")
    ⟨3, some 27, readFrom (ascii "foo; daemon on; daemon on;\n")⟩
  have hfault : c.fault = true := by
    have hrun : (initNewCycle ⟨⟨ascii "/", ascii "error.log", fun _ => 0⟩, ascii "lingx.pid", none⟩
        (fun _ => UNSET_INDEX) [] (ascii "lingx.conf")
        ⟨3, some 27, readFrom (ascii "foo; daemon on; daemon on;\n")⟩).map NewCycle.fault =
        some true := by decide
    rw [hc] at hrun
    exact Option.some.inj hrun
  exact ⟨c, hc, fun _ => .inl hfault, c.not_flagsKept hfault⟩

/-- A flag from the `-g` text, one that is not named, and one from the file. -/
example : ((initNewCycle ⟨⟨ascii "/", ascii "error.log", fun _ => 0⟩, ascii "lingx.pid", some []⟩
    (fun _ => UNSET_INDEX) (ascii "daemon off;") (ascii "lingx.conf")
    ⟨3, some 26, readFrom (ascii "events \x7b multi_accept on;\x7d")⟩).bind (·.cycle)).map
      (fun st => [Flag.daemon, .master, .multiAccept].map (·.value st)) =
        some [some OFF, some ON, some ON] := by
  decide

end Cycle

end Lingx.Modules
