import Lingx.Modules.Count
import Lingx.Modules.Ctx

/-! `Http_block_`, the setter of `http`. Configurations of modules are pointers, of which
only the values matter; what the functions of a module return is given. -/

namespace Lingx.Http

open Library Modules
open Lingx.Conf (Rv)

def HTTP_MODULE : ℕ := 0x50545448

def HTTP_MAIN_CONF : ℕ := 0x02000000

def OK : ℤ := 0

structure HttpConfCtx (C : Type) where
  mainConf : ConfCtxPtr C
  srvConf : ConfCtxPtr C
  locConf : ConfCtxPtr C

/-- The members of `Conf` that `Http_block_` sets in its copy. -/
structure Conf (C : Type) where
  ctx : ConfCtxPtr C
  moduleType : ℕ
  cmdType : ℕ

/-- The functions of an HTTP module that `Http_block_` calls, as far as there are any. -/
structure HttpModuleCtx (C : Type) where
  preconfiguration : Option (Conf C → ℤ)
  createMainConf : Option (Conf C → Option C)
  initMainConf : Option (Conf C → Option C → Rv)
  createSrvConf : Option (Conf C → Option C)
  createLocConf : Option (Conf C → Option C)

variable {C M : Type}

section Block
variable (type : M → ℕ) (ctx : M → HttpModuleCtx C) (cf : Conf C)

/-- A turn of the first loop. -/
def createConfs (idx : M → UInt32) (hc : HttpConfCtx C) (mod : M) :
    Except Exit (HttpConfCtx C) :=
  if type mod ≠ HTTP_MODULE then .ok hc
  else do
    let mainConf ← create ((ctx mod).createMainConf.map (· cf)) (idx mod) hc.mainConf
    let srvConf ← create ((ctx mod).createSrvConf.map (· cf)) (idx mod) hc.srvConf
    let locConf ← create ((ctx mod).createLocConf.map (· cf)) (idx mod) hc.locConf
    .ok ⟨mainConf, srvConf, locConf⟩

/-- A turn of the second loop. -/
def preconfigure (ncf : Conf C) (_ : Unit) (mod : M) : Except Exit Unit :=
  if type mod ≠ HTTP_MODULE then .ok ()
  else
    match (ctx mod).preconfiguration with
    | none => .ok ()
    | some f => if f ncf ≠ OK then .error (.rv .error) else .ok ()

/-- The vectors before the first loop: `srv_conf` is set twice. -/
def allocate (size : UInt32) : HttpConfCtx C :=
  let hc : HttpConfCtx C := ⟨none, none, none⟩
  let hc := { hc with mainConf := some (List.replicate size.toNat none) }
  let hc := { hc with srvConf := some (List.replicate size.toNat none) }
  { hc with srvConf := some (List.replicate size.toNat none) }

variable (c : Modules.Cycle M)

/-- `Http_block_` up to the parse of the block: the indices of the modules, the context and
the `Conf` it parses with. -/
def httpPrepare [DecidableEq M] (ctxIndex : M → UInt32) (conf : Option (HttpConfCtx C)) :
    Option (Except Exit ((M → UInt32) × HttpConfCtx C × Conf C)) :=
  if conf.isSome then some (.error (.rv (.text (ascii "is duplicate"))))
  else
    match countModules c type HTTP_MODULE ctxIndex with
    | none => none
    | some (idx, size) => some do
      let hc ← c.modules.foldlM (createConfs type ctx cf idx) (allocate size)
      let ncf : Conf C := { cf with ctx := hc.mainConf }
      c.modules.foldlM (preconfigure type ctx ncf) ()
      .ok (idx, hc, { ncf with moduleType := HTTP_MODULE, cmdType := HTTP_MAIN_CONF })

def httpMergeServers : Rv := .ok

/-- A turn of the last loop. -/
def initConfs (ncf : Conf C) (idx : M → UInt32) (hc : HttpConfCtx C) (_ : Unit) (mod : M) :
    Except Exit Unit :=
  if type mod ≠ HTTP_MODULE then .ok ()
  else do
    match (ctx mod).initMainConf with
    | none => .ok ()
    | some f =>
      let rv := f ncf (← load hc.mainConf (idx mod))
      if rv ≠ .ok then .error (.rv rv) else .ok ()
    if httpMergeServers ≠ .ok then .error (.rv httpMergeServers) else .ok ()

/-- `Http_block_`; `parse` is `ncf.parse("")`, which may change the vectors. -/
def httpBlock [DecidableEq M] (httpCore : M) (parse : Conf C → HttpConfCtx C → Rv × HttpConfCtx C)
    (ctxIndex : M → UInt32) (conf : Option (HttpConfCtx C)) : Option (Except Exit Rv) :=
  (httpPrepare type ctx cf c ctxIndex conf).map fun r => do
    let (idx, hc, ncf) ← r
    let (rv, hc) := parse ncf hc
    if rv ≠ .ok then .ok rv
    else
      let _ ← load hc.mainConf (idx httpCore)
      c.modules.foldlM (initConfs type ctx ncf idx hc) ()
      .ok .ok

/-- What the modules create is in the vector, each at its module's index. -/
def Put (idx : M → UInt32) (creator : M → Option (Conf C → Option C)) (v : ConfCtxPtr C) : Prop :=
  ∀ mod ∈ c.modules, type mod = HTTP_MODULE → ∀ f, creator mod = some f →
    ∃ l, v = some l ∧ l[(idx mod).toNat]? = some (f cf)

/-- All three levels are prepared. -/
structure Prepared (idx : M → UInt32) (hc : HttpConfCtx C) : Prop where
  main : Put type cf c idx (fun mod => (ctx mod).createMainConf) hc.mainConf
  srv : Put type cf c idx (fun mod => (ctx mod).createSrvConf) hc.srvConf
  loc : Put type cf c idx (fun mod => (ctx mod).createLocConf) hc.locConf
  distinct : ∀ mod ∈ c.modules, ∀ mod' ∈ c.modules, type mod = HTTP_MODULE →
    type mod' = HTTP_MODULE → idx mod = idx mod' → mod = mod'

/-- `Http_block_` comes to the parse without a fault and with all levels prepared, if the
block is no duplicate. -/
def PreparesLevels [DecidableEq M] (ctxIndex : M → UInt32) (conf : Option (HttpConfCtx C)) : Prop :=
  ∃ r, httpPrepare type ctx cf c ctxIndex conf = some r ∧ (∀ f, r ≠ .error (.fault f)) ∧
    (conf = none → ∃ idx hc ncf, r = .ok (idx, hc, ncf) ∧ Prepared type ctx cf c idx hc)

variable {type ctx cf c} {idx : M → UInt32} {hc hc' : HttpConfCtx C} {mods : List M} {mod : M}
  {l l₁ l₂ : List (Option C)} {creator : M → Option (Conf C → Option C)} {mi : UInt32}
  {size : UInt32} {ctxIndex : M → UInt32} {conf : Option (HttpConfCtx C)}

/-- A list of modules has filled its slots of a vector and no others. -/
structure Fills (type : M → ℕ) (cf : Conf C) (idx : M → UInt32)
    (creator : M → Option (Conf C → Option C)) (mods : List M) (l l₁ : List (Option C)) :
    Prop where
  length : l₁.length = l.length
  put : ∀ mod ∈ mods, type mod = HTTP_MODULE → ∀ f, creator mod = some f →
    l₁[(idx mod).toNat]? = some (f cf)
  rest : ∀ j, (∀ mod ∈ mods, type mod = HTTP_MODULE → (idx mod).toNat ≠ j) → l₁[j]? = l[j]?

theorem fills_nil : Fills type cf idx creator [] l l :=
  ⟨rfl, by simp, fun _ _ => rfl⟩

/-- Modules with different indices do not overwrite each other's slots. -/
theorem Fills.cons (h : Fills type cf idx creator [mod] l l₁)
    (hrest : Fills type cf idx creator mods l₁ l₂)
    (hdistinct : ∀ mod' ∈ mods, type mod = HTTP_MODULE → type mod' = HTTP_MODULE →
      idx mod = idx mod' → mod = mod') :
    Fills type cf idx creator (mod :: mods) l l₂ := by
  refine ⟨hrest.length.trans h.length, fun m hm ht f hf => ?_, fun j hj => ?_⟩
  · by_cases hlater : m ∈ mods
    · exact hrest.put m hlater ht f hf
    · obtain rfl : m = mod := by simpa [hlater] using hm
      rw [hrest.rest _ fun m' hm' ht' he => ?_]
      · exact h.put m List.mem_cons_self ht f hf
      · have := hdistinct m' hm' ht ht' (UInt32.toNat_inj.mp he.symm)
        exact hlater (this ▸ hm')
  · rw [hrest.rest j fun m hm => hj m (List.mem_cons_of_mem _ hm)]
    exact h.rest j fun m hm => hj m (by simpa using Or.inl hm)

variable (creator) in
/-- A configuration that is created, and is not null, is stored in its slot. -/
theorem create_ok (htype : type mod = HTTP_MODULE) (hmi : (idx mod).toNat < l.length)
    (hnull : ∀ f, creator mod = some f → f cf ≠ none) :
    ∃ l₁, create ((creator mod).map (· cf)) (idx mod) (some l) = .ok (some l₁) ∧
      Fills type cf idx creator [mod] l l₁ := by
  cases hf : creator mod with
  | none =>
    refine ⟨l, rfl, rfl, fun m hm _ f hf' => ?_, fun _ _ => rfl⟩
    rw [List.mem_singleton.mp hm, hf] at hf'
    cases hf'
  | some f =>
    obtain ⟨p, hp⟩ := Option.ne_none_iff_exists'.mp (hnull f hf)
    refine ⟨l.set (idx mod).toNat (f cf), ?_, List.length_set, fun m hm _ f' hf' => ?_,
      fun j hj => ?_⟩
    · rw [Option.map_some, hp]
      exact create_some hmi
    · obtain rfl := List.mem_singleton.mp hm
      obtain rfl : f = f' := Option.some.inj (hf.symm.trans hf')
      exact List.getElem?_set_self hmi
    · exact List.getElem?_set_ne (hj mod List.mem_cons_self htype)

/-- No configuration that the HTTP modules create is null. -/
def Creates (type : M → ℕ) (ctx : M → HttpModuleCtx C) (cf : Conf C) (mods : List M) : Prop :=
  ∀ mod ∈ mods, type mod = HTTP_MODULE → ∀ f,
    (ctx mod).createMainConf = some f ∨ (ctx mod).createSrvConf = some f ∨
      (ctx mod).createLocConf = some f → f cf ≠ none

/-- A turn of the first loop fills the slots of its module in two of the vectors. -/
theorem createConfs_ok (hcreates : Creates type ctx cf [mod])
    (hloc : type mod = HTTP_MODULE → (ctx mod).createLocConf = none)
    (hsize : type mod = HTTP_MODULE → (idx mod).toNat < l.length)
    (hlen : l₂.length = l.length) :
    ∃ l' l₂', createConfs type ctx cf idx ⟨some l, some l₂, none⟩ mod =
        .ok ⟨some l', some l₂', none⟩ ∧
      Fills type cf idx (fun mod => (ctx mod).createMainConf) [mod] l l' ∧
      Fills type cf idx (fun mod => (ctx mod).createSrvConf) [mod] l₂ l₂' := by
  by_cases htype : type mod = HTTP_MODULE
  · have hnull := hcreates mod List.mem_cons_self htype
    obtain ⟨l', hl', hmain⟩ := create_ok (fun mod => (ctx mod).createMainConf)
      htype (hsize htype) fun f hf => hnull f (.inl hf)
    obtain ⟨l₂', hl₂', hsrv⟩ := create_ok (fun mod => (ctx mod).createSrvConf)
      htype (hlen ▸ hsize htype) fun f hf => hnull f (.inr (.inl hf))
    refine ⟨l', l₂', ?_, hmain, hsrv⟩
    rw [createConfs, if_neg (not_not.mpr htype), hloc htype]
    exact bind_eq_ok.mpr ⟨_, hl', bind_eq_ok.mpr ⟨_, hl₂', rfl⟩⟩
  · have hskip {creator : M → Option (Conf C → Option C)} {l : List (Option C)} :
        Fills type cf idx creator [mod] l l :=
      ⟨rfl, fun m hm ht => absurd (List.mem_singleton.mp hm ▸ ht) htype, fun _ _ => rfl⟩
    exact ⟨l, l₂, if_pos htype, hskip, hskip⟩

theorem foldlM_createConfs_ok (hcreates : Creates type ctx cf mods)
    (hloc : ∀ mod ∈ mods, type mod = HTTP_MODULE → (ctx mod).createLocConf = none)
    (hsize : ∀ mod ∈ mods, type mod = HTTP_MODULE → (idx mod).toNat < l.length)
    (hlen : l₂.length = l.length)
    (hdistinct : ∀ mod ∈ mods, ∀ mod' ∈ mods, type mod = HTTP_MODULE →
      type mod' = HTTP_MODULE → idx mod = idx mod' → mod = mod') :
    ∃ l' l₂', mods.foldlM (createConfs type ctx cf idx) ⟨some l, some l₂, none⟩ =
        .ok ⟨some l', some l₂', none⟩ ∧
      Fills type cf idx (fun mod => (ctx mod).createMainConf) mods l l' ∧
      Fills type cf idx (fun mod => (ctx mod).createSrvConf) mods l₂ l₂' := by
  induction mods generalizing l l₂ with
  | nil => exact ⟨l, l₂, rfl, fills_nil, fills_nil⟩
  | cons mod mods ih =>
    have hin {m : M} (hm : m ∈ mods) : m ∈ mod :: mods := List.mem_cons_of_mem _ hm
    have hone : Creates type ctx cf [mod] := fun m hm =>
      hcreates m (List.mem_singleton.mp hm ▸ List.mem_cons_self)
    obtain ⟨l', l₂', hstep, hmain, hsrv⟩ := createConfs_ok hone (hloc mod List.mem_cons_self)
      (hsize mod List.mem_cons_self) hlen
    have hlen' : l₂'.length = l'.length := by rw [hmain.length, hsrv.length, hlen]
    obtain ⟨l'', l₂'', hrun, hmain', hsrv'⟩ := ih (fun m hm => hcreates m (hin hm))
      (fun m hm => hloc m (hin hm)) (fun m hm ht => hmain.length ▸ hsize m (hin hm) ht) hlen'
      fun m hm m' hm' => hdistinct m (hin hm) m' (hin hm')
    have hfirst := fun m hm => hdistinct mod List.mem_cons_self m (hin hm)
    exact ⟨l'', l₂'', foldlM_cons_eq_ok.mpr ⟨_, hstep, hrun⟩, hmain.cons hmain' hfirst,
      hsrv.cons hsrv' hfirst⟩

theorem createConfs_loc (h : createConfs type ctx cf idx hc mod = .ok hc')
    (hnull : hc.locConf = none) : hc'.locConf = none := by
  by_cases htype : type mod = HTTP_MODULE
  · rw [createConfs, if_neg (not_not.mpr htype)] at h
    obtain ⟨mainConf, -, h⟩ := bind_eq_ok.mp h
    obtain ⟨srvConf, -, h⟩ := bind_eq_ok.mp h
    obtain ⟨locConf, hloc, h⟩ := bind_eq_ok.mp h
    cases h
    rw [hnull] at hloc
    exact create_null hloc
  · rw [createConfs, if_pos htype] at h
    cases h
    exact hnull

theorem foldlM_createConfs_loc (h : mods.foldlM (createConfs type ctx cf idx) hc = .ok hc')
    (hnull : hc.locConf = none) : hc'.locConf = none := by
  induction mods generalizing hc with
  | nil => cases h; exact hnull
  | cons mod mods ih =>
    obtain ⟨hc₁, hstep, hrun⟩ := foldlM_cons_eq_ok.mp h
    exact ih hrun (createConfs_loc hstep hnull)

theorem foldlM_preconfigure_ok {ncf : Conf C} (h : ∀ mod ∈ mods, type mod = HTTP_MODULE →
    ∀ f, (ctx mod).preconfiguration = some f → f ncf = OK) :
    mods.foldlM (preconfigure type ctx ncf) () = .ok () := by
  induction mods with
  | nil => rfl
  | cons mod mods ih =>
    refine foldlM_cons_eq_ok.mpr ⟨(), ?_, ih fun m hm => h m (List.mem_cons_of_mem _ hm)⟩
    by_cases htype : type mod = HTTP_MODULE
    · have hok := h mod List.mem_cons_self htype
      rw [preconfigure, if_neg (not_not.mpr htype)]
      cases hpre : (ctx mod).preconfiguration with
      | none => rfl
      | some f => exact if_neg (not_not.mpr (hok f hpre))
    · exact if_pos htype

variable [DecidableEq M]

/-- A module that creates a location configuration stores it through null. -/
theorem loc_of_preparesLevels (h : PreparesLevels type ctx cf c ctxIndex none) :
    ∀ mod ∈ c.modules, type mod = HTTP_MODULE → (ctx mod).createLocConf = none := by
  intro mod hmem htype
  obtain ⟨r, hr, -, hok⟩ := h
  obtain ⟨idx, hc, ncf, rfl, hprep⟩ := hok rfl
  cases hf : (ctx mod).createLocConf with
  | none => rfl
  | some f =>
    obtain ⟨l, hl, -⟩ := hprep.loc mod hmem htype f hf
    rw [httpPrepare, if_neg (by simp)] at hr
    cases hcount : countModules c type HTTP_MODULE ctxIndex with
    | none => simp [hcount] at hr
    | some p =>
      simp only [hcount, Option.some.injEq] at hr
      obtain ⟨hc₁, hrun, hr⟩ := bind_eq_ok.mp hr
      obtain ⟨-, -, hr⟩ := bind_eq_ok.mp hr
      cases hr
      rw [foldlM_createConfs_loc hrun rfl] at hl
      cases hl

theorem preparesLevels_of_loc (hnum : Numbered c type HTTP_MODULE ctxIndex)
    (hcreates : Creates type ctx cf c.modules)
    (hpre : ∀ mod ∈ c.modules, type mod = HTTP_MODULE → ∀ f,
      (ctx mod).preconfiguration = some f → ∀ v, f { cf with ctx := v } = OK)
    (hloc : ∀ mod ∈ c.modules, type mod = HTTP_MODULE → (ctx mod).createLocConf = none) :
    PreparesLevels type ctx cf c ctxIndex none := by
  obtain ⟨idx, size, hcount, hnum', hidx, -⟩ := countModules_spec hnum
  have hdistinct : ∀ mod ∈ c.modules, ∀ mod' ∈ c.modules, type mod = HTTP_MODULE →
      type mod' = HTTP_MODULE → idx mod = idx mod' → mod = mod' := fun m hm m' hm' ht ht' he =>
    (hnum'.distinct m hm m' hm' ht ht' he).resolve_left (hidx m hm ht).1
  have hsize : ∀ mod ∈ c.modules, type mod = HTTP_MODULE →
      (idx mod).toNat < (List.replicate size.toNat (none : Option C)).length := fun m hm ht => by
    rw [List.length_replicate]
    exact UInt32.lt_iff_toNat_lt.mp (hidx m hm ht).2
  obtain ⟨l, l₂, hrun, hmain, hsrv⟩ := foldlM_createConfs_ok hcreates hloc hsize rfl hdistinct
  have hcreated : c.modules.foldlM (createConfs type ctx cf idx) (allocate size) =
      .ok ⟨some l, some l₂, none⟩ := hrun
  have hpreconf : c.modules.foldlM (preconfigure type ctx { cf with ctx := some l }) () = .ok () :=
    foldlM_preconfigure_ok fun m hm ht f hf => hpre m hm ht f hf (some l)
  refine ⟨.ok (idx, ⟨some l, some l₂, none⟩, ⟨some l, HTTP_MODULE, HTTP_MAIN_CONF⟩), ?_,
    by simp, fun _ => ⟨_, _, _, rfl, ?_⟩⟩
  · rw [httpPrepare, if_neg (by simp), hcount]
    exact congrArg some (bind_eq_ok.mpr ⟨_, hcreated, bind_eq_ok.mpr ⟨_, hpreconf, rfl⟩⟩)
  · refine ⟨fun m hm ht f hf => ⟨l, rfl, hmain.put m hm ht f hf⟩,
      fun m hm ht f hf => ⟨l₂, rfl, hsrv.put m hm ht f hf⟩, fun m hm ht f hf => ?_, hdistinct⟩
    exact absurd hf (by simp [hloc m hm ht])

theorem preparesLevels_duplicate (h : conf ≠ none) : PreparesLevels type ctx cf c ctxIndex conf :=
  ⟨_, if_pos (Option.isSome_iff_ne_none.mpr h), fun f => by simp, fun he => absurd he h⟩

/-- `Http_block_` prepares the three levels exactly if no HTTP module has a location
configuration, unless the block is a duplicate. -/
theorem preparesLevels_iff (hnum : Numbered c type HTTP_MODULE ctxIndex)
    (hcreates : Creates type ctx cf c.modules)
    (hpre : ∀ mod ∈ c.modules, type mod = HTTP_MODULE → ∀ f,
      (ctx mod).preconfiguration = some f → ∀ v, f { cf with ctx := v } = OK) :
    PreparesLevels type ctx cf c ctxIndex conf ↔
      (conf = none → ∀ mod ∈ c.modules, type mod = HTTP_MODULE →
        (ctx mod).createLocConf = none) := by
  constructor
  · rintro h rfl
    exact loc_of_preparesLevels h
  · intro h
    by_cases hconf : conf = none
    · subst hconf
      exact preparesLevels_of_loc hnum hcreates hpre (h rfl)
    · exact preparesLevels_duplicate hconf

end Block

/-- The functions of a module that creates what `b` says, of a main, a server and a location
configuration. -/
def creating (main srv loc : Bool) : HttpModuleCtx Unit where
  preconfiguration := some fun _ => OK
  createMainConf := if main then some fun _ => some () else none
  initMainConf := none
  createSrvConf := if srv then some fun _ => some () else none
  createLocConf := if loc then some fun _ => some () else none

theorem preparesLevels_iff_server :
    PreparesLevels (fun _ : Fin 2 => HTTP_MODULE) (fun _ => creating true true false)
      ⟨none, 0, 0⟩ ⟨[0, 1], some []⟩ (fun _ => UNSET_INDEX) none :=
  (preparesLevels_iff (numbered_init (by decide) (by simp)) (by simp [Creates, creating])
    (by simp [creating])).mpr (by simp [creating])

/-- A single HTTP module that creates a location configuration. -/
theorem preparesLevels_fails : ¬ PreparesLevels (fun _ : Fin 1 => HTTP_MODULE)
    (fun _ => creating true true true) ⟨none, 0, 0⟩ ⟨[0], some []⟩ (fun _ => UNSET_INDEX) none :=
  fun h => by simpa [creating] using loc_of_preparesLevels h 0 (by simp) rfl

end Lingx.Http
