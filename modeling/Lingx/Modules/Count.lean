import Lingx.Library.Numbering
import Mathlib.Data.Option.Basic
import Mathlib.Logic.Function.Basic

/-! `Cycle::count_modules`: the modules of a type get their indices. The index of a module
is kept in the module itself, so the cycles that have the module share it. -/

namespace Lingx.Modules

open Library.Numbering

/-- What `count_modules` reads of a cycle: its modules and those of the old cycle. -/
structure Cycle (M : Type) where
  modules : List M
  oldCycle : Option (List M)

/-- `(uint) -1` -/
def UNSET_INDEX : UInt32 := 0xffffffff

section Search
variable {M : Type} (c : Modules.Cycle M) (type : M → ℕ) (t : ℕ)

/-- One of the modules of the type has the index. -/
def taken (mods : List M) (ctxIndex : M → UInt32) (index : UInt32) : Bool :=
  mods.any fun mod => type mod = t ∧ ctxIndex mod = index

/-- `count_module_ctx_index_`, for at most `n` indices. -/
def countModuleCtxIndex (ctxIndex : M → UInt32) : ℕ → UInt32 → Option UInt32
  | 0, _ => none
  | n + 1, index =>
    if taken type t c.modules ctxIndex index then countModuleCtxIndex ctxIndex n (index + 1)
    else if taken type t (c.oldCycle.getD []) ctxIndex index then
      countModuleCtxIndex ctxIndex n (index + 1)
    else some index

/-- The modules of a type can be numbered: a `uint` is enough for them, the old cycle has
no other modules, and the indices that are set are distinct. -/
structure Numbered (ctxIndex : M → UInt32) : Prop where
  few : c.modules.length < UInt32.size
  old : ∀ mods, c.oldCycle = some mods → mods ⊆ c.modules
  distinct : ∀ mod ∈ c.modules, ∀ mod' ∈ c.modules, type mod = t → type mod' = t →
    ctxIndex mod = ctxIndex mod' → ctxIndex mod = UNSET_INDEX ∨ mod = mod'

/-- The indices that the modules of a type have. -/
def used (ctxIndex : M → UInt32) : List ℕ :=
  (c.modules.filter (type · = t)).map fun mod => (ctxIndex mod).toNat

variable {c type t} {ctxIndex : M → UInt32} {n : ℕ} {index r : UInt32} {mod : M}

theorem mem_used {k : ℕ} : k ∈ used c type t ctxIndex ↔
    ∃ mod ∈ c.modules, type mod = t ∧ (ctxIndex mod).toNat = k := by
  simp [used, and_assoc]

variable (c type t ctxIndex) in
theorem length_used_le : (used c type t ctxIndex).length ≤ c.modules.length := by
  rw [used, List.length_map]
  exact List.length_filter_le _ _

theorem taken_iff {mods : List M} : taken type t mods ctxIndex index = true ↔
    ∃ mod ∈ mods, type mod = t ∧ (ctxIndex mod).toNat = index.toNat := by
  simp [taken, UInt32.toNat_inj]

theorem Numbered.taken_old (h : Numbered c type t ctxIndex)
    (htaken : taken type t (c.oldCycle.getD []) ctxIndex index = true) :
    index.toNat ∈ used c type t ctxIndex := by
  obtain ⟨mod, hmem, htype⟩ := taken_iff.mp htaken
  cases hold : c.oldCycle with
  | none => simp [hold] at hmem
  | some mods => exact mem_used.mpr ⟨mod, h.old mods hold (by simpa [hold] using hmem), htype⟩

/-- With a module that has no index yet, the next number is an index. -/
theorem Numbered.lt_unset (h : Numbered c type t ctxIndex) (hmem : mod ∈ c.modules)
    (htype : type mod = t) (hunset : ctxIndex mod = UNSET_INDEX)
    (hbelow : Below (used c type t ctxIndex) index.toNat) :
    index.toNat + 1 < UInt32.size ∧ index.toNat < (used c type t ctxIndex).length := by
  have hlast : UNSET_INDEX.toNat ∈ used c type t ctxIndex :=
    mem_used.mpr ⟨mod, hmem, htype, by rw [hunset]⟩
  have hle : index.toNat ≤ UNSET_INDEX.toNat := Nat.le_of_lt_succ index.toNat_lt
  have hlt := hbelow.lt_length hlast hle
  have hlen := length_used_le c type t ctxIndex
  exact ⟨by have := h.few; omega, hlt⟩

theorem toNat_succ (h : index.toNat + 1 < UInt32.size) :
    (index + 1).toNat = index.toNat + 1 := by
  rw [UInt32.toNat_add]
  exact Nat.mod_eq_of_lt h

theorem countModuleCtxIndex_spec (h : Numbered c type t ctxIndex) (hmem : mod ∈ c.modules)
    (htype : type mod = t) (hunset : ctxIndex mod = UNSET_INDEX)
    (hbelow : Below (used c type t ctxIndex) index.toNat)
    (hn : (used c type t ctxIndex).length ≤ n + index.toNat) :
    ∃ r, countModuleCtxIndex c type t ctxIndex n index = some r ∧
      Below (used c type t ctxIndex) r.toNat ∧ r.toNat ∉ used c type t ctxIndex := by
  induction n generalizing index with
  | zero =>
    have := (h.lt_unset hmem htype hunset hbelow).2
    omega
  | succ n ih =>
    have hsucc := toNat_succ (h.lt_unset hmem htype hunset hbelow).1
    have hnext (hused : index.toNat ∈ used c type t ctxIndex) :
        ∃ r, countModuleCtxIndex c type t ctxIndex n (index + 1) = some r ∧
          Below (used c type t ctxIndex) r.toNat ∧ r.toNat ∉ used c type t ctxIndex :=
      ih (by rw [hsucc]; exact hbelow.succ hused) (by omega)
    rw [countModuleCtxIndex]
    split_ifs with hnew hold
    · exact hnext (mem_used.mpr (taken_iff.mp hnew))
    · exact hnext (h.taken_old hold)
    · exact ⟨index, rfl, hbelow, fun hused => hnew (taken_iff.mpr (mem_used.mp hused))⟩

end Search

section Count
variable {M : Type} (c : Modules.Cycle M) (type : M → ℕ) (t : ℕ)

/-- The indices of the modules and the variables of `count_modules`. -/
structure Count (M : Type) where
  ctxIndex : M → UInt32
  next : UInt32
  max : UInt32

/-- The first loop, for one module. -/
def countModule [DecidableEq M] (n : ℕ) (s : Count M) (mod : M) : Option (Count M) :=
  if type mod ≠ t then some s
  else if s.ctxIndex mod ≠ UNSET_INDEX then
    some { s with
      max := if s.max < s.ctxIndex mod then s.ctxIndex mod else s.max
      next := if s.ctxIndex mod = s.next then s.next + 1 else s.next }
  else
    match countModuleCtxIndex c type t s.ctxIndex n s.next with
    | none => none
    | some index => some {
        ctxIndex := Function.update s.ctxIndex mod index
        max := if s.max < index then index else s.max
        next := index + 1 }

/-- The second loop: the indices of the old cycle. -/
def countOld (ctxIndex : M → UInt32) (max : UInt32) (mods : List M) : UInt32 :=
  mods.foldl (fun max mod =>
    if type mod ≠ t then max
    else if max < ctxIndex mod then ctxIndex mod else max) max

/-- `Cycle::count_modules`: the indices it sets and what it returns. No search tries more
indices than there are modules. -/
def countModules [DecidableEq M] (ctxIndex : M → UInt32) : Option ((M → UInt32) × UInt32) :=
  let n := c.modules.length + (c.oldCycle.getD []).length
  match c.modules.foldlM (countModule c type t n) ⟨ctxIndex, 0, 0⟩ with
  | none => none
  | some s => some (s.ctxIndex, countOld type t s.ctxIndex s.max (c.oldCycle.getD []) + 1)

variable {c type t} {ctxIndex : M → UInt32} {n : ℕ} {s : Count M} {pre l : List M} {mod : M}

theorem toNat_succ_of_ne {i : UInt32} (h : i ≠ UNSET_INDEX) : (i + 1).toNat = i.toNat + 1 := by
  refine toNat_succ ?_
  have hne : i.toNat ≠ UNSET_INDEX.toNat := fun he => h (UInt32.toNat_inj.mp he)
  have hlt := i.toNat_lt
  have hunset : UNSET_INDEX.toNat + 1 = 2 ^ 32 := rfl
  have hsize : UInt32.size = 2 ^ 32 := rfl
  omega

theorem lt_succ_of_le {i j : UInt32} (h : j ≠ UNSET_INDEX) (hle : i ≤ j) : i < j + 1 := by
  rw [UInt32.lt_iff_toNat_lt, toNat_succ_of_ne h]
  exact Nat.lt_succ_of_le (UInt32.le_iff_toNat_le.mp hle)

theorem le_raise (a b : UInt32) :
    a ≤ (if a < b then b else a) ∧ b ≤ (if a < b then b else a) := by
  split_ifs with h
  · exact ⟨UInt32.le_of_lt h, UInt32.le_refl b⟩
  · exact ⟨UInt32.le_refl a, UInt32.not_lt.mp h⟩

theorem raise_ne {a b c : UInt32} (ha : a ≠ c) (hb : b ≠ c) : (if a < b then b else a) ≠ c := by
  split_ifs <;> assumption

variable (c type t ctxIndex) in
/-- What holds while `count_modules` counts: the modules so far have indices up to `max`,
and all indices below `next` are taken. -/
structure Counting (pre : List M) (s : Count M) : Prop where
  numbered : Numbered c type t s.ctxIndex
  below : Below (used c type t s.ctxIndex) s.next.toNat
  max_ne : s.max ≠ UNSET_INDEX
  assigned : ∀ mod ∈ pre, type mod = t → s.ctxIndex mod ≠ UNSET_INDEX ∧ s.ctxIndex mod ≤ s.max
  kept : ∀ mod, type mod ≠ t ∨ ctxIndex mod ≠ UNSET_INDEX → s.ctxIndex mod = ctxIndex mod

theorem counting_start (h : Numbered c type t ctxIndex) :
    Counting c type t ctxIndex [] ⟨ctxIndex, 0, 0⟩ :=
  ⟨h, below_zero, show (0 : UInt32) ≠ _ by decide, by simp, fun _ _ => rfl⟩

theorem Counting.assigned_append {s' : Count M} (h : Counting c type t ctxIndex pre s)
    (hpre : ∀ m ∈ pre, type m = t → s'.ctxIndex m = s.ctxIndex m ∨ m = mod)
    (hmax : s.max ≤ s'.max)
    (hmod : type mod = t → s'.ctxIndex mod ≠ UNSET_INDEX ∧ s'.ctxIndex mod ≤ s'.max) :
    ∀ m ∈ pre ++ [mod], type m = t → s'.ctxIndex m ≠ UNSET_INDEX ∧ s'.ctxIndex m ≤ s'.max := by
  intro m hm ht
  rcases List.mem_append.mp hm with hm | hm
  · rcases hpre m hm ht with he | rfl
    · obtain ⟨hne, hle⟩ := h.assigned m hm ht
      rw [he]
      exact ⟨hne, UInt32.le_trans hle hmax⟩
    · exact hmod ht
  · rw [List.mem_singleton.mp hm] at ht ⊢
    exact hmod ht

theorem Counting.preserve (h : Counting c type t ctxIndex pre s) (hmem : mod ∈ c.modules)
    (htype : type mod = t) (hset : s.ctxIndex mod ≠ UNSET_INDEX) :
    Counting c type t ctxIndex (pre ++ [mod]) { s with
      max := if s.max < s.ctxIndex mod then s.ctxIndex mod else s.max
      next := if s.ctxIndex mod = s.next then s.next + 1 else s.next } := by
  obtain ⟨hmax, hidx⟩ := le_raise s.max (s.ctxIndex mod)
  refine ⟨h.numbered, ?_, raise_ne h.max_ne hset,
    h.assigned_append (fun _ _ _ => .inl rfl) hmax fun _ => ⟨hset, hidx⟩, h.kept⟩
  by_cases hnext : s.ctxIndex mod = s.next
  · simp only [if_pos hnext, toNat_succ_of_ne (hnext ▸ hset)]
    exact h.below.succ (mem_used.mpr ⟨mod, hmem, htype, by rw [hnext]⟩)
  · simp only [if_neg hnext]
    exact h.below

/-- The modules of the old cycle do not raise the number: they have been counted. -/
theorem countOld_eq {max : UInt32} {mods : List M}
    (h : ∀ mod ∈ mods, type mod = t → ctxIndex mod ≤ max) :
    countOld type t ctxIndex max mods = max := by
  induction mods with
  | nil => rfl
  | cons mod mods ih =>
    have hrest := ih fun m hm => h m (List.mem_cons_of_mem _ hm)
    by_cases htype : type mod = t
    · have hle := UInt32.not_lt.mpr (h mod List.mem_cons_self htype)
      simpa [countOld, htype, hle] using hrest
    · simpa [countOld, htype] using hrest

variable (c type t ctxIndex) in
/-- The indices that are set are distinct. -/
def Distinct : Prop :=
  ∀ mod ∈ c.modules, ∀ mod' ∈ c.modules, type mod = t → type mod' = t →
    ctxIndex mod = ctxIndex mod' → ctxIndex mod = UNSET_INDEX ∨ mod = mod'

theorem numbered_init (hfew : c.modules.length < UInt32.size)
    (hold : ∀ mods, c.oldCycle = some mods → mods ⊆ c.modules) :
    Numbered c type t fun _ => UNSET_INDEX :=
  ⟨hfew, hold, fun _ _ _ _ _ _ _ => .inl rfl⟩

variable [DecidableEq M]

/-- A number that no module has is given to a module without one. -/
theorem Distinct.update {r : UInt32} (h : Distinct c type t ctxIndex)
    (hother : ∀ m ∈ c.modules, type m = t → ctxIndex m ≠ r) :
    Distinct c type t (Function.update ctxIndex mod r) := by
  intro m hm m' hm' ht ht' he
  by_cases hmod : m = mod
  · by_cases hmod' : m' = mod
    · exact .inr (hmod.trans hmod'.symm)
    · rw [hmod, Function.update_self, Function.update_of_ne hmod'] at he
      exact absurd he.symm (hother m' hm' ht')
  · by_cases hmod' : m' = mod
    · rw [hmod', Function.update_self, Function.update_of_ne hmod] at he
      exact absurd he (hother m hm ht)
    · rw [Function.update_of_ne hmod, Function.update_of_ne hmod'] at he
      rw [Function.update_of_ne hmod]
      exact h m hm m' hm' ht ht' he

theorem Numbered.update {r : UInt32} (h : Numbered c type t ctxIndex)
    (hfree : r.toNat ∉ used c type t ctxIndex) :
    Numbered c type t (Function.update ctxIndex mod r) :=
  ⟨h.few, h.old, Distinct.update h.distinct fun m hm ht he =>
    hfree (mem_used.mpr ⟨m, hm, ht, by rw [he]⟩)⟩

theorem below_update {r : UInt32} (hmem : mod ∈ c.modules) (htype : type mod = t)
    (hunset : ctxIndex mod = UNSET_INDEX) (hr : r.toNat + 1 < UInt32.size)
    (h : Below (used c type t ctxIndex) r.toNat) :
    Below (used c type t (Function.update ctxIndex mod r)) (r + 1).toNat := by
  have hself : r.toNat ∈ used c type t (Function.update ctxIndex mod r) :=
    mem_used.mpr ⟨mod, hmem, htype, by rw [Function.update_self]⟩
  rw [toNat_succ hr]
  refine (h.mono fun k hk hused => ?_).succ hself
  obtain ⟨m, hm, ht, hkm⟩ := mem_used.mp hused
  refine mem_used.mpr ⟨m, hm, ht, ?_⟩
  have hne : m ≠ mod := by
    rintro rfl
    rw [hunset] at hkm
    have : UNSET_INDEX.toNat + 1 = UInt32.size := rfl
    omega
  rw [Function.update_of_ne hne, hkm]

/-- A module without an index gets the one that the search has found. -/
theorem Counting.assign {r : UInt32} (h : Counting c type t ctxIndex pre s)
    (hmem : mod ∈ c.modules) (htype : type mod = t) (hunset : s.ctxIndex mod = UNSET_INDEX)
    (hbelow : Below (used c type t s.ctxIndex) r.toNat)
    (hfree : r.toNat ∉ used c type t s.ctxIndex) :
    Counting c type t ctxIndex (pre ++ [mod]) {
      ctxIndex := Function.update s.ctxIndex mod r
      max := if s.max < r then r else s.max
      next := r + 1 } := by
  have hr : r ≠ UNSET_INDEX := by
    rintro rfl
    exact hfree (mem_used.mpr ⟨mod, hmem, htype, by rw [hunset]⟩)
  have hroom := (h.numbered.lt_unset hmem htype hunset hbelow).1
  obtain ⟨hmax, hidx⟩ := le_raise s.max r
  refine ⟨h.numbered.update hfree, below_update hmem htype hunset hroom hbelow,
    raise_ne h.max_ne hr, h.assigned_append (fun m _ _ => ?_) hmax fun _ => ?_, fun m hm => ?_⟩
  · rcases eq_or_ne m mod with rfl | hne
    · exact .inr rfl
    · exact .inl (Function.update_of_ne hne _ _)
  · simp only [Function.update_self]
    exact ⟨hr, hidx⟩
  · rcases eq_or_ne m mod with rfl | hne
    · rw [h.kept m hm] at hunset
      exact absurd hunset (hm.resolve_left (not_not.mpr htype))
    · exact (Function.update_of_ne hne _ _).trans (h.kept m hm)

theorem countModule_spec (h : Counting c type t ctxIndex pre s) (hmem : mod ∈ c.modules)
    (hn : c.modules.length ≤ n) : ∃ s', countModule c type t n s mod = some s' ∧
      Counting c type t ctxIndex (pre ++ [mod]) s' := by
  rw [countModule]
  by_cases htype : type mod = t
  · rw [if_neg (not_not.mpr htype)]
    by_cases hset : s.ctxIndex mod = UNSET_INDEX
    · have hlen := length_used_le c type t s.ctxIndex
      have hfuel : (used c type t s.ctxIndex).length ≤ n + s.next.toNat := by omega
      obtain ⟨r, hr, hbelow, hfree⟩ :=
        countModuleCtxIndex_spec h.numbered hmem htype hset h.below hfuel
      rw [if_neg (not_not.mpr hset), hr]
      exact ⟨_, rfl, h.assign hmem htype hset hbelow hfree⟩
    · rw [if_pos hset]
      exact ⟨_, rfl, h.preserve hmem htype hset⟩
  · rw [if_pos htype]
    exact ⟨s, rfl, h.numbered, h.below, h.max_ne, h.assigned_append (fun _ _ _ => .inl rfl)
      (UInt32.le_refl _) fun ht => absurd ht htype, h.kept⟩

theorem foldlM_countModule (h : Counting c type t ctxIndex pre s) (hl : l ⊆ c.modules)
    (hn : c.modules.length ≤ n) : ∃ s', l.foldlM (countModule c type t n) s = some s' ∧
      Counting c type t ctxIndex (pre ++ l) s' := by
  induction l generalizing pre s with
  | nil => exact ⟨s, rfl, by simpa using h⟩
  | cons mod l ih =>
    obtain ⟨s₁, hs₁, h₁⟩ := countModule_spec h (hl List.mem_cons_self) hn
    obtain ⟨s₂, hs₂, h₂⟩ := ih h₁ fun m hm => hl (List.mem_cons_of_mem _ hm)
    refine ⟨s₂, ?_, by simpa using h₂⟩
    rw [List.foldlM_cons, hs₁]
    exact hs₂

/-- `count_modules` gives each module of the type an index of its own, less than the number
it returns. Indices that were assigned, and those of other modules, are preserved. -/
theorem countModules_spec (h : Numbered c type t ctxIndex) :
    ∃ idx size, countModules c type t ctxIndex = some (idx, size) ∧
      Numbered c type t idx ∧
      (∀ mod ∈ c.modules, type mod = t → idx mod ≠ UNSET_INDEX ∧ idx mod < size) ∧
      ∀ mod, type mod ≠ t ∨ ctxIndex mod ≠ UNSET_INDEX → idx mod = ctxIndex mod := by
  obtain ⟨s, hs, hcount⟩ := foldlM_countModule (counting_start h) (List.Subset.refl _)
    (Nat.le_add_right _ (c.oldCycle.getD []).length)
  rw [List.nil_append] at hcount
  have hold : countOld type t s.ctxIndex s.max (c.oldCycle.getD []) = s.max := by
    refine countOld_eq fun mod hmem htype => ?_
    cases hc : c.oldCycle with
    | none => simp [hc] at hmem
    | some mods =>
      exact (hcount.assigned mod (h.old mods hc (by simpa [hc] using hmem)) htype).2
  refine ⟨s.ctxIndex, s.max + 1, by simp only [countModules, hs, hold], hcount.numbered,
    fun mod hmem htype => ?_, hcount.kept⟩
  obtain ⟨hne, hle⟩ := hcount.assigned mod hmem htype
  exact ⟨hne, lt_succ_of_le hcount.max_ne hle⟩

theorem foldlM_countModule_set (hset : ∀ mod ∈ l, type mod = t → s.ctxIndex mod ≠ UNSET_INDEX)
    (hmax : s.max ≠ UNSET_INDEX) : ∃ s', l.foldlM (countModule c type t n) s = some s' ∧
      s'.ctxIndex = s.ctxIndex ∧ s'.max ≠ UNSET_INDEX ∧ s.max ≤ s'.max ∧
      ∀ mod ∈ l, type mod = t → s.ctxIndex mod ≤ s'.max := by
  induction l generalizing s with
  | nil => exact ⟨s, rfl, rfl, hmax, UInt32.le_refl _, by simp⟩
  | cons mod l ih =>
    have hrest : ∀ m ∈ l, type m = t → s.ctxIndex m ≠ UNSET_INDEX := fun m hm =>
      hset m (List.mem_cons_of_mem _ hm)
    rw [List.foldlM_cons, countModule]
    by_cases htype : type mod = t
    · have hmod := hset mod List.mem_cons_self htype
      obtain ⟨hle, hidx⟩ := le_raise s.max (s.ctxIndex mod)
      rw [if_neg (not_not.mpr htype), if_pos hmod]
      obtain ⟨s', hrun, hctx, hmax', hle', hall⟩ := ih (s := { s with
        max := if s.max < s.ctxIndex mod then s.ctxIndex mod else s.max
        next := if s.ctxIndex mod = s.next then s.next + 1 else s.next }) hrest (raise_ne hmax hmod)
      refine ⟨s', hrun, hctx, hmax', UInt32.le_trans hle hle', fun m hm ht => ?_⟩
      rcases List.mem_cons.mp hm with rfl | hm
      · exact UInt32.le_trans hidx hle'
      · exact hall m hm ht
    · rw [if_pos htype]
      obtain ⟨s', hrun, hctx, hmax', hle', hall⟩ := ih hrest hmax
      refine ⟨s', hrun, hctx, hmax', hle', fun m hm ht => ?_⟩
      rcases List.mem_cons.mp hm with rfl | hm
      · exact absurd ht htype
      · exact hall m hm ht

/-- Where all modules of the type have an index, `count_modules` changes none. -/
theorem countModules_set (hold : ∀ mods, c.oldCycle = some mods → mods ⊆ c.modules)
    (hset : ∀ mod ∈ c.modules, type mod = t → ctxIndex mod ≠ UNSET_INDEX) :
    ∃ size, countModules c type t ctxIndex = some (ctxIndex, size) ∧
      ∀ mod ∈ c.modules, type mod = t → ctxIndex mod < size := by
  obtain ⟨⟨idx, next, max⟩, hrun, rfl, hmax, -, hall⟩ := foldlM_countModule_set (c := c)
    (n := c.modules.length + (c.oldCycle.getD []).length) (s := ⟨ctxIndex, 0, 0⟩) hset
    (show (0 : UInt32) ≠ _ by decide)
  have hcount : countOld type t idx max (c.oldCycle.getD []) = max := by
    refine countOld_eq fun mod hmem htype => ?_
    cases hc : c.oldCycle with
    | none => simp [hc] at hmem
    | some mods => exact hall mod (hold mods hc (by simpa [hc] using hmem)) htype
  refine ⟨max + 1, by simp only [countModules, hrun, hcount], fun mod hmem htype => ?_⟩
  exact lt_succ_of_le hmax (hall mod hmem htype)

omit [DecidableEq M] in
/-- No module of the cycle has the index that a search has found. -/
theorem countModuleCtxIndex_free {index r : UInt32}
    (h : countModuleCtxIndex c type t ctxIndex n index = some r) :
    ∀ mod ∈ c.modules, type mod = t → ctxIndex mod ≠ r := by
  induction n generalizing index with
  | zero => cases h
  | succ n ih =>
    rw [countModuleCtxIndex] at h
    split_ifs at h with hnew hold
    · exact ih h
    · exact ih h
    · cases h
      intro mod hmod ht he
      exact hnew (taken_iff.mpr ⟨mod, hmod, ht, by rw [he]⟩)

/-- A turn of the first loop that ends leaves the indices distinct; there may be any number
of modules. -/
theorem countModule_distinct {s' : Count M} (hmod : mod ∈ c.modules)
    (hd : Distinct c type t s.ctxIndex) (h : countModule c type t n s mod = some s') :
    Distinct c type t s'.ctxIndex ∧ (type mod = t → s'.ctxIndex mod ≠ UNSET_INDEX) ∧
      ∀ m, s.ctxIndex m ≠ UNSET_INDEX → s'.ctxIndex m = s.ctxIndex m := by
  rw [countModule] at h
  by_cases htype : type mod = t
  · rw [if_neg (not_not.mpr htype)] at h
    by_cases hset : s.ctxIndex mod = UNSET_INDEX
    · rw [if_neg (not_not.mpr hset)] at h
      split at h
      · cases h
      · rename_i r hsearch
        cases h
        have hother := countModuleCtxIndex_free hsearch
        refine ⟨hd.update hother, fun _ => ?_, fun m hm => ?_⟩
        · simp only [Function.update_self]
          exact fun he => hother mod hmod htype (hset.trans he.symm)
        · refine Function.update_of_ne ?_ _ _
          rintro rfl
          exact hm hset
    · rw [if_pos hset] at h
      cases h
      exact ⟨hd, fun _ => hset, fun _ _ => rfl⟩
  · rw [if_pos htype] at h
    cases h
    exact ⟨hd, fun ht => absurd ht htype, fun _ _ => rfl⟩

theorem foldlM_countModule_distinct {s' : Count M} (hl : l ⊆ c.modules)
    (hd : Distinct c type t s.ctxIndex) (h : l.foldlM (countModule c type t n) s = some s') :
    Distinct c type t s'.ctxIndex ∧ (∀ mod ∈ l, type mod = t → s'.ctxIndex mod ≠ UNSET_INDEX) ∧
      ∀ m, s.ctxIndex m ≠ UNSET_INDEX → s'.ctxIndex m = s.ctxIndex m := by
  induction l generalizing s with
  | nil =>
    cases h
    exact ⟨hd, by simp, fun _ _ => rfl⟩
  | cons mod l ih =>
    rw [List.foldlM_cons] at h
    obtain ⟨s₁, hs₁, hrun⟩ := Option.bind_eq_some_iff.mp h
    obtain ⟨hd₁, hset₁, hkept₁⟩ := countModule_distinct (hl List.mem_cons_self) hd hs₁
    obtain ⟨hd', hset, hkept⟩ := ih (fun m hm => hl (List.mem_cons_of_mem _ hm)) hd₁ hrun
    refine ⟨hd', fun m hm ht => ?_, fun m hm => ?_⟩
    · rcases List.mem_cons.mp hm with rfl | hm
      · rw [hkept m (hset₁ ht)]
        exact hset₁ ht
      · exact hset m hm ht
    · rw [hkept m (by rwa [hkept₁ m hm]), hkept₁ m hm]

/-- Where no module of the type has an index, a count that returns has given each of them
one of its own. -/
theorem countModules_distinct {idx : M → UInt32} {size : UInt32}
    (hunset : ∀ mod ∈ c.modules, type mod = t → ctxIndex mod = UNSET_INDEX)
    (h : countModules c type t ctxIndex = some (idx, size)) :
    ∀ mod ∈ c.modules, type mod = t → idx mod ≠ UNSET_INDEX ∧
      ∀ mod' ∈ c.modules, type mod' = t → idx mod = idx mod' → mod = mod' := by
  simp only [countModules] at h
  split at h
  · cases h
  · rename_i s hs
    cases h
    obtain ⟨hd, hset, -⟩ := foldlM_countModule_distinct (List.Subset.refl _)
      (s := ⟨ctxIndex, 0, 0⟩) (fun m hm _ _ ht _ _ => .inl (hunset m hm ht)) hs
    intro mod hmod ht
    refine ⟨hset mod hmod ht, fun mod' hmod' ht' he => ?_⟩
    exact (hd mod hmod mod' hmod' ht ht' he).resolve_left (hset mod hmod ht)

/-- Whatever types are counted, in whatever order, the modules of each type can be numbered
still. -/
theorem numbered_counts (h : ∀ t, Numbered c type t ctxIndex) (ts : List ℕ) :
    ∃ idx, ts.foldlM (fun idx t => (countModules c type t idx).map Prod.fst) ctxIndex = some idx ∧
      ∀ t, Numbered c type t idx := by
  induction ts generalizing ctxIndex with
  | nil => exact ⟨ctxIndex, rfl, h⟩
  | cons t ts ih =>
    obtain ⟨idx, size, hcount, hnum, -, hkept⟩ := countModules_spec (h t)
    have hall : ∀ t', Numbered c type t' idx := fun t' => by
      by_cases ht : t' = t
      · exact ht ▸ hnum
      · refine ⟨(h t').few, (h t').old, fun m hm m' hm' htm htm' he => ?_⟩
        rw [hkept m (.inl (htm ▸ ht)), hkept m' (.inl (htm' ▸ ht))] at he
        rw [hkept m (.inl (htm ▸ ht))]
        exact (h t').distinct m hm m' hm' htm htm' he
    obtain ⟨idx', hrun, hnum'⟩ := ih hall
    exact ⟨idx', by rw [List.foldlM_cons, hcount]; exact hrun, hnum'⟩

end Count

end Lingx.Modules
