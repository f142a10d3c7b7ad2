import Lingx.Modules.Count
import Mathlib.Data.Fintype.EquivFin

/-! A second count. `count_modules` looks at the modules of its type only, so the counts of
a cycle are those of the cycle that has no others. Once all of them have their indices, a
count of the same cycle changes none and returns the same number. -/

namespace Lingx.Modules

open Library.Numbering

section OfType
variable {M : Type} (c : Modules.Cycle M) (type : M → ℕ) (t : ℕ)

/-- The modules of a type, of a cycle and of its old cycle. -/
def Cycle.ofType : Modules.Cycle M :=
  ⟨c.modules.filter (type · = t), c.oldCycle.map (List.filter (type · = t))⟩

variable {c type t} {ctxIndex : M → UInt32} {n : ℕ} {s : Count M} {mods : List M} {mod : M}

theorem mem_ofType : mod ∈ (c.ofType type t).modules ↔ mod ∈ c.modules ∧ type mod = t := by
  simp [Cycle.ofType]

theorem taken_filter (index : UInt32) :
    taken type t (mods.filter (type · = t)) ctxIndex index = taken type t mods ctxIndex index := by
  rw [taken, taken, List.any_filter]
  congr 1
  funext mod
  by_cases htype : type mod = t <;> simp [htype]

theorem oldCycle_ofType :
    (c.ofType type t).oldCycle.getD [] = (c.oldCycle.getD []).filter (type · = t) := by
  cases h : c.oldCycle <;> simp [Cycle.ofType, h]

theorem countModuleCtxIndex_ofType (index : UInt32) :
    countModuleCtxIndex (c.ofType type t) type t ctxIndex n index =
      countModuleCtxIndex c type t ctxIndex n index := by
  induction n generalizing index with
  | zero => rfl
  | succ n ih =>
    rw [countModuleCtxIndex, countModuleCtxIndex, oldCycle_ofType, taken_filter, ih]
    change (if taken type t (c.modules.filter (type · = t)) ctxIndex index then _ else _) = _
    rw [taken_filter]

theorem countOld_ofType (max : UInt32) :
    countOld type t ctxIndex max (mods.filter (type · = t)) =
      countOld type t ctxIndex max mods := by
  induction mods generalizing max with
  | nil => rfl
  | cons mod mods ih =>
    by_cases htype : type mod = t
    · rw [List.filter_cons_of_pos (by simpa using htype)]
      exact ih _
    · rw [List.filter_cons_of_neg (by simpa using htype), ih, countOld, countOld, List.foldl_cons,
        if_pos htype]

variable [DecidableEq M]

theorem foldlM_ofType :
    (c.ofType type t).modules.foldlM (countModule (c.ofType type t) type t n) s =
      c.modules.foldlM (countModule c type t n) s := by
  have hstep : countModule (c.ofType type t) type t n = countModule c type t n := by
    funext s mod
    simp only [countModule, countModuleCtxIndex_ofType]
  rw [hstep, Cycle.ofType, List.foldlM_filter]
  congr 1
  funext s mod
  by_cases htype : type mod = t
  · simp [htype]
  · simp [htype, countModule]

end OfType

section Attained
variable {M : Type} {c : Modules.Cycle M} {type : M → ℕ} {t n : ℕ}
  {ctxIndex : M → UInt32} {s s' : Count M} {pre l : List M} {mod : M}

variable (type t) in
/-- The largest index so far is one of a module, unless it is the zero it began with. -/
def Attained (pre : List M) (s : Count M) : Prop :=
  s.max = 0 ∨ ∃ mod ∈ pre, type mod = t ∧ s.ctxIndex mod = s.max

theorem Attained.raise {idx : UInt32} {ctx : M → UInt32} {next : UInt32}
    (h : Attained type t pre ⟨ctx, s.next, s.max⟩) (htype : type mod = t) (hmod : ctx mod = idx) :
    Attained type t (pre ++ [mod]) ⟨ctx, next, if s.max < idx then idx else s.max⟩ := by
  by_cases hlt : s.max < idx
  · rw [if_pos hlt]
    exact .inr ⟨mod, by simp, htype, hmod⟩
  · rw [if_neg hlt]
    rcases h with h0 | ⟨m, hm, ht, he⟩
    · exact .inl h0
    · exact .inr ⟨m, List.mem_append_left _ hm, ht, he⟩

variable [DecidableEq M]

theorem countModule_attained (h : Attained type t pre s) (hmax : s.max ≠ UNSET_INDEX)
    (hrun : countModule c type t n s mod = some s') : Attained type t (pre ++ [mod]) s' := by
  rw [countModule] at hrun
  by_cases htype : type mod = t
  · rw [if_neg (not_not.mpr htype)] at hrun
    by_cases hset : s.ctxIndex mod = UNSET_INDEX
    · rw [if_neg (not_not.mpr hset)] at hrun
      cases hr : countModuleCtxIndex c type t s.ctxIndex n s.next with
      | none =>
        rw [hr] at hrun
        cases hrun
      | some index =>
        rw [hr] at hrun
        cases hrun
        refine Attained.raise (s := s) ?_ htype (Function.update_self ..)
        rcases h with h0 | ⟨m, hm, ht, he⟩
        · exact .inl h0
        · have hne : m ≠ mod := by
            rintro rfl
            exact hmax (he ▸ hset)
          exact .inr ⟨m, hm, ht, (Function.update_of_ne hne ..).trans he⟩
    · rw [if_pos hset] at hrun
      cases hrun
      exact Attained.raise (s := s) h htype rfl
  · rw [if_pos htype] at hrun
    cases hrun
    rcases h with h0 | ⟨m, hm, ht, he⟩
    · exact .inl h0
    · exact .inr ⟨m, List.mem_append_left _ hm, ht, he⟩

theorem foldlM_attained (h : Counting c type t ctxIndex pre s) (ha : Attained type t pre s)
    (hl : l ⊆ c.modules) (hn : c.modules.length ≤ n) :
    ∃ s', l.foldlM (countModule c type t n) s = some s' ∧
      Counting c type t ctxIndex (pre ++ l) s' ∧ Attained type t (pre ++ l) s' := by
  induction l generalizing pre s with
  | nil => exact ⟨s, rfl, by simpa using h, by simpa using ha⟩
  | cons mod l ih =>
    obtain ⟨s₁, hs₁, h₁⟩ := countModule_spec h (hl List.mem_cons_self) hn
    have ha₁ := countModule_attained ha h.max_ne hs₁
    obtain ⟨s₂, hs₂, h₂, ha₂⟩ := ih h₁ ha₁ fun m hm => hl (List.mem_cons_of_mem _ hm)
    refine ⟨s₂, ?_, by simpa using h₂, by simpa using ha₂⟩
    rw [List.foldlM_cons, hs₁]
    exact hs₂

omit [DecidableEq M] in
theorem Attained.max_le {max : UInt32} (h : Attained type t pre s)
    (hb : ∀ mod ∈ pre, type mod = t → s.ctxIndex mod ≤ max) : s.max ≤ max := by
  rcases h with h0 | ⟨m, hm, ht, he⟩
  · rw [h0]
    exact UInt32.le_iff_toNat_le.mpr (Nat.zero_le _)
  · exact he ▸ hb m hm ht

end Attained

section Recount
variable {M : Type} {c : Modules.Cycle M} {type : M → ℕ} {t : ℕ} {ctxIndex : M → UInt32}

theorem numbered_ofType (hfew : (c.modules.filter (type · = t)).length < UInt32.size)
    (hold : ∀ mods, c.oldCycle = some mods → mods ⊆ c.modules)
    (hset : ∀ mod ∈ c.modules, ∀ mod' ∈ c.modules, type mod = t → type mod' = t →
      ctxIndex mod ≠ UNSET_INDEX → ctxIndex mod = ctxIndex mod' → mod = mod') :
    Numbered (c.ofType type t) type t ctxIndex where
  few := hfew
  old mods h := by
    obtain ⟨old, ho, rfl⟩ := Option.map_eq_some_iff.mp h
    intro mod hm
    obtain ⟨hm, ht⟩ := List.mem_filter.mp hm
    exact List.mem_filter.mpr ⟨hold old ho hm, ht⟩
  distinct mod hm mod' hm' ht ht' he := by
    by_cases hu : ctxIndex mod = UNSET_INDEX
    · exact .inl hu
    · exact .inr (hset mod (mem_ofType.mp hm).1 mod' (mem_ofType.mp hm').1 ht ht' hu he)

variable [DecidableEq M]

/-- A count of the modules of the type, and a second count behind it. -/
theorem countModules_twice (hnum : Numbered (c.ofType type t) type t ctxIndex) :
    ∃ idx size, countModules c type t ctxIndex = some (idx, size) ∧
      Numbered (c.ofType type t) type t idx ∧
      (∀ mod, mod ∈ c.modules ∨ mod ∈ c.oldCycle.getD [] → type mod = t →
        idx mod ≠ UNSET_INDEX ∧ idx mod < size) ∧
      (∀ mod, type mod ≠ t ∨ ctxIndex mod ≠ UNSET_INDEX → idx mod = ctxIndex mod) ∧
      countModules c type t idx = some (idx, size) := by
  have hn : (c.ofType type t).modules.length ≤ c.modules.length + (c.oldCycle.getD []).length :=
    (List.length_filter_le _ _).trans (Nat.le_add_right _ _)
  obtain ⟨s, hs, hcount, hatt⟩ :=
    foldlM_attained (counting_start hnum) (.inl rfl) (List.Subset.refl _) hn
  rw [List.nil_append] at hcount hatt
  have hset : ∀ mod ∈ (c.ofType type t).modules, type mod = t → s.ctxIndex mod ≠ UNSET_INDEX :=
    fun mod hm ht => (hcount.assigned mod hm ht).1
  have holdmem : ∀ mod ∈ (c.ofType type t).oldCycle.getD [], mod ∈ (c.ofType type t).modules := by
    intro mod hm
    cases ho : (c.ofType type t).oldCycle with
    | none => simp [ho] at hm
    | some mods => exact hnum.old mods ho (by simpa [ho] using hm)
  have hbound : ∀ mod, mod ∈ c.modules ∨ mod ∈ c.oldCycle.getD [] → type mod = t →
      mod ∈ (c.ofType type t).modules := by
    rintro mod (hm | hm) ht
    · exact mem_ofType.mpr ⟨hm, ht⟩
    · refine holdmem mod ?_
      rw [oldCycle_ofType]
      exact List.mem_filter.mpr ⟨hm, by simpa using ht⟩
  have hcold : ∀ max, (∀ mod ∈ (c.ofType type t).modules, type mod = t → s.ctxIndex mod ≤ max) →
      countOld type t s.ctxIndex max (c.oldCycle.getD []) = max := by
    intro max hmax
    rw [← countOld_ofType, ← oldCycle_ofType]
    exact countOld_eq fun mod hm ht => hmax mod (holdmem mod hm) ht
  have hle : ∀ mod ∈ (c.ofType type t).modules, type mod = t → s.ctxIndex mod ≤ s.max :=
    fun mod hm ht => (hcount.assigned mod hm ht).2
  -- the second run, over modules that all have their indices
  obtain ⟨s₂, hs₂, hcount₂, hatt₂⟩ :=
    foldlM_attained (counting_start hcount.numbered) (.inl rfl) (List.Subset.refl _) hn
  rw [List.nil_append] at hcount₂ hatt₂
  obtain ⟨s₂', hs₂', hctx, -, -, -⟩ := foldlM_countModule_set (c := c.ofType type t)
    (n := c.modules.length + (c.oldCycle.getD []).length) (s := ⟨s.ctxIndex, 0, 0⟩) hset
    (show (0 : UInt32) ≠ _ by decide)
  obtain rfl : s₂ = s₂' := Option.some.inj (hs₂.symm.trans hs₂')
  have hle₂ : ∀ mod ∈ (c.ofType type t).modules, type mod = t → s.ctxIndex mod ≤ s₂.max :=
    fun mod hm ht => hctx ▸ (hcount₂.assigned mod hm ht).2
  have hmax : s₂.max = s.max := UInt32.le_antisymm
    (hatt₂.max_le fun mod hm ht => by rw [hctx]; exact hle mod hm ht) (hatt.max_le hle₂)
  refine ⟨s.ctxIndex, s.max + 1, ?_, hcount.numbered, fun mod hm ht => ?_, hcount.kept, ?_⟩
  · rw [foldlM_ofType] at hs
    simp only [countModules, hs, hcold s.max hle]
  · have hm' := hbound mod hm ht
    exact ⟨hset mod hm' ht, lt_succ_of_le hcount.max_ne (hle mod hm' ht)⟩
  · rw [foldlM_ofType] at hs₂
    simp only [countModules, hs₂, hctx, hmax, hcold s.max hle]

/-- Indices are injective and stable, as long as there are fewer modules of the type than
numbers: each of them gets an index of its own, less than what is returned, those set
before and those of other types stay, and a second count changes nothing. -/
theorem countModules_stable (c : Modules.Cycle M) (type : M → ℕ) (t : ℕ) (ctxIndex : M → UInt32)
    (hfew : (c.modules.filter (type · = t)).length < UInt32.size)
    (hold : ∀ mods, c.oldCycle = some mods → mods = [] ∨ mods = c.modules)
    (hset : ∀ mod ∈ c.modules, ∀ mod' ∈ c.modules, type mod = t → type mod' = t →
      ctxIndex mod ≠ UNSET_INDEX → ctxIndex mod = ctxIndex mod' → mod = mod') :
    ∃ idx size, countModules c type t ctxIndex = some (idx, size) ∧
      (∀ mod ∈ c.modules, type mod = t → idx mod ≠ UNSET_INDEX) ∧
      (∀ mod ∈ c.modules, ∀ mod' ∈ c.modules, type mod = t → type mod' = t →
        idx mod = idx mod' → mod = mod') ∧
      (∀ mod, type mod ≠ t ∨ ctxIndex mod ≠ UNSET_INDEX → idx mod = ctxIndex mod) ∧
      (∀ mod, mod ∈ c.modules ∨ mod ∈ c.oldCycle.getD [] → type mod = t → idx mod < size) ∧
      countModules c type t idx = some (idx, size) := by
  have hsub : ∀ mods, c.oldCycle = some mods → mods ⊆ c.modules := by
    intro mods hm
    rcases hold mods hm with rfl | rfl
    · exact List.nil_subset _
    · exact List.Subset.refl _
  obtain ⟨idx, size, hrun, hnum, hall, hkept, hagain⟩ :=
    countModules_twice (numbered_ofType hfew hsub hset)
  refine ⟨idx, size, hrun, fun mod hm ht => (hall mod (.inl hm) ht).1, ?_, hkept,
    fun mod hm ht => (hall mod hm ht).2, hagain⟩
  intro mod hm mod' hm' ht ht' he
  rcases hnum.distinct mod (mem_ofType.mpr ⟨hm, ht⟩) mod' (mem_ofType.mpr ⟨hm', ht'⟩) ht ht' he
    with hu | heq
  · exact absurd hu (hall mod (.inl hm) ht).1
  · exact heq

end Recount

/-- With as many modules as numbers no count can give each of them an index of its own. -/
theorem countModules_full :
    ¬∃ idx size, countModules ⟨List.finRange UInt32.size, none⟩ (fun _ => 0) 0
        (fun _ => UNSET_INDEX) = some (idx, size) ∧
      (∀ mod, idx mod ≠ UNSET_INDEX) ∧ ∀ mod mod', idx mod = idx mod' → mod = mod' := by
  rintro ⟨idx, size, -, hne, hinj⟩
  have hfin : Function.Injective fun mod => (idx mod).toFin := fun mod mod' he =>
    hinj mod mod' (UInt32.toFin_inj.mp he)
  obtain ⟨mod, hmod⟩ := Finite.injective_iff_surjective.mp hfin UNSET_INDEX.toFin
  exact hne mod (UInt32.toFin_inj.mp hmod)

/-- Three modules, the second of which has an index already. -/
theorem countModules_stable_three :
    ∃ idx size, countModules ⟨[0, 1, 2], some [0, 1, 2]⟩ (fun _ => 7) 7
        (fun mod => if mod = 1 then 0 else UNSET_INDEX) = some (idx, size) ∧
      idx 1 = 0 ∧ idx 0 ≠ idx 2 ∧ idx 2 < size := by
  obtain ⟨idx, size, hrun, -, hinj, hkept, hlt, -⟩ := countModules_stable
    ⟨[0, 1, 2], some [0, 1, 2]⟩ (fun _ => 7) 7 (fun mod => if mod = 1 then 0 else UNSET_INDEX)
    (by decide) (fun mods h => .inr (Option.some.inj h).symm) (by decide)
  refine ⟨idx, size, hrun, hkept 1 (.inr (by decide)), fun he => ?_, hlt 2 (.inl (by decide)) rfl⟩
  exact absurd (hinj 0 (by decide) 2 (by decide) rfl rfl he) (by decide)

end Lingx.Modules
