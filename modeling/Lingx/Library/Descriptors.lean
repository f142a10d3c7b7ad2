import Mathlib.Data.Int.Order.Basic
import Mathlib.Data.List.Range
import Mathlib.Logic.Function.Basic

/-! The descriptors of a process. A table says what each descriptor is open on; a descriptor is
an integer, and one that is negative is never handed out. A file that is opened takes the lowest
descriptor that is free below the limit, a descriptor can be made a copy of another one, and a
descriptor that is closed is free again. -/

namespace Lingx.Library

/-- What the descriptors of a process are open on, and how many of them it may have. -/
structure Descriptors (F : Type) where
  limit : ℕ
  file : ℤ → Option F

namespace Descriptors

variable {F : Type} {t t' t'' : Descriptors F} {d e fd target : ℤ} {f : F} {x : Option F}

def set (t : Descriptors F) (d : ℤ) (x : Option F) : Descriptors F :=
  { t with file := Function.update t.file d x }

/-- The lowest descriptor that is free. -/
def lowest (t : Descriptors F) : Option ℤ :=
  ((List.range t.limit).find? fun n : ℕ => (t.file n).isNone).map Int.ofNat

/-- `open()` -/
def openFile (t : Descriptors F) (f : F) : Option (ℤ × Descriptors F) :=
  t.lowest.map fun d => (d, t.set d (some f))

/-- `dup2()` -/
def dup2 (t : Descriptors F) (fd target : ℤ) : Option (Descriptors F) :=
  if (t.file fd).isSome ∧ 0 ≤ target ∧ target < t.limit then some (t.set target (t.file fd))
  else none

/-- `close()` -/
def close (t : Descriptors F) (fd : ℤ) : Option (Descriptors F) :=
  if (t.file fd).isSome then some (t.set fd none) else none

@[simp] theorem set_limit : (t.set d x).limit = t.limit := rfl

@[simp] theorem set_file_self : (t.set d x).file d = x := Function.update_self ..

theorem set_file_of_ne (h : e ≠ d) : (t.set d x).file e = t.file e := Function.update_of_ne h ..

theorem set_file : (t.set d x).file e = if e = d then x else t.file e := Function.update_apply ..

theorem set_eq_self (h : t.file d = x) : t.set d x = t := by
  unfold set
  rw [← h, Function.update_eq_self]

theorem set_set (t : Descriptors F) (d : ℤ) (x y : Option F) : (t.set d x).set d y = t.set d y := by
  unfold set
  rw [Function.update_idem]

/-- The lowest free descriptor is free, and none below it is. -/
theorem lowest_spec (h : t.lowest = some d) :
    0 ≤ d ∧ d < t.limit ∧ t.file d = none ∧ ∀ e, 0 ≤ e → e < d → (t.file e).isSome := by
  unfold lowest at h
  obtain ⟨n, hn, rfl⟩ := Option.map_eq_some_iff.mp h
  obtain ⟨hfree, hmem, hlow⟩ := List.find?_range_eq_some.mp hn
  refine ⟨Int.natCast_nonneg n, Int.ofNat_lt.mpr (List.mem_range.mp hmem),
    Option.isNone_iff_eq_none.mp hfree, fun e he hlt => ?_⟩
  obtain ⟨m, rfl⟩ := Int.eq_ofNat_of_zero_le he
  simpa using hlow m (Int.ofNat_lt.mp hlt)

theorem openFile_eq_some :
    t.openFile f = some (d, t') ↔ t.lowest = some d ∧ t' = t.set d (some f) := by
  unfold openFile
  constructor
  · intro h
    obtain ⟨d', hd, heq⟩ := Option.map_eq_some_iff.mp h
    obtain ⟨rfl, rfl⟩ := Prod.mk.inj heq
    exact ⟨hd, rfl⟩
  · rintro ⟨hd, rfl⟩
    exact Option.map_eq_some_iff.mpr ⟨d, hd, rfl⟩

theorem dup2_eq_some : t.dup2 fd target = some t' ↔ (t.file fd).isSome ∧ 0 ≤ target ∧
    target < t.limit ∧ t' = t.set target (t.file fd) := by
  unfold dup2
  split_ifs with h
  · simp [h, eq_comm]
  · simp only [false_iff]
    rintro ⟨h₁, h₂, h₃, -⟩
    exact h ⟨h₁, h₂, h₃⟩

theorem close_eq_some : t.close fd = some t' ↔ (t.file fd).isSome ∧ t' = t.set fd none := by
  unfold close
  split_ifs with h
  · simp [h, eq_comm]
  · simp [h]

/-- A file that is opened and closed again leaves the table as it was. -/
theorem close_of_openFile (h : t.openFile f = some (d, t')) : t'.close d = some t := by
  obtain ⟨hd, rfl⟩ := openFile_eq_some.mp h
  refine close_eq_some.mpr ⟨by simp, ?_⟩
  rw [set_set, set_eq_self (lowest_spec hd).2.2.1]

/-- What is open in one table is open on the same in another one. -/
def Extends (t t' : Descriptors F) : Prop := ∀ d f, t.file d = some f → t'.file d = some f

theorem Extends.refl (t : Descriptors F) : Extends t t := fun _ _ h => h

theorem Extends.trans (h : Extends t t') (h' : Extends t' t'') : Extends t t'' :=
  fun d f hf => h' d f (h d f hf)

theorem extends_set (h : t.file d = none) : Extends t (t.set d x) := by
  intro e f hf
  have hne : e ≠ d := by
    rintro rfl
    rw [h] at hf
    cases hf
  rwa [set_file_of_ne hne]

/-- A file that is opened takes no descriptor from another one. -/
theorem extends_openFile (h : t.openFile f = some (d, t')) : Extends t t' := by
  obtain ⟨hd, rfl⟩ := openFile_eq_some.mp h
  exact extends_set (lowest_spec hd).2.2.1

end Descriptors

end Lingx.Library
