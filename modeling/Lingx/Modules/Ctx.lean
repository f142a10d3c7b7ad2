import Lingx.Conf.Parse
import Lingx.Library.Except
import Mathlib.Data.UInt

/-! Context vectors. A vector holds a pointer to a configuration for each module of a type,
at the index of the module. It may be unallocated; a store or a load through null, or
behind the end, is a fault. -/

namespace Lingx.Modules

open Library
open Lingx.Conf (Rv)

/-- `ConfCtxPtr`: a vector of pointers, or null. -/
abbrev ConfCtxPtr (C : Type) := Option (List (Option C))

inductive Fault where
  | null
  | range
  deriving DecidableEq, Repr

/-- How a setter ends early: with a fault or a return. -/
inductive Exit where
  | fault (f : Fault)
  | rv (rv : Rv)
  deriving DecidableEq, Repr

variable {C : Type}

/-- `(*v)[i] = p` -/
def store (v : ConfCtxPtr C) (i : UInt32) (p : Option C) : Except Exit (ConfCtxPtr C) :=
  match v with
  | none => .error (.fault .null)
  | some l => if i.toNat < l.length then .ok (some (l.set i.toNat p)) else .error (.fault .range)

/-- `(*v)[i]` -/
def load (v : ConfCtxPtr C) (i : UInt32) : Except Exit (Option C) :=
  match v with
  | none => .error (.fault .null)
  | some l => if h : i.toNat < l.length then .ok l[i.toNat] else .error (.fault .range)

/-- What a module creates, if it creates something, is stored at its index; null is an
error. -/
def create (created : Option (Option C)) (mi : UInt32) (v : ConfCtxPtr C) :
    Except Exit (ConfCtxPtr C) :=
  match created with
  | none => .ok v
  | some p => do
    let v ← store v mi p
    if (← load v mi).isNone then .error (.rv .error) else .ok v

variable {l : List (Option C)} {i : UInt32} {p : Option C}

theorem load_eq_ok {c : C} (h : l[i.toNat]? = some (some c)) : load (some l) i = .ok (some c) := by
  obtain ⟨hi, hget⟩ := List.getElem?_eq_some_iff.mp h
  rw [load, dif_pos hi, hget]

theorem load_store (hi : i.toNat < l.length) : load (some (l.set i.toNat p)) i = .ok p := by
  simp [load, hi]

theorem create_some {c : C} (hi : i.toNat < l.length) :
    create (some (some c)) i (some l) = .ok (some (l.set i.toNat (some c))) :=
  bind_eq_ok.mpr ⟨_, if_pos hi, bind_eq_ok.mpr ⟨_, load_store hi, rfl⟩⟩

/-- Through a vector that is not allocated nothing can be stored. -/
theorem create_null {created : Option (Option C)} {v : ConfCtxPtr C}
    (h : create created i none = .ok v) : v = none := by
  cases created with
  | none => cases h; rfl
  | some p =>
    obtain ⟨v', hstore, -⟩ := bind_eq_ok.mp h
    cases hstore

section Error
variable {v : ConfCtxPtr C} {created : Option (Option C)} {ex : Exit}

theorem store_eq_error (h : store v i p = .error ex) : ∃ f, ex = .fault f := by
  rw [store.eq_def] at h
  split at h
  · cases h
    exact ⟨_, rfl⟩
  · split_ifs at h
    cases h
    exact ⟨_, rfl⟩

theorem load_eq_error (h : load v i = .error ex) : ∃ f, ex = .fault f := by
  rw [load.eq_def] at h
  split at h
  · cases h
    exact ⟨_, rfl⟩
  · split_ifs at h
    cases h
    exact ⟨_, rfl⟩

theorem create_ne_ok (h : create created i v = .error ex) : ex ≠ .rv .ok := by
  cases created with
  | none => cases h
  | some p =>
    rcases bind_eq_error.mp h with h | ⟨v', -, h⟩
    · obtain ⟨f, rfl⟩ := store_eq_error h
      exact Exit.noConfusion
    · rcases bind_eq_error.mp h with h | ⟨q, -, h⟩
      · obtain ⟨f, rfl⟩ := load_eq_error h
        exact Exit.noConfusion
      · split_ifs at h
        cases h
        simp

end Error

end Lingx.Modules
