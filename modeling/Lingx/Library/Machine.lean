import Mathlib.Data.List.Induction
import Mathlib.Tactic.Common

/-! Machines whose steps may fail. A run takes a list of inputs, and fails with its first
step that does. What each step keeps a run keeps, and computations in relation fail
together or go on in relation. -/

namespace Lingx.Library.Machine

variable {α σ τ β γ : Type*}

/-- The state behind a list of inputs, if each of them is taken. -/
def run (step : α → σ → Option σ) : List α → σ → Option σ
  | [], s => some s
  | a :: l, s => (step a s).bind (run step l)

variable {step : α → σ → Option σ} {R : σ → τ → Prop} {a : α} {l l' : List α} {s s' : σ}

@[simp] theorem run_nil : run step [] s = some s := rfl

theorem run_cons : run step (a :: l) s = (step a s).bind (run step l) := rfl

theorem run_singleton : run step [a] s = step a s := by
  rw [run_cons]
  exact Option.bind_fun_some _

theorem run_cons_eq_some :
    run step (a :: l) s = some s' ↔ ∃ s₁, step a s = some s₁ ∧ run step l s₁ = some s' :=
  Option.bind_eq_some_iff

theorem run_append : run step (l ++ l') s = (run step l s).bind (run step l') := by
  induction l generalizing s with
  | nil => rfl
  | cons a l ih =>
    rw [List.cons_append, run_cons, run_cons, Option.bind_assoc]
    exact congrArg _ (funext fun s => ih)

theorem run_append_eq_some : run step (l ++ l') s = some s' ↔
    ∃ s₁, run step l s = some s₁ ∧ run step l' s₁ = some s' := by
  rw [run_append, Option.bind_eq_some_iff]

/-- What each step keeps holds behind a run. -/
theorem run_invariant {I : σ → Prop} (hstep : ∀ a s s', I s → step a s = some s' → I s')
    (h : run step l s = some s') (hs : I s) : I s' := by
  induction l generalizing s with
  | nil =>
    cases h
    exact hs
  | cons a l ih =>
    obtain ⟨s₁, ha, hrest⟩ := run_cons_eq_some.mp h
    exact ih hrest (hstep a s s₁ hs ha)

/-- What each step keeps, with a look at the inputs so far, holds behind a run. -/
theorem run_history {I : List α → σ → Prop}
    (hstep : ∀ l a s s', I l s → step a s = some s' → I (l ++ [a]) s')
    (h : run step l s = some s') (hs : I [] s) : I l s' := by
  induction l using List.reverseRecOn generalizing s' with
  | nil =>
    cases h
    exact hs
  | append_singleton l a ih =>
    obtain ⟨s₁, hl, ha⟩ := run_append_eq_some.mp h
    rw [run_singleton] at ha
    exact hstep l a s₁ s' (ih hl) ha

end Lingx.Library.Machine
