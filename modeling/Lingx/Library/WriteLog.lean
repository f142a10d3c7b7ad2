import Mathlib.Logic.Function.Basic
import Mathlib.Tactic.Common

/-! Logs of writes to a partial map. An entry writes one key, with `none` for a
removal; what a key holds after a log is what its last entry wrote, or what it held
before if no entry names it. -/

namespace Lingx.Library.WriteLog

variable {κ α β : Type*} [DecidableEq κ]

/-- Replay a log of entries, `write x` being the key and the value of an entry. -/
def replay (write : β → κ × Option α) (m : κ → Option α) (log : List β) : κ → Option α :=
  log.foldl (fun m x => Function.update m (write x).1 (write x).2) m

variable {write : β → κ × Option α} {m : κ → Option α} {log : List β} {k : κ}

@[simp] theorem replay_nil : replay write m [] = m := rfl

@[simp] theorem replay_cons (x : β) : replay write m (x :: log) =
    replay write (Function.update m (write x).1 (write x).2) log := rfl

theorem replay_append (log' : List β) :
    replay write m (log ++ log') = replay write (replay write m log) log' := List.foldl_append

/-- A key that no entry names holds what it held. -/
theorem replay_of_untouched (h : ∀ x ∈ log, (write x).1 ≠ k) : replay write m log k = m k := by
  induction log generalizing m with
  | nil => rfl
  | cons x log ih =>
    obtain ⟨hx, hlog⟩ := List.forall_mem_cons.mp h
    rw [replay_cons, ih hlog, Function.update_of_ne hx.symm]

variable (write) in
/-- The last entry that names a key, if one does. -/
theorem exists_last (log : List β) (k : κ) : (∀ x ∈ log, (write x).1 ≠ k) ∨
    ∃ l₁ x l₂, log = l₁ ++ x :: l₂ ∧ (write x).1 = k ∧ ∀ y ∈ l₂, (write y).1 ≠ k := by
  induction log with
  | nil => simp
  | cons x log ih =>
    rcases ih with hno | ⟨l₁, y, l₂, rfl, hy, hl₂⟩
    · by_cases hx : (write x).1 = k
      · exact .inr ⟨[], x, log, rfl, hx, hno⟩
      · exact .inl (List.forall_mem_cons.mpr ⟨hx, hno⟩)
    · exact .inr ⟨x :: l₁, y, l₂, rfl, hy, hl₂⟩

/-- What a key holds after a log. -/
theorem replay_eq_iff {v : Option α} : replay write m log k = v ↔
    (∃ l₁ x l₂, log = l₁ ++ x :: l₂ ∧ write x = (k, v) ∧ ∀ y ∈ l₂, (write y).1 ≠ k) ∨
      m k = v ∧ ∀ x ∈ log, (write x).1 ≠ k := by
  constructor
  · intro h
    rcases exists_last write log k with hno | ⟨l₁, x, l₂, rfl, rfl, hl₂⟩
    · exact .inr ⟨by rw [← h, replay_of_untouched hno], hno⟩
    · refine .inl ⟨l₁, x, l₂, rfl, ?_, hl₂⟩
      rw [replay_append, replay_cons, replay_of_untouched hl₂, Function.update_self] at h
      rw [← h]
  · rintro (⟨l₁, x, l₂, rfl, hx, hl₂⟩ | ⟨hm, hno⟩)
    · rw [replay_append, replay_cons, replay_of_untouched hl₂, hx, Function.update_self]
    · rw [replay_of_untouched hno, hm]

end Lingx.Library.WriteLog
