import Mathlib.Tactic.Common

/-! Computations that may fail, taken apart. -/

namespace Lingx.Library

variable {ε : Type*} {α β : Type}

/-- A sequence succeeds exactly when both of its parts do. -/
theorem bind_eq_ok {x : Except ε α} {f : α → Except ε β} {b : β} :
    x >>= f = .ok b ↔ ∃ a, x = .ok a ∧ f a = .ok b := by
  cases x with
  | error e => exact ⟨fun h => (nomatch h), fun ⟨_, h, _⟩ => (nomatch h)⟩
  | ok a => exact ⟨fun h => ⟨a, rfl, h⟩, fun ⟨_, h, hb⟩ => by cases h; exact hb⟩

@[simp] theorem ok_bind (a : α) (f : α → Except ε β) : Except.ok a >>= f = f a := rfl

@[simp] theorem error_bind (err : ε) (f : α → Except ε β) :
    Except.error err >>= f = .error err := rfl

theorem bind_eq_error {x : Except ε α} {f : α → Except ε β} {err : ε} :
    x >>= f = .error err ↔ x = .error err ∨ ∃ a, x = .ok a ∧ f a = .error err := by
  cases x with
  | error e => simp
  | ok a => simp

theorem pure_eq_ok {a b : α} : (pure a : Except ε α) = .ok b ↔ a = b :=
  ⟨fun h => by cases h; rfl, fun h => by rw [h]; rfl⟩

/-- A fold that succeeds passes through each of its elements. -/
theorem foldlM_cons_eq_ok {f : β → α → Except ε β} {a : α} {l : List α} {b c : β} :
    (a :: l).foldlM f b = .ok c ↔ ∃ d, f b a = .ok d ∧ l.foldlM f d = .ok c := by
  rw [List.foldlM_cons, bind_eq_ok]

/-- A fold fails the way one of its steps does. -/
theorem of_foldlM_eq_error {P : ε → Prop} {f : β → α → Except ε β} {l : List α} {b : β} {err : ε}
    (hf : ∀ b, ∀ a ∈ l, ∀ err, f b a = .error err → P err) (h : l.foldlM f b = .error err) :
    P err := by
  induction l generalizing b with
  | nil => cases h
  | cons a l ih =>
    rw [List.foldlM_cons] at h
    rcases bind_eq_error.mp h with h | ⟨b', -, h⟩
    · exact hf b a List.mem_cons_self err h
    · exact ih (fun b a ha => hf b a (List.mem_cons_of_mem _ ha)) h

/-- A fold in step with another. -/
theorem foldlM_map {γ : Type} {f : β → α → Except ε β} {g : γ → α → Except ε γ} {φ : β → γ}
    (hstep : ∀ b a b', f b a = .ok b' → g (φ b) a = .ok (φ b')) {l : List α} {b b' : β}
    (h : l.foldlM f b = .ok b') : l.foldlM g (φ b) = .ok (φ b') := by
  induction l generalizing b with
  | nil =>
    cases h
    rfl
  | cons a l ih =>
    obtain ⟨b₁, hb₁, h⟩ := foldlM_cons_eq_ok.mp h
    exact foldlM_cons_eq_ok.mpr ⟨φ b₁, hstep b a b₁ hb₁, ih h⟩

end Lingx.Library
