import Mathlib.Data.List.Basic
import Mathlib.Tactic.Common

/-! Decimal numbers in ASCII bytes: the digits, the value of a text that is read from
the left with some value in front, and the text of a number. -/

namespace Lingx.Library.Decimal

/-- The byte is a digit. -/
def IsDigit (c : UInt8) : Prop := 48 ≤ c.toNat ∧ c.toNat ≤ 57

instance (c : UInt8) : Decidable (IsDigit c) := inferInstanceAs (Decidable (_ ∧ _))

def digit (c : UInt8) : ℕ := c.toNat - 48

/-- The value of digits with `v` in front of them. -/
def valueFrom (v : ℕ) (s : List UInt8) : ℕ := s.foldl (fun v c => v * 10 + digit c) v

/-- The value of digits, leading zeros allowed. -/
def value (s : List UInt8) : ℕ := valueFrom 0 s

/-- The text of a number. -/
def text (n : ℕ) : List UInt8 := (Nat.toDigits 10 n).map fun c => UInt8.ofNat c.toNat

variable {s t : List UInt8} {v n : ℕ} {c : UInt8}

@[simp] theorem valueFrom_nil : valueFrom v [] = v := rfl

@[simp] theorem valueFrom_cons : valueFrom v (c :: s) = valueFrom (v * 10 + digit c) s := by
  rw [valueFrom, valueFrom, List.foldl_cons]

theorem valueFrom_append : valueFrom v (s ++ t) = valueFrom (valueFrom v s) t :=
  List.foldl_append

/-- A value does not get smaller by more digits. -/
theorem le_valueFrom (v : ℕ) (s : List UInt8) : v ≤ valueFrom v s := by
  induction s generalizing v with
  | nil => exact Nat.le_refl v
  | cons c s ih =>
    have hv := ih (v * 10 + digit c)
    rw [valueFrom_cons]
    omega

/-- A value other than zero grows by every digit. -/
theorem lt_valueFrom (hv : 0 < v) (hs : s ≠ []) : v < valueFrom v s := by
  cases s with
  | nil => exact absurd rfl hs
  | cons c s =>
    have hle := le_valueFrom (v * 10 + digit c) s
    rw [valueFrom_cons]
    omega

theorem isDigit_text : ∀ c ∈ text n, IsDigit c := by
  intro c hc
  obtain ⟨d, hd, rfl⟩ := List.mem_map.mp hc
  have hdigit := Nat.isDigit_of_mem_toDigits (by omega) (by omega) hd
  simp only [Char.isDigit, Bool.and_eq_true, decide_eq_true_eq] at hdigit
  have hlo : 48 ≤ d.toNat := hdigit.1
  have hhi : d.toNat ≤ 57 := hdigit.2
  rw [IsDigit, UInt8.toNat_ofNat']
  omega

theorem text_ne_nil : text n ≠ [] := by
  simp [text]

/-- The text of a number has its value. -/
theorem value_text (n : ℕ) : value (text n) = n := by
  have h : ∀ (cs : List Char) (v : ℕ), (∀ c ∈ cs, c.toNat < 256) →
      valueFrom v (cs.map fun c => UInt8.ofNat c.toNat) = Nat.ofDigitChars 10 cs v := by
    intro cs
    induction cs with
    | nil => intro v _; rfl
    | cons c cs ih =>
      intro v hcs
      obtain ⟨hc, hcs⟩ := List.forall_mem_cons.mp hcs
      rw [List.map_cons, valueFrom_cons, ih _ hcs, Nat.ofDigitChars_cons, digit,
        UInt8.toNat_ofNat', Nat.mod_eq_of_lt (by omega), Nat.mul_comm]
      rfl
  rw [value, text, h, Nat.ofDigitChars_ten_toDigits]
  intro c hc
  have hdigit := Nat.isDigit_of_mem_toDigits (by omega) (by omega) hc
  simp only [Char.isDigit, Bool.and_eq_true, decide_eq_true_eq] at hdigit
  have hhi : c.toNat ≤ 57 := hdigit.2
  omega

end Lingx.Library.Decimal
