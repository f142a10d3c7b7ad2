import Mathlib.Data.BitVec
import Mathlib.Tactic.Common

/-! Readings of a clock kept in a word. An instant of the unbounded clock is a
natural number, its reading is the instant modulo the size of the word, and its lap
is the number of times the word has wrapped by then. Of two instants less than half
a lap apart the signed difference of the readings is their distance; the order of
the readings is theirs exactly when they lie in one lap. -/

namespace Lingx.Library.ClockWord

variable {w a b : ℕ}

def reading (w a : ℕ) : BitVec w := BitVec.ofNat w a

def lap (w a : ℕ) : ℕ := a / 2 ^ w

/-- The two instants are less than half a lap apart. -/
def Near (w a b : ℕ) : Prop := 2 * a < 2 * b + 2 ^ w ∧ 2 * b < 2 * a + 2 ^ w

theorem reading_add (w a b : ℕ) : reading w (a + b) = reading w a + reading w b :=
  BitVec.ofNat_add a b

/-- An instant is its lap and its reading. -/
theorem lap_add_reading (w a : ℕ) : 2 ^ w * lap w a + (reading w a).toNat = a := by
  rw [reading, BitVec.toNat_ofNat, lap]
  exact Nat.div_add_mod a (2 ^ w)

/-- The signed difference of the readings of two near instants is their distance. -/
theorem Near.toInt_sub (h : Near w a b) :
    (reading w a - reading w b).toInt = (a : ℤ) - b := by
  obtain ⟨hab, hba⟩ := h
  rw [BitVec.toInt_sub, reading, reading, BitVec.toInt_ofNat', BitVec.toInt_ofNat',
    Int.bmod_sub_bmod, Int.sub_bmod_bmod]
  exact Int.bmod_eq_of_le_mul_two (by omega) (by omega)

/-- The readings of near instants of different laps stand in the opposite order. -/
theorem Near.reading_le_iff (h : Near w a b) : reading w a ≤ reading w b ↔
    if lap w a = lap w b then a ≤ b else b < a := by
  obtain ⟨hab, hba⟩ := h
  have ha := lap_add_reading w a
  have hb := lap_add_reading w b
  have hla := (reading w a).isLt
  have hlb := (reading w b).isLt
  rw [BitVec.le_def]
  split_ifs with hl
  · rw [hl] at ha
    omega
  · rcases Nat.lt_or_gt_of_ne hl with hlt | hgt
    · have hm : 2 ^ w * (lap w a + 1) ≤ 2 ^ w * lap w b := Nat.mul_le_mul_left _ hlt
      rw [Nat.mul_succ] at hm
      omega
    · have hm : 2 ^ w * (lap w b + 1) ≤ 2 ^ w * lap w a := Nat.mul_le_mul_left _ hgt
      rw [Nat.mul_succ] at hm
      omega

/-- The order of the readings is that of the instants exactly when no lap ends
between them. -/
theorem Near.reading_le_iff_le_iff (h : Near w a b) :
    (reading w a ≤ reading w b ↔ a ≤ b) ↔ lap w a = lap w b := by
  rw [h.reading_le_iff]
  split_ifs with hl
  · simp [hl]
  · have hne : a ≠ b := fun hab => hl (by rw [hab])
    simp only [hl, iff_false]
    omega

end Lingx.Library.ClockWord
