import Lingx.Bytes
import Lingx.Library.Decimal
import Lingx.Library.Store
import Mathlib.Algebra.Group.Nat.Defs
import Mathlib.Data.List.TakeWhile
import Mathlib.Logic.Function.Basic

/-! The string functions. A buffer is the list of its bytes and a pointer into it a
position; each function gives the buffer it leaves and the pointer it returns. A
source string is given without its terminator: it reads as NUL behind its end. -/

namespace Lingx.Strings

open Library.Store

def INT_MAX : ℕ := 0x7fffffff

/-- What a format with its arguments produces; `vsnprintf` returns its length as an int. -/
structure Formatted where
  text : Bytes
  length_le : text.length ≤ INT_MAX

/-- The string that starts with the first byte and ends before the first NUL. -/
def cstr (s : Bytes) : Bytes := s.takeWhile (· ≠ 0)

def strncpy (mem : Bytes) (dst : ℕ) (src : Bytes) : ℕ → Bytes × ℕ
  | 0 => (mem, dst)
  | 1 => (mem.set dst 0, dst)
  | n + 2 =>
    let c := src.headD 0
    let mem := mem.set dst c
    if c = 0 then (mem, dst) else strncpy mem (dst + 1) src.tail (n + 1)

/-- `std::vsnprintf`: as much of the text as leaves room for a NUL, and the NUL. -/
def vsnprintf (mem : Bytes) (buf size : ℕ) (fmt : Formatted) : Bytes × ℤ :=
  (if size = 0 then mem else store mem buf (fmt.text.take (size - 1) ++ [0]), fmt.text.length)

def vslprintf (mem : Bytes) (buf last : ℕ) (fmt : Formatted) : Bytes × ℕ :=
  let size : ℤ := last - buf
  if 0 < size then
    let (mem, len) := vsnprintf mem buf size.toNat fmt
    let len := if len ≥ size then size - 1 else len
    (mem, if 0 < len then buf + len.toNat else buf)
  else (mem, buf)

def slprintf (mem : Bytes) (buf last : ℕ) (fmt : Formatted) : Bytes × ℕ :=
  vslprintf mem buf last fmt

/-- The conversion of `%d`. -/
def decimal (i : ℤ) : Bytes :=
  (if i < 0 then [45] else []) ++ (Nat.toDigits 10 i.natAbs).map fun c => UInt8.ofNat c.toNat

theorem length_decimal_le (i : Int32) : (decimal i.toInt).length ≤ 11 := by
  have hlo := i.le_toInt
  have hhi := i.toInt_lt
  have hdigits : (Nat.toDigits 10 i.toInt.natAbs).length ≤ 10 :=
    (Nat.length_toDigits_le_iff (by omega) (by omega)).mpr (by omega)
  rw [decimal, List.length_append, List.length_map]
  split_ifs <;> simp <;> omega

theorem zero_notMem_decimal (i : ℤ) : 0 ∉ decimal i := by
  rw [decimal, List.mem_append, not_or]
  refine ⟨by split_ifs <;> simp, fun h => ?_⟩
  obtain ⟨c, hc, h0⟩ := List.mem_map.mp h
  have hd := Nat.isDigit_of_mem_toDigits (by omega) (by omega) hc
  simp only [Char.isDigit, Bool.and_eq_true, decide_eq_true_eq] at hd
  have hlo : 48 ≤ c.toNat := hd.1
  have hhi : c.toNat ≤ 57 := hd.2
  have := congrArg UInt8.toNat h0
  rw [UInt8.toNat_ofNat'] at this
  simp at this
  omega

theorem decimal_eq (i : ℤ) :
    decimal i = (if i < 0 then [45] else []) ++ Library.Decimal.text i.natAbs := rfl

theorem decimal_injective : Function.Injective decimal := by
  intro i j h
  have hsign : ∀ n, ∀ s : Bytes, Library.Decimal.text n ≠ 45 :: s := fun n s hs => by
    have hdigit := Library.Decimal.isDigit_text 45 (hs ▸ List.mem_cons_self (l := s))
    exact absurd hdigit (by decide)
  have habs : i.natAbs = j.natAbs := by
    have hval {n m : ℕ} (h : Library.Decimal.text n = Library.Decimal.text m) : n = m := by
      rw [← Library.Decimal.value_text n, h, Library.Decimal.value_text]
    rw [decimal_eq, decimal_eq] at h
    split_ifs at h with hi hj hj
    · exact hval (List.cons.inj h).2
    · exact absurd h.symm (hsign _ _)
    · exact absurd h (hsign _ _)
    · exact hval h
  rw [decimal_eq, decimal_eq, habs] at h
  have hneg : i < 0 ↔ j < 0 := by
    have hsigns := List.append_cancel_right h
    split_ifs at hsigns with hi hj hj
    · exact iff_of_true hi hj
    · exact iff_of_false hi hj
  omega

section Copy
variable {mem src s : Bytes} {dst n : ℕ}

theorem zero_notMem_cstr (s : Bytes) : 0 ∉ cstr s := fun h => by
  simpa using List.mem_takeWhile_imp h

/-- `Strncpy` stores as much of the string as leaves room for a NUL, and the NUL. -/
theorem strncpy_eq (mem : Bytes) (dst : ℕ) (src : Bytes) (n : ℕ) :
    strncpy mem dst src (n + 1) =
      (store mem dst ((cstr src).take n ++ [0]), dst + ((cstr src).take n).length) := by
  induction n generalizing mem dst src with
  | zero => simp [strncpy]
  | succ n ih =>
    cases src with
    | nil => simp [strncpy, cstr]
    | cons c src =>
      by_cases hc : c = 0
      · simp [strncpy, cstr, hc]
      · simp only [strncpy, List.headD_cons, if_neg hc, List.tail_cons, ih]
        simp [cstr, hc]
        omega

theorem vslprintf_eq {buf last : ℕ} (fmt : Formatted) (h : buf < last) :
    vslprintf mem buf last fmt = (store mem buf (fmt.text.take (last - buf - 1) ++ [0]),
      buf + (fmt.text.take (last - buf - 1)).length) := by
  have hsize : ((last : ℤ) - buf).toNat = last - buf := by omega
  have hpos : (0 : ℤ) < last - buf := by omega
  simp only [vslprintf, if_pos hpos, vsnprintf, hsize, if_neg (show ¬ last - buf = 0 by omega),
    List.length_take, Prod.mk.injEq, true_and]
  split_ifs <;> omega

end Copy

section Atoi

open Library.Decimal

/-- One turn of the loop of `Atoi`; in the cases of `none` it returns -1. -/
def atoiStep (val : ℕ) (c : Byte) : Option ℕ :=
  let cutoff := INT_MAX / 10
  let cutlim := INT_MAX % 10
  if c < 48 ∨ 57 < c then none
  else if cutoff ≤ val ∧ (cutoff < val ∨ cutlim < c.toNat - 48) then none
  else some (val * 10 + (c.toNat - 48))

def atoi (str : Bytes) : ℤ :=
  if str = [] then -1
  else
    match str.foldlM atoiStep 0 with
    | none => -1
    | some val => val

variable {str : Bytes} {val v : ℕ} {c : Byte}

/-- The guard is exact: a digit is taken if the new value is an int. -/
theorem atoiStep_eq_some :
    atoiStep val c = some v ↔ IsDigit c ∧ val * 10 + digit c = v ∧ v ≤ INT_MAX := by
  have hdigit : (c < 48 ∨ 57 < c) ↔ ¬ IsDigit c := by
    rw [IsDigit, UInt8.lt_iff_toNat_lt, UInt8.lt_iff_toNat_lt]
    simp
    omega
  simp only [atoiStep, hdigit, digit]
  by_cases hc : IsDigit c
  · have hle : c.toNat ≤ 57 := hc.2
    have hmax : INT_MAX = 2147483647 := rfl
    simp only [hc, not_true, if_false, true_and]
    split_ifs with hcut
    · simp only [false_iff, not_and]
      omega
    · rw [Option.some.injEq]
      omega
  · simp [hc]

theorem foldlM_atoiStep (hval : val ≤ INT_MAX) : str.foldlM atoiStep val = some v ↔
    (∀ c ∈ str, IsDigit c) ∧ valueFrom val str = v ∧ v ≤ INT_MAX := by
  induction str generalizing val with
  | nil =>
    simp only [List.foldlM_nil, Option.pure_def, Option.some.injEq, valueFrom_nil]
    exact ⟨fun h => ⟨nofun, h, h ▸ hval⟩, fun h => h.2.1⟩
  | cons c str ih =>
    simp only [List.foldlM_cons, Option.bind_eq_bind, Option.bind_eq_some_iff, atoiStep_eq_some,
      List.forall_mem_cons, valueFrom_cons]
    constructor
    · rintro ⟨w, ⟨hc, rfl, hle⟩, hstr⟩
      obtain ⟨hdigits, hv, hmax⟩ := (ih hle).mp hstr
      exact ⟨⟨hc, hdigits⟩, hv, hmax⟩
    · rintro ⟨⟨hc, hdigits⟩, hv, hmax⟩
      have hle : val * 10 + digit c ≤ INT_MAX :=
        (le_valueFrom _ str).trans (hv.trans_le hmax)
      exact ⟨_, ⟨hc, rfl, hle⟩, (ih hle).mpr ⟨hdigits, hv, hmax⟩⟩

theorem atoi_cases (str : Bytes) : atoi str = -1 ∨ ∃ v : ℕ, atoi str = v := by
  rw [atoi]
  split_ifs
  · exact .inl rfl
  · split
    · exact .inl rfl
    · exact .inr ⟨_, rfl⟩

theorem atoi_eq_natCast : atoi str = v ↔
    str ≠ [] ∧ (∀ c ∈ str, IsDigit c) ∧ value str = v ∧ v ≤ INT_MAX := by
  have hfold : str.foldlM atoiStep 0 = some v ↔
      (∀ c ∈ str, IsDigit c) ∧ value str = v ∧ v ≤ INT_MAX := foldlM_atoiStep (Nat.zero_le _)
  rw [atoi, ← hfold]
  split_ifs with hnil
  · simp [hnil]
  · cases str.foldlM atoiStep 0 with
    | none => simp [hnil]
    | some w =>
      simp only [ne_eq, hnil, not_false_eq_true, true_and, Option.some.injEq, Int.natCast_inj]

/-- In the loop of `Atoi` the value is that of the digits so far. -/
theorem foldlM_atoiStep_concat {s : Bytes} (hs : s.foldlM atoiStep 0 = some val)
    (hc : atoiStep val c = some v) : val = value s ∧ v = value (s ++ [c]) ∧ v ≤ INT_MAX := by
  obtain ⟨-, hval, -⟩ := (foldlM_atoiStep (Nat.zero_le _)).mp hs
  have hnext : (s ++ [c]).foldlM atoiStep 0 = some v := by
    rw [List.foldlM_append, hs]
    simpa using hc
  obtain ⟨-, hv, hmax⟩ := (foldlM_atoiStep (Nat.zero_le _)).mp hnext
  exact ⟨hval.symm, hv.symm, hmax⟩

/-- `Atoi` parses the ints that are not negative. It returns a number exactly for the digits
that denote it, leading zeros allowed, up to 2^31 - 1, and -1 for every other string. Behind
each byte of the string `val` is the value of the digits so far, and an int. -/
theorem atoi_exact (str : Bytes) :
    (∀ v : ℕ, atoi str = v ↔
      0 < str.length ∧ (∀ c ∈ str, IsDigit c) ∧ value str = v ∧ v ≤ 2 ^ 31 - 1) ∧
    (¬ (0 < str.length ∧ (∀ c ∈ str, IsDigit c) ∧ value str ≤ 2 ^ 31 - 1) → atoi str = -1) ∧
    ∀ s c, s ++ [c] <+: str → ∀ val v, s.foldlM atoiStep 0 = some val → atoiStep val c = some v →
      val = value s ∧ v = val * 10 + digit c ∧ v = value (s ++ [c]) ∧ v ≤ INT_MAX := by
  have hmax : INT_MAX = 2 ^ 31 - 1 := rfl
  have hparsed (v : ℕ) : atoi str = v ↔
      0 < str.length ∧ (∀ c ∈ str, IsDigit c) ∧ value str = v ∧ v ≤ 2 ^ 31 - 1 := by
    rw [atoi_eq_natCast, List.length_pos_iff, hmax]
  refine ⟨hparsed, fun hnot => ?_, fun s c _ val v hs hc => ?_⟩
  · rcases atoi_cases str with h | ⟨v, h⟩
    · exact h
    · obtain ⟨hpos, hdigits, rfl, hle⟩ := (hparsed v).mp h
      exact absurd ⟨hpos, hdigits, hle⟩ hnot
  · obtain ⟨hval, hv, hle⟩ := foldlM_atoiStep_concat hs hc
    obtain ⟨-, hstep, -⟩ := atoiStep_eq_some.mp hc
    exact ⟨hval, hstep.symm, hv, hle⟩

example : [ascii "012", ascii "2147483647", ascii "2147483648", ascii "12d", ascii "-12", []].map
    atoi = [12, 2147483647, -1, -1, -1, -1] := by
  decide

end Atoi

end Lingx.Strings
