import Lingx.Logs.State
import Mathlib.Data.List.DropRight

/-! Parents of paths. `Path::parent_path` looks for the last separator and goes back over
the separators before it, but never to the front of the path, so one character is kept
there: a separator of an absolute path, or the first character of a relative one. -/

namespace Lingx.Paths

/-- `Path::Separator` -/
def Separator : Byte := 0x2f

/-- `std::string::rfind`, among the first `n` characters. -/
def rfindBelow (s : Bytes) (ch : Byte) : ℕ → Option ℕ
  | 0 => none
  | n + 1 => if s[n]? = some ch then some n else rfindBelow s ch n

def rfind (s : Bytes) (ch : Byte) : Option ℕ := rfindBelow s ch s.length

/-- The loop of `Path::parent_path`. -/
def skipSeparators (path : Bytes) : ℕ → ℕ
  | 0 => 0
  | pos + 1 => if path[pos + 1]? = some Separator then skipSeparators path pos else pos + 1

/-- `Path::parent_path`. -/
def parentPath (path : Bytes) : Bytes :=
  match rfind path Separator with
  | none => []
  | some pos => path.take (skipSeparators path pos + 1)

/-- The members of `Cycle` that name the configuration file. -/
structure ConfNames where
  confFile : Bytes
  confPrefix : Bytes
  deriving DecidableEq, Repr

/-- `Cycle::set_conf_file`. -/
def setConfFile (file : Bytes) : ConfNames where
  confFile := file
  confPrefix := Logs.tailSeparator (parentPath file)

section Search
variable {s path : Bytes} {ch : Byte} {m n : ℕ}

theorem rfindBelow_eq_none (h : ∀ i < n, s[i]? ≠ some ch) : rfindBelow s ch n = none := by
  induction n with
  | zero => rfl
  | succ n ih =>
    rw [rfindBelow, if_neg (h n n.lt_succ_self)]
    exact ih fun i hi => h i (Nat.lt_succ_of_lt hi)

theorem rfindBelow_eq_some (hm : s[m]? = some ch) (hmn : m < n)
    (h : ∀ i, m < i → i < n → s[i]? ≠ some ch) : rfindBelow s ch n = some m := by
  induction n with
  | zero => exact absurd hmn (Nat.not_lt_zero m)
  | succ n ih =>
    rw [rfindBelow]
    rcases Nat.lt_succ_iff_lt_or_eq.mp hmn with hlt | rfl
    · rw [if_neg (h n hlt n.lt_succ_self)]
      exact ih hlt fun i hi hin => h i hi (Nat.lt_succ_of_lt hin)
    · exact if_pos hm

/-- The loop goes back over a run of separators, to what is before it or to the front. -/
theorem skipSeparators_run (h : ∀ i, m < i → i ≤ m + n → path[i]? = some Separator)
    (hm : m = 0 ∨ path[m]? ≠ some Separator) : skipSeparators path (m + n) = m := by
  induction n with
  | zero =>
    cases m with
    | zero => rfl
    | succ m => exact if_neg (hm.resolve_left m.succ_ne_zero)
  | succ n ih =>
    rw [← Nat.add_assoc, skipSeparators, if_pos (h (m + n + 1) (by omega) le_rfl)]
    exact ih fun i hi hin => h i hi (by omega)

end Search

section Split
variable {p body last : Bytes} {n : ℕ}

/-- The part of a path behind its last separator. -/
def lastPart (p : Bytes) : Bytes := p.rtakeWhile (· ≠ Separator)

theorem parentPath_eq_nil (h : Separator ∉ p) : parentPath p = [] := by
  have hnone : rfind p Separator = none :=
    rfindBelow_eq_none fun i _ hi => h (List.mem_of_getElem? hi)
  rw [parentPath, hnone]

theorem separator_notMem_lastPart : Separator ∉ lastPart p := fun h => by
  simpa using List.mem_rtakeWhile_imp h

/-- A path with a separator is a body, which does not end with one, a run of separators
and the last part. -/
theorem exists_split (h : Separator ∈ p) : ∃ body n,
    p = body ++ List.replicate (n + 1) Separator ++ lastPart p ∧
      body.getLast? ≠ some Separator := by
  obtain ⟨q, hq⟩ : ∃ q, q = p.rdropWhile (· ≠ Separator) := ⟨_, rfl⟩
  obtain ⟨run, hrun⟩ : ∃ run, run = q.rtakeWhile (· = Separator) := ⟨_, rfl⟩
  have hne : q ≠ [] := by
    rw [hq, ne_eq, List.rdropWhile_eq_nil_iff]
    exact fun hall => by simpa using hall Separator h
  have hlast : q.getLast hne = Separator := by
    have hnot := List.rdropWhile_last_not (· ≠ Separator) p (hq ▸ hne)
    subst hq
    simpa using hnot
  have hnonempty : run ≠ [] := by
    rw [hrun, ne_eq, List.rtakeWhile_eq_nil_iff]
    exact fun hall => by simpa [hlast] using hall hne
  have hreplicate : run = List.replicate (run.length - 1 + 1) Separator := by
    rw [Nat.sub_add_cancel (List.length_pos_iff.mpr hnonempty)]
    refine List.eq_replicate_iff.mpr ⟨rfl, fun c hc => ?_⟩
    rw [hrun] at hc
    simpa using List.mem_rtakeWhile_imp hc
  refine ⟨q.rdropWhile (· = Separator), run.length - 1, ?_, fun hend => ?_⟩
  · rw [← hreplicate, hrun, List.rdropWhile_append_rtakeWhile, hq, lastPart,
      List.rdropWhile_append_rtakeWhile]
  · have hbody : q.rdropWhile (· = Separator) ≠ [] := by
      rintro hnil
      simp [hnil] at hend
    rw [List.getLast?_eq_some_getLast hbody] at hend
    exact List.rdropWhile_last_not _ q hbody (by simpa using hend)

/-- The parent of a path that is split: the body, or one separator if the run is at the
front. -/
theorem parentPath_split (hbody : body.getLast? ≠ some Separator) (hlast : Separator ∉ last) :
    parentPath (body ++ List.replicate (n + 1) Separator ++ last) =
      if body = [] then [Separator] else body := by
  obtain ⟨path, hpath⟩ : ∃ path, path = body ++ List.replicate (n + 1) Separator ++ last :=
    ⟨_, rfl⟩
  have hrun : ∀ i, body.length ≤ i → i ≤ body.length + n → path[i]? = some Separator := by
    intro i hi hin
    rw [hpath, List.getElem?_append_left (by simp; omega), List.getElem?_append_right hi,
      List.getElem?_replicate, if_pos (by omega)]
  have hbehind : ∀ i, body.length + n < i → path[i]? ≠ some Separator := by
    intro i hi he
    rw [hpath, List.getElem?_append_right (by simp; omega)] at he
    exact hlast (List.mem_of_getElem? he)
  have hlength : body.length + n < path.length := by
    simp [hpath]
    omega
  have hfind : rfind path Separator = some (body.length + n) :=
    rfindBelow_eq_some (hrun _ (by omega) le_rfl) hlength fun i hi _ => hbehind i hi
  rw [← hpath, parentPath, hfind]
  split_ifs with hnil
  · subst hnil
    have hskip : skipSeparators path (0 + n) = 0 :=
      skipSeparators_run (fun i _ hin => hrun i (Nat.zero_le i) hin) (.inl rfl)
    simp only [List.length_nil, hskip]
    rw [hpath, List.replicate_succ]
    rfl
  · have hpos : 0 < body.length := List.length_pos_iff.mpr hnil
    have hskip : skipSeparators path (body.length - 1 + (n + 1)) = body.length - 1 := by
      refine skipSeparators_run (fun i hi hin => hrun i (by omega) (by omega)) (.inr ?_)
      rw [hpath, List.append_assoc, List.getElem?_append_left (by omega),
        ← List.getLast?_eq_getElem?]
      exact hbody
    have hpos' : body.length - 1 + (n + 1) = body.length + n := by omega
    rw [hpos'] at hskip
    simp only [hskip, Nat.sub_add_cancel hpos]
    rw [hpath, List.append_assoc, List.take_left]

theorem tailSeparator_eq (hbody : body.getLast? ≠ some Separator) :
    Logs.tailSeparator (if body = [] then [Separator] else body) = body ++ [Separator] := by
  rw [Logs.tailSeparator]
  split_ifs with hnil hadd hadd
  · exact absurd rfl hadd.2
  · rw [hnil]
    rfl
  · rfl
  · exact absurd ⟨hnil, hbody⟩ hadd

/-- Splitting a path loses repeated separators only. A path without separators has an empty
parent; any other is its parent, separators and its last part, and the parent is `/` or
does not end with a separator. The prefix of a configuration file is empty for a path
without separators; otherwise it ends with a single separator, and with the last part it
is the path with the run of separators before that part made into one. -/
theorem setConfFile_split (p : Bytes) :
    (Separator ∉ p → parentPath p = []) ∧
    (Separator ∈ p → ∃ k, p = parentPath p ++ List.replicate k Separator ++ lastPart p ∧
      parentPath p ≠ [] ∧
      (parentPath p = [Separator] ∨ (parentPath p).getLast? ≠ some Separator)) ∧
    (setConfFile p).confFile = p ∧
    ((setConfFile p).confPrefix = [] ↔ Separator ∉ p) ∧
    (Separator ∈ p → ∃ body n, p = body ++ List.replicate (n + 1) Separator ++ lastPart p ∧
      body.getLast? ≠ some Separator ∧ (setConfFile p).confPrefix = body ++ [Separator]) := by
  by_cases h : Separator ∈ p
  · obtain ⟨body, n, hp, hbody⟩ := exists_split h
    have hparent : parentPath p = if body = [] then [Separator] else body := by
      rw [hp]
      exact parentPath_split hbody separator_notMem_lastPart
    have hstored : (setConfFile p).confPrefix = body ++ [Separator] := by
      rw [setConfFile, hparent]
      exact tailSeparator_eq hbody
    refine ⟨fun hn => absurd h hn, fun _ => ?_, rfl, ?_, fun _ => ⟨body, n, hp, hbody, hstored⟩⟩
    · rw [hparent]
      split_ifs with hnil
      · refine ⟨n, ?_, List.cons_ne_nil _ _, .inl rfl⟩
        rw [hnil, List.replicate_succ] at hp
        exact hp
      · exact ⟨n + 1, hp, hnil, .inr hbody⟩
    · rw [hstored]
      simp [h]
  · have hparent := parentPath_eq_nil h
    refine ⟨fun _ => hparent, fun hm => absurd hm h, rfl, ?_, fun hm => absurd hm h⟩
    rw [setConfFile, hparent]
    simp [h, Logs.tailSeparator]

example : [ascii "a/b//.", ascii "///.", ascii "/a/b//./"].map parentPath =
    [ascii "a/b", ascii "/", ascii "/a/b//."] := by
  decide

end Split

end Lingx.Paths
