import Lingx.Library.Chain
import Lingx.Library.StableSort
import Lingx.Logs.State

/-! The chain of logs. What a log says is its level and its file; the chain from the
head represents the sorted list of what has been installed, and `Log_insert` inserts
into that list, also where it exchanges the contents of the new log and the head. -/

namespace Lingx.Logs

open Library

/-- What a log says. -/
structure Entry where
  level : Level
  file : Option OpenFile
  deriving DecidableEq, Repr

/-- The place of a level in the order of the levels. -/
def Entry.rank (e : Entry) : ℕ := e.level.toNat

namespace LogCycle

variable (s : LogCycle) (a b : ℕ)

def next (s : LogCycle) (a : ℕ) : Option ℕ := (s.log a).next

def entry (s : LogCycle) (a : ℕ) : Entry := ⟨(s.log a).level, (s.log a).file⟩

@[simp] theorem setNext_next (n : Option ℕ) :
    (s.setNext a n).next = Function.update s.next a n := by
  funext b
  by_cases hb : b = a
  · subst hb; simp [next, setNext, setLog]
  · simp [next, setNext, setLog, hb]

@[simp] theorem setNext_entry (n : Option ℕ) : (s.setNext a n).entry = s.entry := by
  funext b
  by_cases hb : b = a
  · subst hb; simp [entry, setNext, setLog]
  · simp [entry, setNext, setLog, hb]

@[simp] theorem setNext_logN (n : Option ℕ) : (s.setNext a n).logN = s.logN := rfl
@[simp] theorem setNext_opened (n : Option ℕ) : (s.setNext a n).opened = s.opened := rfl

theorem swap_entry (hab : a ≠ b) : ((s.setLog a (s.log b)).setLog b (s.log a)).entry =
    Function.update (Function.update s.entry a (s.entry b)) b (s.entry a) := by
  funext c
  by_cases hb : c = b
  · subst hb; simp [entry, setLog]
  · by_cases ha : c = a
    · subst ha; simp [entry, setLog, hab]
    · simp [entry, setLog, hb, ha]

theorem swap_next (hab : a ≠ b) : ((s.setLog a (s.log b)).setLog b (s.log a)).next =
    Function.update (Function.update s.next a (s.next b)) b (s.next a) := by
  funext c
  by_cases hb : c = b
  · subst hb; simp [next, setLog]
  · by_cases ha : c = a
    · subst ha; simp [next, setLog, hab]
    · simp [next, setLog, hb, ha]

end LogCycle

variable {s : LogCycle} {a n : ℕ} {l : List ℕ}

/-- Behind a log that is not lower, the loop inserts the new log in the order of the
levels, and changes nothing but links. -/
theorem logInsertLoop_spec {k : ℕ} (hk : l.length < k) (hc : Chain s.next (some a) (a :: l))
    (hd : (a :: l).Nodup) (hn : n ∉ a :: l) (hnn : s.next n = none) :
    ∃ l', Chain (logInsertLoop k s a n).next (some a) (a :: l') ∧ l'.Perm (n :: l) ∧
      (logInsertLoop k s a n).entry = s.entry ∧ (logInsertLoop k s a n).logN = s.logN ∧
      l'.map s.entry = StableSort.insert Entry.rank (s.entry n) (l.map s.entry) ∧
      ∀ c, c ∉ n :: a :: l → (logInsertLoop k s a n).next c = s.next c := by
  have hna : n ≠ a := fun h => hn (by simp [h])
  induction k generalizing a l with
  | zero => omega
  | succ k ih =>
    cases l with
    | nil =>
      have hnext : (s.log a).next = none := hc.2
      simp only [logInsertLoop, hnext]
      refine ⟨[n], ?_, List.Perm.refl _, by simp, rfl, by simp [StableSort.insert], fun c hcn => ?_⟩
      · simp [hna, hnn]
      · have hca : c ≠ a := fun h => hcn (by simp [h])
        simp [hca]
    | cons b m =>
      have hnext : (s.log a).next = some b := hc.2.1
      simp only [logInsertLoop, hnext]
      by_cases hlt : (s.log b).level < (s.log n).level
      · have hlink : ((s.setNext n (some b)).setNext a (some n)).next = linkBehind s.next a n := by
          simp [linkBehind, ← hnext, LogCycle.next]
        have hrank : (s.entry b).rank < (s.entry n).rank := hlt
        rw [if_pos hlt]
        refine ⟨n :: b :: m, hlink ▸ hc.linkBehind hd hn, List.Perm.refl _, by simp, rfl,
          by simp [StableSort.insert, hrank], fun c hcn => ?_⟩
        rw [hlink]
        exact linkBehind_of_ne (fun h => hcn (by simp [h])) fun h => hcn (by simp [h])
      · have hrank : ¬ (s.entry b).rank < (s.entry n).rank := hlt
        have hd' := List.nodup_cons.mp hd
        have hnb : n ∉ b :: m := fun h => hn (List.mem_cons_of_mem a h)
        rw [if_neg hlt]
        obtain ⟨l', hc', hp, he, hN, hmap, hframe⟩ := ih (by simpa using hk)
          ⟨rfl, hc.2.2⟩ hd'.2 hnb fun h => hnb (by simp [h])
        refine ⟨b :: l', ⟨rfl, ?_⟩, (hp.cons b).trans (.swap _ _ _), he, hN,
          by simp [StableSort.insert, hrank, hmap], fun c hcn => hframe c fun h => ?_⟩
        · rw [hframe a fun h => ?_]
          · exact ⟨hnext, hc'.2⟩
          · rcases List.mem_cons.mp h with h | h
            · exact hna h.symm
            · exact hd'.1 h
        · rcases List.mem_cons.mp h with h | h
          · exact hcn (by simp [h])
          · exact hcn (by simp [List.mem_cons.mp h])

theorem logInsertLoop_opened (k : ℕ) (s : LogCycle) (a n : ℕ) :
    (logInsertLoop k s a n).opened = s.opened := by
  induction k generalizing a with
  | zero => rfl
  | succ k ih =>
    simp only [logInsertLoop]
    split
    · rfl
    · split_ifs
      · rfl
      · exact ih _

theorem logInsert_opened (s : LogCycle) (a n : ℕ) : (logInsert s a n).opened = s.opened := by
  simp only [logInsert]
  split_ifs
  · rfl
  · exact logInsertLoop_opened _ s a n

/-- The new log is inserted in the order of the levels; the head keeps its place and
may take over what the new log says. -/
theorem logInsert_spec {h : ℕ} (hk : l.length < s.logN) (hc : Chain s.next (some h) (h :: l))
    (hd : (h :: l).Nodup) (hn : n ∉ h :: l) (hnn : s.next n = none) :
    ∃ l', Chain (logInsert s h n).next (some h) (h :: l') ∧ l'.Perm (n :: l) ∧
      (logInsert s h n).logN = s.logN ∧ (h :: l').map (logInsert s h n).entry =
        StableSort.insert Entry.rank (s.entry n) ((h :: l).map s.entry) := by
  have hnh : h ≠ n := fun e => hn (by simp [e])
  by_cases hlt : (s.log h).level < (s.log n).level
  · have hrank : (s.entry h).rank < (s.entry n).rank := hlt
    have hins : logInsert s h n =
        ((s.setLog h (s.log n)).setLog n (s.log h)).setNext h (some n) := by
      simp only [logInsert, if_pos hlt]
    have hnl : ∀ b ∈ l, b ≠ h ∧ b ≠ n := fun b hb =>
      ⟨fun e => (List.nodup_cons.mp hd).1 (e ▸ hb), fun e => hn (by simp [← e, hb])⟩
    refine ⟨n :: l, ?_, List.Perm.refl _, by rw [hins]; rfl, ?_⟩
    · rw [hins, LogCycle.setNext_next, LogCycle.swap_next s h n hnh]
      refine ⟨rfl, by simp, ?_⟩
      simp only [Function.update_of_ne (Ne.symm hnh), Function.update_self]
      refine hc.2.congr fun b hb => ?_
      simp [(hnl b hb).1, (hnl b hb).2]
    · rw [hins, LogCycle.setNext_entry, LogCycle.swap_entry s h n hnh]
      simp only [List.map_cons, StableSort.insert, if_pos hrank, Function.update_self,
        Function.update_of_ne hnh]
      refine congrArg _ (congrArg _ (List.map_congr_left fun b hb => ?_))
      simp [(hnl b hb).1, (hnl b hb).2]
  · have hrank : ¬ (s.entry h).rank < (s.entry n).rank := hlt
    have hins : logInsert s h n = logInsertLoop s.logN s h n := by
      simp only [logInsert, if_neg hlt]
    obtain ⟨l', hc', hp, he, hN, hmap, -⟩ := logInsertLoop_spec hk hc hd hn hnn
    rw [hins]
    refine ⟨l', hc', hp, hN, ?_⟩
    simp [he, hmap, StableSort.insert, hrank]

end Lingx.Logs
