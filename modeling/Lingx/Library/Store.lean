import Mathlib.Data.List.Infix
import Mathlib.Tactic.Common

/-! Storing data in a buffer of fixed size. What matters of the buffer is the part
written so far, a prefix, and the part that no write has reached, a suffix. -/

namespace Lingx.Library.Store

variable {α : Type*}

/-- Store data from a position on, one element after the other. -/
def store (mem : List α) (pos : ℕ) : List α → List α
  | [] => mem
  | c :: data => store (mem.set pos c) (pos + 1) data

variable {mem s data : List α} {pos j : ℕ}

@[simp] theorem store_nil : store mem pos [] = mem := rfl

@[simp] theorem store_cons (c : α) :
    store mem pos (c :: data) = store (mem.set pos c) (pos + 1) data := rfl

@[simp] theorem length_store : (store mem pos data).length = mem.length := by
  induction data generalizing mem pos with
  | nil => rfl
  | cons c data ih => rw [store_cons, ih, List.length_set]

/-- Nothing behind the data changes. -/
theorem drop_store (h : pos + data.length ≤ j) : (store mem pos data).drop j = mem.drop j := by
  induction data generalizing mem pos with
  | nil => rfl
  | cons c data ih =>
    rw [List.length_cons] at h
    rw [store_cons, ih (by omega), List.drop_set_of_lt (by omega)]

theorem set_prefix (h : s <+: mem) (hlen : s.length < mem.length) (c : α) :
    s ++ [c] <+: mem.set s.length c := by
  obtain ⟨t, rfl⟩ := h
  cases t with
  | nil => simp at hlen
  | cons b t => exact ⟨t, by simp⟩

/-- Data stored behind a prefix extends it. -/
theorem prefix_store (h : s <+: mem) (hlen : s.length + data.length ≤ mem.length) :
    s ++ data <+: store mem s.length data := by
  induction data generalizing mem s with
  | nil => simpa using h
  | cons c data ih =>
    rw [List.length_cons] at hlen
    have hset := set_prefix h (by omega) c
    have hnext := ih hset (by simp; omega)
    simpa using hnext

/-- The buffer starts with `s`, the pointer is behind it, and what follows the byte at
the pointer is as it was in `base`. -/
structure Wrote (base s : List α) (r : List α × ℕ) : Prop where
  pre : s <+: r.1
  pos : r.2 = s.length
  size : r.1.length = base.length
  rest : ∀ j, s.length < j → r.1.drop j = base.drop j

/-- Data and a terminator are stored at the pointer, which moves behind the data. -/
theorem Wrote.store {base : List α} {r : List α × ℕ} (h : Wrote base s r) (c : α)
    (hlen : s.length + data.length < base.length) :
    Wrote base (s ++ data) (store r.1 r.2 (data ++ [c]), r.2 + data.length) := by
  have hsize := h.size
  refine ⟨?_, by simp [h.pos], by simpa using hsize, fun j hj => ?_⟩
  · have hp : s ++ (data ++ [c]) <+: Store.store r.1 s.length (data ++ [c]) :=
      prefix_store h.pre (by simp; omega)
    rw [← List.append_assoc] at hp
    rw [h.pos]
    exact (List.prefix_append _ _).trans hp
  · rw [List.length_append] at hj
    rw [drop_store (by simp [h.pos]; omega)]
    exact h.rest j (by omega)

/-- Data stored over as much data. -/
theorem store_append {a b c : List α} (h : data.length = b.length) :
    store (a ++ b ++ c) a.length data = a ++ data ++ c := by
  induction data generalizing a b with
  | nil =>
    rw [List.length_eq_zero_iff.mp h.symm]
    rfl
  | cons d data ih =>
    cases b with
    | nil => cases h
    | cons e b =>
      have hset : (a ++ e :: b ++ c).set a.length d = a ++ [d] ++ b ++ c := by simp
      have hnext := ih (a := a ++ [d]) (b := b) (by simpa using h)
      rw [List.length_append, List.length_singleton] at hnext
      rw [store_cons, hset, hnext, List.append_assoc a, List.singleton_append]

/-- A buffer with a limit: `s`, up to the pointer, then bytes of any kind up to the limit,
then `tail`. -/
structure Filled (tail : List α) (last : ℕ) (s mem : List α) (p : ℕ) : Prop where
  split : ∃ mid, mem = s ++ mid ++ tail ∧ s.length + mid.length = last
  pos : p = s.length

namespace Filled
variable {tail t : List α} {last p : ℕ}

theorem le_last (h : Filled tail last s mem p) : p ≤ last := by
  obtain ⟨⟨mid, -, hlen⟩, rfl⟩ := h
  omega

/-- Data stored at the pointer. -/
theorem store (h : Filled tail last s mem p) (data : List α)
    (hlen : s.length + data.length ≤ last) :
    Filled tail last (s ++ data) (Store.store mem p data) (p + data.length) := by
  obtain ⟨⟨mid, rfl, hmid⟩, rfl⟩ := h
  refine ⟨⟨mid.drop data.length, ?_, by simp; omega⟩, by simp⟩
  have htake : data.length = (mid.take data.length).length := by simp; omega
  have hstore := store_append (a := s) (c := mid.drop data.length ++ tail) htake
  rw [List.append_assoc s, List.append_assoc, ← List.append_assoc (mid.take _),
    List.take_append_drop] at hstore
  simpa using hstore

/-- The pointer goes back. -/
theorem back (h : Filled tail last (s ++ t) mem p) : Filled tail last s mem s.length := by
  obtain ⟨⟨mid, rfl, hmid⟩, -⟩ := h
  refine ⟨⟨t ++ mid, by simp, ?_⟩, rfl⟩
  rw [List.length_append] at hmid
  rw [List.length_append]
  omega

/-- Data and a terminator, with the pointer on the terminator. -/
theorem storeEnd (h : Filled tail last s mem p) (data : List α) (c : α)
    (hlen : s.length + data.length < last) :
    Filled tail last (s ++ data) (Store.store mem p (data ++ [c])) (p + data.length) := by
  have hc : s.length + (data ++ [c]).length ≤ last := by simp; omega
  have hs := h.store _ hc
  rw [← List.append_assoc] at hs
  have hb := hs.back
  rwa [List.length_append, ← h.pos] at hb

/-- The limit moves behind the first element of the tail. -/
theorem widen {b : α} (h : Filled (b :: tail) last s mem p) :
    Filled tail (last + 1) s mem p := by
  obtain ⟨⟨mid, rfl, hmid⟩, rfl⟩ := h
  exact ⟨⟨mid ++ [b], by simp, by simp; omega⟩, rfl⟩

/-- Other data up to the limit, with what the buffer held behind it. -/
theorem replace (h : Filled tail last s mem p) (hlen : t.length ≤ last) :
    Filled tail last t (t ++ mem.drop t.length) t.length := by
  obtain ⟨⟨mid, rfl, hmid⟩, -⟩ := h
  rw [← List.length_append] at hmid
  refine ⟨⟨(s ++ mid).drop t.length, ?_, ?_⟩, rfl⟩
  · rw [List.drop_append_of_le_length (hmid ▸ hlen), List.append_assoc]
  · rw [List.length_drop]
    omega

end Filled

/-- A prefix and a suffix that meet are the whole buffer. -/
theorem eq_append_drop (h : s <+: mem) : mem = s ++ mem.drop s.length := by
  obtain ⟨t, rfl⟩ := h
  rw [List.drop_left]

end Lingx.Library.Store
