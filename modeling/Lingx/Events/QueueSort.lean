import Lingx.Events.Queue
import Lingx.Library.BackInsertion

/-! `Queue_sort`. The list is rearranged in place: each node in turn is unlinked and
linked again behind the last node in front of it that is not above it. The traversal
starts with the first node, whose predecessor is the sentinel, so the first comparison
reads the sentinel as if it were an element. -/

namespace Lingx.Events

open Library BackInsertion

variable {P : Type*} [DecidableEq P]

def queueInsertHead (heap : P → Links P) (h x : P) : P → Links P :=
  let heap := setNext heap x (heap h).next
  let heap := setPrev heap (heap x).next x
  let heap := setPrev heap x h
  setNext heap h x

def queueInsertAfter (heap : P → Links P) (h x : P) : P → Links P := queueInsertHead heap h x

def queueLast (heap : P → Links P) (h : P) : P := (heap h).prev

def queueNext (heap : P → Links P) (q : P) : P := (heap q).next

def queuePrev (heap : P → Links P) (q : P) : P := (heap q).prev

/-- The inner loop of `Queue_sort`, for at most `n` comparisons: the node to insert
after, and the arguments of the calls of `cmp`. -/
def queueSortPlace (cmp : P → P → ℤ) (heap : P → Links P) (queue q : P) :
    ℕ → P → Option (P × List (P × P))
  | 0, _ => none
  | n + 1, prev =>
    if cmp prev q ≤ 0 then some (prev, [(prev, q)])
    else
      let next := queuePrev heap prev
      if next = queue then some (next, [(prev, q)])
      else (queueSortPlace cmp heap queue q n next).map fun r => (r.1, (prev, q) :: r.2)

/-- The outer loop of `Queue_sort`, for at most `n` nodes. -/
def queueSortLoop (cmp : P → P → ℤ) (queue : P) (k : ℕ) :
    ℕ → (P → Links P) → P → Option ((P → Links P) × List (P × P))
  | 0, _, _ => none
  | n + 1, heap, q =>
    if q = queue then some (heap, [])
    else do
      let prev := queuePrev heap q
      let next := queueNext heap q
      let heap := queueRemove heap q
      let (prev, calls) ← queueSortPlace cmp heap queue q k prev
      let heap := queueInsertAfter heap prev q
      let (heap, calls') ← queueSortLoop cmp queue k n heap next
      some (heap, calls ++ calls')

/-- `Queue_sort` for at most `n` turns of each of its loops: the links it leaves and
the arguments of its calls of `cmp`, `none` if it has not returned. -/
def queueSort (cmp : P → P → ℤ) (n : ℕ) (heap : P → Links P) (queue : P) :
    Option ((P → Links P) × List (P × P)) :=
  if queueHead heap queue = queueLast heap queue then some (heap, [])
  else queueSortLoop cmp queue n n heap (queueNext heap queue)

/-- The order of a comparison function. -/
def CmpLe (cmp : P → P → ℤ) (a b : P) : Prop := cmp a b ≤ 0

instance (cmp : P → P → ℤ) : DecidableRel (CmpLe cmp) :=
  fun a b => inferInstanceAs (Decidable (cmp a b ≤ 0))

/-- `Queue_sort` returns, compares elements only, and sorts the queue stably. -/
def SortsQueue (cmp : P → P → ℤ) (heap : P → Links P) (queue : P) (l : List P) : Prop :=
  ∃ n heap' calls, queueSort cmp n heap queue = some (heap', calls) ∧
    (∀ x ∈ calls, x.1 ∈ l ∧ x.2 ∈ l) ∧
    ∃ l', Ring heap' queue l' ∧ StableSorted (CmpLe cmp) l l'

section Place
variable {cmp : P → P → ℤ} {heap : P → Links P} {h x q : P} {l m : List P}

/-- `Queue_insert_head` links the node between the given one and its successor. -/
theorem queueInsertHead_eq_link (hh : x ≠ h) (hx : x ≠ (heap h).next) :
    queueInsertHead heap h x = link heap h x (heap h).next := by
  funext y
  have hx' := Ne.symm hx
  simp only [queueInsertHead, link, Links.ext_iff, setPrev_prev, setPrev_next, setNext_next,
    setNext_prev]
  by_cases hy : y = x <;> by_cases hyh : y = h <;> simp_all

omit [DecidableEq P] in
theorem next_getLast (hr : Ring heap h (l ++ m)) :
    (heap ((h :: l).getLast (by simp))).next = m.headD h := by
  rcases List.eq_nil_or_concat l with rfl | ⟨l, u, rfl⟩
  · exact hr.1.next_start
  · have hs := hr.1
    simp only [List.concat_eq_append, List.append_assoc, List.singleton_append,
      segment_append] at hs
    simpa using hs.2.next_start

omit [DecidableEq P] in
theorem ne_header (hr : Ring heap h l) (hx : x ∈ l) : x ≠ h := by
  rintro rfl
  exact (List.nodup_cons.mp hr.2).1 hx

omit [DecidableEq P] in
theorem queueHead_eq_queueLast_iff (hr : Ring heap h l) :
    queueHead heap h = queueLast heap h ↔ l.length ≤ 1 := by
  have hlast : queueLast heap h = (h :: l).getLast (by simp) := hr.1.prev_end
  have hhead : queueHead heap h = l.headD h := hr.1.next_start
  rw [hhead, hlast]
  rcases l with _ | ⟨x, _ | ⟨y, m⟩⟩
  · simp
  · simp
  · refine iff_of_false (fun e => ?_) (by simp)
    rw [List.getLast_cons (by simp), List.getLast_cons (by simp)] at e
    have hmem := List.getLast_mem (l := y :: m) (by simp)
    rw [← e] at hmem
    exact (List.nodup_cons.mp (List.nodup_cons.mp hr.2).2).1 hmem

theorem ring_queueInsertAfter (hr : Ring heap h (l ++ m)) (hx : x ∉ h :: (l ++ m)) :
    Ring (queueInsertAfter heap ((h :: l).getLast (by simp)) x) h (l ++ x :: m) := by
  have hnext := next_getLast hr
  have hne : x ≠ (h :: l).getLast (by simp) := by
    intro e
    have hmem := List.getLast_mem (l := h :: l) (by simp)
    rw [← e] at hmem
    exact hx (List.mem_cons.mpr ((List.mem_cons.mp hmem).imp_right (List.mem_append_left m)))
  have hne' : x ≠ (heap ((h :: l).getLast (by simp))).next := by
    rw [hnext]
    rintro rfl
    cases m <;> simp_all
  rw [queueInsertAfter, queueInsertHead_eq_link hne hne', hnext]
  exact hr.link hx

variable (cmp q) in
/-- From the last node on the inner loop finds the place of the insertion, and
compares the nodes in front of the rest with the one to insert. -/
theorem queueSortPlace_spec (hr : Ring heap h (l ++ m)) (hne : l ≠ []) {n : ℕ}
    (hn : l.length ≤ n) : ∃ calls, queueSortPlace cmp heap h q n (l.getLast hne) =
      some ((h :: below (CmpLe cmp) q l).getLast (by simp), calls) ∧
      ∀ x ∈ calls, x.1 ∈ l ∧ x.2 = q := by
  induction l using List.reverseRecOn generalizing m n with
  | nil => exact absurd rfl hne
  | append_singleton l y ih =>
    obtain ⟨n, rfl⟩ : ∃ k, n = k + 1 := ⟨n - 1, by simp at hn; omega⟩
    simp only [List.getLast_append_singleton]
    by_cases hy : cmp y q ≤ 0
    · have hb : below (CmpLe cmp) q (l ++ [y]) = l ++ [y] :=
        List.rdropWhile_concat_neg _ _ _ (by simpa [CmpLe] using hy)
      refine ⟨[(y, q)], ?_, by simp⟩
      simp [queueSortPlace, hy, hb]
    · have hb : below (CmpLe cmp) q (l ++ [y]) = below (CmpLe cmp) q l :=
        List.rdropWhile_concat_pos _ _ _ (by simpa [CmpLe] using hy)
      have hr' : Ring heap h (l ++ y :: m) := by simpa using hr
      have hprev : queuePrev heap y = (h :: l).getLast (by simp) :=
        ((segment_append _ _ _ _ _).mp hr'.1).1.prev_end
      rcases eq_or_ne l [] with rfl | hl
      · have hnil : below (CmpLe cmp) q [y] = [] := hb.trans below_nil
        refine ⟨[(y, q)], ?_, by simp⟩
        simp [queueSortPlace, hy, hnil, hprev]
      · have hlast : l.getLast hl ≠ h := ne_header hr (by simp [List.getLast_mem hl])
        obtain ⟨calls, hc, hcalls⟩ := ih hr' hl (n := n) (by simpa using hn)
        refine ⟨(y, q) :: calls, ?_, ?_⟩
        · simp [queueSortPlace, hy, hb, hprev, List.getLast_cons hl, hlast, hc]
        · intro x hx
          rcases List.mem_cons.mp hx with rfl | hx
          · simp
          · exact ⟨by simp [(hcalls x hx).1], (hcalls x hx).2⟩

end Place

section Loop
variable {cmp : P → P → ℤ} {heap : P → Links P} {h x : P} {l m : List P}

variable (cmp) in
/-- Each turn of the outer loop inserts the first node of the rest into the sorted part. -/
theorem queueSortLoop_spec (hl : l ≠ []) (hr : Ring heap h (l ++ m)) {k n : ℕ}
    (hk : (l ++ m).length ≤ k) (hn : m.length < n) :
    ∃ heap' calls, queueSortLoop cmp h k n heap (m.headD h) = some (heap', calls) ∧
      Ring heap' h (insertAll (CmpLe cmp) l m) ∧ ∀ x ∈ calls, x.1 ∈ l ++ m ∧ x.2 ∈ l ++ m := by
  induction m generalizing l heap n with
  | nil =>
    obtain ⟨n, rfl⟩ : ∃ k, n = k + 1 := ⟨n - 1, by simp at hn; omega⟩
    exact ⟨heap, [], by simp [queueSortLoop], by simpa using hr, by simp⟩
  | cons x m ih =>
    obtain ⟨n, rfl⟩ : ∃ k, n = k + 1 := ⟨n - 1, by simp at hn; omega⟩
    have hxh : x ≠ h := ne_header hr (by simp)
    have hr₁ := ring_queueRemove hr
    have hprev : queuePrev heap x = l.getLast hl := by
      rw [queuePrev, ((segment_append _ _ _ _ _).mp hr.1).1.prev_end, List.getLast_cons hl]
    have hnext : queueNext heap x = m.headD h :=
      ((segment_append _ _ _ _ _).mp hr.1).2.next_start
    obtain ⟨calls, hplace, hcalls⟩ := queueSortPlace_spec cmp x hr₁ hl
      (n := k) (by simp at hk; omega)
    have hsplit : l ++ m = below (CmpLe cmp) x l ++ (above (CmpLe cmp) x l ++ m) := by
      rw [← List.append_assoc, below_append_above]
    have hx : x ∉ h :: (l ++ m) := by
      have hnd := hr.2
      grind
    have hr₂ := ring_queueInsertAfter (hsplit ▸ hr₁) (hsplit ▸ hx)
    have hins : below (CmpLe cmp) x l ++ x :: (above (CmpLe cmp) x l ++ m) =
        BackInsertion.insert (CmpLe cmp) x l ++ m := by
      simp [BackInsertion.insert]
    rw [hins] at hr₂
    have hlen := (insert_perm (CmpLe cmp) x l).length_eq
    obtain ⟨heap', calls', hloop, hring, hcalls'⟩ := ih (n := n)
      (List.ne_nil_of_mem (mem_insert.mpr (.inl rfl))) hr₂
      (by simp only [List.length_append, List.length_cons] at *; omega) (by simp at hn; omega)
    refine ⟨heap', calls ++ calls', ?_, by simpa using hring, fun y hy => ?_⟩
    · simp only [queueSortLoop, List.headD_cons, if_neg hxh, hprev, hnext, hplace,
        Option.bind_eq_bind, Option.bind_some, hloop]
    · have hmem : ∀ z, z ∈ BackInsertion.insert (CmpLe cmp) x l ++ m → z ∈ l ++ x :: m := by
        intro z hz
        rcases List.mem_append.mp hz with hz | hz
        · rcases mem_insert.mp hz with rfl | hz <;> simp [*]
        · simp [hz]
      rcases List.mem_append.mp hy with hy | hy
      · exact ⟨by simp [(hcalls y hy).1], by simp [(hcalls y hy).2]⟩
      · exact ⟨hmem _ (hcalls' y hy).1, hmem _ (hcalls' y hy).2⟩

/-- Where `cmp` says that the sentinel is not above the first node, the queue is sorted
stably, and no other comparison reads the sentinel. -/
theorem queueSort_of_sentinel_le (hr : Ring heap h (x :: l)) (hs : cmp h x ≤ 0)
    (ho : TotalPreorderOn (CmpLe cmp) (x :: l)) :
    ∃ n heap' calls, queueSort cmp n heap h = some (heap', calls) ∧
      (∀ y ∈ calls, y = (h, x) ∨ y.1 ∈ x :: l ∧ y.2 ∈ x :: l) ∧
      ∃ l', Ring heap' h l' ∧ StableSorted (CmpLe cmp) (x :: l) l' := by
  have hxh : x ≠ h := ne_header hr (by simp)
  have hhead : queueHead heap h = x := queueHead_eq hr
  by_cases hlast : queueHead heap h = queueLast heap h
  · have hnil : l = [] := by simpa using (queueHead_eq_queueLast_iff hr).mp hlast
    subst hnil
    exact ⟨0, heap, [], by simp [queueSort, hlast], by simp, [x], hr, insertAll_stable ho⟩
  -- the first node is unlinked and linked again where it was
  · have hr₁ : Ring (queueRemove heap x) h ([] ++ l) := ring_queueRemove (l := []) hr
    have hprev : queuePrev heap x = h := hr.1.1.2
    have hnext : queueNext heap x = l.headD h := hr.1.2.next_start
    have hr₂ : Ring (queueInsertAfter (queueRemove heap x) h x) h ([x] ++ l) :=
      ring_queueInsertAfter (l := []) hr₁ (by simpa using And.intro hxh (List.nodup_cons.mp
        (List.nodup_cons.mp hr.2).2).1)
    obtain ⟨heap', calls, hloop, hring, hcalls⟩ := queueSortLoop_spec cmp
      (k := l.length + 2) (n := l.length + 1) (List.cons_ne_nil x []) hr₂ (by simp) (by simp)
    have hplace : queueSortPlace cmp (queueRemove heap x) h x (l.length + 2) h =
        some (h, [(h, x)]) := by
      simp [queueSortPlace, hs]
    refine ⟨l.length + 2, heap', (h, x) :: calls, ?_, fun y hy => ?_, _, hring,
      insertAll_stable ho⟩
    · rw [queueSort, if_neg hlast, queueNext, ← queueHead, hhead, queueSortLoop, if_neg hxh]
      simp only [hprev, hnext, hplace, Option.bind_eq_bind, Option.bind_some, hloop,
        List.singleton_append]
    · rcases List.mem_cons.mp hy with rfl | hy
      · exact .inl rfl
      · exact .inr (hcalls y hy)

theorem mem_queueSortPlace {q prev p : P} {n : ℕ} {calls : List (P × P)}
    (hq : queueSortPlace cmp heap h q n prev = some (p, calls)) : (prev, q) ∈ calls := by
  cases n with
  | zero => cases hq
  | succ n =>
    simp only [queueSortPlace] at hq
    split_ifs at hq
    · cases hq
      simp
    · cases hq
      simp
    · obtain ⟨r, -, hr⟩ := Option.map_eq_some_iff.mp hq
      cases hr
      simp

theorem sentinel_mem_calls {y : P} {n : ℕ} {heap' : P → Links P} {calls : List (P × P)}
    (hr : Ring heap h (x :: y :: l)) (hq : queueSort cmp n heap h = some (heap', calls)) :
    (h, x) ∈ calls := by
  have hxh : x ≠ h := ne_header hr (by simp)
  have hhead : queueHead heap h = x := queueHead_eq hr
  have hlast : queueHead heap h ≠ queueLast heap h := fun e => by
    simpa using (queueHead_eq_queueLast_iff hr).mp e
  have hprev : queuePrev heap x = h := hr.1.1.2
  rw [queueSort, if_neg hlast, queueNext, ← queueHead, hhead] at hq
  cases n with
  | zero => cases hq
  | succ n =>
    simp only [queueSortLoop, if_neg hxh, hprev, Option.bind_eq_bind] at hq
    obtain ⟨⟨p, calls₁⟩, hplace, hq⟩ := Option.bind_eq_some_iff.mp hq
    obtain ⟨⟨heap₂, calls₂⟩, -, hq⟩ := Option.bind_eq_some_iff.mp hq
    cases hq
    exact List.mem_append_left _ (mem_queueSortPlace hplace)

/-- The queues that are sorted without a look at the sentinel are those of at most one
element. -/
theorem sortsQueue_iff (cmp : P → P → ℤ) (heap : P → Links P) (queue : P) (l : List P)
    (hr : Ring heap queue l) : SortsQueue cmp heap queue l ↔ l.length ≤ 1 := by
  constructor
  · rintro ⟨n, heap', calls, hq, hcalls, -⟩
    by_contra hlen
    obtain ⟨x, y, m, rfl⟩ : ∃ x y m, l = x :: y :: m := by
      rcases l with _ | ⟨x, _ | ⟨y, m⟩⟩
      · simp at hlen
      · simp at hlen
      · exact ⟨x, y, m, rfl⟩
    exact ne_header hr (hcalls _ (sentinel_mem_calls hr hq)).1 rfl
  · intro hlen
    have hlast := (queueHead_eq_queueLast_iff hr).mpr hlen
    refine ⟨0, heap, [], by simp [queueSort, hlast], by simp, l, hr, List.Perm.refl l, ?_, ?_⟩
    · rcases l with _ | ⟨x, _ | ⟨y, m⟩⟩
      · exact List.Pairwise.nil
      · exact List.pairwise_singleton _ _
      · simp at hlen
    · exact fun _ _ => rfl

/-- A queue of one element. -/
theorem sortsQueue_iff_single : SortsQueue (fun a b : Fin 2 => (a : ℤ) - b)
    (fun p => ⟨p + 1, p + 1⟩) 0 [1] ↔ [(1 : Fin 2)].length ≤ 1 :=
  sortsQueue_iff _ _ 0 [1] ⟨⟨⟨by decide, by decide⟩, by decide, by decide⟩, by decide⟩

/-- With two elements, in order, `cmp` is called of the sentinel. -/
theorem sortsQueue_fails : ¬ ∀ (cmp : Fin 3 → Fin 3 → ℤ) (heap : Fin 3 → Links (Fin 3))
    (queue : Fin 3) (l : List (Fin 3)), Ring heap queue l → TotalPreorderOn (CmpLe cmp) l →
    SortsQueue cmp heap queue l := by
  intro h
  have hr : Ring (fun p : Fin 3 => ⟨p - 1, p + 1⟩) 0 [1, 2] :=
    ⟨⟨⟨by decide, by decide⟩, ⟨by decide, by decide⟩, by decide, by decide⟩, by decide⟩
  obtain ⟨n, heap', calls, hq, hcalls, -⟩ := h (fun a b => (a : ℤ) - b) _ 0 [1, 2] hr
    ⟨by decide, by decide⟩
  have hmem := (hcalls _ (sentinel_mem_calls hr hq)).1
  revert hmem
  decide

end Loop

end Lingx.Events
