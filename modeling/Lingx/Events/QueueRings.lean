import Lingx.Events.QueueSort
import Lingx.Library.Rings

/-! The queue macros on a heap with any number of queues. Each macro does to the lists of
its headers what its name says, keeps the rings in both directions, and changes no link of
another ring. `Queue_split` moves the end of a ring to a new header, and `Queue_add`
moves the elements of one header behind those of another. -/

namespace Lingx.Events

open Library

variable {P : Type*} [DecidableEq P]

def queueSplit (heap : P → Links P) (h q n : P) : P → Links P :=
  let heap := setPrev heap n (heap h).prev
  let heap := setNext heap (heap n).prev n
  let heap := setNext heap n q
  let heap := setPrev heap h (heap q).prev
  let heap := setNext heap (heap h).prev h
  setPrev heap q n

def queueAdd (heap : P → Links P) (h n : P) : P → Links P :=
  let heap := setNext heap (heap h).prev (heap n).next
  let heap := setPrev heap (heap n).next (heap h).prev
  let heap := setPrev heap h (heap n).prev
  setNext heap (heap h).prev h

variable {heap : P → Links P} {h n q x y : P} {l m : List P}

section Split

/-- The links that `Queue_split` leaves, with the node before the element and the last one. -/
theorem queueSplit_links {p t : P} (hp : (heap q).prev = p) (ht : (heap h).prev = t)
    (hnq : n ≠ q) (y : P) : queueSplit heap h q n y =
      ⟨if y = q then n else if y = h then p else if y = n then t else (heap y).prev,
        if y = p then h else if y = n then q else if y = t then n else (heap y).next⟩ := by
  rw [Links.ext_iff]
  simp [queueSplit, hp, ht, Ne.symm hnq]

omit [DecidableEq P] in
theorem prev_of_split (hr : Ring heap h (l ++ q :: m)) :
    (heap q).prev = (h :: l).getLast (by simp) ∧ (heap h).prev = (q :: m).getLast (by simp) := by
  have hs := (segment_append _ _ _ _ _).mp hr.1
  exact ⟨hs.1.prev_end, hs.2.prev_end⟩

/-- The header keeps the elements before the one that is named; that one and those behind
it go to the new header. -/
theorem ring_queueSplit (hr : Ring heap h (l ++ q :: m)) (hn : n ∉ h :: (l ++ q :: m)) :
    Ring (queueSplit heap h q n) h l ∧ Ring (queueSplit heap h q n) n (q :: m) := by
  obtain ⟨hp, ht⟩ := prev_of_split hr
  obtain ⟨hleft, hright⟩ := (segment_append _ _ _ _ _).mp hr.1
  have hnodup : (h :: l).Nodup ∧ (q :: m).Nodup ∧ (h :: l).Disjoint (q :: m) :=
    List.nodup_append'.mp hr.2
  obtain ⟨hl, hm, hdisjoint⟩ := hnodup
  have hnl : n ∉ h :: l := fun hmem => hn (by grind)
  have hnm : n ∉ q :: m := fun hmem => hn (by grind)
  obtain ⟨p, hpe⟩ : ∃ p, p = (h :: l).getLast (by simp) := ⟨_, rfl⟩
  obtain ⟨t, hte⟩ : ∃ t, t = (q :: m).getLast (by simp) := ⟨_, rfl⟩
  have hpl : p ∈ h :: l := hpe ▸ List.getLast_mem _
  have htm : t ∈ q :: m := hte ▸ List.getLast_mem _
  have hlinks := queueSplit_links (hp.trans hpe.symm) (ht.trans hte.symm)
    (List.ne_of_not_mem_cons hnm)
  have hx {x : P} (hx : x ∈ h :: l) : x ≠ n ∧ x ≠ q ∧ x ≠ t :=
    ⟨ne_of_mem_of_not_mem hx hnl, fun e => hdisjoint hx (e ▸ List.mem_cons_self),
      fun e => hdisjoint hx (e ▸ htm)⟩
  have hy {x : P} (hx : x ∈ q :: m) : x ≠ n ∧ x ≠ h ∧ x ≠ p :=
    ⟨ne_of_mem_of_not_mem hx hnm, fun e => hdisjoint (e ▸ List.mem_cons_self) hx,
      fun e => hdisjoint (e ▸ hpl) hx⟩
  refine ⟨⟨hleft.retarget hl ?_ ?_ ?_, hl⟩, ⟨⟨?_, hright.retarget hm ?_ ?_ ?_⟩, ?_⟩⟩
  · intro x hmem hne
    rw [← hpe] at hne
    simp [hlinks, hne, hx hmem]
  · intro x hmem
    have hxh : x ≠ h := fun e => (List.nodup_cons.mp hl).1 (e ▸ hmem)
    simp [hlinks, hxh, hx (List.mem_cons_of_mem h hmem)]
  · rw [← hpe]
    simp [Linked, hlinks, hx List.mem_cons_self]
  · have hnp : n ≠ p := (hx hpl).1.symm
    simp [Linked, hlinks, hnp]
  · intro x hmem hne
    rw [← hte] at hne
    simp [hlinks, hne, hy hmem]
  · intro x hmem
    have hxq : x ≠ q := fun e => (List.nodup_cons.mp hm).1 (e ▸ hmem)
    simp [hlinks, hxq, hy (List.mem_cons_of_mem q hmem)]
  · rw [← hte]
    simp [Linked, hlinks, hy htm, (hx List.mem_cons_self).1.symm, List.ne_of_not_mem_cons hnm]
  · exact List.nodup_cons.mpr ⟨hnm, hm⟩

/-- A split changes no link outside the ring and the new header. -/
theorem queueSplit_of_notMem (hr : Ring heap h (l ++ q :: m)) (hn : n ∉ h :: (l ++ q :: m))
    (hy : y ∉ h :: (l ++ q :: m)) (hyn : y ≠ n) : queueSplit heap h q n y = heap y := by
  obtain ⟨hp, ht⟩ := prev_of_split hr
  have hnq : n ≠ q := fun e => hn (by simp [e])
  have hne {x : P} (hx : x ∈ h :: (l ++ q :: m)) : y ≠ x := fun e => hy (e ▸ hx)
  have hpmem : (h :: l).getLast (by simp) ∈ h :: (l ++ q :: m) :=
    List.mem_append_left (q :: m) (List.getLast_mem (l := h :: l) _)
  have htmem : (q :: m).getLast (by simp) ∈ h :: (l ++ q :: m) :=
    List.mem_append_right (h :: l) (List.getLast_mem (l := q :: m) _)
  rw [queueSplit_links hp ht hnq, if_neg (hne (by simp)), if_neg (hne (by simp)), if_neg hyn,
    if_neg (hne hpmem), if_neg hyn, if_neg (hne htmem)]

end Split

section Add

/-- The links that `Queue_add` leaves where the second queue has elements, with the last
node of the first and the first and last ones of the second. -/
theorem queueAdd_links {t a z : P} (ht : (heap h).prev = t) (ha : (heap n).next = a)
    (hz : (heap n).prev = z) (hnt : n ≠ t) (hna : n ≠ a) (y : P) : queueAdd heap h n y =
      ⟨if y = h then z else if y = a then t else (heap y).prev,
        if y = z then h else if y = t then a else (heap y).next⟩ := by
  rw [Links.ext_iff]
  simp [queueAdd, ht, ha, hz, hnt, hna]

/-- Where the second queue is empty, only its own header is changed. -/
theorem queueAdd_empty {t : P} (ht : (heap h).prev = t) (htn : (heap t).next = h)
    (hn : heap n = ⟨n, n⟩) (hnt : n ≠ t) (hy : y ≠ n) : queueAdd heap h n y = heap y := by
  have hlinks : queueAdd heap h n y =
      ⟨if y = h then t else (heap y).prev, if y = t then h else (heap y).next⟩ := by
    rw [Links.ext_iff]
    constructor
    · simp [queueAdd, ht, hn, hnt, hy]
    · by_cases hyt : y = t <;> simp [queueAdd, ht, hn, hnt, hyt]
  have hprev : (if y = h then t else (heap y).prev) = (heap y).prev := by
    split_ifs with hyh
    · rw [hyh, ht]
    · rfl
  have hnext : (if y = t then h else (heap y).next) = (heap y).next := by
    split_ifs with hyt
    · rw [hyt, htn]
    · rfl
  rw [hlinks, hprev, hnext]

omit [DecidableEq P] in
theorem next_last (hr : Ring heap h l) : (heap ((h :: l).getLast (by simp))).next = h := by
  have hr' : Ring heap h (l ++ []) := by rwa [List.append_nil]
  exact next_getLast hr'

/-- The elements of the second queue come behind those of the first. -/
theorem ring_queueAdd (hr : Ring heap h l) (hr' : Ring heap n m)
    (hd : (h :: l).Disjoint (n :: m)) : Ring (queueAdd heap h n) h (l ++ m) := by
  have ht : (heap h).prev = (h :: l).getLast (by simp) := hr.1.prev_end
  obtain ⟨t, hte⟩ : ∃ t, t = (h :: l).getLast (by simp) := ⟨_, rfl⟩
  have htl : t ∈ h :: l := hte ▸ List.getLast_mem _
  have hnt : n ≠ t := fun e => hd htl (e ▸ List.mem_cons_self)
  rw [← hte] at ht
  have hx {x : P} (hx : x ∈ h :: l) : x ≠ n := fun e => hd hx (e ▸ List.mem_cons_self)
  cases m with
  | nil =>
    have htn : (heap t).next = h := hte ▸ next_last hr
    have hempty : heap n = ⟨n, n⟩ := Links.ext hr'.1.2 hr'.1.1
    rw [List.append_nil]
    exact hr.congr fun y hy => queueAdd_empty ht htn hempty hnt (hx hy)
  | cons a m =>
    obtain ⟨z, hze⟩ : ∃ z, z = (a :: m).getLast (by simp) := ⟨_, rfl⟩
    have hzm : z ∈ a :: m := hze ▸ List.getLast_mem _
    have hz : (heap n).prev = z := by
      rw [hr'.1.prev_end, hze, List.getLast_cons (by simp)]
    have ha : (heap n).next = a := hr'.1.1.1
    have hna : n ≠ a := List.ne_of_not_mem_cons (List.nodup_cons.mp hr'.2).1
    have hlinks := queueAdd_links ht ha hz hnt hna
    have hdisjoint : (h :: l).Disjoint (a :: m) :=
      List.disjoint_of_subset_right (List.subset_cons_self n _) hd
    have hx' {x : P} (hx : x ∈ h :: l) : x ≠ a ∧ x ≠ z :=
      ⟨fun e => hdisjoint hx (e ▸ List.mem_cons_self), fun e => hdisjoint hx (e ▸ hzm)⟩
    have hy {x : P} (hx : x ∈ a :: m) : x ≠ h ∧ x ≠ t :=
      ⟨fun e => hdisjoint (e ▸ List.mem_cons_self) hx, fun e => hdisjoint (e ▸ htl) hx⟩
    have hm : (a :: m).Nodup := (List.nodup_cons.mp hr'.2).2
    refine ⟨(segment_append _ _ _ _ _).mpr ⟨hr.1.retarget hr.2 ?_ ?_ ?_,
      hr'.1.2.retarget hm ?_ ?_ ?_⟩, ?_⟩
    · intro x hmem hne
      rw [← hte] at hne
      simp [hlinks, hne, hx' hmem]
    · intro x hmem
      have hxh : x ≠ h := fun e => (List.nodup_cons.mp hr.2).1 (e ▸ hmem)
      simp [hlinks, hxh, hx' (List.mem_cons_of_mem h hmem)]
    · rw [← hte]
      simp [Linked, hlinks, hx' htl, hy List.mem_cons_self]
    · intro x hmem hne
      rw [← hze] at hne
      simp [hlinks, hne, hy hmem]
    · intro x hmem
      have hxa : x ≠ a := fun e => (List.nodup_cons.mp hm).1 (e ▸ hmem)
      simp [hlinks, hxa, hy (List.mem_cons_of_mem a hmem)]
    · rw [← hze]
      simp [Linked, hlinks]
    · exact List.nodup_append'.mpr ⟨hr.2, hm, hdisjoint⟩

theorem queueAdd_of_notMem (hr : Ring heap h l) (hr' : Ring heap n m)
    (hd : (h :: l).Disjoint (n :: m)) (hy : y ∉ h :: l) (hyn : y ∉ n :: m) :
    queueAdd heap h n y = heap y := by
  have ht : (heap h).prev = (h :: l).getLast (by simp) := hr.1.prev_end
  have htl : (h :: l).getLast (by simp) ∈ h :: l := List.getLast_mem _
  have hnt : n ≠ (h :: l).getLast (by simp) := fun e =>
    hd htl (by rw [← e]; exact List.mem_cons_self)
  have hyt : y ≠ (h :: l).getLast (by simp) := ne_of_mem_of_not_mem htl hy |>.symm
  cases m with
  | nil => exact queueAdd_empty ht (next_last hr) (Links.ext hr'.1.2 hr'.1.1) hnt (by simpa using hyn)
  | cons a m =>
    have hz : (heap n).prev = (n :: a :: m).getLast (by simp) := hr'.1.prev_end
    have hna : n ≠ a := List.ne_of_not_mem_cons (List.nodup_cons.mp hr'.2).1
    have hyz : y ≠ (n :: a :: m).getLast (by simp) :=
      (ne_of_mem_of_not_mem (List.getLast_mem _) hyn).symm
    have hyh : y ≠ h := List.ne_of_not_mem_cons hy
    have hya : y ≠ a := fun e => hyn (by simp [e])
    rw [queueAdd_links ht hr'.1.1.1 hz hnt hna, if_neg hyh, if_neg hya, if_neg hyz, if_neg hyt]

end Add

section Rings
variable {Q : P → Option (List P)} {l₁ l₂ : List P}

omit [DecidableEq P] in
theorem notMem_of_unlinked (hl : Q h = some l) (hx : Unlinked Q x) : x ∉ h :: l := hx h l hl

theorem ring_queueInsertHead (hr : Ring heap h l) (hx : x ∉ h :: l) :
    Ring (queueInsertHead heap h x) h (x :: l) :=
  ring_queueInsertAfter (l := []) hr hx

/-- An insertion at the head changes no node outside the ring but its own. -/
theorem queueInsertHead_of_notMem (hr : Ring heap h l) (hx : x ∉ h :: l) (hy : y ∉ h :: l)
    (hyx : y ≠ x) : queueInsertHead heap h x y = heap y := by
  have hmem : (heap h).next ∈ h :: l := by
    rw [hr.1.next_start]
    cases l <;> simp
  rw [queueInsertHead_eq_link (List.ne_of_not_mem_cons hx) (ne_of_mem_of_not_mem hmem hx).symm]
  exact link_of_ne hyx (List.ne_of_not_mem_cons hy) (ne_of_mem_of_not_mem hmem hy).symm

theorem rings_queueInsertHead (hr : Rings heap Q) (hl : Q h = some l) (hx : Unlinked Q x) :
    Rings (queueInsertHead heap h x) (Function.update Q h (some (x :: l))) := by
  have hring := hr.ring h l hl
  have hxl := notMem_of_unlinked hl hx
  refine hr.replace hl (ring_queueInsertHead hring hxl) (fun y hy hlinked => ?_) fun y hy => ?_
  · exact queueInsertHead_of_notMem hring hxl hy fun e => hlinked (e ▸ hx)
  · rcases List.mem_cons.mp hy with rfl | hy
    · exact .inr hx
    · exact .inl hy

theorem rings_queueInsertTail (hr : Rings heap Q) (hl : Q h = some l) (hx : Unlinked Q x) :
    Rings (queueInsertTail heap h x) (Function.update Q h (some (l ++ [x]))) := by
  have hring := hr.ring h l hl
  have hxl := notMem_of_unlinked hl hx
  refine hr.replace hl (ring_queueInsertTail hring hxl) (fun y hy hlinked => ?_) fun y hy => ?_
  · exact queueInsertTail_of_notMem hring hxl hy fun e => hlinked (e ▸ hx)
  · rcases List.mem_append.mp hy with hy | hy
    · exact .inl hy
    · exact .inr (List.mem_singleton.mp hy ▸ hx)

theorem rings_queueRemove (hr : Rings heap Q) (hl : Q h = some (l₁ ++ x :: l₂)) :
    Rings (queueRemove heap x) (Function.update Q h (some (l₁ ++ l₂))) := by
  have hring := hr.ring h _ hl
  refine hr.replace hl (ring_queueRemove hring) (fun y hy _ => queueRemove_of_notMem hring hy) ?_
  intro y hy
  rcases List.mem_append.mp hy with hy | hy <;> simp [hy]

theorem rings_queueSplit (hr : Rings heap Q) (hl : Q h = some (l₁ ++ q :: l₂))
    (hn : Unlinked Q n) : Rings (queueSplit heap h q n)
      (Function.update (Function.update Q h (some l₁)) n (some (q :: l₂))) := by
  have hring := hr.ring h _ hl
  have hnl := notMem_of_unlinked hl hn
  obtain ⟨hleft, hright⟩ := ring_queueSplit hring hnl
  have hrest : Rings (queueSplit heap h q n) (Function.update Q h (some l₁)) := by
    refine hr.replace hl hleft (fun y hy hlinked => ?_) fun y hy => .inl (by simp [hy])
    exact queueSplit_of_notMem hring hnl hy fun e => hlinked (e ▸ hn)
  refine hrest.insert hright fun y hy => ?_
  rcases List.mem_cons.mp hy with rfl | hy
  · refine (hn.erase h).update fun hmem => hnl ?_
    have hleft : y ∈ (h :: l₁) ++ q :: l₂ := List.mem_append_left _ hmem
    exact hleft
  · refine (hr.unlinked_erase hl (List.mem_cons_of_mem h (by simp [hy]))).update fun hmem => ?_
    have hdisjoint : (h :: l₁).Disjoint (q :: l₂) := List.disjoint_of_nodup_append hring.2
    exact hdisjoint hmem hy

theorem rings_queueAdd (hr : Rings heap Q) (hl : Q h = some l) (hm : Q n = some m)
    (hnh : n ≠ h) : Rings (queueAdd heap h n)
      (Function.update (Function.update Q n none) h (some (l ++ m))) := by
  have hring := hr.ring h l hl
  have hring' := hr.ring n m hm
  have hd := hr.disjoint h n l m hl hm hnh.symm
  have hl' : Function.update Q n none h = some l := by rwa [Function.update_of_ne hnh.symm]
  refine (hr.erase n).replace hl' (ring_queueAdd hring hring' hd) (fun y hy hlinked => ?_) ?_
  · exact queueAdd_of_notMem hring hring' hd hy fun hmem =>
      hlinked (hr.unlinked_erase hm hmem)
  · intro y hy
    rcases List.mem_append.mp hy with hy | hy
    · exact .inl hy
    · exact .inr (hr.unlinked_erase hm (List.mem_cons_of_mem n hy))

theorem rings_queueAdd_queueSplit (hr : Rings heap Q) (hl : Q h = some (l₁ ++ q :: l₂))
    (hn : Unlinked Q n) : Rings (queueAdd (queueSplit heap h q n) h n) Q := by
  have hnh : n ≠ h := List.ne_of_not_mem_cons (notMem_of_unlinked hl hn)
  have hsplit := rings_queueSplit hr hl hn
  have hadd := rings_queueAdd hsplit (by rw [Function.update_of_ne hnh.symm, Function.update_self])
    (Function.update_self ..) hnh
  have hsame : Function.update (Function.update (Function.update (Function.update Q h (some l₁)) n
      (some (q :: l₂))) n none) h (some (l₁ ++ q :: l₂)) = Q := by
    rw [Function.update_idem, Function.update_comm hnh.symm, Function.update_idem, ← hl,
      ← hn.eq_none]
    simp
  rwa [hsame] at hadd

/-- The queue macros are operations on lists. On any number of disjoint rings, an insertion
of an unlinked node puts it first or last into the list of the header, a removal deletes
its node, a split leaves the elements before its node with the header and gives the others
to the new one, and `Queue_add` moves a list behind another. The rings are well formed
again, and the nodes of all other rings keep their links. -/
theorem queueMacros_rings (heap : P → Links P) (Q : P → Option (List P)) (h : P) (l : List P)
    (hr : Rings heap Q) (hl : Q h = some l) :
    (∀ x, Unlinked Q x →
      Rings (queueInsertHead heap h x) (Function.update Q h (some (x :: l))) ∧
      ∀ y, y ∉ h :: l → y ≠ x → queueInsertHead heap h x y = heap y) ∧
    (∀ x, Unlinked Q x →
      Rings (queueInsertTail heap h x) (Function.update Q h (some (l ++ [x]))) ∧
      ∀ y, y ∉ h :: l → y ≠ x → queueInsertTail heap h x y = heap y) ∧
    (∀ l₁ x l₂, l = l₁ ++ x :: l₂ →
      Rings (queueRemove heap x) (Function.update Q h (some (l₁ ++ l₂))) ∧
      ∀ y, y ∉ h :: l → queueRemove heap x y = heap y) ∧
    (∀ l₁ q l₂ n, l = l₁ ++ q :: l₂ → Unlinked Q n →
      Rings (queueSplit heap h q n)
        (Function.update (Function.update Q h (some l₁)) n (some (q :: l₂))) ∧
      (∀ y, y ∉ h :: l → y ≠ n → queueSplit heap h q n y = heap y) ∧
      Rings (queueAdd (queueSplit heap h q n) h n) Q) ∧
    ∀ n m, n ≠ h → Q n = some m →
      Rings (queueAdd heap h n)
        (Function.update (Function.update Q n none) h (some (l ++ m))) ∧
      ∀ y, y ∉ h :: l → y ∉ n :: m → queueAdd heap h n y = heap y := by
  have hring := hr.ring h l hl
  refine ⟨fun x hx => ⟨rings_queueInsertHead hr hl hx, fun y hy hyx => ?_⟩,
    fun x hx => ⟨rings_queueInsertTail hr hl hx, fun y hy hyx => ?_⟩,
    fun l₁ x l₂ he => ?_, fun l₁ q l₂ n he hn => ?_,
    fun n m hnh hm => ⟨rings_queueAdd hr hl hm hnh, fun y hy hyn => ?_⟩⟩
  · exact queueInsertHead_of_notMem hring (notMem_of_unlinked hl hx) hy hyx
  · exact queueInsertTail_of_notMem hring (notMem_of_unlinked hl hx) hy hyx
  · subst he
    exact ⟨rings_queueRemove hr hl, fun y hy => queueRemove_of_notMem hring hy⟩
  · subst he
    exact ⟨rings_queueSplit hr hl hn,
      fun y hy hyn => queueSplit_of_notMem hring (notMem_of_unlinked hl hn) hy hyn,
      rings_queueAdd_queueSplit hr hl hn⟩
  · exact queueAdd_of_notMem hring (hr.ring n m hm) (hr.disjoint h n l m hl hm hnh.symm) hy hyn

/-- A queue of two elements, split at the second and put together again. -/
theorem queueMacros_rings_two :
    ∃ (heap : Fin 4 → Links (Fin 4)) (Q : Fin 4 → Option (List (Fin 4))),
    Q 0 = some [1, 2] ∧ Q 3 = none ∧
    Rings (queueSplit heap 0 2 3) (Function.update (Function.update Q 0 (some [1])) 3 (some [2])) ∧
    Rings (queueAdd (queueSplit heap 0 2 3) 0 3) Q := by
  let links : List (Links (Fin 4)) := [⟨2, 1⟩, ⟨0, 2⟩, ⟨1, 0⟩]
  obtain ⟨heap, hheap⟩ : ∃ heap : Fin 4 → Links (Fin 4),
      heap = fun p => links.getD p.val ⟨p, p⟩ := ⟨_, rfl⟩
  have hring : Ring heap 0 [1, 2] := by
    subst hheap
    exact ⟨⟨⟨by decide, by decide⟩, ⟨by decide, by decide⟩, by decide, by decide⟩, by decide⟩
  have hnone : Rings heap fun _ => none := ⟨nofun, nofun⟩
  have hr := hnone.insert hring fun _ _ => nofun
  have hfree : Unlinked (Function.update (fun _ => none) (0 : Fin 4) (some [1, 2])) 3 := by
    refine Unlinked.update (fun h l hl => ?_) (by decide)
    simp at hl
  obtain ⟨-, -, -, hsplit, -⟩ := queueMacros_rings heap _ 0 [1, 2] hr (Function.update_self ..)
  obtain ⟨hrings, -, hagain⟩ := hsplit [1] 2 [] 3 rfl hfree
  exact ⟨heap, _, rfl, rfl, hrings, hagain⟩

end Rings

end Lingx.Events
