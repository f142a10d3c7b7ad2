import Mathlib.Data.List.Basic
import Mathlib.Data.List.Nodup
import Mathlib.Logic.Function.Basic
import Mathlib.Tactic.Common

/-! Intrusive circular lists. A heap gives every pointer a node with two links;
a segment is a doubly linked path between two pointers, and a ring is a segment
from a header back to itself that meets no pointer twice. Segments split and
join at their pointers and depend only on the links they run through, so an
operation on one ring leaves every ring disjoint from it alone. -/

namespace Lingx.Library

variable {P : Type*}

/-- The two links of an intrusive node. -/
@[ext] structure Links (P : Type*) where
  prev : P
  next : P
  deriving DecidableEq, Repr

/-- `b` follows `a` in both directions. -/
def Linked (heap : P → Links P) (a b : P) : Prop :=
  (heap a).next = b ∧ (heap b).prev = a

/-- A doubly linked path from `a` through `l` to `b`. -/
def Segment (heap : P → Links P) : P → List P → P → Prop
  | a, [], b => Linked heap a b
  | a, x :: l, b => Linked heap a x ∧ Segment heap x l b

/-- The ring with header `h` and elements `l`, in order. -/
def Ring (heap : P → Links P) (h : P) (l : List P) : Prop :=
  Segment heap h l h ∧ (h :: l).Nodup

section Segment
variable {heap heap' : P → Links P}

@[simp] theorem segment_nil (a b : P) : Segment heap a [] b ↔ Linked heap a b := Iff.rfl

@[simp] theorem segment_cons (a x b : P) (l : List P) :
    Segment heap a (x :: l) b ↔ Linked heap a x ∧ Segment heap x l b := Iff.rfl

theorem segment_append (a x b : P) (l m : List P) :
    Segment heap a (l ++ x :: m) b ↔ Segment heap a l x ∧ Segment heap x m b := by
  induction l generalizing a with
  | nil => simp
  | cons y l ih => simp [ih, and_assoc]

theorem segment_concat (a x b : P) (l : List P) :
    Segment heap a (l ++ [x]) b ↔ Segment heap a l x ∧ Linked heap x b := by
  rw [segment_append, segment_nil]

/-- A segment reads the `next` link of its start and of its pointers, and the
`prev` link of its pointers and of its end. -/
theorem Segment.congr {a b : P} {l : List P} (hs : Segment heap a l b)
    (hn : ∀ x ∈ a :: l, (heap' x).next = (heap x).next)
    (hp : ∀ x ∈ b :: l, (heap' x).prev = (heap x).prev) : Segment heap' a l b := by
  induction l generalizing a with
  | nil =>
    exact ⟨(hn a (by simp)).trans hs.1, (hp b (by simp)).trans hs.2⟩
  | cons x l ih =>
    obtain ⟨hax, hxb⟩ := hs
    refine ⟨⟨(hn a (by simp)).trans hax.1, (hp x (by simp)).trans hax.2⟩, ?_⟩
    refine ih hxb (fun y hy => hn y (List.mem_cons_of_mem _ hy)) (fun y hy => hp y ?_)
    rcases List.mem_cons.mp hy with rfl | hy <;> simp [*]

/-- The pointer before the end of a segment. -/
theorem Segment.prev_end {a b : P} {l : List P} (hs : Segment heap a l b) :
    (heap b).prev = (a :: l).getLast (by simp) := by
  rcases List.eq_nil_or_concat l with rfl | ⟨m, x, rfl⟩
  · exact hs.2
  · rw [List.concat_eq_append, segment_concat] at hs
    simpa using hs.2.2

/-- The pointer after the start of a segment. -/
theorem Segment.next_start {a b : P} {l : List P} (hs : Segment heap a l b) :
    (heap a).next = l.headD b := by
  cases l with
  | nil => exact hs.1
  | cons x l => exact hs.1.1

end Segment

section Ring
variable {heap heap' : P → Links P} {h : P} {l : List P}

/-- A ring depends on the links of its own pointers only. -/
theorem Ring.congr (hr : Ring heap h l) (he : ∀ x ∈ h :: l, heap' x = heap x) :
    Ring heap' h l :=
  ⟨hr.1.congr (fun x hx => by rw [he x hx]) (fun x hx => by rw [he x hx]), hr.2⟩

/-- The header points back at itself exactly when the ring has no element. -/
theorem Ring.prev_eq_self_iff (hr : Ring heap h l) : (heap h).prev = h ↔ l = [] := by
  rw [hr.1.prev_end]
  rcases List.eq_nil_or_concat l with rfl | ⟨m, x, rfl⟩
  · simp
  · have hx : h ≠ x := fun e => (List.nodup_cons.mp hr.2).1 (by simp [e])
    simp [List.getLast_cons, Ne.symm hx]

/-- The elements of a ring follow one another. -/
theorem Ring.next_getElem {i : ℕ} (hr : Ring heap h l) (hi : i + 1 < l.length) :
    (heap l[i]).next = l[i + 1] := by
  have hsplit : l = l.take i ++ l[i] :: l.drop (i + 1) := by
    rw [← List.drop_eq_getElem_cons, List.take_append_drop]
  have hs := hr.1
  rw [hsplit, segment_append] at hs
  rw [hs.2.next_start, List.drop_eq_getElem_cons hi, List.headD_cons]

/-- The header points back at the last element, and no other is there. -/
theorem Ring.getElem_eq_prev_iff {i : ℕ} (hr : Ring heap h l) (hi : i < l.length) :
    l[i] = (heap h).prev ↔ i + 1 = l.length := by
  have hne : l ≠ [] := List.ne_nil_of_length_pos (by omega)
  have hlast : (heap h).prev = l[l.length - 1] := by
    rw [hr.1.prev_end, List.getLast_cons hne, List.getLast_eq_getElem]
  rw [hlast, (List.nodup_cons.mp hr.2).2.getElem_inj_iff]
  omega

theorem Ring.next_eq_head {x : P} (hr : Ring heap h (x :: l)) : (heap h).next = x := hr.1.1.1

end Ring

section Update
variable [DecidableEq P]

/-- Put `x` between `a` and `b`. -/
def link (heap : P → Links P) (a x b : P) : P → Links P := fun y =>
  ⟨if y = x then a else if y = b then x else (heap y).prev,
    if y = x then b else if y = a then x else (heap y).next⟩

/-- Join the neighbours of `x`; the links of `x` itself stay. -/
def unlink (heap : P → Links P) (x : P) : P → Links P := fun y =>
  ⟨if y = (heap x).next then (heap x).prev else (heap y).prev,
    if y = (heap x).prev then (heap x).next else (heap y).next⟩

variable {heap : P → Links P} {h x : P} {l m : List P}

theorem link_of_ne {a b y : P} (hx : y ≠ x) (ha : y ≠ a) (hb : y ≠ b) :
    link heap a x b y = heap y := by
  simp [link, hx, ha, hb]

theorem unlink_of_ne {y : P} (hp : y ≠ (heap x).prev) (hn : y ≠ (heap x).next) :
    unlink heap x y = heap y := by
  simp [unlink, hp, hn]

/-- A segment whose pointers keep clear of the edge survives the insertion. -/
theorem Segment.link {a b c d : P} (hs : Segment heap c l d) (hx : x ∉ c :: d :: l)
    (ha : a ∉ c :: l) (hb : b ∉ d :: l) : Segment (link heap a x b) c l d := by
  refine hs.congr (fun y hy => ?_) (fun y hy => ?_)
  · have hyx : y ≠ x := by grind
    have hya : y ≠ a := by grind
    simp [Library.link, hyx, hya]
  · have hyx : y ≠ x := by grind
    have hyb : y ≠ b := by grind
    simp [Library.link, hyx, hyb]

theorem linked_link_left (heap : P → Links P) (a b : P) (hx : x ≠ a) :
    Linked (link heap a x b) a x := by
  simp [Linked, link, Ne.symm hx]

theorem linked_link_right (a b : P) (hx : x ≠ b) : Linked (link heap a x b) x b := by
  simp [Linked, link, Ne.symm hx]

/-- Linking a fresh pointer at any edge of a ring inserts it there. -/
theorem Ring.link (hr : Ring heap h (l ++ m)) (hx : x ∉ h :: (l ++ m)) :
    Ring (link heap ((h :: l).getLast (by simp)) x (m.headD h)) h (l ++ x :: m) := by
  obtain ⟨hs, hd⟩ := hr
  constructor
  · rw [segment_append]
    have hxl : x ≠ (h :: l).getLast (by simp) := fun e => hx (by
      have := List.getLast_mem (l := h :: l) (by simp); rw [← e] at this; grind)
    have hxm : x ≠ m.headD h := by cases m <;> grind
    constructor
    · rcases List.eq_nil_or_concat l with rfl | ⟨l, u, rfl⟩
      · exact linked_link_left _ _ _ hxl
      · simp only [List.concat_eq_append, List.append_assoc, List.singleton_append, segment_append,
          segment_nil] at hs ⊢
        refine ⟨hs.1.link (by grind) (by grind) (by cases m <;> grind), ?_⟩
        simpa using linked_link_left heap u (m.headD h) (by simpa using hxl)
    · cases m with
      | nil => exact linked_link_right _ _ hxm
      | cons v m =>
        rw [segment_append] at hs
        refine ⟨linked_link_right _ _ hxm, hs.2.link (by grind) ?_ (by grind)⟩
        have := List.getLast_mem (l := h :: l) (by simp); grind
  · grind

/-- A segment whose pointers keep clear of the joined edge survives the removal. -/
theorem Segment.unlink {c d : P} (hs : Segment heap c l d) (hp : (heap x).prev ∉ c :: l)
    (hn : (heap x).next ∉ d :: l) : Segment (unlink heap x) c l d := by
  refine hs.congr (fun y hy => ?_) (fun y hy => ?_)
  · have : y ≠ (heap x).prev := by grind
    simp [Library.unlink, this]
  · have : y ≠ (heap x).next := by grind
    simp [Library.unlink, this]

theorem linked_unlink (heap : P → Links P) (x : P) :
    Linked (unlink heap x) (heap x).prev (heap x).next := by
  simp [Linked, unlink]

/-- Unlinking an element of a ring deletes exactly that element. -/
theorem Ring.unlink (hr : Ring heap h (l ++ x :: m)) : Ring (unlink heap x) h (l ++ m) := by
  obtain ⟨hs, hd⟩ := hr
  rw [segment_append] at hs
  have hp := hs.1.prev_end
  have hn := hs.2.next_start
  have he := linked_unlink heap x
  rw [hp, hn] at he
  constructor
  · rcases List.eq_nil_or_concat l with rfl | ⟨l, u, rfl⟩ <;> rcases m with _ | ⟨v, m⟩
    · exact he
    · exact ⟨he, hs.2.2.unlink (by rw [hp]; grind) (by rw [hn]; grind)⟩
    · simp only [List.concat_eq_append, segment_concat, List.append_nil] at hs he ⊢
      exact ⟨hs.1.1.unlink (by rw [hp]; grind) (by rw [hn]; grind), by simpa using he⟩
    · simp only [List.concat_eq_append, List.append_assoc, List.singleton_append, segment_append,
        segment_cons] at hs he ⊢
      exact ⟨hs.1.1.unlink (by rw [hp]; grind) (by rw [hn]; grind), by simpa using he,
        hs.2.2.unlink (by rw [hp]; grind) (by rw [hn]; grind)⟩
  · grind

end Update

end Lingx.Library
