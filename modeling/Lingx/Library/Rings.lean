import Lingx.Library.Ring

/-! Families of disjoint rings in one heap, as a map from headers to lists of elements. A
ring may be taken out of a family, put into it, and it stays where the heap is changed
elsewhere. A segment may be led to another end. -/

namespace Lingx.Library

variable {P : Type*} {heap heap' : P → Links P}

/-- The last link of a segment is led to `c`. -/
theorem Segment.retarget {a b c : P} {l : List P} (hs : Segment heap a l b)
    (hd : (a :: l).Nodup)
    (hn : ∀ x ∈ a :: l, x ≠ (a :: l).getLast (by simp) → (heap' x).next = (heap x).next)
    (hp : ∀ x ∈ l, (heap' x).prev = (heap x).prev)
    (hend : Linked heap' ((a :: l).getLast (by simp)) c) : Segment heap' a l c := by
  rcases List.eq_nil_or_concat' l with rfl | ⟨m, x, rfl⟩
  · exact hend
  · have hlast : (a :: (m ++ [x])).getLast (by simp) = x := by simp
    have hdisjoint : (a :: m).Disjoint [x] := List.disjoint_of_nodup_append hd
    rw [hlast] at hend
    rw [segment_concat] at hs ⊢
    refine ⟨hs.1.congr (fun y hy => hn y ?_ ?_) fun y hy => hp y ?_, hend⟩
    · exact List.mem_append_left [x] hy
    · rw [hlast]
      rintro rfl
      exact hdisjoint hy (List.mem_singleton_self y)
    · rwa [List.mem_append, List.mem_singleton, or_comm, ← List.mem_cons]

/-- The rings with the elements of `Q` are in the heap, and no two meet. -/
structure Rings (heap : P → Links P) (Q : P → Option (List P)) : Prop where
  ring : ∀ h l, Q h = some l → Ring heap h l
  disjoint : ∀ h h' l l', Q h = some l → Q h' = some l' → h ≠ h' → (h :: l).Disjoint (h' :: l')

/-- A pointer that is in no ring. -/
def Unlinked (Q : P → Option (List P)) (x : P) : Prop := ∀ h l, Q h = some l → x ∉ h :: l

variable {Q Q' : P → Option (List P)} {h x : P} {l : List P}

theorem Unlinked.eq_none (hx : Unlinked Q x) : Q x = none :=
  Option.eq_none_iff_forall_not_mem.mpr fun l hl => hx x l hl List.mem_cons_self

/-- Rings depend on the links of their own pointers only. -/
theorem Rings.congr (hr : Rings heap Q) (he : ∀ h l, Q h = some l → ∀ x ∈ h :: l, heap' x = heap x) :
    Rings heap' Q :=
  ⟨fun h l hl => (hr.ring h l hl).congr (he h l hl), hr.disjoint⟩

/-- The headers of one list are all the same. -/
theorem Rings.eq_of_mem (hr : Rings heap Q) {h' : P} {l' : List P} (hl : Q h = some l)
    (hl' : Q h' = some l') (hx : x ∈ h :: l) (hx' : x ∈ h' :: l') : h = h' := by
  by_contra hne
  exact hr.disjoint h h' l l' hl hl' hne hx hx'

variable [DecidableEq P]

/-- A ring is taken out. -/
theorem Rings.erase (hr : Rings heap Q) (h : P) : Rings heap (Function.update Q h none) := by
  have hof {h' : P} {l' : List P} (hl' : Function.update Q h none h' = some l') :
      Q h' = some l' := by
    rcases eq_or_ne h' h with rfl | hne
    · simp at hl'
    · rwa [Function.update_of_ne hne] at hl'
  exact ⟨fun h' l' hl' => hr.ring h' l' (hof hl'),
    fun h₁ h₂ l₁ l₂ h1 h2 => hr.disjoint h₁ h₂ l₁ l₂ (hof h1) (hof h2)⟩

/-- A ring is put in, of pointers that are in no other. -/
theorem Rings.insert (hr : Rings heap Q) (hring : Ring heap h l)
    (hfree : ∀ x ∈ h :: l, Unlinked Q x) : Rings heap (Function.update Q h (some l)) := by
  have hcases {h' : P} {l' : List P} (hl' : Function.update Q h (some l) h' = some l') :
      h' = h ∧ l' = l ∨ h' ≠ h ∧ Q h' = some l' := by
    rcases eq_or_ne h' h with rfl | hne
    · simp only [Function.update_self, Option.some.injEq] at hl'
      exact .inl ⟨rfl, hl'.symm⟩
    · rw [Function.update_of_ne hne] at hl'
      exact .inr ⟨hne, hl'⟩
  constructor
  · intro h' l' hl'
    rcases hcases hl' with ⟨rfl, rfl⟩ | ⟨-, hl'⟩
    · exact hring
    · exact hr.ring h' l' hl'
  · intro h₁ h₂ l₁ l₂ hl₁ hl₂ hne
    rcases hcases hl₁ with ⟨rfl, rfl⟩ | ⟨-, hq₁⟩ <;> rcases hcases hl₂ with ⟨rfl, rfl⟩ | ⟨-, hq₂⟩
    · exact absurd rfl hne
    · exact fun x hx hx' => hfree x hx h₂ l₂ hq₂ hx'
    · exact fun x hx hx' => hfree x hx' h₁ l₁ hq₁ hx
    · exact hr.disjoint h₁ h₂ l₁ l₂ hq₁ hq₂ hne

/-- Without its ring the pointers of a ring are in none. -/
theorem Rings.unlinked_erase (hr : Rings heap Q) (hl : Q h = some l) (hx : x ∈ h :: l) :
    Unlinked (Function.update Q h none) x := by
  intro h' l' hl' hx'
  rcases eq_or_ne h' h with rfl | hne
  · simp at hl'
  · rw [Function.update_of_ne hne] at hl'
    exact hne (hr.eq_of_mem hl' hl hx' hx)

/-- A pointer that is in no other ring and not in the new one. -/
theorem Unlinked.update (hx : Unlinked (Function.update Q h none) x) (hnew : x ∉ h :: l) :
    Unlinked (Function.update Q h (some l)) x := by
  intro h' l' hl'
  rcases eq_or_ne h' h with rfl | hne
  · simp only [Function.update_self, Option.some.injEq] at hl'
    exact hl' ▸ hnew
  · rw [Function.update_of_ne hne] at hl'
    exact hx h' l' (by rwa [Function.update_of_ne hne])

theorem Unlinked.erase (hx : Unlinked Q x) (h : P) : Unlinked (Function.update Q h none) x := by
  intro h' l' hl'
  rcases eq_or_ne h' h with rfl | hne
  · simp at hl'
  · exact hx h' l' (by rwa [Function.update_of_ne hne] at hl')

/-- An operation on one ring, whose pointers are from the ring or from none, and which
leaves the other rings alone. -/
theorem Rings.replace {l' : List P} (hr : Rings heap Q) (hl : Q h = some l)
    (hring : Ring heap' h l') (hframe : ∀ y, y ∉ h :: l → ¬Unlinked Q y → heap' y = heap y)
    (hnew : ∀ y ∈ l', y ∈ l ∨ Unlinked Q y) : Rings heap' (Function.update Q h (some l')) := by
  have hothers : Rings heap' (Function.update Q h none) := by
    refine (hr.erase h).congr fun h₁ l₁ hl₁ y hy => hframe y ?_ ?_
    · exact fun hmem => hr.unlinked_erase hl hmem h₁ l₁ hl₁ hy
    · exact fun hfree => hfree.erase h h₁ l₁ hl₁ hy
  have hinsert := hothers.insert hring fun y hy => by
    rcases List.mem_cons.mp hy with rfl | hy
    · exact hr.unlinked_erase hl List.mem_cons_self
    · rcases hnew y hy with hmem | hfree
      · exact hr.unlinked_erase hl (List.mem_cons_of_mem h hmem)
      · exact hfree.erase h
  rwa [Function.update_idem] at hinsert

end Lingx.Library
