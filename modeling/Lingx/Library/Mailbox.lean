import Mathlib.Data.List.Nodup
import Mathlib.Data.List.Perm.Basic
import Mathlib.Logic.Function.Basic
import Mathlib.Order.Nat
import Mathlib.Tactic.Common

/-! Cancellable mailboxes. Entries wait in lanes, at most once each; an entry is
posted at the end of a lane, dropped from wherever it waits, or taken from the
front. The history, newest first, names every posting by its position, its
ticket. The accounting law equates, for every lane and in order, the tickets
taken and the tickets still waiting with the tickets posted and not dropped. -/

namespace Lingx.Library.Mailbox

variable {E Q N : Type*}

/-- What has happened; a note is an event of the caller's that moves no entry. -/
inductive Obs (E Q N : Type*) where
  | posted (e : E) (q : Q)
  | dropped (e : E)
  | taken (e : E) (q : Q)
  | note (n : N)
  deriving DecidableEq, Repr

/-- A history, newest first. -/
abbrev History (E Q N : Type*) := List (Obs E Q N)

section Tickets
variable [DecidableEq E] [DecidableEq Q]

/-- The position of the last posting of an entry. -/
def ticket (e : E) : History E Q N → ℕ
  | [] => 0
  | .posted e' _ :: h => if e' = e then h.length else ticket e h
  | _ :: h => ticket e h

/-- The tickets posted to a lane, oldest first. -/
def postings (q : Q) : History E Q N → List ℕ
  | [] => []
  | .posted _ q' :: h => if q' = q then postings q h ++ [h.length] else postings q h
  | _ :: h => postings q h

/-- The tickets taken from a lane, oldest first. -/
def takings (q : Q) : History E Q N → List ℕ
  | [] => []
  | .taken e q' :: h => if q' = q then takings q h ++ [ticket e h] else takings q h
  | _ :: h => takings q h

/-- The tickets dropped, oldest first. -/
def drops : History E Q N → List ℕ
  | [] => []
  | .dropped e :: h => drops h ++ [ticket e h]
  | _ :: h => drops h

omit [DecidableEq Q] in
theorem ticket_le (e : E) (h : History E Q N) : ticket e h ≤ h.length := by
  induction h with
  | nil => exact le_rfl
  | cons o h ih =>
    cases o <;> simp only [ticket, List.length_cons] <;> (try split_ifs) <;> omega

omit [DecidableEq E] in
theorem postings_lt (q : Q) (h : History E Q N) : ∀ t ∈ postings q h, t < h.length := by
  induction h with
  | nil => simp [postings]
  | cons o h ih =>
    intro t ht
    cases o with
    | posted e q' =>
      simp only [postings, List.length_cons] at ht ⊢
      split_ifs at ht
      · rcases List.mem_append.mp ht with ht | ht
        · have := ih t ht; omega
        · have := List.mem_singleton.mp ht; omega
      · have := ih t ht; omega
    | _ => exact (ih t ht).trans (by simp)

omit [DecidableEq E] in
/-- Postings are numbered in their order. -/
theorem postings_pairwise (q : Q) (h : History E Q N) : (postings q h).Pairwise (· < ·) := by
  induction h with
  | nil => exact .nil
  | cons o h ih =>
    cases o with
    | posted e q' =>
      simp only [postings]
      split_ifs
      · refine List.pairwise_append.mpr ⟨ih, List.pairwise_singleton _ _, ?_⟩
        intro t ht u hu
        rw [List.mem_singleton.mp hu]
        exact postings_lt q h t ht
      · exact ih
    | _ => exact ih

omit [DecidableEq E] in
theorem postings_nodup (q : Q) (h : History E Q N) : (postings q h).Nodup :=
  (postings_pairwise q h).imp (fun hlt => hlt.ne)

omit [DecidableEq E] in
/-- A posting goes to one lane. -/
theorem postings_disjoint {q q' : Q} (hq : q ≠ q') (h : History E Q N) :
    List.Disjoint (postings q h) (postings q' h) := by
  induction h with
  | nil => simp [postings]
  | cons o h ih =>
    cases o with
    | posted e r =>
      simp only [postings]
      split_ifs with h₁ h₂ h₂
      · exact absurd (h₁.symm.trans h₂) hq
      · rw [List.disjoint_append_left]
        refine ⟨ih, List.singleton_disjoint.mpr fun hm => ?_⟩
        exact lt_irrefl _ (postings_lt q' h _ hm)
      · rw [List.disjoint_append_right]
        refine ⟨ih, fun t ht hm => ?_⟩
        rw [List.mem_singleton.mp hm] at ht
        exact lt_irrefl _ (postings_lt q h _ ht)
      · exact ih
    | _ => exact ih

omit [DecidableEq Q] in
theorem drops_lt (h : History E Q N) : ∀ t ∈ drops h, t < h.length := by
  induction h with
  | nil => simp [drops]
  | cons o h ih =>
    intro t ht
    cases o with
    | dropped e =>
      simp only [drops, List.length_cons] at ht ⊢
      rcases List.mem_append.mp ht with ht | ht
      · have := ih t ht; omega
      · have := ticket_le e h; have := List.mem_singleton.mp ht; omega
    | _ => exact (ih t ht).trans (by simp)

/-- A longer history has taken what its beginning has. -/
theorem takings_prefix (q : Q) {h h' : History E Q N} (hs : h <:+ h') :
    takings q h <+: takings q h' := by
  obtain ⟨l, rfl⟩ := hs
  induction l with
  | nil => exact List.prefix_rfl
  | cons o l ih =>
    cases o with
    | taken e q' =>
      simp only [List.cons_append, takings]
      split_ifs
      · exact ih.trans (List.prefix_append _ _)
      · exact ih
    | _ => exact ih

omit [DecidableEq E] in
theorem postings_prefix (q : Q) {h h' : History E Q N} (hs : h <:+ h') :
    postings q h <+: postings q h' := by
  obtain ⟨l, rfl⟩ := hs
  induction l with
  | nil => exact List.prefix_rfl
  | cons o l ih =>
    cases o with
    | posted e q' =>
      simp only [List.cons_append, postings]
      split_ifs
      · exact ih.trans (List.prefix_append _ _)
      · exact ih
    | _ => exact ih

omit [DecidableEq Q] in
theorem drops_prefix {h h' : History E Q N} (hs : h <:+ h') : drops h <+: drops h' := by
  obtain ⟨l, rfl⟩ := hs
  induction l with
  | nil => exact List.prefix_rfl
  | cons o l ih =>
    cases o with
    | dropped e => exact ih.trans (List.prefix_append _ _)
    | _ => exact ih

end Tickets

/-- The lanes with their history. -/
structure Box (E Q N : Type*) where
  lane : Q → List E
  hist : History E Q N

section Good
variable [DecidableEq E] [DecidableEq Q]

/-- Every entry waits at most once, and the accounting law holds. -/
structure Good (b : Box E Q N) : Prop where
  nodup : ∀ q, (b.lane q).Nodup
  disjoint : ∀ q q', q ≠ q' → List.Disjoint (b.lane q) (b.lane q')
  account : ∀ q, takings q b.hist ++ (b.lane q).map (fun e => ticket e b.hist) =
    (postings q b.hist).filter (fun t => t ∉ drops b.hist)

/-- Append an entry to a lane. -/
def Box.post (b : Box E Q N) (e : E) (q : Q) : Box E Q N :=
  ⟨Function.update b.lane q (b.lane q ++ [e]), .posted e q :: b.hist⟩

/-- Remove an entry from a lane. -/
def Box.drop (b : Box E Q N) (e : E) (q : Q) : Box E Q N :=
  ⟨Function.update b.lane q ((b.lane q).erase e), .dropped e :: b.hist⟩

/-- Remove the entry at the front of a lane. -/
def Box.take (b : Box E Q N) (e : E) (q : Q) : Box E Q N :=
  ⟨Function.update b.lane q (b.lane q).tail, .taken e q :: b.hist⟩

def Box.note (b : Box E Q N) (n : N) : Box E Q N := ⟨b.lane, .note n :: b.hist⟩

theorem Good.note {b : Box E Q N} (g : Good b) (n : N) : Good (b.note n) :=
  ⟨g.nodup, g.disjoint, g.account⟩

/-- The tickets taken from a lane or waiting in it are distinct. -/
theorem Good.account_nodup {b : Box E Q N} (g : Good b) (q : Q) :
    (takings q b.hist ++ (b.lane q).map (fun e => ticket e b.hist)).Nodup := by
  rw [g.account q]
  exact (postings_nodup q b.hist).filter _

/-- The ticket of a waiting entry was posted to its lane. -/
theorem Good.ticket_mem {b : Box E Q N} (g : Good b) {e : E} {q : Q} (he : e ∈ b.lane q) :
    ticket e b.hist ∈ postings q b.hist := by
  have hm : ticket e b.hist ∈ takings q b.hist ++ (b.lane q).map (fun e => ticket e b.hist) :=
    List.mem_append_right _ (List.mem_map.mpr ⟨e, he, rfl⟩)
  rw [g.account q] at hm
  exact (List.mem_filter.mp hm).1

/-- The posting of a waiting entry is neither taken nor dropped yet. -/
theorem Good.ticket_fresh {b : Box E Q N} (g : Good b) {e : E} {q : Q} (he : e ∈ b.lane q) :
    ticket e b.hist ∉ takings q b.hist ∧ ticket e b.hist ∉ drops b.hist := by
  have hm : ticket e b.hist ∈ (b.lane q).map (fun e => ticket e b.hist) :=
    List.mem_map.mpr ⟨e, he, rfl⟩
  refine ⟨fun ht => (List.disjoint_of_nodup_append (g.account_nodup q)) ht hm, ?_⟩
  have hm' := List.mem_append_right (takings q b.hist) hm
  rw [g.account q] at hm'
  simpa using (List.mem_filter.mp hm').2

/-- A posting to an empty lane is taken unless it is dropped. -/
theorem Good.served {b : Box E Q N} (g : Good b) {q : Q} {t : ℕ} (hl : b.lane q = [])
    (ht : t ∈ postings q b.hist) (hd : t ∉ drops b.hist) : t ∈ takings q b.hist := by
  have ha := g.account q
  rw [hl, List.map_nil, List.append_nil] at ha
  rw [ha]
  exact List.mem_filter.mpr ⟨ht, by simpa using hd⟩

omit [DecidableEq E] in
/-- Changing one lane keeps the lanes disjoint if what it gains waits nowhere. -/
private theorem disjoint_update {lane : Q → List E} {q : Q} {l : List E}
    (hd : ∀ r r', r ≠ r' → List.Disjoint (lane r) (lane r'))
    (hl : ∀ e ∈ l, e ∈ lane q ∨ ∀ r, e ∉ lane r) (r r' : Q) (hr : r ≠ r') :
    List.Disjoint (Function.update lane q l r) (Function.update lane q l r') := by
  intro e he he'
  by_cases h : r = q <;> by_cases h' : r' = q
  · exact hr (h.trans h'.symm)
  · subst h
    rw [Function.update_self] at he
    rw [Function.update_of_ne h'] at he'
    rcases hl e he with hm | hm
    · exact hd _ _ hr hm he'
    · exact hm _ he'
  · subst h'
    rw [Function.update_self] at he'
    rw [Function.update_of_ne h] at he
    rcases hl e he' with hm | hm
    · exact hd _ _ hr he hm
    · exact hm _ he
  · rw [Function.update_of_ne h] at he
    rw [Function.update_of_ne h'] at he'
    exact hd _ _ hr he he'

theorem Good.post {b : Box E Q N} (g : Good b) {e : E} (he : ∀ q, e ∉ b.lane q) (q : Q) :
    Good (b.post e q) := by
  refine ⟨fun r => ?_, disjoint_update g.disjoint ?_, fun r => ?_⟩
  · by_cases hr : r = q
    · subst hr
      simpa [Box.post] using List.Nodup.concat (he r) (g.nodup r)
    · simpa [Box.post, hr] using g.nodup r
  · intro x hx
    rcases List.mem_append.mp hx with hx | hx
    · exact .inl hx
    · rw [List.mem_singleton.mp hx]; exact .inr he
  · have hmap : ∀ r, (b.lane r).map (fun x => ticket x (b.post e q).hist) =
        (b.lane r).map (fun x => ticket x b.hist) := by
      intro r
      refine List.map_congr_left fun x hx => ?_
      have hxe : e ≠ x := fun hex => he r (hex ▸ hx)
      simp [Box.post, ticket, hxe]
    have hnew : b.hist.length ∉ drops b.hist := fun hm => lt_irrefl _ (drops_lt _ _ hm)
    by_cases hr : r = q
    · subst hr
      have ha := g.account r
      have hm := hmap r
      simp only [Box.post] at hm
      simp only [Box.post, takings, drops, postings, Function.update_self, List.map_append, hm,
        ← List.append_assoc, ha, ↓reduceIte, List.filter_append]
      simp [ticket, hnew]
    · have hm := hmap r
      simp only [Box.post] at hm
      simpa [Box.post, takings, drops, postings, hm, hr, Ne.symm hr] using g.account r

theorem Good.take {b : Box E Q N} (g : Good b) {e : E} {q : Q} {l : List E}
    (hl : b.lane q = e :: l) : Good (b.take e q) := by
  refine ⟨fun r => ?_, disjoint_update g.disjoint fun x hx => .inl ?_, fun r => ?_⟩
  · by_cases hr : r = q
    · subst hr
      simpa [Box.take] using (g.nodup r).tail
    · simpa [Box.take, hr] using g.nodup r
  · exact List.mem_of_mem_tail hx
  · by_cases hr : r = q
    · subst hr
      have ha := g.account r
      rw [hl] at ha
      simpa [Box.take, takings, drops, postings, ticket, hl] using ha
    · simpa [Box.take, takings, drops, postings, ticket, hr, Ne.symm hr] using g.account r

theorem Good.drop {b : Box E Q N} (g : Good b) {e : E} {q : Q} (he : e ∈ b.lane q) :
    Good (b.drop e q) := by
  refine ⟨fun r => ?_, disjoint_update g.disjoint fun x hx => .inl (List.mem_of_mem_erase hx),
    fun r => ?_⟩
  · by_cases hr : r = q
    · subst hr
      simpa [Box.drop] using (g.nodup r).erase e
    · simpa [Box.drop, hr] using g.nodup r
  · have hfilter : (postings r b.hist).filter (fun t => t ∉ drops (b.drop e q).hist) =
        ((postings r b.hist).filter (fun t => t ∉ drops b.hist)).filter
          (fun t => t ≠ ticket e b.hist) := by
      rw [List.filter_filter]
      refine List.filter_congr fun t _ => ?_
      simp [Box.drop, drops, not_or, Bool.and_comm]
    have hgoal : takings r (b.drop e q).hist = takings r b.hist := rfl
    change takings r b.hist ++ ((b.drop e q).lane r).map (fun x => ticket x b.hist) =
      (postings r b.hist).filter (fun t => t ∉ drops (b.drop e q).hist)
    rw [hfilter, ← g.account r, List.filter_append]
    have hnd := g.account_nodup r
    by_cases hr : r = q
    · subst hr
      obtain ⟨hmap, hdis⟩ : ((b.lane r).map (fun x => ticket x b.hist)).Nodup ∧
          ∀ x ∈ takings r b.hist, x ≠ ticket e b.hist := by
        rw [List.nodup_append] at hnd
        exact ⟨hnd.2.1, fun x hx => hnd.2.2 x hx _ (List.mem_map.mpr ⟨e, he, rfl⟩)⟩
      congr 1
      · exact (List.filter_eq_self.mpr (by simpa using hdis)).symm
      · rw [List.filter_map]
        simp only [Box.drop, Function.update_self]
        rw [(g.nodup r).erase_eq_filter]
        congr 1
        refine List.filter_congr fun x hx => ?_
        by_cases hxe : x = e
        · simp [hxe]
        · have : ticket x b.hist ≠ ticket e b.hist := fun h =>
            hxe (List.inj_on_of_nodup_map hmap hx he h)
          simp [hxe, this]
    · have hout : ∀ t ∈ takings r b.hist ++ (b.lane r).map (fun x => ticket x b.hist),
          t ≠ ticket e b.hist := by
        intro t ht hte
        rw [g.account r] at ht
        exact postings_disjoint hr b.hist (List.mem_filter.mp ht).1 (hte ▸ g.ticket_mem he)
      rw [← List.filter_append, List.filter_eq_self.mpr (by simpa using hout)]
      simp [Box.drop, hr]

end Good

section Waiting
variable {b : Box E Q N} {e e' : E} {q r : Q} {h h' h'' : History E Q N}

/-- Between two histories an entry has been taken or dropped. -/
def Left (e : E) (h h' : History E Q N) : Prop :=
  ∃ new, h' = new ++ h ∧ ((∃ q, .taken e q ∈ new) ∨ .dropped e ∈ new)

theorem Left.mono_right (hl : Left e h h') (hs : h' <:+ h'') : Left e h h'' := by
  obtain ⟨new, rfl, hnew⟩ := hl
  obtain ⟨more, rfl⟩ := hs
  refine ⟨more ++ new, by rw [List.append_assoc], hnew.imp ?_ ?_⟩
  · rintro ⟨q, hq⟩
    exact ⟨q, List.mem_append_right more hq⟩
  · exact fun hd => List.mem_append_right more hd

theorem Left.mono_left (hl : Left e h' h'') (hs : h <:+ h') : Left e h h'' := by
  obtain ⟨new, rfl, hnew⟩ := hl
  obtain ⟨more, rfl⟩ := hs
  refine ⟨new ++ more, by rw [List.append_assoc], hnew.imp ?_ ?_⟩
  · rintro ⟨q, hq⟩
    exact ⟨q, List.mem_append_left more hq⟩
  · exact fun hd => List.mem_append_left more hd

/-- An entry is in its lane, or has been taken or dropped since. -/
def Waiting (e : E) (q : Q) (h : History E Q N) (b : Box E Q N) : Prop :=
  h <:+ b.hist ∧ (e ∈ b.lane q ∨ Left e h b.hist)

theorem Waiting.start (he : e ∈ b.lane q) : Waiting e q b.hist b :=
  ⟨List.suffix_rfl, .inl he⟩

theorem Waiting.left (hw : Waiting e q h b) (hl : b.lane q = []) : Left e h b.hist :=
  hw.2.resolve_left (by simp [hl])

theorem Waiting.note (hw : Waiting e q h b) (n : N) : Waiting e q h (b.note n) :=
  ⟨hw.1.trans (List.suffix_cons _ _),
    hw.2.imp_right fun hl => hl.mono_right (List.suffix_cons _ _)⟩

variable [DecidableEq Q]

theorem Waiting.post (hw : Waiting e q h b) (e' : E) (r : Q) : Waiting e q h (b.post e' r) := by
  refine ⟨hw.1.trans (List.suffix_cons _ _), hw.2.imp (fun he => ?_) fun hl =>
    hl.mono_right (List.suffix_cons _ _)⟩
  by_cases hq : q = r
  · subst hq
    simp [Box.post, he]
  · simpa [Box.post, hq] using he

theorem Waiting.take (hw : Waiting e q h b) {l : List E} (hl : b.lane r = e' :: l) :
    Waiting e q h (b.take e' r) := by
  have hsuffix : b.hist <:+ (b.take e' r).hist := List.suffix_cons _ _
  refine ⟨hw.1.trans hsuffix, ?_⟩
  rcases hw.2 with he | hleft
  · by_cases hee : e = e'
    · subst hee
      exact .inr (Left.mono_left ⟨[.taken e r], rfl, .inl ⟨r, List.mem_singleton_self _⟩⟩ hw.1)
    · refine .inl ?_
      by_cases hq : q = r
      · subst hq
        simpa [Box.take, hl, hee] using he
      · simpa [Box.take, hq] using he
  · exact .inr (hleft.mono_right hsuffix)

theorem Waiting.drop [DecidableEq E] (hw : Waiting e q h b) (e' : E) (r : Q) :
    Waiting e q h (b.drop e' r) := by
  have hsuffix : b.hist <:+ (b.drop e' r).hist := List.suffix_cons _ _
  refine ⟨hw.1.trans hsuffix, ?_⟩
  rcases hw.2 with he | hleft
  · by_cases hee : e = e'
    · subst hee
      exact .inr (Left.mono_left ⟨[.dropped e], rfl, .inr (List.mem_singleton_self _)⟩ hw.1)
    · refine .inl ?_
      by_cases hq : q = r
      · subst hq
        simpa [Box.drop] using (List.mem_erase_of_ne hee).mpr he
      · simpa [Box.drop, hq] using he
  · exact .inr (hleft.mono_right hsuffix)

end Waiting

end Lingx.Library.Mailbox
