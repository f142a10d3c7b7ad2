import Lingx.Events.State
import Lingx.Library.OrderedSet

/-! Timers. `Event_timer_rbtree_` is a `std::set` of pointers to timer nodes whose
comparison reads the keys of the nodes, so two timers with one key are the same
element of the set. The head of the tree is the earliest timer; the expiry loop
takes due timers from the front while their handlers change the tree. -/

namespace Lingx.Events

open Library

variable {E C : Type} {w : ℕ}

def rbnodePtrCmp (key : E → Msec w) (a b : E) : Prop := key a < key b

instance (key : E → Msec w) : DecidableRel (rbnodePtrCmp key) :=
  fun a b => inferInstanceAs (Decidable (key a < key b))

instance (key : E → Msec w) : IsStrictOrder E (rbnodePtrCmp key) where
  irrefl a := BitVec.lt_irrefl (key a)
  trans _ _ _ := BitVec.lt_trans

/-- `tree.insert(&ev->timer)`. -/
def rbtreeInsert (key : E → Msec w) (tree : List E) (ev : E) : List E :=
  OrderedSet.insert (rbnodePtrCmp key) ev tree

/-- The insertions of a sequence of timer nodes, from the empty tree. -/
def rbtreeInsertAll (key : E → Msec w) (evs : List E) : List E :=
  evs.foldl (rbtreeInsert key) []

def TIMER_INFINITE : Msec w := BitVec.allOnes w

/-- The key of an event's timer node. -/
def World.timerKey (s : World E C w) (ev : E) : Msec w := (s.event ev).timerKey

def eventFindTimer (s : World E C w) : Msec w :=
  match s.timerRbtree with
  | [] => TIMER_INFINITE
  | ev :: _ =>
    let timer := s.timerKey ev - s.currentMsec
    if 0 < timer.toInt then timer else 0

/-- A handler arms a timer: it sets the node's key and inserts the node. -/
def armTimer [DecidableEq E] (s : World E C w) (ev : E) (key : Msec w) : World E C w :=
  let s := s.setEvent ev fun e => { e with timerKey := key, timerSet := true }
  { s with timerRbtree := rbtreeInsert s.timerKey s.timerRbtree ev }

/-- One turn of the loop of `Event_expire_timers`, up to the handler's call:
`none` where the loop returns, else the event whose handler is called. -/
def expireTimersTurn [DecidableEq E] (s : World E C w) : Option (E × World E C w) :=
  match s.timerRbtree with
  | [] => none
  | ev :: tree =>
    if s.currentMsec < s.timerKey ev then none
    else
      let s := { s with timerRbtree := tree }
      let s := s.setEvent ev fun e => { e with timerSet := false, timedout := true }
      some (ev, s.observe (.note (.fired ev)))

/-- `Event_expire_timers` for at most `n` turns of its loop, with whether it has
returned. -/
def eventExpireTimers [DecidableEq E] (handler : E → World E C w → World E C w) :
    ℕ → World E C w → World E C w × Bool
  | 0, s => (s, false)
  | n + 1, s => match expireTimersTurn s with
    | none => (s, true)
    | some (ev, s) => eventExpireTimers handler n (handler ev s)

/-- The events whose handlers `Event_expire_timers` calls in at most `n` turns of its
loop, in the order of the calls. -/
def firedTimers [DecidableEq E] (handler : E → World E C w → World E C w) :
    ℕ → World E C w → List E
  | 0, _ => []
  | n + 1, s => match expireTimersTurn s with
    | none => []
    | some (ev, s) => ev :: firedTimers handler n (handler ev s)

/-- The timers in the tree that are due. -/
def World.dueTimers (s : World E C w) : List E :=
  s.timerRbtree.filter fun ev => s.timerKey ev ≤ s.currentMsec

section Insert
variable {key : E → Msec w} {tree evs : List E} {ev : E}

theorem equivalent_rbnodePtrCmp (a b : E) :
    OrderedSet.Equivalent (rbnodePtrCmp key) a b ↔ key a = key b := by
  simp only [OrderedSet.Equivalent, rbnodePtrCmp, BitVec.lt_def, ← BitVec.toNat_inj]
  omega

theorem rbtreeInsert_ordered (ht : OrderedSet.Ordered (rbnodePtrCmp key) tree) (ev : E) :
    OrderedSet.Ordered (rbnodePtrCmp key) (rbtreeInsert key tree ev) := ht.insert

theorem foldl_rbtreeInsert_ordered (ht : OrderedSet.Ordered (rbnodePtrCmp key) tree) :
    OrderedSet.Ordered (rbnodePtrCmp key) (evs.foldl (rbtreeInsert key) tree) := by
  induction evs generalizing tree with
  | nil => exact ht
  | cons ev evs ih => exact ih (rbtreeInsert_ordered ht ev)

theorem foldl_rbtreeInsert_subset {x : E} (hx : x ∈ evs.foldl (rbtreeInsert key) tree) :
    x ∈ evs ∨ x ∈ tree := by
  induction evs generalizing tree with
  | nil => exact .inr hx
  | cons ev evs ih =>
    rcases ih hx with h | h
    · exact .inl (by simp [h])
    · rcases OrderedSet.mem_of_mem_insert h with rfl | h
      · exact .inl (by simp)
      · exact .inr h

theorem sublist_foldl_rbtreeInsert (key : E → Msec w) (evs tree : List E) :
    tree.Sublist (evs.foldl (rbtreeInsert key) tree) := by
  induction evs generalizing tree with
  | nil => exact List.Sublist.refl _
  | cons ev evs ih => exact (OrderedSet.sublist_insert _ ev tree).trans (ih _)

/-- Every node of a sequence is in the tree exactly when their keys differ from
one another and from those of the other nodes in the tree. -/
theorem forall_mem_foldl_rbtreeInsert (ht : OrderedSet.Ordered (rbnodePtrCmp key) tree)
    (hd : evs.Nodup) (hn : ∀ ev ∈ evs, ev ∉ tree) :
    (∀ ev ∈ evs, ev ∈ evs.foldl (rbtreeInsert key) tree) ↔
      (evs.map key).Nodup ∧ ∀ ev ∈ evs, ∀ x ∈ tree, key ev ≠ key x := by
  induction evs generalizing tree with
  | nil => simp
  | cons ev evs ih =>
    obtain ⟨hev, hd'⟩ := List.nodup_cons.mp hd
    have hm : ∀ e ∈ evs, e ∉ rbtreeInsert key tree ev := by
      intro e he h
      rcases OrderedSet.mem_of_mem_insert h with rfl | h
      · exact hev he
      · exact hn e (by simp [he]) h
    have hsub : (rbtreeInsert key tree ev).Sublist (evs.foldl (rbtreeInsert key) _) :=
      sublist_foldl_rbtreeInsert key evs _
    have hself : ev ∈ evs.foldl (rbtreeInsert key) (rbtreeInsert key tree ev) ↔
        ev ∈ rbtreeInsert key tree ev :=
      ⟨fun h => (foldl_rbtreeInsert_subset h).resolve_left hev, fun h => hsub.subset h⟩
    have hins : ev ∈ rbtreeInsert key tree ev ↔ ∀ x ∈ tree, key ev ≠ key x := by
      rw [rbtreeInsert, OrderedSet.mem_insert_self_iff ht]
      refine forall₂_congr fun x hx => ?_
      rw [equivalent_rbnodePtrCmp]
      exact ⟨fun h he => hn ev (by simp) (h he ▸ hx), fun h he => absurd he h⟩
    have hrest : (∀ e ∈ evs, ∀ x ∈ rbtreeInsert key tree ev, key e ≠ key x) →
        (∀ e ∈ evs, ∀ x ∈ tree, key e ≠ key x) :=
      fun h e he x hx =>
        h e he x ((OrderedSet.sublist_insert (rbnodePtrCmp key) ev tree).subset hx)
    rw [List.forall_mem_cons, List.foldl_cons, ih (rbtreeInsert_ordered ht ev) hd' hm, hself, hins,
      List.map_cons, List.nodup_cons, List.forall_mem_cons]
    constructor
    · rintro ⟨hnew, hnd, hk⟩
      have hin := hins.mpr hnew
      refine ⟨⟨fun hmem => ?_, hnd⟩, hnew, hrest hk⟩
      obtain ⟨e, he, hke⟩ := List.mem_map.mp hmem
      exact hk e he ev hin hke
    · rintro ⟨⟨hmem, hnd⟩, hnew, hk⟩
      refine ⟨hnew, hnd, fun e he x hx hex => ?_⟩
      rcases OrderedSet.mem_of_mem_insert hx with rfl | hx
      · exact hmem (hex ▸ List.mem_map_of_mem he)
      · exact hk e he x hx hex

/-- Every inserted node is in the tree, exactly once, and the nodes come in the
order of their keys, if and only if no two of the nodes have one key. -/
theorem rbtreeInsertAll_complete_iff [DecidableEq E] (hd : evs.Nodup) :
    ((∀ ev ∈ evs, (rbtreeInsertAll key evs).count ev = 1) ∧
      (rbtreeInsertAll key evs).Pairwise fun a b => key a ≤ key b) ↔ (evs.map key).Nodup := by
  have ho : OrderedSet.Ordered (rbnodePtrCmp key) (rbtreeInsertAll key evs) :=
    foldl_rbtreeInsert_ordered List.Pairwise.nil
  have hle : (rbtreeInsertAll key evs).Pairwise fun a b => key a ≤ key b :=
    ho.imp fun h => BitVec.le_of_lt h
  have hcount : ∀ ev, (rbtreeInsertAll key evs).count ev = 1 ↔ ev ∈ rbtreeInsertAll key evs :=
    fun ev => by rw [ho.nodup.count]; simp
  have hmem : (∀ ev ∈ evs, ev ∈ evs.foldl (rbtreeInsert key) []) ↔ _ :=
    forall_mem_foldl_rbtreeInsert List.Pairwise.nil hd (by simp)
  simp only [hcount, and_iff_left hle]
  simpa [rbtreeInsertAll] using hmem

/-- Three timers whose keys are those of `Event_timer_rbtree_test`. -/
theorem rbtreeInsertAll_complete_iff_test :
    (∀ ev ∈ [3, 1, 2], (rbtreeInsertAll (BitVec.ofNat 64) [3, 1, 2]).count ev = 1) ∧
      (rbtreeInsertAll (BitVec.ofNat 64) [3, 1, 2]).Pairwise
        fun a b => BitVec.ofNat 64 a ≤ BitVec.ofNat 64 b :=
  (rbtreeInsertAll_complete_iff (by decide)).mpr (by decide)

/-- Of two timers that expire in the same millisecond the second is dropped. -/
theorem rbtreeInsertAll_loses : ¬ ∀ evs : List Bool, evs.Nodup → ∀ key : Bool → Msec 64,
    (∀ ev ∈ evs, (rbtreeInsertAll key evs).count ev = 1) ∧
      (rbtreeInsertAll key evs).Pairwise fun a b => key a ≤ key b := by
  intro h
  have hc := (h [false, true] (by decide) fun _ => 5).1 true (by decide)
  revert hc
  decide

end Insert

section Expire
variable {s t : World E C w}

/-- The nodes in the tree are in the order of their keys. -/
def World.TimersOrdered (s : World E C w) : Prop :=
  OrderedSet.Ordered (rbnodePtrCmp s.timerKey) s.timerRbtree

/-- The tree and the due timers depend on the keys of its nodes only. -/
theorem timers_congr (ht : t.timerRbtree = s.timerRbtree) (hm : t.currentMsec = s.currentMsec)
    (hk : ∀ ev ∈ s.timerRbtree, t.timerKey ev = s.timerKey ev) :
    (t.TimersOrdered ↔ s.TimersOrdered) ∧ t.dueTimers = s.dueTimers := by
  constructor
  · rw [World.TimersOrdered, World.TimersOrdered, ht]
    refine List.Pairwise.iff_of_mem fun {a b} ha hb => ?_
    rw [rbnodePtrCmp, rbnodePtrCmp, hk a ha, hk b hb]
  · rw [World.dueTimers, World.dueTimers, ht, hm]
    exact List.filter_congr fun ev hev => by rw [hk ev hev]

variable [DecidableEq E]

theorem setEvent_timerKey (s : World E C w) (ev : E) {f : Event C w → Event C w}
    (hf : (f (s.event ev)).timerKey = (s.event ev).timerKey) :
    (s.setEvent ev f).timerKey = s.timerKey := by
  funext e
  by_cases he : e = ev
  · subst he; simp [World.timerKey, World.setEvent, hf]
  · simp [World.timerKey, World.setEvent, he]

/-- Arming a timer that is not in the tree, for later, makes no timer due. -/
theorem armTimer_timers {ev : E} {key : Msec w} (ho : s.TimersOrdered) (hev : ev ∉ s.timerRbtree)
    (hk : s.currentMsec < key) : (armTimer s ev key).TimersOrdered ∧
      (armTimer s ev key).dueTimers = s.dueTimers := by
  let u := s.setEvent ev fun e => { e with timerKey := key, timerSet := true }
  have hkey : ∀ e ∈ s.timerRbtree, u.timerKey e = s.timerKey e := by
    intro e he
    have hne : e ≠ ev := fun h => hev (h ▸ he)
    simp [u, World.timerKey, World.setEvent, hne]
  have hself : u.timerKey ev = key := by simp [u, World.timerKey, World.setEvent]
  have htree : (armTimer s ev key).timerRbtree = rbtreeInsert u.timerKey u.timerRbtree ev := rfl
  have hcongr := timers_congr (s := s) (t := u) rfl rfl hkey
  constructor
  · exact rbtreeInsert_ordered (hcongr.1.mpr ho) ev
  · rw [← hcongr.2, World.dueTimers, htree]
    refine OrderedSet.filter_insert ?_
    have hlt : ¬ key ≤ s.currentMsec := BitVec.not_le.mpr hk
    exact decide_eq_false fun h => hlt (hself ▸ h)

theorem expireTimersTurn_none (ho : s.TimersOrdered) :
    expireTimersTurn s = none ↔ s.dueTimers = [] := by
  cases hl : s.timerRbtree with
  | nil => simp [expireTimersTurn, World.dueTimers, hl]
  | cons ev tree =>
    have hhead : ∀ e ∈ tree, s.timerKey ev < s.timerKey e := by
      rw [World.TimersOrdered, hl] at ho
      exact (List.pairwise_cons.mp ho).1
    by_cases hk : s.currentMsec < s.timerKey ev
    · refine iff_of_true (by simp [expireTimersTurn, hl, hk]) ?_
      rw [World.dueTimers, hl, List.filter_eq_nil_iff]
      intro e he
      have hlt : s.currentMsec < s.timerKey e := by
        rcases List.mem_cons.mp he with rfl | he
        · exact hk
        · exact BitVec.lt_trans hk (hhead e he)
      simpa using hlt
    · refine iff_of_false (by simp [expireTimersTurn, hl, hk]) ?_
      rw [World.dueTimers, hl, List.filter_cons_of_pos (by simpa using hk)]
      simp

/-- A turn takes the first of the due timers out of the tree and calls its handler. -/
theorem expireTimersTurn_some {ev : E} (ho : s.TimersOrdered)
    (h : expireTimersTurn s = some (ev, t)) : t.TimersOrdered ∧ s.dueTimers = ev :: t.dueTimers ∧
      t.currentMsec = s.currentMsec ∧ t.hist = .note (.fired ev) :: s.hist ∧ t.heap = s.heap ∧
      ∀ e, (t.event e).posted = (s.event e).posted := by
  cases hl : s.timerRbtree with
  | nil => simp [expireTimersTurn, hl] at h
  | cons e tree =>
    simp only [expireTimersTurn, hl] at h
    split_ifs at h with hk
    obtain ⟨rfl, rfl⟩ := Prod.mk.inj (Option.some.inj h)
    have ho' : ({ s with timerRbtree := tree } : World E C w).TimersOrdered := by
      rw [World.TimersOrdered, hl] at ho
      exact (List.pairwise_cons.mp ho).2
    have hkey := setEvent_timerKey { s with timerRbtree := tree } e
      (f := fun m => { m with timerSet := false, timedout := true }) rfl
    obtain ⟨hord, hdue⟩ := timers_congr (s := { s with timerRbtree := tree })
      (t := (({ s with timerRbtree := tree } : World E C w).setEvent e fun m =>
        { m with timerSet := false, timedout := true }).observe (.note (.fired e)))
      rfl rfl fun x _ => congrFun hkey x
    refine ⟨hord.mpr ho', ?_, rfl, rfl, rfl, fun x => ?_⟩
    · rw [hdue, World.dueTimers, hl, List.filter_cons_of_pos (by simpa using hk)]
      rfl
    · by_cases hx : x = e
      · subst hx; simp [World.observe, World.setEvent]
      · simp [World.observe, World.setEvent, hx]

end Expire

end Lingx.Events
