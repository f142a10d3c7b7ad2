import Lingx.Events.Poll
import Lingx.Library.SlotTable

/-! The poll table represents an interest set: which events of which connections
are registered. An addition and a deletion, redundant ones included, change the
set at one event, and the slots, the masks and the indices follow. -/

namespace Lingx.Events

open Library

variable {E C : Type} {w : ℕ} [DecidableEq E]

/-- What a registered event, or one that is not, knows of its slot. -/
def Placed (own : List C) (c : C) (b : Bool) (e : Event C w) : Prop :=
  e.active = b ∧ if b then own[e.index]? = some c else e.index = INVALID_INDEX

def interestMask (reg : Side → Bool) : PollMask :=
  (if reg .read then POLLIN else 0) ||| (if reg .write then POLLOUT else 0)

theorem interestMask_update (reg : Side → Bool) (d : Side) (b : Bool) :
    interestMask (Function.update reg d b) =
      if b then interestMask reg ||| d.pollEvent else interestMask reg &&& ~~~d.pollEvent := by
  simp only [interestMask, Function.update_apply]
  generalize reg .read = r
  generalize reg .write = v
  revert r v
  cases d <;> cases b <;> decide

theorem interestMask_ne_zero {reg : Side → Bool} {d : Side} (h : reg d = true) :
    interestMask reg ≠ 0 := by
  simp only [interestMask]
  cases d <;> rw [h] <;> generalize reg _ = b <;> revert b <;> decide

theorem interestMask_eq_zero {reg : Side → Bool} {d : Side} (hr : reg d = false)
    (ho : reg d.other = false) : interestMask reg = 0 := by
  cases d <;> simp only [Side.other] at ho <;> simp [interestMask, hr, ho]

/-- The table represents an interest set; each slot has one owner. -/
structure PollTable (cs : List C) (ends : C → Side → E) (s : World E C w) (own : List C)
    (reg : C → Side → Bool) : Prop where
  nodup : own.Nodup
  mem : ∀ c, c ∈ own ↔ c ∈ cs ∧ ∃ d, reg c d = true
  count : s.nEvents = own.length
  slot : ∀ (i : ℕ) (c : C), own[i]? = some c →
    ∃ p, s.events[i]? = some p ∧ p.fd = (s.conn c).fd ∧ p.events = interestMask (reg c)
  placed : ∀ c ∈ cs, ∀ d, Placed own c (reg c d) (s.event (ends c d))

section Register
variable [DecidableEq C]

/-- One event enters or leaves an interest set. -/
def register (reg : C → Side → Bool) (c : C) (d : Side) (b : Bool) : C → Side → Bool :=
  Function.update reg c (Function.update (reg c) d b)

theorem register_self (reg : C → Side → Bool) (c : C) (d : Side) (b : Bool) :
    register reg c d b c d = b := by
  simp [register]

theorem register_other (reg : C → Side → Bool) (c : C) (d : Side) (b : Bool) :
    register reg c d b c d.other = reg c d.other := by
  cases d <;> simp [register, Side.other]

theorem register_of_ne (reg : C → Side → Bool) {c c' : C} (hc : c' ≠ c) (d : Side) (b : Bool) :
    register reg c d b c' = reg c' := by
  simp [register, hc]

theorem register_eq_self {reg : C → Side → Bool} {c : C} {d : Side} {b : Bool}
    (h : reg c d = b) : register reg c d b = reg := by
  subst h
  simp [register]

end Register

namespace PollTable

variable {cs own : List C} {ends : C → Side → E} {s : World E C w} {reg : C → Side → Bool}
  {c : C} {d : Side}

omit [DecidableEq E] in
theorem length_le (g : PollTable cs ends s own reg) : own.length ≤ cs.length :=
  (g.nodup.subperm fun c hc => ((g.mem c).mp hc).1).length_le

omit [DecidableEq E] in
theorem index_ne (hw : Wired cs ends s) (g : PollTable cs ends s own reg) {i : ℕ}
    (h : own[i]? = some c) : i ≠ INVALID_INDEX := by
  have hi := (List.getElem?_eq_some_iff.mp h).1
  have := g.length_le
  have := hw.small
  omega

omit [DecidableEq E] in
theorem index_eq_invalid_iff (hw : Wired cs ends s) (g : PollTable cs ends s own reg)
    (hc : c ∈ cs) (d : Side) :
    (s.event (ends c d)).index = INVALID_INDEX ↔ reg c d = false := by
  have h := (g.placed c hc d).2
  split_ifs at h with hr
  · exact iff_of_false (g.index_ne hw h) (by simp [hr])
  · exact iff_of_true h (by simpa using hr)

omit [DecidableEq E] in
theorem getElem?_index (g : PollTable cs ends s own reg) (hc : c ∈ cs) (hr : reg c d = true) :
    own[(s.event (ends c d)).index]? = some c := by
  have h := (g.placed c hc d).2
  rwa [if_pos hr] at h

omit [DecidableEq E] in
theorem partnerIndex_none (hw : Wired cs ends s) (g : PollTable cs ends s own reg) (hc : c ∈ cs)
    (h : reg c d = false) : s.partnerIndex (some (ends c d)) = none := by
  simp [World.partnerIndex, (g.index_eq_invalid_iff hw hc d).mpr h]

omit [DecidableEq E] in
theorem partnerIndex_some (hw : Wired cs ends s) (g : PollTable cs ends s own reg) (hc : c ∈ cs)
    (h : reg c d = true) :
    s.partnerIndex (some (ends c d)) = some (s.event (ends c d)).index := by
  have hi : (s.event (ends c d)).index ≠ INVALID_INDEX := by
    rw [Ne, g.index_eq_invalid_iff hw hc d, h]; simp
  simp [World.partnerIndex, hi]

omit [DecidableEq E] in
theorem matched (g : PollTable cs ends s own reg) : SlotTable.Matched
    (fun c p => p.fd = (s.conn c).fd ∧ p.events = interestMask (reg c)) own s.events := g.slot

omit [DecidableEq E] in
theorem slot_file (hw : Wired cs ends s) (g : PollTable cs ends s own reg) {i : ℕ}
    (h : own[i]? = some c) : ∃ p, s.events[i]? = some p ∧ p.fd = (s.conn c).fd ∧
      p.events = interestMask (reg c) ∧ s.file p.fd = some c := by
  obtain ⟨p, hp, hfd, hev⟩ := g.slot i c h
  have hc := ((g.mem c).mp (List.mem_of_getElem? h)).1
  exact ⟨p, hp, hfd, hev, hfd ▸ hw.file c hc⟩

/-- An operation that finds the event as it would leave it changes nothing. -/
theorem setActive_eq_self (g : PollTable cs ends s own reg) (hc : c ∈ cs) :
    s.setActive (ends c d) (reg c d) = s := by
  have he : ({ s.event (ends c d) with active := reg c d } : Event C w) = s.event (ends c d) := by
    rw [← (g.placed c hc d).1]
  rw [World.setActive, World.setEvent, he, Function.update_eq_self]

omit [DecidableEq E] in
theorem alert (g : PollTable cs ends s own reg) (a : Alert) :
    PollTable cs ends (s.alert a) own reg :=
  ⟨g.nodup, g.mem, g.count, g.slot, g.placed⟩

theorem add_registered (hw : Wired cs ends s) (g : PollTable cs ends s own reg) (hc : c ∈ cs)
    (hr : reg c d = true) : pollAddEvent s (ends c d) d.pollEvent =
      some (s.alert (.alreadySet (s.conn c).fd d.pollEvent)) := by
  have hi : (s.event (ends c d)).index ≠ INVALID_INDEX := by
    rw [Ne, g.index_eq_invalid_iff hw hc d, hr]; simp
  have hs := hr ▸ g.setActive_eq_self (d := d) hc
  rw [pollAddEvent, hs, if_pos hi, hw.data c hc d]

theorem del_unregistered (hw : Wired cs ends s) (g : PollTable cs ends s own reg) (hc : c ∈ cs)
    (hr : reg c d = false) : pollDelEvent s (ends c d) d.pollEvent =
      some (s.alert (.alreadyDeleted (s.conn c).fd d.pollEvent)) := by
  have hi := (g.index_eq_invalid_iff hw hc d).mpr hr
  have hs := hr ▸ g.setActive_eq_self (d := d) hc
  rw [pollDelEvent, hs, if_pos hi, hw.data c hc d]

/-- The partner's slot is looked up after the event's flag is set. -/
theorem partnerIndex_setActive (ev : E) (b : Bool) (e : Option E) :
    (s.setActive ev b).partnerIndex e = s.partnerIndex e := by
  simp [World.partnerIndex]

theorem add_shared (hw : Wired cs ends s) (g : PollTable cs ends s own reg) (hc : c ∈ cs)
    (hr : reg c d = false) (ho : reg c d.other = true) :
    ∃ i p, own[i]? = some c ∧ s.events[i]? = some p ∧ pollAddEvent s (ends c d) d.pollEvent =
      some (((s.setActive (ends c d) true).setPollFd i
        { p with events := p.events ||| d.pollEvent }).setIndex (ends c d) i) := by
  have hi := (g.index_eq_invalid_iff hw hc d).mpr hr
  have hown := g.getElem?_index hc ho
  obtain ⟨p, hp, -⟩ := g.slot _ _ hown
  refine ⟨_, p, hown, hp, ?_⟩
  rw [pollAddEvent, hw.partner hc d, partnerIndex_setActive, g.partnerIndex_some hw hc ho]
  simp [hi, hp]

omit [DecidableEq E] in
theorem exists_reg_iff (reg : C → Side → Bool) (c : C) (d : Side) :
    (∃ d', reg c d' = true) ↔ reg c d = true ∨ reg c d.other = true :=
  ⟨fun ⟨d', h⟩ => by rcases Side.eq_or_eq_other d' d with rfl | rfl <;> simp [h],
    fun h => h.elim (fun h => ⟨_, h⟩) fun h => ⟨_, h⟩⟩

omit [DecidableEq E] in
theorem notMem_of_unregistered (g : PollTable cs ends s own reg) (hr : reg c d = false)
    (ho : reg c d.other = false) : c ∉ own := fun h => by
  have := (exists_reg_iff reg c d).mp ((g.mem c).mp h).2
  simp [hr, ho] at this

omit [DecidableEq E] in
theorem length_lt (g : PollTable cs ends s own reg) (hw : Wired cs ends s) (hc : c ∈ cs)
    (hout : c ∉ own) : own.length < s.events.length ∧ own.length < INVALID_INDEX := by
  have hcons : (c :: own).Nodup := List.nodup_cons.mpr ⟨hout, g.nodup⟩
  have hsub : (c :: own) ⊆ cs := List.cons_subset.mpr ⟨hc, fun x hx => ((g.mem x).mp hx).1⟩
  have hle : own.length + 1 ≤ cs.length := (hcons.subperm hsub).length_le
  have := hw.size
  have := hw.small
  omega

/-- The first event of a connection takes the slot behind the last one. -/
theorem add_new (hw : Wired cs ends s) (g : PollTable cs ends s own reg)
    (hc : c ∈ cs) (hr : reg c d = false) (ho : reg c d.other = false) :
    pollAddEvent s (ends c d) d.pollEvent =
      some ((((s.setActive (ends c d) true).setPollFd s.nEvents
        ⟨(s.conn c).fd, d.pollEvent, 0⟩).setIndex (ends c d) s.nEvents).setNEvents
          ((s.nEvents + 1) % uintSize)) := by
  have hi := (g.index_eq_invalid_iff hw hc d).mpr hr
  have hlen := (g.length_lt hw hc (g.notMem_of_unregistered hr ho)).1
  rw [← g.count] at hlen
  rw [pollAddEvent, hw.partner hc d, partnerIndex_setActive, g.partnerIndex_none hw hc ho]
  simp [hi, hlen, hw.data c hc d]

omit [DecidableEq E] in
theorem slot_inj (g : PollTable cs ends s own reg) {i j : ℕ} (hi : own[i]? = some c)
    (hj : own[j]? = some c) : i = j :=
  (List.getElem?_inj (List.getElem?_eq_some_iff.mp hi).1 g.nodup).mp (hi.trans hj.symm)

variable [DecidableEq C]

omit [DecidableEq E] in
theorem register_of_ends_ne (reg : C → Side → Bool) {c' : C} {d' : Side} {b : Bool}
    (he : ends c' d' ≠ ends c d) : register reg c d b c' d' = reg c' d' := by
  by_cases hcc : c' = c
  · subst hcc
    obtain rfl := (Side.eq_or_eq_other d' d).resolve_left fun h => he (by rw [h])
    rw [register_other]
  · rw [register_of_ne reg hcc]

/-- An operation on an event whose partner is registered rewrites their slot. -/
theorem reslot {t : World E C w} {i : ℕ} {p : PollFd} {b : Bool} (g : PollTable cs ends s own reg)
    (hw : Wired cs ends s) (hc : c ∈ cs) (ho : reg c d.other = true) (hi : own[i]? = some c)
    (hp : s.events[i]? = some p) (hconn : t.conn = s.conn) (hn : t.nEvents = s.nEvents)
    (hev : t.events = s.events.set i { p with events := interestMask (register reg c d b c) })
    (hself : Placed own c b (t.event (ends c d)))
    (hrest : ∀ e, e ≠ ends c d →
      (t.event e).active = (s.event e).active ∧ (t.event e).index = (s.event e).index) :
    PollTable cs ends t own (register reg c d b) where
  nodup := g.nodup
  mem c' := by
    by_cases hcc : c' = c
    · subst hcc
      refine iff_of_true (List.mem_of_getElem? hi) ⟨hc, d.other, ?_⟩
      rw [register_other, ho]
    · rw [register_of_ne reg hcc, g.mem]
  count := hn ▸ g.count
  slot := by
    rw [hev, hconn]
    refine g.matched.set g.nodup hi ⟨?_, rfl⟩ fun c' _ hcc q hq => ?_
    · obtain ⟨q, hq, hfd, -⟩ := g.slot i c hi
      obtain rfl : p = q := Option.some.inj (hp.symm.trans hq)
      exact hfd
    · rwa [register_of_ne reg hcc]
  placed c' hc' d' := by
    by_cases he : ends c' d' = ends c d
    · obtain ⟨rfl, rfl⟩ := hw.ends_inj hc' hc he
      rwa [register_self]
    · rw [register_of_ends_ne reg he, Placed, (hrest _ he).1, (hrest _ he).2]
      exact g.placed c' hc' d'

theorem newslot {t : World E C w} (g : PollTable cs ends s own reg)
    (hw : Wired cs ends s) (hc : c ∈ cs) (hr : reg c d = false) (ho : reg c d.other = false)
    (hconn : t.conn = s.conn) (hn : t.nEvents = own.length + 1)
    (hev : t.events = s.events.set own.length ⟨(s.conn c).fd, d.pollEvent, 0⟩)
    (hself : (t.event (ends c d)).active = true ∧ (t.event (ends c d)).index = own.length)
    (hrest : ∀ e, e ≠ ends c d →
      (t.event e).active = (s.event e).active ∧ (t.event e).index = (s.event e).index) :
    PollTable cs ends t (own ++ [c]) (register reg c d true) := by
  have hout := g.notMem_of_unregistered hr ho
  have hlen := (g.length_lt hw hc hout).1
  constructor
  case nodup =>
    exact (List.perm_append_singleton c own).nodup_iff.mpr (List.nodup_cons.mpr ⟨hout, g.nodup⟩)
  case count => rw [hn, List.length_append, List.length_singleton]
  case mem =>
    intro c'
    by_cases hcc : c' = c
    · subst hcc
      exact iff_of_true (by simp) ⟨hc, d, register_self reg c' d true⟩
    · rw [register_of_ne reg hcc, ← g.mem, List.mem_append, List.mem_singleton, or_iff_left hcc]
  case slot =>
    rw [hev, hconn]
    refine (g.matched.imp fun c' hc' q hq => ?_).concat hlen ⟨rfl, ?_⟩
    · rwa [register_of_ne reg (ne_of_mem_of_not_mem hc' hout)]
    · rw [register, Function.update_self, interestMask_update, if_pos rfl,
        interestMask_eq_zero hr ho]
      simp
  case placed =>
    intro c' hc' d'
    by_cases he : ends c' d' = ends c d
    · obtain ⟨rfl, rfl⟩ := hw.ends_inj hc' hc he
      rw [register_self]
      exact ⟨hself.1, by simp [hself.2]⟩
    · obtain ⟨hact, hplace⟩ := g.placed c' hc' d'
      rw [register_of_ends_ne reg he, Placed, (hrest _ he).1, (hrest _ he).2]
      refine ⟨hact, ?_⟩
      split_ifs at hplace ⊢ with hb
      · rw [List.getElem?_append_left (List.getElem?_eq_some_iff.mp hplace).1, hplace]
      · exact hplace

theorem freeslot {t : World E C w} {i : ℕ} {p : PollFd} (g : PollTable cs ends s own reg)
    (hw : Wired cs ends s) (hc : c ∈ cs) (hr : reg c d = true) (ho : reg c d.other = false)
    (hi : own[i]? = some c) (hp : s.events[own.length - 1]? = some p) (hconn : t.conn = s.conn)
    (hn : t.nEvents = own.length - 1) (hev : t.events = s.events.set i p)
    (hself : (t.event (ends c d)).active = false ∧
      (t.event (ends c d)).index = INVALID_INDEX)
    (hrest : ∀ c' ∈ cs, ∀ d', ends c' d' ≠ ends c d →
      (t.event (ends c' d')).active = (s.event (ends c' d')).active ∧
      (t.event (ends c' d')).index = if (s.event (ends c' d')).index = own.length - 1 then i
        else (s.event (ends c' d')).index) :
    PollTable cs ends t (SlotTable.swapRemove own i) (register reg c d false) := by
  have hlen := (List.getElem?_eq_some_iff.mp hi).1
  have hperm := SlotTable.swapRemove_perm hi
  obtain ⟨hout, hnd⟩ := List.nodup_cons.mp (hperm.nodup_iff.mpr g.nodup)
  constructor
  case nodup => exact hnd
  case count => rw [hn, SlotTable.length_swapRemove]
  case mem =>
    intro c'
    by_cases hcc : c' = c
    · subst hcc
      refine iff_of_false hout fun h => ?_
      have := (exists_reg_iff _ c' d).mp h.2
      rw [register_self, register_other, ho] at this
      simp at this
    · rw [register_of_ne reg hcc, ← g.mem, ← hperm.mem_iff, List.mem_cons, or_iff_right hcc]
  case slot =>
    rw [hev, hconn]
    refine (g.matched.swapRemove hp).imp fun c' hc' q hq => ?_
    rwa [register_of_ne reg (ne_of_mem_of_not_mem hc' hout)]
  case placed =>
    intro c' hc' d'
    by_cases he : ends c' d' = ends c d
    · obtain ⟨rfl, rfl⟩ := hw.ends_inj hc' hc he
      rw [register_self]
      exact ⟨hself.1, by simp [hself.2]⟩
    · obtain ⟨hact, hplace⟩ := g.placed c' hc' d'
      obtain ⟨hact', hindex⟩ := hrest c' hc' d' he
      rw [register_of_ends_ne reg he, Placed, hact', hindex]
      refine ⟨hact, ?_⟩
      by_cases hb : reg c' d' = true
      · have hcc : c' ≠ c := by
          rintro rfl
          obtain rfl := (Side.eq_or_eq_other d' d).resolve_left fun h => he (by rw [h])
          simp [ho] at hb
        rw [if_pos hb] at hplace ⊢
        have hji : (s.event (ends c' d')).index ≠ i := fun h =>
          hcc (Option.some.inj ((h ▸ hplace).symm.trans hi))
        exact SlotTable.getElem?_swapRemove_moved hlen hplace hji
      · rw [if_neg hb] at hplace ⊢
        have := g.length_le
        have := hw.small
        rw [if_neg (by omega), hplace]

theorem add (hw : Wired cs ends s) (g : PollTable cs ends s own reg) (hc : c ∈ cs) (d : Side) :
    ∃ t own', pollAddEvent s (ends c d) d.pollEvent = some t ∧ SameWiring s t ∧
      PollTable cs ends t own' (register reg c d true) := by
  by_cases hr : reg c d = true
  · rw [g.add_registered hw hc hr, register_eq_self hr]
    exact ⟨_, own, rfl, ⟨rfl, rfl, rfl, fun _ => rfl⟩, g.alert _⟩
  rw [Bool.not_eq_true] at hr
  by_cases ho : reg c d.other = true
  · obtain ⟨i, p, hi, hp, ht⟩ := g.add_shared hw hc hr ho
    refine ⟨_, own, ht, ⟨rfl, rfl, by simp, by simp⟩, ?_⟩
    obtain ⟨q, hq, -, hmask⟩ := g.slot i c hi
    obtain rfl : p = q := Option.some.inj (hp.symm.trans hq)
    refine g.reslot hw hc ho hi hp rfl rfl ?_ ?_ fun e he => by simp [he]
    · rw [register, Function.update_self, interestMask_update, if_pos rfl, ← hmask]
      simp
    · simp [Placed, hi]
  · rw [Bool.not_eq_true] at ho
    obtain ⟨hlen, hsmall⟩ := g.length_lt hw hc (g.notMem_of_unregistered hr ho)
    have hn : (own.length + 1) % uintSize = own.length + 1 :=
      Nat.mod_eq_of_lt (by simp only [INVALID_INDEX, uintSize] at *; omega)
    refine ⟨_, own ++ [c], g.add_new hw hc hr ho, ⟨rfl, rfl, by simp, by simp⟩, ?_⟩
    refine g.newslot hw hc hr ho rfl ?_ ?_ ?_ fun e he => by simp [he]
    · simp [g.count, hn]
    · simp [g.count]
    · simp [g.count]

omit [DecidableEq C] in
theorem del_shared (hw : Wired cs ends s) (g : PollTable cs ends s own reg) (hc : c ∈ cs)
    (hr : reg c d = true) (ho : reg c d.other = true) :
    ∃ i p, own[i]? = some c ∧ s.events[i]? = some p ∧ pollDelEvent s (ends c d) d.pollEvent =
      some (((s.setActive (ends c d) false).setPollFd i
        { p with events := p.events &&& ~~~d.pollEvent }).setIndex (ends c d) INVALID_INDEX) := by
  have hi : (s.event (ends c d)).index ≠ INVALID_INDEX := by
    rw [Ne, g.index_eq_invalid_iff hw hc d, hr]; simp
  have hown := g.getElem?_index hc ho
  obtain ⟨p, hp, -⟩ := g.slot _ _ hown
  refine ⟨_, p, hown, hp, ?_⟩
  rw [pollDelEvent, hw.partner hc d, partnerIndex_setActive, g.partnerIndex_some hw hc ho]
  simp [hi, hp]

omit [DecidableEq C] in
theorem pollDelSlot_of_lt {s : World E C w} {ev r v : E} {n : ℕ} {p : PollFd} {b : C}
    (hn : (s.nEvents + uintSize - 1) % uintSize = n) (hi : (s.event ev).index < n)
    (hp : s.events[n]? = some p) (hfile : s.file p.fd = some b) (hfd : (s.conn b).fd ≠ -1)
    (hr : (s.conn b).read = some r) (hv : (s.conn b).write = some v) :
    pollDelSlot s ev = some ((((s.setNEvents n).setPollFd (s.event ev).index p).repairIndex
      r ev).repairIndex v ev) := by
  simp [pollDelSlot, hn, hi, hp, hfile, hfd, hr, hv]

omit [DecidableEq C] in
theorem pollDelSlot_of_ge {s : World E C w} {ev : E} {n : ℕ}
    (hn : (s.nEvents + uintSize - 1) % uintSize = n) (hi : n ≤ (s.event ev).index) :
    pollDelSlot s ev = some (s.setNEvents n) := by
  simp [pollDelSlot, hn, hi]

omit [DecidableEq E] [DecidableEq C] in
theorem pred_nEvents (hw : Wired cs ends s) (g : PollTable cs ends s own reg)
    (hpos : 0 < own.length) : (s.nEvents + uintSize - 1) % uintSize = own.length - 1 := by
  have := g.length_le
  have := hw.small
  rw [g.count]
  simp only [INVALID_INDEX, uintSize] at *
  omega

omit [DecidableEq E] [DecidableEq C] in
/-- Only the owner of the last slot has an event with its index. -/
theorem owner_of_index_eq_last (hw : Wired cs ends s) (g : PollTable cs ends s own reg) {b c' : C}
    (hb : own[own.length - 1]? = some b) (hc' : c' ∈ cs) {d' : Side}
    (h : (s.event (ends c' d')).index = own.length - 1) : c' = b := by
  by_cases hr : reg c' d' = true
  · exact Option.some.inj ((h ▸ g.getElem?_index hc' hr).symm.trans hb)
  · have := (g.index_eq_invalid_iff hw hc' d').mpr (by simpa using hr)
    have := g.length_le
    have := hw.small
    omega

omit [DecidableEq C] in
theorem pollDelEvent_alone (hw : Wired cs ends s) (g : PollTable cs ends s own reg) (hc : c ∈ cs)
    (hr : reg c d = true) (ho : reg c d.other = false) {t : World E C w}
    (ht : pollDelSlot (s.setActive (ends c d) false) (ends c d) = some t) :
    pollDelEvent s (ends c d) d.pollEvent = some (t.setIndex (ends c d) INVALID_INDEX) := by
  have hi : (s.event (ends c d)).index ≠ INVALID_INDEX := by
    rw [Ne, g.index_eq_invalid_iff hw hc d, hr]
    simp
  rw [pollDelEvent, hw.partner hc d, partnerIndex_setActive, g.partnerIndex_none hw hc ho]
  simp [hi, ht]

omit [DecidableEq C] in
/-- The slot of an event without a registered partner is freed. -/
theorem del_alone (hw : Wired cs ends s) (g : PollTable cs ends s own reg) (hc : c ∈ cs)
    (hr : reg c d = true) (ho : reg c d.other = false) :
    ∃ i p t, own[i]? = some c ∧ s.events[own.length - 1]? = some p ∧
      pollDelEvent s (ends c d) d.pollEvent = some t ∧ t.conn = s.conn ∧ t.files = s.files ∧
      t.nEvents = own.length - 1 ∧ t.events = s.events.set i p ∧
      (∀ x, (t.event x).data = (s.event x).data) ∧
      ((t.event (ends c d)).active = false ∧ (t.event (ends c d)).index = INVALID_INDEX) ∧
      ∀ c' ∈ cs, ∀ d', ends c' d' ≠ ends c d →
        (t.event (ends c' d')).active = (s.event (ends c' d')).active ∧
        (t.event (ends c' d')).index = if (s.event (ends c' d')).index = own.length - 1 then i
          else (s.event (ends c' d')).index := by
  have hown := g.getElem?_index hc hr
  have hlt := (List.getElem?_eq_some_iff.mp hown).1
  have hn := pred_nEvents hw g (by omega)
  obtain ⟨b, hb⟩ : ∃ b, own[own.length - 1]? = some b :=
    ⟨_, List.getElem?_eq_getElem (by omega)⟩
  obtain ⟨p, hp, hfd, -, hfile⟩ := g.slot_file hw hb
  have hbcs := ((g.mem b).mp (List.mem_of_getElem? hb)).1
  rcases Nat.lt_or_ge (s.event (ends c d)).index (own.length - 1) with hmove | hlast
  · have hbc : b ≠ c := by
      rintro rfl
      have := g.slot_inj hown hb
      omega
    have hne : ∀ d', ends c d ≠ ends b d' := fun d' h => hbc (hw.ends_inj hc hbcs h).1.symm
    have hfdb : (s.conn b).fd ≠ -1 := by have := hw.fd b hbcs; omega
    have hread : (s.conn b).read = some (ends b .read) := hw.side b hbcs .read
    have hwrite : (s.conn b).write = some (ends b .write) := hw.side b hbcs .write
    refine ⟨_, p, _, hown, hp, pollDelEvent_alone hw g hc hr ho (pollDelSlot_of_lt
      (s := s.setActive (ends c d) false) hn (by simpa using hmove) hp hfile hfdb hread hwrite), ?_⟩
    refine ⟨by simp, by simp, by simp, by simp, by simp, by simp, fun c' hc' d' he => ?_⟩
    refine ⟨by simp [he], ?_⟩
    have hx (h : (s.event (ends c' d')).index = own.length - 1) :
        ends c' d' = ends b .read ∨ ends c' d' = ends b .write := by
      obtain rfl := owner_of_index_eq_last hw g hb hc' h
      cases d' <;> simp
    rw [World.setIndex_index, if_neg he, World.repairIndex_both (hne .read) (hw.ne b hbcs)]
    · simp
    · simpa using hx
  · refine ⟨_, p, _, hown, hp, pollDelEvent_alone hw g hc hr ho (pollDelSlot_of_ge
      (s := s.setActive (ends c d) false) hn (by simpa using hlast)), ?_⟩
    refine ⟨by simp, by simp, by simp, ?_, by simp, by simp, fun c' hc' d' he => ?_⟩
    · obtain ⟨hlen, rfl⟩ := List.getElem?_eq_some_iff.mp hp
      have hii : (s.event (ends c d)).index = own.length - 1 := by omega
      simp [hii]
    · refine ⟨by simp [he], ?_⟩
      have hii : (s.event (ends c d)).index = own.length - 1 := by omega
      simp only [World.setIndex_index, if_neg he, World.setNEvents_event, World.setActive_index]
      split_ifs <;> omega

theorem del (hw : Wired cs ends s) (g : PollTable cs ends s own reg) (hc : c ∈ cs) (d : Side) :
    ∃ t own', pollDelEvent s (ends c d) d.pollEvent = some t ∧ SameWiring s t ∧
      PollTable cs ends t own' (register reg c d false) := by
  by_cases hr : reg c d = true
  · by_cases ho : reg c d.other = true
    · obtain ⟨i, p, hi, hp, ht⟩ := g.del_shared hw hc hr ho
      refine ⟨_, own, ht, ⟨rfl, rfl, by simp, by simp⟩, ?_⟩
      obtain ⟨q, hq, -, hmask⟩ := g.slot i c hi
      obtain rfl : p = q := Option.some.inj (hp.symm.trans hq)
      refine g.reslot hw hc ho hi hp rfl rfl ?_ ?_ fun e he => by simp [he]
      · rw [register, Function.update_self, interestMask_update, ← hmask]
        simp
      · simp [Placed]
    · rw [Bool.not_eq_true] at ho
      obtain ⟨i, p, t, hi, hp, ht, hconn, hfiles, hn, hev, hdata, hself, hrest⟩ :=
        g.del_alone hw hc hr ho
      exact ⟨t, _, ht, ⟨hconn, hfiles, by simp [hev], hdata⟩,
        g.freeslot hw hc hr ho hi hp hconn hn hev hself hrest⟩
  · rw [Bool.not_eq_true] at hr
    rw [g.del_unregistered hw hc hr, register_eq_self hr]
    exact ⟨_, own, rfl, ⟨rfl, rfl, rfl, fun _ => rfl⟩, g.alert _⟩

end PollTable

end Lingx.Events
