import Lingx.Events.PollTable

/-! Runs of the poll operations. From an empty table, any sequence of additions and
deletions leaves a table that represents the interest set of the sequence, and no
operation reads or writes out of range. -/

namespace Lingx.Events

open Library

variable {E C : Type} {w : ℕ} [DecidableEq E] {cs : List C} {ends : C → Side → E}
  {s t : World E C w}

/-- A call of `Poll_add_event_` or `Poll_del_event_` for one event of a connection. -/
inductive PollOp (C : Type) where
  | add (c : C) (d : Side)
  | del (c : C) (d : Side)
  deriving DecidableEq, Repr

def PollOp.conn : PollOp C → C
  | add c _ => c
  | del c _ => c

def pollStep (ends : C → Side → E) (s : World E C w) : PollOp C → Option (World E C w)
  | .add c d => pollAddEvent s (ends c d) d.pollEvent
  | .del c d => pollDelEvent s (ends c d) d.pollEvent

def pollRun (ends : C → Side → E) (s : World E C w) : List (PollOp C) → Option (World E C w)
  | [] => some s
  | op :: ops => (pollStep ends s op).bind fun t => pollRun ends t ops

/-- What an operation does to the interest set. -/
def PollOp.apply [DecidableEq C] (reg : C → Side → Bool) : PollOp C → C → Side → Bool
  | add c d => register reg c d true
  | del c d => register reg c d false

/-- A slot of the table, and the connection whose events are in it. -/
structure PollSlot (cs : List C) (ends : C → Side → E) (s : World E C w) (i : ℕ) (c : C)
    (p : PollFd) : Prop where
  mem : c ∈ cs
  owner : ∀ c' ∈ cs, (∃ d, (s.event (ends c' d)).index = i) ↔ c' = c
  slot : s.events[i]? = some p
  fd : p.fd = (s.conn c).fd
  events : p.events = (if (s.event (ends c .read)).index = i then POLLIN else 0) |||
    (if (s.event (ends c .write)).index = i then POLLOUT else 0)
  nonempty : p.events ≠ 0

/-- The representation invariant of the poll table. -/
structure PollInv (cs : List C) (ends : C → Side → E) (s : World E C w) : Prop where
  /-- every slot belongs to one connection -/
  slot : ∀ i < s.nEvents, ∃ c p, PollSlot cs ends s i c p
  /-- an index is invalid or the slot of the event's connection -/
  index : ∀ c ∈ cs, ∀ d, (s.event (ends c d)).index = INVALID_INDEX ∨
    (s.event (ends c d)).index < s.nEvents ∧
      ∃ p, PollSlot cs ends s (s.event (ends c d)).index c p
  /-- an event has a slot exactly when it is active -/
  active : ∀ c ∈ cs, ∀ d,
    (s.event (ends c d)).index ≠ INVALID_INDEX ↔ (s.event (ends c d)).active = true
  /-- there is a slot for every connection with a registered event -/
  count : s.nEvents = cs.countP fun c => ∃ d, (s.event (ends c d)).index ≠ INVALID_INDEX

namespace PollTable

variable {own : List C} {reg : C → Side → Bool} {c : C}

omit [DecidableEq E] in
/-- The events of a slot's owner that are registered are those with its index. -/
theorem index_eq_iff (hw : Wired cs ends s) (g : PollTable cs ends s own reg) {i : ℕ}
    (hi : own[i]? = some c) (d : Side) : (s.event (ends c d)).index = i ↔ reg c d = true := by
  have hc := ((g.mem c).mp (List.mem_of_getElem? hi)).1
  constructor
  · rintro rfl
    by_contra hr
    exact g.index_ne hw hi ((g.index_eq_invalid_iff hw hc d).mpr (by simpa using hr))
  · intro hr
    exact g.slot_inj (g.getElem?_index hc hr) hi

omit [DecidableEq E] in
theorem pollSlot (hw : Wired cs ends s) (g : PollTable cs ends s own reg) {i : ℕ}
    (hi : own[i]? = some c) : ∃ p, PollSlot cs ends s i c p := by
  obtain ⟨hc, d, hd⟩ := (g.mem c).mp (List.mem_of_getElem? hi)
  obtain ⟨p, hp, hfd, hmask⟩ := g.slot i c hi
  refine ⟨p, hc, fun c' hc' => ⟨fun ⟨d', hd'⟩ => ?_, ?_⟩, hp, hfd, ?_, ?_⟩
  · have hne : (s.event (ends c' d')).index ≠ INVALID_INDEX := hd' ▸ g.index_ne hw hi
    have hr : reg c' d' = true := by
      by_contra hr
      exact hne ((g.index_eq_invalid_iff hw hc' d').mpr (by simpa using hr))
    exact Option.some.inj ((hd' ▸ g.getElem?_index hc' hr).symm.trans hi)
  · rintro rfl
    exact ⟨d, (g.index_eq_iff hw hi d).mpr hd⟩
  · simp only [hmask, interestMask, g.index_eq_iff hw hi]
  · rw [hmask]
    exact interestMask_ne_zero hd

omit [DecidableEq E] in
theorem pollInv (hw : Wired cs ends s) (g : PollTable cs ends s own reg) : PollInv cs ends s where
  slot i hi := by
    rw [g.count] at hi
    obtain ⟨p, hp⟩ := g.pollSlot hw (List.getElem?_eq_getElem hi)
    exact ⟨_, p, hp⟩
  index c hc d := by
    by_cases hr : reg c d = true
    · have hown := g.getElem?_index hc hr
      exact .inr ⟨g.count ▸ (List.getElem?_eq_some_iff.mp hown).1, g.pollSlot hw hown⟩
    · exact .inl ((g.index_eq_invalid_iff hw hc d).mpr (by simpa using hr))
  active c hc d := by
    rw [Ne, g.index_eq_invalid_iff hw hc d, (g.placed c hc d).1, Bool.not_eq_false]
  count := by
    have hperm : own.Perm (cs.filter fun c => ∃ d, (s.event (ends c d)).index ≠ INVALID_INDEX) := by
      refine (List.perm_ext_iff_of_nodup g.nodup (hw.nodup.filter _)).mpr fun c => ?_
      rw [g.mem, List.mem_filter]
      refine and_congr_right fun hc => ?_
      simp [g.index_eq_invalid_iff hw hc]
    rw [g.count, hperm.length_eq, List.countP_eq_length_filter]

omit [DecidableEq E] in
theorem empty (cs : List C) (ends : C → Side → E) (hn : s.nEvents = 0)
    (h : ∀ c ∈ cs, ∀ d, (s.event (ends c d)).active = false ∧
      (s.event (ends c d)).index = INVALID_INDEX) :
    PollTable cs ends s [] fun _ _ => false :=
  ⟨.nil, by simp, hn, by simp, fun c hc d => ⟨(h c hc d).1, by simp [(h c hc d).2]⟩⟩

variable [DecidableEq C]

theorem step (hw : Wired cs ends s) (g : PollTable cs ends s own reg) {op : PollOp C}
    (hop : op.conn ∈ cs) : ∃ t own', pollStep ends s op = some t ∧ SameWiring s t ∧
      PollTable cs ends t own' (op.apply reg) := by
  cases op with
  | add c d => exact g.add hw hop d
  | del c d => exact g.del hw hop d

theorem run (hw : Wired cs ends s) (g : PollTable cs ends s own reg) {ops : List (PollOp C)}
    (hops : ∀ op ∈ ops, op.conn ∈ cs) : ∃ t own', pollRun ends s ops = some t ∧
      Wired cs ends t ∧ PollTable cs ends t own' (ops.foldl PollOp.apply reg) := by
  induction ops generalizing s own reg with
  | nil => exact ⟨s, own, rfl, hw, g⟩
  | cons op ops ih =>
    obtain ⟨u, own', hu, hsame, g'⟩ := g.step hw (hops op (by simp))
    obtain ⟨t, own'', ht, hwt, g''⟩ := ih (hw.congr hsame) g' fun o ho => hops o (by simp [ho])
    exact ⟨t, own'', by simp [pollRun, hu, ht], hwt, g''⟩

/-- What is registered from an empty table is wired and well formed; the default is not reached. -/
theorem registered (hw : Wired cs ends s) (hn : s.nEvents = 0)
    (h : ∀ c ∈ cs, ∀ d, (s.event (ends c d)).active = false ∧
      (s.event (ends c d)).index = INVALID_INDEX) {ops : List (PollOp C)}
    (hops : ∀ op ∈ ops, op.conn ∈ cs) (u : World E C w) :
    Wired cs ends ((pollRun ends s ops).getD u) ∧ PollInv cs ends ((pollRun ends s ops).getD u) := by
  obtain ⟨t, own, ht, hwt, g⟩ := (empty cs ends hn h).run hw hops
  rw [ht, Option.getD_some]
  exact ⟨hwt, g.pollInv hwt⟩

end PollTable

/-- From an empty table and events without slots, every sequence of additions and
deletions keeps the table well formed and stays in range. -/
theorem pollRun_invariant (cs : List C) (ends : C → Side → E) (s₀ : World E C w)
    (hw : Wired cs ends s₀) (hn : s₀.nEvents = 0)
    (h₀ : ∀ c ∈ cs, ∀ d, (s₀.event (ends c d)).active = false ∧
      (s₀.event (ends c d)).index = INVALID_INDEX)
    (ops : List (PollOp C)) (hops : ∀ op ∈ ops, op.conn ∈ cs) :
    ∃ s, pollRun ends s₀ ops = some s ∧ PollInv cs ends s := by
  classical
  obtain ⟨s, own, hs, hws, g⟩ := (PollTable.empty cs ends hn h₀).run hw hops
  exact ⟨s, hs, g.pollInv hws⟩

/-- Two connections with descriptors 0 and 1 and a table of two slots. -/
def twoConnections : World (Bool × Side) Bool 64 :=
  { World.zero true with
    event e := (World.zero e.1 : World (Bool × Side) Bool 64).event e
    conn c := ⟨some (c, .read), some (c, .write), if c then 1 else 0⟩
    files := [some false, some true]
    events := [⟨0, 0, 0⟩, ⟨0, 0, 0⟩] }

/-- The deletion moves the slot that both events of the other connection share. -/
theorem pollRun_invariant_moved : ∃ s, pollRun (·, ·) twoConnections [.add false .read,
    .add true .write, .add true .read, .del false .read, .del false .read] = some s ∧
      PollInv [false, true] (·, ·) s :=
  pollRun_invariant [false, true] (·, ·) twoConnections
    ⟨by decide, fun _ _ d => by cases d <;> rfl, fun _ _ _ => rfl, by decide, by decide, by decide,
      by decide, by decide⟩
    rfl (fun _ _ _ => ⟨rfl, rfl⟩) _ (by decide)

end Lingx.Events
