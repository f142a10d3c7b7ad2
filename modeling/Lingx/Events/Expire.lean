import Lingx.Events.Timer
import Lingx.Library.WriteLog

/-! `Event_expire_timers` with handlers that insert and erase timers while it runs.
The tree is a map from the pending timers to their keys, and the log of a run the
writes to that map. What a log says is derived from the entries alone; the loop is
shown to write such a log. -/

namespace Lingx.Events

open Library WriteLog

variable {E C : Type} {w : ℕ}

/-- What happens to a timer while the loop runs. -/
inductive TimerEntry (E C : Type) (w : ℕ) where
  /-- the loop calls the handler of an event, in this state -/
  | called (ev : E) (at_ : World E C w)
  | inserted (ev : E) (key : Msec w)
  | erased (ev : E)

namespace TimerEntry

def event : TimerEntry E C w → E
  | called ev _ => ev
  | inserted ev _ => ev
  | erased ev => ev

def write : TimerEntry E C w → E × Option (Msec w)
  | called ev _ => (ev, none)
  | inserted ev key => (ev, some key)
  | erased ev => (ev, none)

@[simp] theorem write_fst (x : TimerEntry E C w) : x.write.1 = x.event := by cases x <;> rfl

/-- When the entry can be written, the pending timers being `m`: the loop takes due
timers, and timers are inserted for later. -/
def Enabled (now : Msec w) (m : E → Option (Msec w)) : TimerEntry E C w → Prop
  | called ev _ => ∃ key ∈ m ev, key ≤ now
  | inserted ev key => m ev = none ∧ now < key
  | erased ev => m ev ≠ none

end TimerEntry

/-- The events whose handlers are called, in the order of the calls. -/
def calledTimers (log : List (TimerEntry E C w)) : List E :=
  log.filterMap fun
    | .called ev _ => some ev
    | _ => none

theorem mem_calledTimers {log : List (TimerEntry E C w)} {ev : E} :
    ev ∈ calledTimers log ↔ ∃ u, .called ev u ∈ log := by
  rw [calledTimers, List.mem_filterMap]
  constructor
  · rintro ⟨x, hx, he⟩
    cases x with
    | called e u => exact ⟨u, by cases he; exact hx⟩
    | inserted e key => cases he
    | erased e => cases he
  · rintro ⟨u, hu⟩
    exact ⟨_, hu, rfl⟩

section Log
variable [DecidableEq E] {now : Msec w} {m : E → Option (Msec w)}
  {log log' : List (TimerEntry E C w)} {ev : E} {key : Msec w}

/-- Each entry of the log can be written when it is. -/
def Follows (now : Msec w) : (E → Option (Msec w)) → List (TimerEntry E C w) → Prop
  | _, [] => True
  | m, x :: log => x.Enabled now m ∧ Follows now (Function.update m x.write.1 x.write.2) log

theorem follows_append : Follows now m (log ++ log') ↔
    Follows now m log ∧ Follows now (replay TimerEntry.write m log) log' := by
  induction log generalizing m with
  | nil => simp [Follows]
  | cons x log ih => simp [Follows, ih, and_assoc]

theorem Follows.untouched (h : Follows now m log) (hm : m ev = some key) (hk : now < key)
    (hno : .erased ev ∉ log) : ∀ x ∈ log, x.event ≠ ev := by
  induction log generalizing m with
  | nil => simp
  | cons x log ih =>
    obtain ⟨hx, hlog⟩ := h
    rw [List.mem_cons, not_or] at hno
    have hne : x.event ≠ ev := by
      rintro rfl
      cases x with
      | called e u =>
        obtain ⟨key', hm', hle⟩ := hx
        rw [TimerEntry.event] at hm
        rw [hm, Option.mem_some_iff] at hm'
        exact BitVec.not_le.mpr hk (hm' ▸ hle)
      | inserted e key' => simp [TimerEntry.event, hx.1] at hm
      | erased e => exact hno.1 rfl
    refine List.forall_mem_cons.mpr ⟨hne, ih hlog ?_ hno.2⟩
    rw [TimerEntry.write_fst, Function.update_of_ne hne.symm, hm]

/-- The handler of a timer is called when the timer was due from the start and
nothing happened to it. -/
theorem Follows.called {l₁ l₂ : List (TimerEntry E C w)} {u : World E C w}
    (h : Follows now m (l₁ ++ .called ev u :: l₂)) :
    (∃ key ∈ m ev, key ≤ now) ∧ ∀ x ∈ l₁, x.event ≠ ev := by
  induction l₁ generalizing m with
  | nil => exact ⟨h.1, by simp⟩
  | cons x l₁ ih =>
    obtain ⟨hx, hlog⟩ := h
    obtain ⟨⟨key, hkey, hle⟩, hl₁⟩ := ih hlog
    by_cases hne : x.event = ev
    · subst hne
      rw [TimerEntry.write_fst, Function.update_self] at hkey
      cases x with
      | called e u => cases hkey
      | inserted e key' =>
        obtain rfl : key' = key := Option.some.inj hkey
        exact absurd hle (BitVec.not_le.mpr hx.2)
      | erased e => cases hkey
    · rw [TimerEntry.write_fst, Function.update_of_ne (Ne.symm hne)] at hkey
      exact ⟨⟨key, hkey, hle⟩, List.forall_mem_cons.mpr ⟨hne, hl₁⟩⟩

theorem Follows.served (h : Follows now m log) (hm : m ev = some key)
    (hend : replay TimerEntry.write m log ev ≠ some key) :
    ev ∈ calledTimers log ∨ .erased ev ∈ log := by
  induction log generalizing m with
  | nil => exact absurd hm hend
  | cons x log ih =>
    obtain ⟨hx, hlog⟩ := h
    by_cases hne : x.event = ev
    · subst hne
      cases x with
      | called e u => exact .inl (mem_calledTimers.mpr ⟨u, by simp [TimerEntry.event]⟩)
      | inserted e key' => simp [TimerEntry.event, hx.1] at hm
      | erased e => exact .inr (by simp [TimerEntry.event])
    · have hm' : Function.update m x.write.1 x.write.2 ev = some key := by
        rw [TimerEntry.write_fst, Function.update_of_ne (Ne.symm hne), hm]
      rcases ih hlog hm' hend with hc | he
      · obtain ⟨u, hu⟩ := mem_calledTimers.mp hc
        exact .inl (mem_calledTimers.mpr ⟨u, by simp [hu]⟩)
      · exact .inr (by simp [he])

/-- The timers for later at the end are those that were pending or inserted and not
erased after that. -/
theorem Follows.replay_eq_some_iff (h : Follows now m log) (hk : now < key) :
    replay TimerEntry.write m log ev = some key ↔
      (∃ l₁ l₂, log = l₁ ++ .inserted ev key :: l₂ ∧ .erased ev ∉ l₂) ∨
        m ev = some key ∧ .erased ev ∉ log := by
  have hmem : ∀ {l : List (TimerEntry E C w)}, (∀ x ∈ l, x.event ≠ ev) → .erased ev ∉ l :=
    fun hl he => hl _ he rfl
  constructor
  · intro hr
    rcases replay_eq_iff.mp hr with ⟨l₁, x, l₂, rfl, hx, hl₂⟩ | ⟨hm, hno⟩
    · simp only [TimerEntry.write_fst] at hl₂
      cases x with
      | called e u => cases hx
      | inserted e key' =>
        obtain ⟨rfl, hs⟩ := Prod.mk.inj hx
        obtain rfl := Option.some.inj hs
        exact .inl ⟨l₁, l₂, rfl, hmem hl₂⟩
      | erased e => cases hx
    · exact .inr ⟨hm, hmem (by simpa using hno)⟩
  · rintro (⟨l₁, l₂, rfl, hl₂⟩ | ⟨hm, hno⟩)
    · obtain ⟨-, -, hlog⟩ := follows_append.mp h
      have hun : ∀ x ∈ l₂, x.event ≠ ev :=
        hlog.untouched (Function.update_self _ _ _) hk hl₂
      exact replay_eq_iff.mpr (.inl ⟨l₁, _, l₂, rfl, rfl, by simpa using hun⟩)
    · exact replay_eq_iff.mpr (.inr ⟨hm, by simpa using h.untouched hm hk hno⟩)

end Log

variable [DecidableEq E]

/-- The keys of the pending timers. -/
def World.timers (s : World E C w) (ev : E) : Option (Msec w) :=
  if ev ∈ s.timerRbtree then some (s.timerKey ev) else none

/-- A handler clears a timer: `tree.erase(&ev->timer)`. -/
def eraseTimer (s : World E C w) (ev : E) : World E C w :=
  let tree := s.timerRbtree.filter fun e => s.timerKey e ≠ s.timerKey ev
  { s.setEvent ev fun e => { e with timerSet := false } with timerRbtree := tree }

/-- One thing a handler does while the loop runs. -/
inductive TimerAct (E C : Type) (w : ℕ) where
  | insert (ev : E) (key : Msec w)
  | erase (ev : E)
  | other (f : World E C w → World E C w)

namespace TimerAct

def run : TimerAct E C w → World E C w → World E C w
  | insert ev key, s => armTimer s ev key
  | erase ev, s => eraseTimer s ev
  | other f, s => f s

/-- A handler inserts timers with fresh keys for later, erases pending timers, and
leaves the timers alone in what else it does. -/
def Allowed : TimerAct E C w → World E C w → Prop
  | insert ev key, s => ev ∉ s.timerRbtree ∧ s.currentMsec < key ∧
      ∀ e ∈ s.timerRbtree, s.timerKey e ≠ key
  | erase ev, s => ev ∈ s.timerRbtree
  | other f, s => (f s).timerRbtree = s.timerRbtree ∧ (f s).currentMsec = s.currentMsec ∧
      ∀ e ∈ s.timerRbtree, (f s).timerKey e = s.timerKey e

/-- What the log of a run says of it. -/
def entries : TimerAct E C w → List (TimerEntry E C w)
  | insert ev key => [.inserted ev key]
  | erase ev => [.erased ev]
  | other _ => []

end TimerAct

def runActs (acts : List (TimerAct E C w)) (s : World E C w) : World E C w :=
  acts.foldl (fun s act => act.run s) s

def ActsAllowed : List (TimerAct E C w) → World E C w → Prop
  | [], _ => True
  | act :: acts, s => act.Allowed s ∧ ActsAllowed acts (act.run s)

/-- The handlers that do, called of an event in a state, what `acts` says. -/
def timerHandler (acts : E → World E C w → List (TimerAct E C w)) (ev : E) (s : World E C w) :
    World E C w := runActs (acts ev s) s

/-- The log of at most `n` turns of the loop. -/
def expireLog (acts : E → World E C w → List (TimerAct E C w)) :
    ℕ → World E C w → List (TimerEntry E C w)
  | 0, _ => []
  | n + 1, s => match expireTimersTurn s with
    | none => []
    | some (ev, s) => .called ev s :: (acts ev s).flatMap TimerAct.entries ++
        expireLog acts n (timerHandler acts ev s)

/-- What the loop, and the handlers in it, keep. -/
structure TimerRun (s t : World E C w) (log : List (TimerEntry E C w)) : Prop where
  ordered : t.TimersOrdered
  currentMsec : t.currentMsec = s.currentMsec
  follows : Follows s.currentMsec s.timers log
  timers : t.timers = replay TimerEntry.write s.timers log
  due : (calledTimers log ++ t.dueTimers).Sublist s.dueTimers

namespace TimerRun
variable {s t u : World E C w} {log log' : List (TimerEntry E C w)}

theorem refl (ho : s.TimersOrdered) : TimerRun s s [] :=
  ⟨ho, rfl, trivial, rfl, List.Sublist.refl _⟩

theorem trans (h : TimerRun s t log) (h' : TimerRun t u log') : TimerRun s u (log ++ log') where
  ordered := h'.ordered
  currentMsec := h'.currentMsec.trans h.currentMsec
  follows := by
    rw [follows_append, ← h.timers, ← h.currentMsec]
    exact ⟨h.currentMsec ▸ h.follows, h'.follows⟩
  timers := by rw [replay_append, ← h.timers, h'.timers]
  due := by
    rw [calledTimers, List.filterMap_append, List.append_assoc]
    exact ((List.Sublist.refl _).append h'.due).trans h.due

end TimerRun

section Steps
variable {s t : World E C w} {ev : E} {key : Msec w}

theorem mem_timers : key ∈ s.timers ev ↔ ev ∈ s.timerRbtree ∧ s.timerKey ev = key := by
  rw [World.timers]
  split_ifs with h <;> simp [h]

omit [DecidableEq E] in
theorem mem_dueTimers :
    ev ∈ s.dueTimers ↔ ev ∈ s.timerRbtree ∧ s.timerKey ev ≤ s.currentMsec := by
  simp [World.dueTimers]

omit [DecidableEq E] in
theorem World.TimersOrdered.key_inj (ho : s.TimersOrdered) {e : E} (he : e ∈ s.timerRbtree)
    (hev : ev ∈ s.timerRbtree) (hk : s.timerKey e = s.timerKey ev) : e = ev := by
  have hn : (s.timerRbtree.map s.timerKey).Nodup :=
    List.pairwise_map.mpr (ho.imp fun h => BitVec.ne_of_lt h)
  exact List.inj_on_of_nodup_map hn he hev hk

/-- The pending timers after a change, where one of them changes. -/
theorem timers_eq_update {v : Option (Msec w)} (hev : t.timers ev = v)
    (hmem : ∀ e, e ≠ ev → (e ∈ t.timerRbtree ↔ e ∈ s.timerRbtree))
    (hkey : ∀ e, e ≠ ev → e ∈ s.timerRbtree → t.timerKey e = s.timerKey e) :
    t.timers = Function.update s.timers ev v := by
  funext e
  by_cases he : e = ev
  · subst he
    rw [hev, Function.update_self]
  · rw [Function.update_of_ne he, World.timers, World.timers]
    by_cases hs : e ∈ s.timerRbtree
    · rw [if_pos ((hmem e he).mpr hs), if_pos hs, hkey e he hs]
    · rw [if_neg fun h => hs ((hmem e he).mp h), if_neg hs]

/-- A turn of the loop takes the timer out of the tree before the handler's call. -/
theorem expireTimersTurn_run (ho : s.TimersOrdered) (h : expireTimersTurn s = some (ev, t)) :
    TimerRun s t [.called ev t] ∧
      ev ∉ t.timerRbtree ∧ (t.event ev).timerSet = false ∧ (t.event ev).timedout = true := by
  obtain ⟨ho', hdue, hmsec, -⟩ := expireTimersTurn_some ho h
  cases hl : s.timerRbtree with
  | nil => simp [expireTimersTurn, hl] at h
  | cons e tree =>
    simp only [expireTimersTurn, hl] at h
    split_ifs at h with hk
    obtain ⟨rfl, ht⟩ := Prod.mk.inj (Option.some.inj h)
    have htree : t.timerRbtree = tree := by rw [← ht]; rfl
    have hkey : t.timerKey = s.timerKey := by
      rw [← ht]
      exact setEvent_timerKey { s with timerRbtree := tree } e
        (f := fun m => { m with timerSet := false, timedout := true }) rfl
    have hnot : e ∉ t.timerRbtree := by
      have hnd := OrderedSet.Ordered.nodup ho
      rw [hl] at hnd
      rw [htree]
      exact (List.nodup_cons.mp hnd).1
    refine ⟨⟨ho', hmsec, ⟨⟨s.timerKey e, ?_, BitVec.not_lt.mp hk⟩, trivial⟩, ?_, ?_⟩, hnot, ?_, ?_⟩
    · rw [mem_timers, hl]
      simp
    · refine timers_eq_update (if_neg hnot) (fun x hx => ?_) fun x _ _ => congrFun hkey x
      rw [htree, hl]
      exact ⟨List.mem_cons_of_mem _, fun h => (List.mem_cons.mp h).resolve_left hx⟩
    · rw [hdue]
      exact List.Sublist.refl _
    · rw [← ht]; simp [World.observe, World.setEvent]
    · rw [← ht]; simp [World.observe, World.setEvent]

theorem armTimer_run (ho : s.TimersOrdered) (hev : ev ∉ s.timerRbtree)
    (hk : s.currentMsec < key) (hfresh : ∀ e ∈ s.timerRbtree, s.timerKey e ≠ key) :
    TimerRun s (armTimer s ev key) [.inserted ev key] := by
  obtain ⟨ho', hdue⟩ := armTimer_timers ho hev hk
  let u := s.setEvent ev fun e => { e with timerKey := key, timerSet := true }
  have hself : u.timerKey ev = key := by simp [u, World.timerKey, World.setEvent]
  have hkey : ∀ e, e ≠ ev → u.timerKey e = s.timerKey e := fun e he => by
    simp [u, World.timerKey, World.setEvent, he]
  have hou : OrderedSet.Ordered (rbnodePtrCmp u.timerKey) s.timerRbtree :=
    (timers_congr (s := s) (t := u) rfl rfl fun e he =>
      hkey e fun h => hev (h ▸ he)).1.mpr ho
  have hmem : ev ∈ rbtreeInsert u.timerKey s.timerRbtree ev := by
    rw [rbtreeInsert, OrderedSet.mem_insert_self_iff hou]
    intro e he heq
    rw [equivalent_rbnodePtrCmp, hself, hkey e fun h => hev (h ▸ he)] at heq
    exact absurd heq.symm (hfresh e he)
  refine ⟨ho', rfl, ⟨⟨if_neg hev, hk⟩, trivial⟩, ?_, ?_⟩
  · refine timers_eq_update ?_ (fun e he => ?_) fun e he _ => hkey e he
    · exact mem_timers.mpr ⟨hmem, hself⟩
    · exact ⟨fun h => (OrderedSet.mem_of_mem_insert h).resolve_left he,
        fun h => (OrderedSet.sublist_insert (rbnodePtrCmp u.timerKey) ev _).subset h⟩
  · rw [hdue]
    exact List.Sublist.refl _

theorem eraseTimer_run (ho : s.TimersOrdered) (hev : ev ∈ s.timerRbtree) :
    TimerRun s (eraseTimer s ev) [.erased ev] := by
  have hkey : (eraseTimer s ev).timerKey = s.timerKey :=
    setEvent_timerKey s ev (f := fun e => { e with timerSet := false }) rfl
  have hsub : (eraseTimer s ev).timerRbtree.Sublist s.timerRbtree := List.filter_sublist
  have hmem : ∀ e, e ∈ (eraseTimer s ev).timerRbtree ↔ e ∈ s.timerRbtree ∧ e ≠ ev := by
    intro e
    simp only [eraseTimer, List.mem_filter, decide_eq_true_eq]
    refine and_congr_right fun he => not_congr ⟨ho.key_inj he hev, ?_⟩
    rintro rfl
    rfl
  refine ⟨?_, rfl, ⟨?_, trivial⟩, ?_, ?_⟩
  · rw [World.TimersOrdered, hkey]
    exact List.Pairwise.sublist hsub ho
  · simp [TimerEntry.Enabled, World.timers, hev]
  · refine timers_eq_update ?_ (fun e he => ?_) fun e _ _ => congrFun hkey e
    · exact if_neg fun h => ((hmem ev).mp h).2 rfl
    · exact (hmem e).trans (and_iff_left he)
  · have hdue : (eraseTimer s ev).dueTimers =
        (eraseTimer s ev).timerRbtree.filter fun e => s.timerKey e ≤ s.currentMsec := by
      rw [World.dueTimers, hkey]
      rfl
    rw [hdue]
    exact hsub.filter _

theorem TimerAct.run_run {act : TimerAct E C w} (ho : s.TimersOrdered) (h : act.Allowed s) :
    TimerRun s (act.run s) act.entries := by
  cases act with
  | insert ev key => exact armTimer_run ho h.1 h.2.1 h.2.2
  | erase ev => exact eraseTimer_run ho h
  | other f =>
    obtain ⟨htree, hmsec, hkey⟩ := h
    obtain ⟨hord, hdue⟩ := timers_congr htree hmsec hkey
    refine ⟨hord.mpr ho, hmsec, trivial, ?_, ?_⟩
    · funext e
      simp only [TimerAct.run, TimerAct.entries, replay_nil, World.timers, htree]
      split_ifs with he
      · rw [hkey e he]
      · rfl
    · rw [TimerAct.run, hdue]
      exact List.Sublist.refl _

theorem runActs_run {acts : List (TimerAct E C w)} (ho : s.TimersOrdered)
    (h : ActsAllowed acts s) : TimerRun s (runActs acts s) (acts.flatMap TimerAct.entries) := by
  induction acts generalizing s with
  | nil => exact .refl ho
  | cons act acts ih =>
    have hact := TimerAct.run_run ho h.1
    exact hact.trans (ih hact.ordered h.2)

end Steps

section Reentrant
variable {acts : E → World E C w → List (TimerAct E C w)} {s t : World E C w}

omit [DecidableEq E] in
theorem calledTimers_entries (as : List (TimerAct E C w)) :
    calledTimers (as.flatMap TimerAct.entries) = [] := by
  induction as with
  | nil => rfl
  | cons act as ih =>
    rw [List.flatMap_cons, calledTimers, List.filterMap_append]
    cases act <;> exact ih

/-- The handlers called are those in the log, and each is called after its timer was
taken out of the tree. -/
structure LogOf (fired : List E) (log : List (TimerEntry E C w)) : Prop where
  fired : fired = calledTimers log
  taken : ∀ ev u, .called ev u ∈ log →
    ev ∉ u.timerRbtree ∧ (u.event ev).timerSet = false ∧ (u.event ev).timedout = true

/-- The loop returns after as many turns as there are due timers, and one more. -/
theorem eventExpireTimers_run (hacts : ∀ ev s, s.TimersOrdered → ActsAllowed (acts ev s) s)
    (ho : s.TimersOrdered) {n : ℕ} (hn : s.dueTimers.length < n) :
    ∃ t, eventExpireTimers (timerHandler acts) n s = (t, true) ∧ t.dueTimers = [] ∧
      TimerRun s t (expireLog acts n s) ∧
      LogOf (firedTimers (timerHandler acts) n s) (expireLog acts n s) := by
  induction n generalizing s with
  | zero => omega
  | succ n ih =>
    cases hturn : expireTimersTurn s with
    | none =>
      simp only [eventExpireTimers, firedTimers, expireLog, hturn]
      exact ⟨s, rfl, (expireTimersTurn_none ho).mp hturn, .refl ho, rfl, by simp⟩
    | some r =>
      obtain ⟨ev, u⟩ := r
      obtain ⟨hu, htaken⟩ := expireTimersTurn_run ho hturn
      have hact := runActs_run hu.ordered (hacts ev u hu.ordered)
      have hrun : TimerRun s (timerHandler acts ev u)
          (.called ev u :: (acts ev u).flatMap TimerAct.entries) := hu.trans hact
      -- the handler makes no timer due, so the turn leaves one less
      have hlen : (timerHandler acts ev u).dueTimers.length < n := by
        have hdue := hrun.due.length_le
        simp only [calledTimers, List.filterMap_cons, List.length_append, List.length_cons] at hdue
        omega
      obtain ⟨t, ht, hnone, htail, hfired, hcalls⟩ := ih hrun.ordered hlen
      simp only [eventExpireTimers, firedTimers, expireLog, hturn]
      refine ⟨t, ht, hnone, hrun.trans htail, ?_, fun e v hv => ?_⟩
      · rw [hfired]
        simp only [calledTimers, List.cons_append, List.filterMap_cons, List.filterMap_append]
        rw [← calledTimers, ← calledTimers, calledTimers_entries]
        rfl
      · rw [List.cons_append, List.mem_cons, List.mem_append] at hv
        rcases hv with hv | hv | hv
        · cases hv
          exact htaken
        · have hmem := mem_calledTimers.mpr ⟨v, hv⟩
          rw [calledTimers_entries] at hmem
          cases hmem
        · exact hcalls e v hv

/-- What the log of a call of `Event_expire_timers` says of it. -/
structure ExpireSpec (s t : World E C w) (log : List (TimerEntry E C w)) : Prop where
  /-- the handlers called are of timers that were due, in the order of their keys -/
  due : ∀ ev ∈ calledTimers log, ev ∈ s.dueTimers
  once : (calledTimers log).Nodup
  increasing : (calledTimers log).Pairwise fun a b => s.timerKey a < s.timerKey b
  /-- every due timer is called unless it is erased, and none is after it was erased -/
  served : ∀ ev ∈ s.dueTimers, ev ∈ calledTimers log ∨ .erased ev ∈ log
  unerased : ∀ l₁ ev u l₂, log = l₁ ++ .called ev u :: l₂ → .erased ev ∉ l₁
  taken : ∀ ev u, .called ev u ∈ log →
    ev ∉ u.timerRbtree ∧ (u.event ev).timerSet = false ∧ (u.event ev).timedout = true
  /-- the tree holds the timers for later, pending or inserted and not erased after -/
  pending : ∀ ev key, t.timers ev = some key ↔ s.currentMsec < key ∧
    ((∃ l₁ l₂, log = l₁ ++ .inserted ev key :: l₂ ∧ .erased ev ∉ l₂) ∨
      s.timers ev = some key ∧ .erased ev ∉ log)

theorem TimerRun.spec {log : List (TimerEntry E C w)} {fired : List E} (ho : s.TimersOrdered)
    (h : TimerRun s t log) (hnone : t.dueTimers = []) (hl : LogOf fired log) :
    ExpireSpec s t log := by
  have hsub : (calledTimers log).Sublist s.dueTimers := by
    simpa [hnone] using h.due
  have hlater : ∀ ev key, t.timers ev = some key → s.currentMsec < key := by
    intro ev key hk
    obtain ⟨hmem, rfl⟩ := mem_timers.mp hk
    refine BitVec.not_le.mp fun hle => ?_
    have hdue : ev ∈ t.dueTimers := mem_dueTimers.mpr ⟨hmem, h.currentMsec ▸ hle⟩
    simp [hnone] at hdue
  have hord : (calledTimers log).Pairwise fun a b => s.timerKey a < s.timerKey b :=
    List.Pairwise.sublist (hsub.trans List.filter_sublist) ho
  refine ⟨fun ev he => hsub.subset he, ?_, hord, fun ev he => ?_, ?_, hl.taken, fun ev key => ?_⟩
  · exact (OrderedSet.Ordered.nodup ho).sublist (hsub.trans List.filter_sublist)
  · obtain ⟨hmem, hle⟩ := mem_dueTimers.mp he
    refine h.follows.served (mem_timers.mpr ⟨hmem, rfl⟩) fun hend => ?_
    rw [← h.timers] at hend
    exact BitVec.not_le.mpr (hlater ev _ hend) hle
  · rintro l₁ ev u l₂ rfl he
    exact (h.follows.called).2 _ he rfl
  · rw [h.timers]
    constructor
    · intro hk
      have hlt : s.currentMsec < key := hlater ev key (h.timers ▸ hk)
      exact ⟨hlt, (h.follows.replay_eq_some_iff hlt).mp hk⟩
    · rintro ⟨hlt, hk⟩
      exact (h.follows.replay_eq_some_iff hlt).mpr hk

/-- `Event_expire_timers` returns whatever timers the handlers insert and erase. It
calls the handlers of the timers that were due and are not erased before their turn,
each once, in the order of their keys, and leaves the timers for later. -/
theorem eventExpireTimers_reentrant (acts : E → World E C w → List (TimerAct E C w))
    (hacts : ∀ ev s, s.TimersOrdered → ActsAllowed (acts ev s) s) (s : World E C w)
    (ho : s.TimersOrdered) (n : ℕ) (hn : s.dueTimers.length < n) :
    ∃ t, eventExpireTimers (timerHandler acts) n s = (t, true) ∧ t.TimersOrdered ∧
      firedTimers (timerHandler acts) n s = calledTimers (expireLog acts n s) ∧
      ExpireSpec s t (expireLog acts n s) := by
  obtain ⟨t, ht, hnone, hrun, hlog⟩ := eventExpireTimers_run hacts ho hn
  exact ⟨t, ht, hrun.ordered, hlog.fired, hrun.spec ho hnone hlog⟩

end Reentrant

/-- Four timers, the first three of them due. -/
def fourTimers : World ℕ Unit 64 :=
  { (World.zero () : World ℕ Unit 64) with
    event ev := ⟨(), false, false, false, false, true, false, INVALID_INDEX, .ofNat 64 (5 * ev)⟩
    timerRbtree := [0, 1, 2, 3]
    currentMsec := 12 }

/-- The first handler erases the second timer, the third arms its own again. -/
def eraseAndRearm (ev : ℕ) (s : World ℕ Unit 64) : List (TimerAct ℕ Unit 64) :=
  if ev = 0 ∧ 1 ∈ s.timerRbtree then [.erase 1]
  else if ev = 2 ∧ 2 ∉ s.timerRbtree ∧ s.currentMsec < 20 ∧
      ∀ e ∈ s.timerRbtree, s.timerKey e ≠ 20 then [.insert 2 20]
  else []

theorem eventExpireTimers_reentrant_rearm :
    ∃ t, eventExpireTimers (timerHandler eraseAndRearm) 4 fourTimers = (t, true) ∧
      t.TimersOrdered ∧ firedTimers (timerHandler eraseAndRearm) 4 fourTimers =
        calledTimers (expireLog eraseAndRearm 4 fourTimers) ∧
      ExpireSpec fourTimers t (expireLog eraseAndRearm 4 fourTimers) := by
  refine eventExpireTimers_reentrant eraseAndRearm (fun ev s _ => ?_) fourTimers ?_ 4 ?_
  · simp only [eraseAndRearm]
    split_ifs with h₁ h₂
    · exact ⟨h₁.2, trivial⟩
    · exact ⟨h₂.2, trivial⟩
    · trivial
  · have ho : [0, 1, 2, 3].Pairwise (rbnodePtrCmp fourTimers.timerKey) := by decide
    exact ho
  · decide

end Lingx.Events
