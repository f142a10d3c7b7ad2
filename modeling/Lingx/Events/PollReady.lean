import Lingx.Events.Loop

/-! What `Poll_process_events_` posts. A slot that poll reports something for has at
least one active event that is reported, since its mask holds active events only and
the error events stand for both directions. So every turn of the loop that counts a
slot down posts an event, the counter ends at 0, and the state after the loop is that
before it with the ready events posted, slot by slot. -/

namespace Lingx.Events

open Library

variable {E C : Type} {w : ℕ} [DecidableEq E]

/-- The events of a `revents` that stand for both directions. -/
def POLLERRORS : PollMask := POLLERR ||| POLLHUP ||| POLLNVAL

theorem and_or_ne_zero {r a b : PollMask} : r &&& (a ||| b) ≠ 0 ↔ r &&& a ≠ 0 ∨ r &&& b ≠ 0 := by
  have h : r &&& (a ||| b) = 0 ↔ r &&& a = 0 ∧ r &&& b = 0 := by
    rw [BitVec.and_or_distrib_left]
    exact BitVec.or_eq_zero_iff
  rw [Ne, h, not_and_or]

theorem and_ne_zero_of_subset {r m : PollMask} (h : r &&& ~~~m = 0) (hr : r ≠ 0) :
    r &&& m ≠ 0 := by
  have hall : r &&& (m ||| ~~~m) = r := by
    rw [BitVec.or_not_self, BitVec.and_allOnes]
  exact (and_or_ne_zero.mp (hall.symm ▸ hr)).resolve_right fun hn => hn h

/-- A direction is reported through its own bit or through an error bit. -/
theorem reported_iff {revents : PollMask} {d : Side} :
    Reported revents d ↔ revents &&& (d.pollEvent ||| POLLERRORS) ≠ 0 := by
  rw [and_or_ne_zero, Reported, expandRevents, ← POLLERRORS]
  split_ifs with he
  · refine iff_of_true ?_ (.inr he)
    rw [BitVec.and_comm]
    exact and_or_ne_zero.mpr (.inr (by cases d <;> decide))
  · exact (or_iff_left he).symm

/-- Of a mask that is not empty some direction is reported, for which poll was asked. -/
theorem exists_reported {revents : PollMask} (reg : Side → Prop) [DecidablePred reg]
    (hmask : revents &&& ~~~((if reg .read then POLLIN else 0) |||
      (if reg .write then POLLOUT else 0) ||| POLLERRORS) = 0)
    (hreg : ∃ d, reg d) (hne : revents ≠ 0) : ∃ d, reg d ∧ Reported revents d := by
  simp only [reported_iff, and_or_ne_zero]
  rcases and_or_ne_zero.mp (and_ne_zero_of_subset hmask hne) with h | he
  · rcases and_or_ne_zero.mp h with h | h <;> split_ifs at h with hr
    · exact ⟨.read, hr, .inl h⟩
    · simp at h
    · exact ⟨.write, hr, .inl h⟩
    · simp at h
  · obtain ⟨d, hd⟩ := hreg
    exact ⟨d, hd, .inr he⟩

/-- Events are marked ready and posted, each to its queue; nothing else changes but
the alerts, none of which is that of the counter. -/
structure Posts (s t : World E C w) (l : List (E × PostedQueue)) : Prop where
  frame : PollFrame s t
  event : ∀ ev, t.event ev = if ev ∈ l.map Prod.fst then
    { s.event ev with ready := true, posted := true } else s.event ev
  lanes : ∀ lane, Queues s lane → Queues t fun q => lane q ++
    (l.filter fun x => x.2 = q ∧ (s.event x.1).posted = false).map Prod.fst
  alerts : ∃ new, t.alerts = s.alerts ++ new ∧ .readyNeEvents ∉ new

namespace Posts

variable {s t u : World E C w} {l l' : List (E × PostedQueue)}

theorem refl (s : World E C w) : Posts s s [] :=
  ⟨.refl s, by simp, fun lane g => by simpa using g, [], by simp⟩

theorem trans (h : Posts s t l) (h' : Posts t u l')
    (hd : ∀ ev ∈ l'.map Prod.fst, ev ∉ l.map Prod.fst) : Posts s u (l ++ l') where
  frame := h.frame.trans h'.frame
  event ev := by
    rw [h'.event, h.event, List.map_append]
    by_cases hl' : ev ∈ l'.map Prod.fst
    · simp [hl', hd ev hl']
    · by_cases hl : ev ∈ l.map Prod.fst <;> simp [hl, hl']
  lanes lane g := by
    have hsame : ∀ x ∈ l', (t.event x.1).posted = (s.event x.1).posted := fun x hx => by
      rw [h.event, if_neg (hd x.1 (List.mem_map_of_mem hx))]
    have g' := h'.lanes _ (h.lanes lane g)
    have hq : ∀ q, l'.filter (fun x => x.2 = q ∧ (t.event x.1).posted = false) =
        l'.filter fun x => x.2 = q ∧ (s.event x.1).posted = false := fun q =>
      List.filter_congr fun x hx => by rw [hsame x hx]
    simpa only [hq, List.filter_append, List.map_append, List.append_assoc] using g'
  alerts := by
    obtain ⟨new, hn, hno⟩ := h.alerts
    obtain ⟨new', hn', hno'⟩ := h'.alerts
    exact ⟨new ++ new', by rw [hn', hn, List.append_assoc], by simp [hno, hno']⟩

theorem alert (s : World E C w) {a : Alert} (ha : a ≠ .readyNeEvents) : Posts s (s.alert a) [] :=
  ⟨.alert s a, by simp [World.alert], fun lane g => by
    simpa using g.congr (t := s.alert a) rfl (fun _ => rfl) rfl, [a], rfl, by simpa using ha.symm⟩

theorem alertIf (s : World E C w) (p : Prop) [Decidable p] {a : Alert} (ha : a ≠ .readyNeEvents) :
    Posts s (if p then s.alert a else s) [] := by
  split_ifs
  · exact .alert s ha
  · exact .refl s

theorem alertRevents (s : World E C w) (p : PollFd) : Posts s (s.alertRevents p) [] :=
  (alertIf s _ (by simp)).trans (alertIf _ _ (by simp)) (by simp)

theorem post (s : World E C w) (ev : E) (q : PostedQueue) :
    Posts s (postEvent (s.setEvent ev fun m => { m with ready := true }) ev q) [(ev, q)] := by
  have hready := PollFrame.setReady s ev
  have hquiet : ∀ e, ((s.setEvent ev fun m => { m with ready := true }).event e).posted =
      (s.event e).posted := fun e => by
    by_cases he : e = ev
    · subst he; simp [World.setEvent]
    · simp [World.setEvent, he]
  refine ⟨hready.trans (.postEvent _ ev q), fun e => ?_, fun lane g => ?_, [], ?_, by simp⟩
  · by_cases hp : (s.event ev).posted = true
    · rw [Queues.post_posted (by rw [hquiet, hp])]
      by_cases he : e = ev
      · subst he; simp [World.setEvent, ← hp]
      · simp [World.setEvent, he]
    · rw [postEvent_eq (by rwa [hquiet])]
      by_cases he : e = ev
      · subst he; simp [World.setEvent]
      · simp [World.setEvent, he]
  · have g' : Queues (s.setEvent ev fun m => { m with ready := true }) lane :=
      g.congr rfl hquiet rfl
    by_cases hp : (s.event ev).posted = true
    · rw [Queues.post_posted (by rw [hquiet, hp])]
      simpa [hp] using g'
    · have g'' := g'.post (by rwa [hquiet]) q
      have hlane : (Function.update lane q (lane q ++ [ev])) = fun r => lane r ++
          ([(ev, q)].filter fun x => x.2 = r ∧ (s.event x.1).posted = false).map Prod.fst := by
        funext r
        by_cases hr : r = q
        · subst hr; simp [hp]
        · simp [hr, Ne.symm hr]
      exact hlane ▸ g''
  · by_cases hp : (s.event ev).posted = true
    · rw [Queues.post_posted (by rw [hquiet, hp])]
      simp [World.setEvent]
    · rw [postEvent_eq (by rwa [hquiet])]
      simp [World.setEvent]

end Posts

instance (revents : PollMask) (d : Side) : Decidable (Reported revents d) :=
  inferInstanceAs (Decidable (_ ≠ _))

section Slots
variable {cs : List C} {ends : C → Side → E} {s t : World E C w} {c : C} {r : PollMask}

/-- What one direction of a slot is posted for: its event, if it is active and reported. -/
def sidePosts (ends : C → Side → E) (s : World E C w) (c : C) (r : PollMask) (d : Side) :
    List (E × PostedQueue) :=
  if Reported r d ∧ (s.event (ends c d)).active = true then
    [(ends c d, d.queue (s.event (ends c d)).accept)] else []

def slotPosts (ends : C → Side → E) (s : World E C w) (c : C) (r : PollMask) :
    List (E × PostedQueue) :=
  sidePosts ends s c r .read ++ sidePosts ends s c r .write

omit [DecidableEq E] in
theorem mem_slotPosts {x : E × PostedQueue} : x ∈ slotPosts ends s c r ↔ ∃ d, Reported r d ∧
    (s.event (ends c d)).active = true ∧
      x = (ends c d, d.queue (s.event (ends c d)).accept) := by
  have hside : ∀ d, x ∈ sidePosts ends s c r d ↔ Reported r d ∧
      (s.event (ends c d)).active = true ∧
        x = (ends c d, d.queue (s.event (ends c d)).accept) := by
    intro d
    rw [sidePosts]
    split_ifs with h
    · simp [h]
    · rw [← and_assoc]
      simp [h]
  rw [slotPosts, List.mem_append, hside, hside]
  exact ⟨fun h => h.elim (fun h => ⟨_, h⟩) fun h => ⟨_, h⟩, fun ⟨d, h⟩ => by cases d <;> simp [h]⟩

omit [DecidableEq E] in
theorem slotPosts_zero : slotPosts ends s c 0 = [] :=
  List.eq_nil_iff_forall_not_mem.mpr fun _ h =>
    have ⟨d, hr, _⟩ := mem_slotPosts.mp h
    not_reported_zero d hr

theorem Posts.sidePosts_eq {l : List (E × PostedQueue)} (h : Posts s t l) (d : Side) :
    sidePosts ends t c r d = sidePosts ends s c r d := by
  have hacc : (t.event (ends c d)).accept = (s.event (ends c d)).accept := by
    rw [h.event]
    split_ifs <;> rfl
  rw [sidePosts, sidePosts, h.frame.active, hacc]

theorem Posts.slotPosts_eq {l : List (E × PostedQueue)} (h : Posts s t l) :
    slotPosts ends t c r = slotPosts ends s c r := by
  rw [slotPosts, slotPosts, h.sidePosts_eq, h.sidePosts_eq]

theorem pollPostReady_posts (d : Side) (hd : (s.conn c).side d = some (ends c d)) :
    ∃ t, pollPostReady s c d (expandRevents r) = some (t, decide (sidePosts ends s c r d ≠ [])) ∧
      Posts s t (sidePosts ends s c r d) := by
  by_cases hr : expandRevents r &&& d.pollEvent = 0
  · have hnil : sidePosts ends s c r d = [] := if_neg fun h => h.1 hr
    exact ⟨s, by simp [pollPostReady, hr, hnil], hnil ▸ .refl s⟩
  by_cases ha : (s.event (ends c d)).active = true
  · have hone : sidePosts ends s c r d = [(ends c d, d.queue (s.event (ends c d)).accept)] :=
      if_pos ⟨hr, ha⟩
    rw [hone]
    refine ⟨_, ?_, Posts.post s (ends c d) _⟩
    simp [pollPostReady, hd, ha, World.setEvent]
    exact hr
  · have hnil : sidePosts ends s c r d = [] := if_neg fun h => ha h.2
    exact ⟨s, by simp [pollPostReady, hd, ha, hnil], hnil ▸ .refl s⟩

/-- A turn of the loop posts what the slot is reported for, and finds the slot ready
if that is something. -/
theorem pollProcessSlot_posts {i : ℕ} {p : PollFd} (h : SlotConn ends s i c p)
    (hne : ends c .read ≠ ends c .write) :
    ∃ t, pollProcessSlot s i = some (t, decide (slotPosts ends s c p.revents ≠ [])) ∧
      Posts s t (slotPosts ends s c p.revents) := by
  have f₀ := Posts.alertRevents s p
  have h₀ := h.frame f₀.frame
  obtain ⟨t, ht, f₁⟩ := pollPostReady_posts (r := p.revents) .read (h₀.side .read)
  obtain ⟨u, hu, f₂⟩ :=
    pollPostReady_posts (r := p.revents) .write ((h₀.frame f₁.frame).side .write)
  rw [f₀.sidePosts_eq] at ht f₁
  rw [f₁.sidePosts_eq, f₀.sidePosts_eq] at hu f₂
  refine ⟨u, ?_, ?_⟩
  · have hfd : p.fd ≠ -1 := by have := h.nonneg; omega
    have hcfd : ((s.alertRevents p).conn c).fd ≠ -1 := h₀.fd ▸ hfd
    simp [pollProcessSlot, h.slot, hfd, h₀.file, hcfd, ht, hu, slotPosts, imp_iff_not_or]
  · refine f₀.trans (f₁.trans f₂ ?_) (by simp)
    intro ev h₂ h₁
    simp only [sidePosts] at h₁ h₂
    split_ifs at h₁ h₂ <;> simp at h₁ h₂
    exact hne (h₁.symm.trans h₂)

/-- The slots from `i` on, `k` of them, of the given owners. -/
def loopPosts (ends : C → Side → E) (s : World E C w) (owner : ℕ → C) (r : ℕ → PollMask)
    (k i : ℕ) : List (E × PostedQueue) :=
  (List.range' i k).flatMap fun j => slotPosts ends s (owner j) (r j)

theorem Posts.loopPosts_eq {l : List (E × PostedQueue)} (h : Posts s t l) (owner : ℕ → C)
    (r : ℕ → PollMask) (k i : ℕ) : loopPosts ends t owner r k i = loopPosts ends s owner r k i := by
  simp only [loopPosts, h.slotPosts_eq]

variable (ends) in
/-- The loop visits every ready slot, and its counter ends at 0. -/
theorem pollProcessLoop_posts (owner : ℕ → C) (r : ℕ → PollMask) (k i : ℕ) (ready : ℤ)
    (hs : ∀ j < s.nEvents, ∃ p, SlotConn ends s j (owner j) p ∧ p.revents = r j)
    (hone : ∀ j < s.nEvents, r j ≠ 0 → slotPosts ends s (owner j) (r j) ≠ [])
    (hne : ∀ j < s.nEvents, ends (owner j) .read ≠ ends (owner j) .write)
    (hinj : ∀ j < s.nEvents, ∀ j' < s.nEvents, ∀ d d', ends (owner j) d = ends (owner j') d' →
      j = j')
    (hk : s.nEvents = i + k) (hready : ready = readyFrom s i) :
    ∃ t, pollProcessLoop k i ready s = some (t, 0) ∧ Posts s t (loopPosts ends s owner r k i) := by
  induction k generalizing i ready s with
  | zero =>
    have hzero : ready = 0 := by simp [hready, readyFrom, hk]
    exact ⟨s, by rw [pollProcessLoop, hzero], .refl s⟩
  | succ k ih =>
    by_cases hgo : ready = 0
    · -- no ready slot is left: the slots that are not visited have nothing to post
      have hnil : loopPosts ends s owner r (k + 1) i = [] := by
        rw [loopPosts, List.flatMap_eq_nil_iff]
        intro j hj
        have hj' := List.mem_range'_1.mp hj
        obtain ⟨p, hp, hr⟩ := hs j (by omega)
        rw [← hr, revents_eq_zero (by omega) hj'.1 (by omega) hp.slot, slotPosts_zero]
      exact ⟨s, by simp [pollProcessLoop, hgo], hnil ▸ .refl s⟩
    · have hi : i < s.nEvents := by omega
      obtain ⟨p, hp, hr⟩ := hs i hi
      obtain ⟨t, ht, f⟩ := pollProcessSlot_posts hp (hne i hi)
      rw [hr] at ht f
      have hcount := readyFrom_succ hi hp.slot
      have hsame : readyFrom t (i + 1) = readyFrom s (i + 1) := by
        rw [readyFrom, readyFrom, f.frame.events, f.frame.nEvents]
      have hnext : (if slotPosts ends s (owner i) (r i) ≠ [] then ready - 1 else ready) =
          readyFrom t (i + 1) := by
        rw [hr] at hcount
        by_cases hz : r i = 0
        · simp only [hz, slotPosts_zero, ne_eq, not_true_eq_false, if_false] at hcount ⊢
          omega
        · rw [if_pos hz] at hcount
          rw [if_pos (hone i hi hz)]
          omega
      have hn := f.frame.nEvents
      obtain ⟨u, hu, f'⟩ := ih (s := t) (i + 1) _
        (fun j hj => (hs j (hn ▸ hj)).imp fun p h => ⟨h.1.frame f.frame, h.2⟩)
        (fun j hj hz => by rw [f.slotPosts_eq]; exact hone j (hn ▸ hj) hz)
        (fun j hj => hne j (hn ▸ hj))
        (fun j hj j' hj' => hinj j (hn ▸ hj) j' (hn ▸ hj')) (by omega) hnext
      rw [f.loopPosts_eq] at f'
      refine ⟨u, ?_, ?_⟩
      · simp only [pollProcessLoop, hi, hgo, ne_eq, not_false_eq_true, and_self, if_true, ht,
          Option.bind_eq_bind, Option.bind_some, decide_eq_true_eq]
        exact hu
      · rw [loopPosts, List.range'_succ, List.flatMap_cons]
        refine f.trans f' fun ev h₂ h₁ => ?_
        obtain ⟨x, hx, rfl⟩ := List.mem_map.mp h₂
        obtain ⟨y, hy, hxy⟩ := List.mem_map.mp h₁
        obtain ⟨j, hj, hx⟩ := List.mem_flatMap.mp hx
        have hj' := List.mem_range'_1.mp hj
        obtain ⟨d, -, -, rfl⟩ := mem_slotPosts.mp hx
        obtain ⟨d', -, -, rfl⟩ := mem_slotPosts.mp hy
        have hji := hinj i hi j (by omega) d' d hxy
        omega

/-- An active event that poll reports, and the queue it belongs to: the accept queue
for the read events that accept connections. -/
def ReadyEvent (cs : List C) (ends : C → Side → E) (s : World E C w) (o : PollOutcome w) (ev : E)
    (q : PostedQueue) : Prop :=
  ∃ i < s.nEvents, ∃ c p d, PollSlot cs ends s i c p ∧ ev = ends c d ∧
    (s.event ev).active = true ∧ o.revents i &&& (d.pollEvent ||| POLLERRORS) ≠ 0 ∧
    q = if d = .read ∧ (s.event ev).accept = true then .acceptEvents else .events

/-- What a run of `Poll_process_events_` has done: exactly the ready events are marked
and posted, and neither the table nor another event has changed. -/
structure PostsReady (cs : List C) (ends : C → Side → E) (s t : World E C w) (o : PollOutcome w)
    (lane : PostedQueue → List E) : Prop where
  ready : ∀ ev, (∃ q, ReadyEvent cs ends s o ev q) →
    t.event ev = { s.event ev with ready := true, posted := true }
  other : ∀ ev, (¬ ∃ q, ReadyEvent cs ends s o ev q) → t.event ev = s.event ev
  queues : ∃ new : PostedQueue → List E, Queues t (fun q => lane q ++ new q) ∧
    ∀ q ev, ev ∈ new q ↔ ReadyEvent cs ends s o ev q ∧ (s.event ev).posted = false
  /-- poll writes the `revents` of the slots -/
  events : t.events = (s.pollRevents o.revents).events
  nEvents : t.nEvents = s.nEvents
  conn : t.conn = s.conn
  files : t.files = s.files
  timerRbtree : t.timerRbtree = s.timerRbtree
  /-- no slot that poll reports something for is skipped -/
  visited : ∀ i < s.nEvents, o.revents i ≠ 0 → ∃ c p, PollSlot cs ends s i c p ∧
    ∃ d q, ReadyEvent cs ends s o (ends c d) q
  alerts : ∃ new, t.alerts = s.alerts ++ new ∧ .readyNeEvents ∉ new

omit [DecidableEq E] in
theorem PollSlot.owner_eq {i : ℕ} {c' : C} {p p' : PollFd} (h : PollSlot cs ends s i c p)
    (h' : PollSlot cs ends s i c' p') : c = c' :=
  (h'.owner c h.mem).mp ((h.owner c h.mem).mpr rfl)

omit [DecidableEq E] in
theorem mem_loopPosts (o : PollOutcome w) {owner : ℕ → C}
    (ho : ∀ j < s.nEvents, ∃ p, PollSlot cs ends s j (owner j) p) {ev : E} {q : PostedQueue} :
    (ev, q) ∈ loopPosts ends s owner o.revents s.nEvents 0 ↔ ReadyEvent cs ends s o ev q := by
  have hq : ∀ (d : Side) (accept : Bool), d.queue accept =
      if d = .read ∧ accept = true then .acceptEvents else .events := by
    intro d accept
    cases d <;> cases accept <;> rfl
  simp only [loopPosts, List.mem_flatMap, List.mem_range'_1, mem_slotPosts, Prod.mk.injEq,
    reported_iff, hq]
  constructor
  · rintro ⟨j, hj, d, hr, ha, rfl, rfl⟩
    obtain ⟨p, hp⟩ := ho j (by omega)
    exact ⟨j, by omega, owner j, p, d, hp, rfl, ha, hr, rfl⟩
  · rintro ⟨i, hi, c, p, d, hp, rfl, ha, hr, rfl⟩
    obtain ⟨p', hp'⟩ := ho i hi
    obtain rfl : c = owner i := hp.owner_eq hp'
    exact ⟨i, by omega, d, hr, ha, rfl, rfl⟩

end Slots

section Ready
variable {cs : List C} {ends : C → Side → E} {s : World E C w}

omit [DecidableEq E] in
/-- A slot poll reports something for has an active event that is reported. -/
theorem PollInv.slotPosts_ne_nil (g : PollInv cs ends s) {i : ℕ} {c : C} {p : PollFd}
    {r : PollMask} (h : PollSlot cs ends s i c p) (hi : i < s.nEvents)
    (hsmall : cs.length < INVALID_INDEX) (hsub : r &&& ~~~(p.events ||| POLLERRORS) = 0)
    (hr : r ≠ 0) : slotPosts ends s c r ≠ [] := by
  rw [h.events] at hsub
  obtain ⟨d, hd, hrep⟩ := exists_reported
    (fun d => (s.event (ends c d)).index = i) hsub ((h.owner c h.mem).mpr rfl) hr
  have hactive : (s.event (ends c d)).active = true := by
    refine (g.active c h.mem d).mp ?_
    have hcount := g.count ▸ List.countP_le_length (l := cs)
    omega
  exact List.ne_nil_of_mem (mem_slotPosts.mpr ⟨d, hrep, hactive, rfl⟩)

omit [DecidableEq E] in
/-- There are as many slots as connections with a registered event, and each of these
has one, so no connection has two. -/
theorem PollInv.owner_inj (hw : Wired cs ends s) (g : PollInv cs ends s) {owner : ℕ → C}
    (ho : ∀ j < s.nEvents, ∃ p, PollSlot cs ends s j (owner j) p) {i j : ℕ} (hi : i < s.nEvents)
    (hj : j < s.nEvents) (h : owner i = owner j) : i = j := by
  let registered := cs.filter fun c => ∃ d, (s.event (ends c d)).index ≠ INVALID_INDEX
  have hsub : registered ⊆ (List.range s.nEvents).map owner := by
    intro c hc
    obtain ⟨hmem, hd⟩ := List.mem_filter.mp hc
    obtain ⟨d, hd⟩ := of_decide_eq_true hd
    obtain ⟨hlt, p, hp⟩ := (g.index c hmem d).resolve_left hd
    obtain ⟨p', hp'⟩ := ho _ hlt
    exact List.mem_map.mpr ⟨_, List.mem_range.mpr hlt, (hp.owner_eq hp').symm⟩
  have hlen : ((List.range s.nEvents).map owner).length ≤ registered.length := by
    rw [List.length_map, List.length_range, g.count, List.countP_eq_length_filter]
  have hperm := ((hw.nodup.filter _).subperm hsub).perm_of_length_le hlen
  have hnd : ((List.range s.nEvents).map owner).Nodup := hperm.nodup_iff.mp (hw.nodup.filter _)
  exact List.inj_on_of_nodup_map hnd (List.mem_range.mpr hi) (List.mem_range.mpr hj) h

/-- What is posted for the slots of the whole table is what is ready. -/
theorem PostsReady.of_posts {t : World E C w} {lane : PostedQueue → List E} {o : PollOutcome w}
    {flags : ℕ} {owner : ℕ → C} (hq : Queues s lane)
    (howner : ∀ j < s.nEvents, ∃ p, PollSlot cs ends s j (owner j) p)
    (hone : ∀ j < s.nEvents, o.revents j ≠ 0 → slotPosts ends s (owner j) (o.revents j) ≠ [])
    (f : Posts (s.pollReturn o flags) t (loopPosts ends s owner o.revents s.nEvents 0)) :
    PostsReady cs ends s t o lane := by
  have hready : ∀ ev q, (ev, q) ∈ loopPosts ends s owner o.revents s.nEvents 0 ↔
      ReadyEvent cs ends s o ev q := fun ev q => mem_loopPosts o howner
  have hfst : ∀ ev, ev ∈ (loopPosts ends s owner o.revents s.nEvents 0).map Prod.fst ↔
      ∃ q, ReadyEvent cs ends s o ev q := fun ev => by simp [← hready]
  constructor
  case ready => exact fun ev he => by rw [f.event, if_pos ((hfst ev).mpr he), pollReturn_event]
  case other =>
    exact fun ev he => by rw [f.event, if_neg (mt (hfst ev).mp he), pollReturn_event]
  case queues =>
    refine ⟨_, f.lanes lane (hq.congr (by simp) (fun ev => by simp) (by simp)), fun q ev => ?_⟩
    simp [← hready, and_left_comm, and_assoc]
  case events => rw [f.frame.events, pollReturn_events]
  case nEvents => rw [f.frame.nEvents, pollReturn_nEvents]
  case conn => rw [f.frame.conn, pollReturn_conn]
  case files => rw [f.frame.files, pollReturn_files]
  case timerRbtree => rw [f.frame.timerRbtree, pollReturn_timerRbtree]
  case visited =>
    intro i hi hr
    obtain ⟨p, hp⟩ := howner i hi
    obtain ⟨x, hx⟩ := List.exists_mem_of_ne_nil _ (hone i hi hr)
    obtain ⟨d, -, -, rfl⟩ := mem_slotPosts.mp hx
    refine ⟨_, p, hp, d, _, (hready _ _).mp (List.mem_flatMap.mpr ⟨i, ?_, hx⟩)⟩
    exact List.mem_range'_1.mpr ⟨Nat.zero_le i, by omega⟩
  case alerts =>
    obtain ⟨new, hn, hno⟩ := f.alerts
    refine ⟨new, ?_, hno⟩
    rw [hn]
    congr 1
    simp only [World.pollReturn]
    split_ifs <;> rfl

/-- For every outcome of poll with ready slots the loop ends with its counter at 0,
and exactly the ready events are posted. -/
theorem pollProcessEvents_ready (cs : List C) (ends : C → Side → E) (s : World E C w)
    (lane : PostedQueue → List E) (hw : Wired cs ends s) (g : PollInv cs ends s)
    (hq : Queues s lane) (o : PollOutcome w) (timer : Msec w) (flags : ℕ) (hpos : 0 < o.ready)
    (ho : o.ready = readyFrom (s.pollReturn o flags) 0)
    (hsub : ∀ i < s.nEvents, ∀ p, s.events[i]? = some p →
      o.revents i &&& ~~~(p.events ||| POLLERRORS) = 0) :
    ∃ t, pollProcessLoop s.nEvents 0 o.ready (s.pollReturn o flags) = some (t, 0) ∧
      pollProcessEvents o timer flags s = some (t, .ok) ∧ PostsReady cs ends s t o lane := by
  have hsome : 0 < s.nEvents := by
    rw [ho, readyFrom, pollReturn_nEvents] at hpos
    by_contra hz
    simp [show s.nEvents = 0 by omega] at hpos
  obtain ⟨c₀, -⟩ := g.slot 0 hsome
  have : Nonempty C := ⟨c₀⟩
  choose! owner howner using g.slot
  have hmem : ∀ j < s.nEvents, owner j ∈ cs := fun j hj => (howner j hj).elim fun _ h => h.mem
  have hone : ∀ j < s.nEvents, o.revents j ≠ 0 → slotPosts ends s (owner j) (o.revents j) ≠ [] := by
    intro j hj hr
    obtain ⟨p, hp⟩ := howner j hj
    exact g.slotPosts_ne_nil hp hj hw.small (hsub j hj p hp.slot) hr
  have hsame : ∀ c r, slotPosts ends (s.pollReturn o flags) c r = slotPosts ends s c r := by
    intro c r
    simp only [slotPosts, sidePosts, pollReturn_event]
  obtain ⟨t, ht, f⟩ := pollProcessLoop_posts (s := s.pollReturn o flags) ends owner
    o.revents s.nEvents 0 o.ready
    (fun j hj => by
      rw [pollReturn_nEvents] at hj
      obtain ⟨p, hp⟩ := howner j hj
      exact ⟨_, hp.slotConn o flags hw hj, rfl⟩)
    (fun j hj hr => by
      rw [hsame]
      exact hone j (by simpa using hj) hr)
    (fun j hj => hw.ne _ (hmem j (by simpa using hj)))
    (fun j hj j' hj' d d' h => by
      rw [pollReturn_nEvents] at hj hj'
      exact g.owner_inj hw howner hj hj' (hw.ends_inj (hmem j hj) (hmem j' hj') h).1)
    (by simp) ho
  have hposts : loopPosts ends (s.pollReturn o flags) owner o.revents s.nEvents 0 =
      loopPosts ends s owner o.revents s.nEvents 0 := by
    simp only [loopPosts, hsame]
  rw [hposts] at f
  refine ⟨t, ht, ?_, .of_posts hq howner hone f⟩
  have hne : ¬ o.ready = -1 := by omega
  have hnz : ¬ o.ready = 0 := by omega
  simp [pollProcessEvents, hne, hnz, ht]

end Ready

/-- Four connections with descriptors 0 to 3; the read event of the first one accepts. -/
def fourConnections : World (Fin 4 × Side) (Fin 4) 64 :=
  { World.zero 0 with
    event e := { (World.zero e.1 : World (Fin 4 × Side) (Fin 4) 64).event e with
      accept := e = (0, .read) }
    conn c := ⟨some (c, .read), some (c, .write), c⟩
    files := [some 0, some 1, some 2, some 3]
    events := List.replicate 4 ⟨0, 0, 0⟩ }

/-- The read events are registered, and the write event of the second one in its slot. -/
def fourRegistered : World (Fin 4 × Side) (Fin 4) 64 :=
  (pollRun (·, ·) (initPostedQueues fourConnections) [.add 0 .read, .add 1 .read, .add 1 .write,
    .add 2 .read, .add 3 .read]).getD fourConnections

/-- Poll reports the first slot, and an error in the second one. -/
def twoReady : PollOutcome 64 :=
  ⟨2, 0, fun i => if i = 0 then POLLIN else if i = 1 then POLLERR else 0, 5⟩

theorem fourRegistered_inv : Wired [0, 1, 2, 3] (·, ·) fourRegistered ∧
    PollInv [0, 1, 2, 3] (·, ·) fourRegistered ∧ Queues fourRegistered fun _ => [] := by
  have hops : ∀ op ∈ [PollOp.add (0 : Fin 4) .read, .add 1 .read, .add 1 .write, .add 2 .read,
      .add 3 .read], op.conn ∈ [0, 1, 2, 3] := by decide
  have hwired : Wired [0, 1, 2, 3] (·, ·) (initPostedQueues fourConnections) :=
    ⟨by decide, fun _ _ d => by cases d <;> rfl, fun _ _ _ => rfl, by decide, by decide, by decide,
      by decide, by decide⟩
  obtain ⟨hw, hp⟩ : Wired [0, 1, 2, 3] (·, ·) fourRegistered ∧
      PollInv [0, 1, 2, 3] (·, ·) fourRegistered :=
    PollTable.registered hwired rfl (fun _ _ _ => ⟨rfl, rfl⟩) hops fourConnections
  have hposted : ∀ c, (fourRegistered.event (c, .read)).posted = false ∧
      (fourRegistered.event (c, .write)).posted = false := by decide
  have hq : Queues fourRegistered fun _ => [] :=
    (PostedSys.start_queues (s := fourConnections) (fun _ => rfl) rfl).congr rfl
      (fun ev => by rcases ev with ⟨c, _ | _⟩; exacts [(hposted c).1, (hposted c).2]) rfl
  exact ⟨hw, hp, hq⟩

/-- Three events in two slots: the loop ends before the two slots without an event. -/
theorem pollProcessEvents_ready_two : ∃ t, pollProcessLoop fourRegistered.nEvents 0 2
      (fourRegistered.pollReturn twoReady UPDATE_TIME) = some (t, 0) ∧
    pollProcessEvents twoReady 3 UPDATE_TIME fourRegistered = some (t, .ok) ∧
    PostsReady [0, 1, 2, 3] (·, ·) fourRegistered t twoReady fun _ => [] := by
  obtain ⟨hw, hp, hq⟩ := fourRegistered_inv
  refine pollProcessEvents_ready [0, 1, 2, 3] (·, ·) fourRegistered (fun _ => []) hw hp hq twoReady
    3 UPDATE_TIME (by decide) (by decide) fun i hi p h => ?_
  have hn : fourRegistered.nEvents = 4 := by decide
  have hin : ∀ j : Fin 4, ∀ p ∈ fourRegistered.events[j.val]?,
      twoReady.revents j &&& ~~~(p.events ||| POLLERRORS) = 0 := by decide
  exact hin ⟨i, hn ▸ hi⟩ p h

end Lingx.Events
