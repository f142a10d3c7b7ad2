import Lingx.Events.PollReady

/-! Connections that are closed while they are registered. Their slots stay in the
table: `Poll_process_events_` drops the last of them and disables the others, and the
events of a closed connection keep indices that mean nothing any more. The slots of
the open connections are looked after as before, but a deletion may move a disabled
slot, and then looks up a connection for the descriptor -1. -/

namespace Lingx.Events

open Library

variable {E C : Type} {w : ℕ}

def World.Open (s : World E C w) (c : C) : Prop := (s.conn c).fd ≠ -1

instance (s : World E C w) (c : C) : Decidable (s.Open c) := inferInstanceAs (Decidable (_ ≠ _))

/-- A connection is closed: its descriptor is overwritten, its events stay registered. -/
def closeConnection [DecidableEq C] (s : World E C w) (c : C) : World E C w :=
  { s with conn := Function.update s.conn c { s.conn c with fd := -1 } }

/-- Between two states of a run some connections were closed. -/
structure Closings (s₀ s : World E C w) : Prop where
  conn : ∀ c, s.conn c = s₀.conn c ∨ s.conn c = { s₀.conn c with fd := -1 }
  files : s.files = s₀.files
  size : s.events.length = s₀.events.length
  data : ∀ ev, (s.event ev).data = (s₀.event ev).data

namespace Closings

variable {s₀ s t : World E C w} {c : C}

theorem refl (s : World E C w) : Closings s s := ⟨fun _ => .inl rfl, rfl, rfl, fun _ => rfl⟩

theorem same (h : Closings s₀ s) (hw : SameWiring s t) : Closings s₀ t where
  conn c := hw.conn ▸ h.conn c
  files := hw.files.trans h.files
  size := hw.size.trans h.size
  data ev := (hw.data ev).trans (h.data ev)

theorem close [DecidableEq C] (h : Closings s₀ s) (c : C) : Closings s₀ (closeConnection s c) where
  conn c' := by
    by_cases hc : c' = c
    · subst hc
      rcases h.conn c' with hs | hs <;> exact .inr (by simp [closeConnection, hs])
    · simpa [closeConnection, hc] using h.conn c'
  files := h.files
  size := h.size
  data := h.data

theorem conn_eq (h : Closings s₀ s) (hc : s.Open c) : s.conn c = s₀.conn c :=
  (h.conn c).resolve_right fun hs => hc (by rw [hs])

theorem side (h : Closings s₀ s) (c : C) (d : Side) : (s.conn c).side d = (s₀.conn c).side d := by
  rcases h.conn c with hs | hs <;> cases d <;> rw [hs] <;> rfl

theorem file (h : Closings s₀ s) (fd : ℤ) : s.file fd = s₀.file fd := by
  rw [World.file, World.file, h.files]

end Closings

/-- The slots have one owner each; those of open connections are in order. -/
structure ClosedTable (cs : List C) (ends : C → Side → E) (s₀ s : World E C w) (own : List C) :
    Prop where
  base : Closings s₀ s
  nodup : own.Nodup
  sub : ∀ c ∈ own, c ∈ cs
  count : s.nEvents = own.length
  /-- a slot has its owner's descriptor, unless it is disabled -/
  slot : ∀ (i : ℕ) (c : C), own[i]? = some c → ∃ p, s.events[i]? = some p ∧
    (p.fd = (s₀.conn c).fd ∨ p.fd = -1 ∧ ¬ s.Open c)
  registered : ∀ c ∈ own, s.Open c → ∃ d, (s.event (ends c d)).index ≠ INVALID_INDEX
  placed : ∀ c ∈ cs, s.Open c → ∀ d, (s.event (ends c d)).index = INVALID_INDEX ∨
    own[(s.event (ends c d)).index]? = some c

/-- The deletion of an event that is alone in its slot moves a disabled slot into it. -/
def MovesDisabled (ends : C → Side → E) (s : World E C w) (c : C) (d : Side) : Prop :=
  (s.event (ends c d)).index ≠ INVALID_INDEX ∧
    (s.event (ends c d.other)).index = INVALID_INDEX ∧
    (s.event (ends c d)).index + 1 < s.nEvents ∧
    ∃ p ∈ s.events[s.nEvents - 1]?, p.fd = -1

/-- What a user of the table relies on. -/
structure Usable (cs : List C) (ends : C → Side → E) (s : World E C w) : Prop where
  size : s.nEvents ≤ s.events.length
  slot : ∀ c ∈ cs, s.Open c → ∀ d, (s.event (ends c d)).index ≠ INVALID_INDEX →
    (s.event (ends c d)).index < s.nEvents ∧
      ∃ p, s.events[(s.event (ends c d)).index]? = some p ∧ p.fd = (s.conn c).fd
  alone : ∀ c ∈ cs, s.Open c → ∀ d, (s.event (ends c d)).index ≠ INVALID_INDEX →
    ∀ c' ∈ cs, s.Open c' → ∀ d', (s.event (ends c' d')).index = (s.event (ends c d)).index → c' = c

namespace ClosedTable

variable {cs own : List C} {ends : C → Side → E} {s₀ s t : World E C w} {c : C} {d : Side}

theorem length_le (g : ClosedTable cs ends s₀ s own) : own.length ≤ cs.length :=
  (g.nodup.subperm g.sub).length_le

theorem matched (g : ClosedTable cs ends s₀ s own) : SlotTable.Matched
    (fun c p => p.fd = (s₀.conn c).fd ∨ p.fd = -1 ∧ ¬ s.Open c) own s.events := g.slot

theorem index_ne (hw : Wired cs ends s₀) (g : ClosedTable cs ends s₀ s own) {i : ℕ}
    (h : own[i]? = some c) : i ≠ INVALID_INDEX := by
  have hi := (List.getElem?_eq_some_iff.mp h).1
  have := g.length_le
  have := hw.small
  omega

theorem own_index (g : ClosedTable cs ends s₀ s own) (hc : c ∈ cs) (ho : s.Open c)
    (hi : (s.event (ends c d)).index ≠ INVALID_INDEX) :
    own[(s.event (ends c d)).index]? = some c := (g.placed c hc ho d).resolve_left hi

theorem slot_inj (g : ClosedTable cs ends s₀ s own) {i j : ℕ} (hi : own[i]? = some c)
    (hj : own[j]? = some c) : i = j := by
  obtain ⟨hlt, hi⟩ := List.getElem?_eq_some_iff.mp hi
  obtain ⟨hlt', hj⟩ := List.getElem?_eq_some_iff.mp hj
  exact (g.nodup.getElem_inj_iff).mp (hi.trans hj.symm)

/-- The connection found through a slot's descriptor is its owner. -/
theorem file_slot (hw : Wired cs ends s₀) (g : ClosedTable cs ends s₀ s own) {i : ℕ}
    (hi : own[i]? = some c) : ∃ p, s.events[i]? = some p ∧
      (p.fd = (s₀.conn c).fd ∧ 0 ≤ p.fd ∧ s.file p.fd = some c ∨ p.fd = -1 ∧ ¬ s.Open c) := by
  obtain ⟨p, hp, hfd⟩ := g.slot i c hi
  have hc := g.sub c (List.mem_of_getElem? hi)
  refine ⟨p, hp, hfd.imp_left fun h => ⟨h, h ▸ hw.fd c hc, ?_⟩⟩
  rw [h, g.base.file]
  exact hw.file c hc

theorem usable (hw : Wired cs ends s₀) (g : ClosedTable cs ends s₀ s own) : Usable cs ends s where
  size := by
    have := g.length_le
    have := hw.size
    rw [g.count, g.base.size]
    omega
  slot c hc ho d hi := by
    have hown := g.own_index hc ho hi
    obtain ⟨p, hp, hfd⟩ := g.slot _ c hown
    refine ⟨g.count ▸ (List.getElem?_eq_some_iff.mp hown).1, p, hp, ?_⟩
    rw [g.base.conn_eq ho]
    exact hfd.resolve_right fun h => h.2 ho
  alone c hc ho d hi c' hc' ho' d' h := by
    have hown := g.own_index hc ho hi
    have hown' := g.own_index hc' ho' (h ▸ hi)
    rw [h] at hown'
    exact Option.some.inj (hown'.symm.trans hown)

/-- The owners of the slots of a table without closed connections. -/
theorem exists_owners (hw : Wired cs ends s) (g : PollInv cs ends s) : ∃ own : List C,
    own.Nodup ∧ own.length = s.nEvents ∧
      ∀ i c, own[i]? = some c ↔ i < s.nEvents ∧ ∃ p, PollSlot cs ends s i c p := by
  by_cases hn : s.nEvents = 0
  · exact ⟨[], .nil, by simp [hn], by simp [hn]⟩
  obtain ⟨c₀, -⟩ := g.slot 0 (by omega)
  have : Nonempty C := ⟨c₀⟩
  choose! owner howner using g.slot
  refine ⟨(List.range s.nEvents).map owner, ?_, by simp, fun i c => ?_⟩
  · refine List.nodup_range.map_on fun i hi j hj h => ?_
    exact g.owner_inj hw howner (List.mem_range.mp hi) (List.mem_range.mp hj) h
  · rw [List.getElem?_map, Option.map_eq_some_iff]
    constructor
    · rintro ⟨j, hj, rfl⟩
      obtain ⟨hlt, rfl⟩ := List.getElem?_eq_some_iff.mp hj
      rw [List.length_range] at hlt
      exact ⟨hlt, by simpa using howner i hlt⟩
    · rintro ⟨hi, p, hp⟩
      obtain ⟨p', hp'⟩ := howner i hi
      exact ⟨i, by simp [hi], hp'.owner_eq hp⟩

theorem of_pollInv (hw : Wired cs ends s) (g : PollInv cs ends s) :
    ∃ own, ClosedTable cs ends s s own := by
  obtain ⟨own, hnd, hlen, hown⟩ := exists_owners hw g
  refine ⟨own, .refl s, hnd, fun c hc => ?_, hlen.symm, fun i c hi => ?_, fun c hc _ => ?_,
    fun c hc _ d => ?_⟩
  · obtain ⟨i, hi⟩ := List.mem_iff_getElem?.mp hc
    exact ((hown i c).mp hi).2.elim fun p h => h.mem
  · obtain ⟨-, p, hp⟩ := (hown i c).mp hi
    exact ⟨p, hp.slot, .inl hp.fd⟩
  · obtain ⟨i, hi⟩ := List.mem_iff_getElem?.mp hc
    obtain ⟨hlt, p, hp⟩ := (hown i c).mp hi
    obtain ⟨d, hd⟩ := (hp.owner c hp.mem).mpr rfl
    have := g.count ▸ List.countP_le_length (l := cs)
    have := hw.small
    exact ⟨d, by omega⟩
  · exact (g.index c hc d).imp_right fun h => (hown _ c).mpr h

/-- The slots keep their descriptors, but for slots of closed connections that are
disabled. -/
def SlotsKept (own : List C) (s t : World E C w) : Prop :=
  ∀ (i : ℕ) (c : C) (p : PollFd), own[i]? = some c → s.events[i]? = some p →
    ∃ q, t.events[i]? = some q ∧ (q.fd = p.fd ∨ q.fd = -1 ∧ ¬ s.Open c)

theorem same_slots (h : t.events = s.events) : SlotsKept own s t :=
  fun _ _ p _ hp => ⟨p, h ▸ hp, .inl rfl⟩

theorem congr (g : ClosedTable cs ends s₀ s own) (hb : Closings s₀ t)
    (hopen : ∀ c, t.Open c → s.Open c) (hn : t.nEvents = s.nEvents)
    (hslot : SlotsKept own s t)
    (hreg : ∀ c ∈ own, t.Open c → ∃ d, (t.event (ends c d)).index ≠ INVALID_INDEX)
    (hplaced : ∀ c ∈ cs, t.Open c → ∀ d, (t.event (ends c d)).index = INVALID_INDEX ∨
      own[(t.event (ends c d)).index]? = some c) : ClosedTable cs ends s₀ t own where
  base := hb
  nodup := g.nodup
  sub := g.sub
  count := hn.trans g.count
  slot i c hi := by
    obtain ⟨p, hp, hfd⟩ := g.slot i c hi
    obtain ⟨q, hq, hqfd⟩ := hslot i c p hi hp
    refine ⟨q, hq, ?_⟩
    rcases hqfd with h | ⟨h, hc⟩
    · exact h ▸ hfd.imp_right fun h => ⟨h.1, mt (hopen c) h.2⟩
    · exact .inr ⟨h, mt (hopen c) hc⟩
  registered := hreg
  placed := hplaced

theorem congr_index (g : ClosedTable cs ends s₀ s own) (hb : Closings s₀ t)
    (hopen : ∀ c, t.Open c → s.Open c) (hn : t.nEvents = s.nEvents)
    (hslot : SlotsKept own s t)
    (hi : ∀ ev, (t.event ev).index = (s.event ev).index) : ClosedTable cs ends s₀ t own :=
  g.congr hb hopen hn hslot (fun c hc ho => by simpa only [hi] using g.registered c hc (hopen c ho))
    fun c hc ho d => by simpa only [hi] using g.placed c hc (hopen c ho) d

theorem close [DecidableEq C] (g : ClosedTable cs ends s₀ s own) (c : C) :
    ClosedTable cs ends s₀ (closeConnection s c) own := by
  refine g.congr_index (g.base.close c) (fun c' ho => ?_) rfl (same_slots rfl) fun _ => rfl
  by_cases hc : c' = c
  · subst hc
    exact absurd (by simp [closeConnection]) ho
  · simpa [World.Open, closeConnection, hc] using ho

section Process
variable [DecidableEq E]

theorem posts {l : List (E × PostedQueue)} (g : ClosedTable cs ends s₀ s own) (h : Posts s t l) :
    ClosedTable cs ends s₀ t own := by
  have hev : ∀ ev, (t.event ev).index = (s.event ev).index ∧
      (t.event ev).data = (s.event ev).data := by
    intro ev
    rw [h.event]
    split_ifs <;> exact ⟨rfl, rfl⟩
  refine g.congr_index (g.base.same ⟨h.frame.conn, h.frame.files, ?_, fun ev => (hev ev).2⟩)
    (fun c ho => ?_) h.frame.nEvents (same_slots h.frame.events) fun ev => (hev ev).1
  · rw [h.frame.events]
  · rwa [World.Open, h.frame.conn] at ho

omit [DecidableEq E] in
theorem drop (g : ClosedTable cs ends s₀ s own) {i : ℕ} (hi : own[i]? = some c) (hc : ¬ s.Open c)
    (hlast : i = s.nEvents - 1) :
    ClosedTable cs ends s₀ (s.setNEvents (s.nEvents - 1)) own.dropLast where
  base := ⟨g.base.conn, g.base.files, g.base.size, g.base.data⟩
  nodup := g.nodup.sublist (List.dropLast_sublist own)
  sub c' hc' := g.sub c' ((List.dropLast_sublist own).subset hc')
  count := by rw [World.setNEvents_nEvents, g.count, List.length_dropLast]
  slot j c' hj := by
    rw [List.getElem?_dropLast] at hj
    split_ifs at hj with hlt
    exact g.slot j c' hj
  registered c' hc' ho := g.registered c' ((List.dropLast_sublist own).subset hc') ho
  placed c' hc' ho d := by
    refine (g.placed c' hc' ho d).imp_right fun h => ?_
    have hne : (s.event (ends c' d)).index ≠ i := by
      intro he
      rw [he] at h
      exact hc (Option.some.inj (hi.symm.trans h) ▸ ho)
    have hlt := (List.getElem?_eq_some_iff.mp h).1
    have hn := g.count
    rw [World.setNEvents_event, List.getElem?_dropLast, if_pos (by omega)]
    exact h

omit [DecidableEq E] in
theorem disable (g : ClosedTable cs ends s₀ s own) {i : ℕ} (p : PollFd) (hi : own[i]? = some c)
    (hc : ¬ s.Open c) : ClosedTable cs ends s₀ (s.setPollFd i { p with fd := -1 }) own := by
  refine g.congr_index (g.base.same ⟨rfl, rfl, by simp, fun _ => rfl⟩) (fun _ ho => ho) rfl
    (fun j c' q hj hq => ?_) fun _ => rfl
  rw [World.setPollFd_events]
  by_cases hij : i = j
  · subst hij
    obtain rfl : c = c' := Option.some.inj (hi.symm.trans hj)
    exact ⟨_, List.getElem?_set_self (List.getElem?_eq_some_iff.mp hq).1, .inr ⟨rfl, hc⟩⟩
  · exact ⟨q, by rw [List.getElem?_set_ne hij, hq], .inl rfl⟩

theorem processSlot (hw : Wired cs ends s₀) (g : ClosedTable cs ends s₀ s own) {i : ℕ}
    (hlt : i < s.nEvents) : ∃ t found own', pollProcessSlot s i = some (t, found) ∧
      t.conn = s.conn ∧ ClosedTable cs ends s₀ t own' := by
  obtain ⟨c, hi⟩ : ∃ c, own[i]? = some c := ⟨_, List.getElem?_eq_getElem (g.count ▸ hlt)⟩
  obtain ⟨p, hp, hfd⟩ := g.file_slot hw hi
  have hc := g.sub c (List.mem_of_getElem? hi)
  have f₀ := Posts.alertRevents s p
  have g₀ := g.posts f₀
  rcases hfd with ⟨hfd, hnn, hfile⟩ | ⟨hfd, hopen⟩
  · have hne : p.fd ≠ -1 := by omega
    by_cases hopen : s.Open c
    · have hconn : SlotConn ends s i c p := by
        refine ⟨hp, hfile, ?_, hnn, fun d => ?_⟩
        · rw [g.base.conn_eq hopen, hfd]
        · rw [g.base.side, hw.side c hc]
      obtain ⟨t, ht, f⟩ := pollProcessSlot_posts hconn (hw.ne c hc)
      exact ⟨t, _, own, ht, f.frame.conn, g.posts f⟩
    · have hfile' : (s.alertRevents p).file p.fd = some c := by rw [f₀.frame.file, hfile]
      have hopen' : ¬ (s.alertRevents p).Open c := by rwa [World.Open, f₀.frame.conn]
      have hcfd : ((s.alertRevents p).conn c).fd = -1 := not_not.mp hopen'
      have g₁ := g₀.posts (Posts.alert (s.alertRevents p) (a := .unexpectedEvent) (by simp))
      by_cases hlast : i = (s.alertRevents p).nEvents - 1
      · refine ⟨_, false, _, ?_, ?_, g₁.drop hi hopen' hlast⟩
        · simp [pollProcessSlot, hp, hne, hfile', hcfd, World.alert, ← hlast]
        · exact f₀.frame.conn
      · refine ⟨_, false, _, ?_, ?_, g₁.disable p hi hopen'⟩
        · simp [pollProcessSlot, hp, hne, hfile', hcfd, World.alert, hlast]
        · exact f₀.frame.conn
  · refine ⟨s.alertRevents p, false, own, ?_, f₀.frame.conn, g₀⟩
    simp [pollProcessSlot, hp, hfd]

theorem processLoop (hw : Wired cs ends s₀) (g : ClosedTable cs ends s₀ s own) (k i : ℕ)
    (ready : ℤ) : ∃ t r own', pollProcessLoop k i ready s = some (t, r) ∧ t.conn = s.conn ∧
      ClosedTable cs ends s₀ t own' := by
  induction k generalizing i ready s own with
  | zero => exact ⟨s, ready, own, rfl, rfl, g⟩
  | succ k ih =>
    by_cases hgo : i < s.nEvents ∧ ready ≠ 0
    · obtain ⟨t, found, own', ht, hconn, g'⟩ := g.processSlot hw hgo.1
      obtain ⟨u, r, own'', hu, hconn', g''⟩ := ih g' (i + 1) (if found then ready - 1 else ready)
      exact ⟨u, r, own'', by simp [pollProcessLoop, hgo, ht, hu], hconn'.trans hconn, g''⟩
    · exact ⟨s, ready, own, by rw [pollProcessLoop, if_neg hgo], rfl, g⟩

/-- `Poll_process_events_` keeps the table whatever poll returns. -/
theorem process (hw : Wired cs ends s₀) (g : ClosedTable cs ends s₀ s own) (o : PollOutcome w)
    (timer : Msec w) (flags : ℕ) : ∃ t rc own', pollProcessEvents o timer flags s = some (t, rc) ∧
      t.conn = s.conn ∧ ClosedTable cs ends s₀ t own' := by
  have hret : ClosedTable cs ends s₀ (s.pollReturn o flags) own := by
    have hev : (s.pollReturn o flags).events = (s.pollRevents o.revents).events :=
      pollReturn_events s o flags
    refine g.congr_index (g.base.same ⟨by simp, by simp, ?_, fun _ => by simp⟩)
      (fun c ho => by simpa [World.Open] using ho) (by simp) (fun i c p _ hp => ?_) fun _ => by simp
    · simp [hev, World.pollRevents]
    · simp only [hev, World.pollRevents, List.getElem?_mapIdx, hp, Option.map_some]
      exact ⟨_, rfl, .inl (by split_ifs <;> rfl)⟩
  have hconn : (s.pollReturn o flags).conn = s.conn := pollReturn_conn s o flags
  simp only [pollProcessEvents]
  generalize (if o.ready = -1 then o.errno else 0) = err
  by_cases herr : err ≠ 0
  · simp only [if_pos herr]
    split_ifs
    · exact ⟨_, .ok, own, rfl, hconn,
        hret.congr_index (hret.base.same ⟨rfl, rfl, rfl, fun _ => rfl⟩)
        (fun _ ho => ho) rfl (same_slots rfl) fun _ => rfl⟩
    · exact ⟨_, .error, own, rfl, hconn, hret⟩
  · by_cases hz : o.ready = 0
    · simp only [if_neg herr, if_pos hz]
      split_ifs
      · exact ⟨_, .ok, own, rfl, hconn, hret⟩
      · exact ⟨_, .error, own, rfl, hconn, hret.posts (Posts.alert _ (by simp))⟩
    · obtain ⟨t, r, own', ht, hconn', g'⟩ :=
        hret.processLoop hw (s.pollReturn o flags).nEvents 0 o.ready
      refine ⟨if r ≠ 0 then t.alert .readyNeEvents else t, .ok, own', ?_, ?_, ?_⟩
      · simp only [if_neg herr, if_neg hz, ht]
        rfl
      · split_ifs <;> exact hconn'.trans hconn
      · split_ifs
        · exact g'.congr_index (g'.base.same ⟨rfl, rfl, rfl, fun _ => rfl⟩) (fun _ ho => ho) rfl
            (same_slots rfl) fun _ => rfl
        · exact g'

end Process

section Edit
variable [DecidableEq E]

omit [DecidableEq E] in
/-- The event looked at beside the one of an open connection that is added or deleted. -/
theorem partner (hw : Wired cs ends s₀) (g : ClosedTable cs ends s₀ s own) (hc : c ∈ cs)
    (ho : s.Open c) (d : Side) :
    (if d.pollEvent = POLLIN then (s.conn (s.event (ends c d)).data).write
      else (s.conn (s.event (ends c d)).data).read) = some (ends c d.other) := by
  rw [← hw.partner hc d, g.base.data, hw.data c hc d, g.base.conn_eq ho]

theorem partnerIndex_eq (b : Bool) : (s.setActive (ends c d) b).partnerIndex
    (some (ends c d.other)) = if (s.event (ends c d.other)).index = INVALID_INDEX then none
      else some (s.event (ends c d.other)).index := by
  simp [World.partnerIndex]

/-- The events of open connections but one are where they were. -/
theorem placed_of_ne {t : World E C w} (hw : Wired cs ends s₀)
    (g : ClosedTable cs ends s₀ s own) (hc : c ∈ cs) (hopen : ∀ c, t.Open c → s.Open c)
    (hrest : ∀ ev, ev ≠ ends c d → (t.event ev).index = (s.event ev).index)
    (hself : (t.event (ends c d)).index = INVALID_INDEX ∨
      own[(t.event (ends c d)).index]? = some c) :
    ∀ c' ∈ cs, t.Open c' → ∀ d', (t.event (ends c' d')).index = INVALID_INDEX ∨
      own[(t.event (ends c' d')).index]? = some c' := by
  intro c' hc' ho' d'
  by_cases he : ends c' d' = ends c d
  · obtain ⟨rfl, rfl⟩ := hw.ends_inj hc' hc he
    exact hself
  · rw [hrest _ he]
    exact g.placed c' hc' (hopen c' ho') d'

/-- One event of an open connection whose other event is registered changes its index:
the connection keeps its slot. -/
theorem reslot {t : World E C w} (hw : Wired cs ends s₀) (g : ClosedTable cs ends s₀ s own)
    (hc : c ∈ cs) (hb : SameWiring s t) (hn : t.nEvents = s.nEvents) (hslot : SlotsKept own s t)
    (hother : (s.event (ends c d.other)).index ≠ INVALID_INDEX)
    (hrest : ∀ ev, ev ≠ ends c d → (t.event ev).index = (s.event ev).index)
    (hself : (t.event (ends c d)).index = INVALID_INDEX ∨
      own[(t.event (ends c d)).index]? = some c) : ClosedTable cs ends s₀ t own := by
  have hopen : ∀ c, t.Open c → s.Open c := fun c h => by rwa [World.Open, hb.conn] at h
  refine g.congr (g.base.same hb) hopen hn hslot (fun c' hc' ho' => ?_)
    (g.placed_of_ne hw hc hopen hrest hself)
  have hc'' := g.sub c' hc'
  by_cases hcc : c' = c
  · subst hcc
    refine ⟨d.other, ?_⟩
    rwa [hrest _ fun h => ?_]
    have := (hw.ends_inj hc hc h).2
    cases d <;> simp [Side.other] at this
  · obtain ⟨d', hd'⟩ := g.registered c' hc' (hopen c' ho')
    exact ⟨d', by rwa [hrest _ fun h => hcc (hw.ends_inj hc'' hc h).1]⟩

omit [DecidableEq E] in
theorem slotsKept_set {i : ℕ} {p q : PollFd} (hp : s.events[i]? = some p) (hq : q.fd = p.fd)
    (ht : t.events = s.events.set i q) : SlotsKept own s t := by
  intro j c p' _ hp'
  rw [ht]
  by_cases hij : i = j
  · subst hij
    obtain rfl : p = p' := Option.some.inj (hp.symm.trans hp')
    exact ⟨q, List.getElem?_set_self (List.getElem?_eq_some_iff.mp hp).1, .inl hq⟩
  · exact ⟨p', by rw [List.getElem?_set_ne hij, hp'], .inl rfl⟩

omit [DecidableEq E] in
theorem length_lt (hw : Wired cs ends s₀) (g : ClosedTable cs ends s₀ s own) (hc : c ∈ cs)
    (hout : c ∉ own) : own.length < s.events.length ∧ own.length < INVALID_INDEX := by
  have hle := ((List.nodup_cons.mpr ⟨hout, g.nodup⟩).subperm
    (List.cons_subset.mpr ⟨hc, g.sub⟩)).length_le
  have hsize := hw.size
  have hsmall := hw.small
  have hes := g.base.size
  rw [List.length_cons] at hle
  omega

theorem newslot {t : World E C w} (hw : Wired cs ends s₀) (g : ClosedTable cs ends s₀ s own)
    (hc : c ∈ cs) (hopen : s.Open c) (hout : c ∉ own) (hb : SameWiring s t) {p : PollFd}
    (hn : t.nEvents = own.length + 1)
    (hev : t.events = s.events.set own.length p) (hp : p.fd = (s.conn c).fd)
    (hself : (t.event (ends c d)).index = own.length)
    (hrest : ∀ ev, ev ≠ ends c d → (t.event ev).index = (s.event ev).index) :
    ClosedTable cs ends s₀ t (own ++ [c]) := by
  have hopen' : ∀ c, t.Open c → s.Open c := fun c h => by rwa [World.Open, hb.conn] at h
  have hsmall : own.length ≠ INVALID_INDEX := (g.length_lt hw hc hout).2.ne
  constructor
  case base => exact g.base.same hb
  case nodup => exact List.nodup_append.mpr ⟨g.nodup, List.nodup_singleton c, by
    rintro x hx y hy rfl
    exact hout (List.mem_singleton.mp hy ▸ hx)⟩
  case sub =>
    intro c' hc'
    rcases List.mem_append.mp hc' with h | h
    · exact g.sub c' h
    · exact List.mem_singleton.mp h ▸ hc
  case count => rw [hn, List.length_append, List.length_singleton]
  case slot =>
    rw [hev]
    refine (g.matched.imp fun c' _ q hq => ?_).concat (g.length_lt hw hc hout).1 (.inl ?_)
    · exact hq.imp_right fun h => ⟨h.1, mt (hopen' c') h.2⟩
    · rw [hp, g.base.conn_eq hopen]
  case registered =>
    intro c' hc' ho'
    by_cases hcc : c' = c
    · subst hcc
      exact ⟨d, by rwa [hself]⟩
    · have hmem : c' ∈ own := by simpa [hcc] using hc'
      obtain ⟨d', hd'⟩ := g.registered c' hmem (hopen' c' ho')
      exact ⟨d', by rwa [hrest _ fun h => hcc (hw.ends_inj (g.sub c' hmem) hc h).1]⟩
  case placed =>
    intro c' hc' ho' d'
    by_cases he : ends c' d' = ends c d
    · obtain ⟨rfl, rfl⟩ := hw.ends_inj hc' hc he
      exact .inr (by rw [hself, List.getElem?_concat_length])
    · rw [hrest _ he]
      refine (g.placed c' hc' (hopen' c' ho') d').imp_right fun h => ?_
      rw [List.getElem?_append_left (List.getElem?_eq_some_iff.mp h).1, h]

omit [DecidableEq E] in
theorem notMem_own (g : ClosedTable cs ends s₀ s own) (ho : s.Open c)
    (hi : (s.event (ends c d)).index = INVALID_INDEX)
    (hother : (s.event (ends c d.other)).index = INVALID_INDEX) : c ∉ own := by
  intro h
  obtain ⟨d', hd'⟩ := g.registered c h ho
  rcases Side.eq_or_eq_other d' d with rfl | rfl
  · exact hd' hi
  · exact hd' hother

theorem add (hw : Wired cs ends s₀) (g : ClosedTable cs ends s₀ s own) (hc : c ∈ cs)
    (ho : s.Open c) (d : Side) : ∃ t own', pollAddEvent s (ends c d) d.pollEvent = some t ∧
      t.conn = s.conn ∧ ClosedTable cs ends s₀ t own' := by
  have hpart := g.partner hw hc ho d
  by_cases hi : (s.event (ends c d)).index = INVALID_INDEX
  · by_cases hother : (s.event (ends c d.other)).index = INVALID_INDEX
    · have hout := g.notMem_own ho hi hother
      obtain ⟨hlt, hsmall⟩ := g.length_lt hw hc hout
      have hn : (own.length + 1) % uintSize = own.length + 1 :=
        Nat.mod_eq_of_lt (by simp only [INVALID_INDEX, uintSize] at *; omega)
      have ht : pollAddEvent s (ends c d) d.pollEvent = some
          ((((s.setActive (ends c d) true).setPollFd own.length
            ⟨(s.conn c).fd, d.pollEvent, 0⟩).setIndex (ends c d) own.length).setNEvents
              (own.length + 1)) := by
        rw [pollAddEvent, hpart, partnerIndex_eq, if_pos hother, g.base.data, hw.data c hc d]
        simp [hi, g.count, List.getElem?_eq_getElem hlt, hn]
      exact ⟨_, own ++ [c], ht, rfl, g.newslot (d := d) hw hc ho hout
        ⟨rfl, rfl, by simp, by simp⟩ rfl rfl rfl (by simp) fun e he => by simp [he]⟩
    · have hown := g.own_index hc ho hother
      obtain ⟨p, hp, -⟩ := g.slot _ c hown
      have ht : pollAddEvent s (ends c d) d.pollEvent = some
          (((s.setActive (ends c d) true).setPollFd (s.event (ends c d.other)).index
            { p with events := p.events ||| d.pollEvent }).setIndex (ends c d)
              (s.event (ends c d.other)).index) := by
        rw [pollAddEvent, hpart, partnerIndex_eq, if_neg hother]
        simp [hi, hp]
      refine ⟨_, own, ht, rfl, g.reslot hw hc ⟨rfl, rfl, by simp, by simp⟩ rfl ?_ hother
        (fun e he => by simp [he]) (.inr (by simpa using hown))⟩
      exact slotsKept_set (q := { p with events := p.events ||| d.pollEvent }) hp rfl rfl
  · have ht : pollAddEvent s (ends c d) d.pollEvent =
        some ((s.setActive (ends c d) true).alert (.alreadySet (s.conn c).fd d.pollEvent)) := by
      rw [pollAddEvent, g.base.data, hw.data c hc d]
      simp [hi]
    exact ⟨_, own, ht, rfl, g.congr_index (g.base.same ⟨rfl, rfl, rfl, fun e =>
      World.setActive_data s (ends c d) e true⟩) (fun _ h => h) rfl (same_slots rfl)
      fun e => World.setActive_index s (ends c d) e true⟩

omit [DecidableEq E] in
/-- The slot of an open connection whose last event leaves: the last slot moves into it. -/
theorem freeslot {t : World E C w} (hw : Wired cs ends s₀) (g : ClosedTable cs ends s₀ s own)
    (hc : c ∈ cs) (ho : s.Open c) (hb : SameWiring s t) {p : PollFd}
    (hi : own[(s.event (ends c d)).index]? = some c)
    (hother : (s.event (ends c d.other)).index = INVALID_INDEX)
    (hp : s.events[own.length - 1]? = some p) (hn : t.nEvents = own.length - 1)
    (hev : t.events = s.events.set (s.event (ends c d)).index p)
    (hself : (t.event (ends c d)).index = INVALID_INDEX)
    (hrest : ∀ c' ∈ cs, s.Open c' → ∀ d', ends c' d' ≠ ends c d →
      (t.event (ends c' d')).index = if (s.event (ends c' d')).index = own.length - 1 then
        (s.event (ends c d)).index else (s.event (ends c' d')).index) :
    ClosedTable cs ends s₀ t (SlotTable.swapRemove own (s.event (ends c d)).index) := by
  generalize hindex : (s.event (ends c d)).index = i at *
  have hlen := (List.getElem?_eq_some_iff.mp hi).1
  have hperm := SlotTable.swapRemove_perm hi
  obtain ⟨hout, hnd⟩ := List.nodup_cons.mp (hperm.nodup_iff.mpr g.nodup)
  have hopen : ∀ c, t.Open c ↔ s.Open c := fun c => by rw [World.Open, hb.conn, World.Open]
  have hmem : ∀ c' ∈ SlotTable.swapRemove own i, c' ∈ own := fun c' h =>
    hperm.mem_iff.mp (List.mem_cons_of_mem c h)
  have hne : ∀ {c' : C}, c' ∈ cs → c' ≠ c → ∀ d', ends c' d' ≠ ends c d :=
    fun hc' hcc d' h => hcc (hw.ends_inj hc' hc h).1
  have hlast : own.length - 1 ≠ INVALID_INDEX := by
    have := g.length_le
    have := hw.small
    omega
  constructor
  case base => exact g.base.same hb
  case nodup => exact hnd
  case sub => exact fun c' h => g.sub c' (hmem c' h)
  case count => rw [hn, SlotTable.length_swapRemove]
  case slot =>
    rw [hev]
    refine (g.matched.swapRemove hp).imp fun c' _ q hq => ?_
    exact hq.imp_right fun h => ⟨h.1, mt (hopen c').mp h.2⟩
  case registered =>
    intro c' hc' ho'
    have hcs := g.sub c' (hmem c' hc')
    have hcc : c' ≠ c := fun h => hout (h ▸ hc')
    obtain ⟨d', hd'⟩ := g.registered c' (hmem c' hc') ((hopen c').mp ho')
    refine ⟨d', ?_⟩
    rw [hrest c' hcs ((hopen c').mp ho') d' (hne hcs hcc d')]
    split_ifs
    · exact g.index_ne hw hi
    · exact hd'
  case placed =>
    intro c' hc' ho' d'
    have ho'' := (hopen c').mp ho'
    by_cases he : ends c' d' = ends c d
    · exact .inl (he ▸ hself)
    rw [hrest c' hc' ho'' d' he]
    by_cases hcc : c' = c
    · -- the other event of the connection has no slot either
      subst hcc
      obtain rfl := (Side.eq_or_eq_other d' d).resolve_left fun h => he (by rw [h])
      rw [hother, if_neg (Ne.symm hlast)]
      exact .inl rfl
    · rcases g.placed c' hc' ho'' d' with h | h
      · rw [h, if_neg (Ne.symm hlast)]
        exact .inl rfl
      · have hji : (s.event (ends c' d')).index ≠ i := fun hj' =>
          hcc (Option.some.inj ((hj' ▸ h).symm.trans hi))
        exact .inr (SlotTable.getElem?_swapRemove_moved hlen h hji)

omit [DecidableEq E] in
theorem pred_nEvents (hw : Wired cs ends s₀) (g : ClosedTable cs ends s₀ s own)
    (hpos : 0 < own.length) : (s.nEvents + uintSize - 1) % uintSize = own.length - 1 := by
  have := g.length_le
  have := hw.small
  rw [g.count]
  simp only [INVALID_INDEX, uintSize] at *
  omega

theorem pollDelEvent_alone (hw : Wired cs ends s₀) (g : ClosedTable cs ends s₀ s own) (hc : c ∈ cs)
    (ho : s.Open c) (hi : (s.event (ends c d)).index ≠ INVALID_INDEX)
    (hother : (s.event (ends c d.other)).index = INVALID_INDEX) :
    pollDelEvent s (ends c d) d.pollEvent =
      (pollDelSlot (s.setActive (ends c d) false) (ends c d)).map
        fun t => t.setIndex (ends c d) INVALID_INDEX := by
  rw [pollDelEvent, g.partner hw hc ho d, partnerIndex_eq, if_pos hother]
  simp only [World.setActive_index, if_neg hi]
  cases pollDelSlot (s.setActive (ends c d) false) (ends c d) <;> rfl

theorem del_none (hw : Wired cs ends s₀) (g : ClosedTable cs ends s₀ s own) (hc : c ∈ cs)
    (ho : s.Open c) (d : Side) (h : MovesDisabled ends s c d) :
    pollDelEvent s (ends c d) d.pollEvent = none := by
  obtain ⟨hi, hother, hlt, p, hp, hfd⟩ := h
  have hn := g.pred_nEvents hw (by have := g.count; omega)
  have hp' : s.events[own.length - 1]? = some p := g.count ▸ hp
  have hlt' : (s.event (ends c d)).index < own.length - 1 := by
    have := g.count
    omega
  rw [g.pollDelEvent_alone hw hc ho hi hother]
  simp [pollDelSlot, hn, hlt', hp', World.file, hfd]

/-- The deletion of an event that is alone in its slot, when that is the last slot or
the last one is not disabled. -/
theorem del_alone (hw : Wired cs ends s₀) (g : ClosedTable cs ends s₀ s own) (hc : c ∈ cs)
    (ho : s.Open c) (d : Side) (hi : (s.event (ends c d)).index ≠ INVALID_INDEX)
    (hother : (s.event (ends c d.other)).index = INVALID_INDEX)
    (h : ¬ MovesDisabled ends s c d) : ∃ t own',
      pollDelEvent s (ends c d) d.pollEvent = some t ∧
      t.conn = s.conn ∧ ClosedTable cs ends s₀ t own' := by
  have hown := g.own_index hc ho hi
  have hlt := (List.getElem?_eq_some_iff.mp hown).1
  have hn := g.pred_nEvents hw (by omega)
  obtain ⟨b, hb⟩ : ∃ b, own[own.length - 1]? = some b :=
    ⟨_, List.getElem?_eq_getElem (by omega)⟩
  obtain ⟨p, hp, hfile⟩ := g.file_slot hw hb
  have hbcs := g.sub b (List.mem_of_getElem? hb)
  rw [g.pollDelEvent_alone hw hc ho hi hother]
  rcases Nat.lt_or_ge (s.event (ends c d)).index (own.length - 1) with hmove | hlast
  · have hfd : p.fd ≠ -1 := fun hfd => h ⟨hi, hother, by have := g.count; omega, p,
      by rw [g.count]; exact hp, hfd⟩
    obtain ⟨-, -, hfile⟩ := hfile.resolve_right fun h => hfd h.1
    have hbc : b ≠ c := by
      rintro rfl
      have := g.slot_inj hown hb
      omega
    -- only an event of the last slot's owner has its index
    have hlastOwner : ∀ c' ∈ cs, s.Open c' → ∀ d',
        (s.event (ends c' d')).index = own.length - 1 → c' = b := by
      intro c' hc' ho' d' hd'
      have hne : (s.event (ends c' d')).index ≠ INVALID_INDEX := hd' ▸ g.index_ne hw hb
      exact Option.some.inj ((hd' ▸ g.own_index hc' ho' hne).symm.trans hb)
    by_cases hob : s.Open b
    · have hread : (s.conn b).read = some (ends b .read) := by
        rw [g.base.conn_eq hob]
        exact hw.side b hbcs .read
      have hwrite : (s.conn b).write = some (ends b .write) := by
        rw [g.base.conn_eq hob]
        exact hw.side b hbcs .write
      have hne : ∀ d', ends c d ≠ ends b d' := fun d' h => hbc (hw.ends_inj hc hbcs h).1.symm
      rw [PollTable.pollDelSlot_of_lt (s := s.setActive (ends c d) false) hn (by simpa using hmove)
        hp hfile hob hread hwrite]
      refine ⟨_, _, rfl, by simp, g.freeslot (d := d) hw hc ho ⟨by simp, by simp, by simp, by simp⟩
        hown hother hp (by simp) (by simp) (by simp) fun c' hc' ho' d' he => ?_⟩
      have hx (h : (s.event (ends c' d')).index = own.length - 1) :
          ends c' d' = ends b .read ∨ ends c' d' = ends b .write := by
        obtain rfl := hlastOwner c' hc' ho' d' h
        cases d' <;> simp
      rw [World.setIndex_index, if_neg he, World.repairIndex_both (hne .read) (hw.ne b hbcs)]
      · simp
      · simpa using hx
    · have hfdb : (s.conn b).fd = -1 := not_not.mp hob
      have ht : pollDelSlot (s.setActive (ends c d) false) (ends c d) =
          some ((((s.setActive (ends c d) false).setNEvents (own.length - 1)).setPollFd
            (s.event (ends c d)).index p).alert .unexpectedLast) := by
        simp [pollDelSlot, hn, hmove, hp, hfile, hfdb]
      rw [ht]
      refine ⟨_, _, rfl, rfl, g.freeslot (d := d) hw hc ho ⟨rfl, rfl, by simp [World.alert],
        by simp [World.alert]⟩ hown hother hp rfl (by simp [World.alert]) (by simp)
        fun c' hc' ho' d' he => ?_⟩
      have hl : (s.event (ends c' d')).index ≠ own.length - 1 := fun hl =>
        hob (hlastOwner c' hc' ho' d' hl ▸ ho')
      simp [he, hl, World.alert]
  · have hii : (s.event (ends c d)).index = own.length - 1 := by omega
    rw [PollTable.pollDelSlot_of_ge (s := s.setActive (ends c d) false) hn (by simpa using hlast)]
    refine ⟨_, _, rfl, rfl, g.freeslot (d := d) hw hc ho ⟨rfl, rfl, by simp, by simp⟩
      hown hother hp (by simp) ?_ (by simp) fun c' hc' ho' d' he => ?_⟩
    · obtain ⟨hlen, rfl⟩ := List.getElem?_eq_some_iff.mp hp
      simp [hii]
    · simp only [World.setIndex_index, if_neg he, World.setNEvents_event, World.setActive_index]
      split_ifs <;> omega

theorem del (hw : Wired cs ends s₀) (g : ClosedTable cs ends s₀ s own) (hc : c ∈ cs)
    (ho : s.Open c) (d : Side) (h : ¬ MovesDisabled ends s c d) : ∃ t own',
      pollDelEvent s (ends c d) d.pollEvent = some t ∧
      t.conn = s.conn ∧ ClosedTable cs ends s₀ t own' := by
  by_cases hi : (s.event (ends c d)).index = INVALID_INDEX
  · have ht : pollDelEvent s (ends c d) d.pollEvent =
        some ((s.setActive (ends c d) false).alert
          (.alreadyDeleted (s.conn c).fd d.pollEvent)) := by
      rw [pollDelEvent, g.base.data, hw.data c hc d]
      simp [hi]
    exact ⟨_, own, ht, rfl, g.congr_index (g.base.same ⟨rfl, rfl, rfl, fun e =>
      World.setActive_data s (ends c d) e false⟩) (fun _ h => h) rfl (same_slots rfl)
      fun e => World.setActive_index s (ends c d) e false⟩
  · by_cases hother : (s.event (ends c d.other)).index = INVALID_INDEX
    · exact g.del_alone hw hc ho d hi hother h
    · have hown := g.own_index hc ho hother
      obtain ⟨p, hp, -⟩ := g.slot _ c hown
      have ht : pollDelEvent s (ends c d) d.pollEvent = some
          (((s.setActive (ends c d) false).setPollFd (s.event (ends c d.other)).index
            { p with events := p.events &&& ~~~d.pollEvent }).setIndex (ends c d)
              INVALID_INDEX) := by
        rw [pollDelEvent, g.partner hw hc ho d, partnerIndex_eq, if_neg hother]
        simp [hi, hp]
      refine ⟨_, own, ht, rfl, g.reslot hw hc ⟨rfl, rfl, by simp, by simp⟩ rfl ?_ hother
        (fun e he => by simp [he]) (.inl (by simp))⟩
      exact slotsKept_set (q := { p with events := p.events &&& ~~~d.pollEvent }) hp rfl rfl

end Edit

end ClosedTable

section Run
variable [DecidableEq E] [DecidableEq C]

/-- What happens to the table while some connections are closed. -/
inductive ClosedOp (C : Type) (w : ℕ) where
  | close (c : C)
  | process (o : PollOutcome w) (timer : Msec w) (flags : ℕ)
  | add (c : C) (d : Side)
  | del (c : C) (d : Side)

def closedStep (ends : C → Side → E) (s : World E C w) : ClosedOp C w → Option (World E C w)
  | .close c => some (closeConnection s c)
  | .process o timer flags => (pollProcessEvents o timer flags s).map Prod.fst
  | .add c d => pollAddEvent s (ends c d) d.pollEvent
  | .del c d => pollDelEvent s (ends c d) d.pollEvent

def closedRun (ends : C → Side → E) : World E C w → List (ClosedOp C w) → Option (World E C w)
  | s, [] => some s
  | s, op :: ops => (closedStep ends s op).bind fun t => closedRun ends t ops

/-- Events are added and deleted of open connections only. -/
def ClosedOp.Legal (cs : List C) (s : World E C w) : ClosedOp C w → Prop
  | close _ => True
  | process _ _ _ => True
  | add c _ => c ∈ cs ∧ s.Open c
  | del c _ => c ∈ cs ∧ s.Open c

/-- The operation does not move a disabled slot. -/
def ClosedOp.Safe (ends : C → Side → E) (s : World E C w) : ClosedOp C w → Prop
  | del c d => ¬ MovesDisabled ends s c d
  | _ => True

instance (ends : C → Side → E) (s : World E C w) : DecidablePred (ClosedOp.Safe ends s)
  | .close _ => inferInstanceAs (Decidable True)
  | .process _ _ _ => inferInstanceAs (Decidable True)
  | .add _ _ => inferInstanceAs (Decidable True)
  | .del _ _ => inferInstanceAs (Decidable ¬ (_ ∧ _ ∧ _ ∧ ∃ p ∈ _, _))

/-- A condition holds of every operation of a run, in the state it finds. -/
def AllSteps (ends : C → Side → E) (P : World E C w → ClosedOp C w → Prop) :
    World E C w → List (ClosedOp C w) → Prop
  | _, [] => True
  | s, op :: ops => P s op ∧ ∀ t ∈ closedStep ends s op, AllSteps ends P t ops

instance (cs : List C) (s : World E C w) : DecidablePred (ClosedOp.Legal cs s)
  | .close _ => inferInstanceAs (Decidable True)
  | .process _ _ _ => inferInstanceAs (Decidable True)
  | .add _ _ => inferInstanceAs (Decidable (_ ∧ _))
  | .del _ _ => inferInstanceAs (Decidable (_ ∧ _))

instance decidableAllSteps (ends : C → Side → E) (P : World E C w → ClosedOp C w → Prop)
    [∀ s, DecidablePred (P s)] : ∀ s ops, Decidable (AllSteps ends P s ops)
  | _, [] => inferInstanceAs (Decidable True)
  | s, op :: ops =>
    have (t : World E C w) : Decidable (AllSteps ends P t ops) := decidableAllSteps ends P t ops
    inferInstanceAs (Decidable (P s op ∧ ∀ t ∈ closedStep ends s op, AllSteps ends P t ops))

variable {cs own : List C} {ends : C → Side → E} {s₀ s : World E C w}

theorem ClosedTable.step (hw : Wired cs ends s₀) (g : ClosedTable cs ends s₀ s own)
    {op : ClosedOp C w} (hl : op.Legal cs s) (hs : op.Safe ends s) :
    ∃ t own', closedStep ends s op = some t ∧ ClosedTable cs ends s₀ t own' := by
  cases op with
  | close c => exact ⟨_, own, rfl, g.close c⟩
  | process o timer flags =>
    obtain ⟨t, rc, own', ht, -, g'⟩ := g.process hw o timer flags
    exact ⟨t, own', by simp [closedStep, ht], g'⟩
  | add c d =>
    obtain ⟨t, own', ht, -, g'⟩ := g.add hw hl.1 hl.2 d
    exact ⟨t, own', ht, g'⟩
  | del c d =>
    obtain ⟨t, own', ht, -, g'⟩ := g.del hw hl.1 hl.2 d hs
    exact ⟨t, own', ht, g'⟩

theorem ClosedTable.step_none (hw : Wired cs ends s₀) (g : ClosedTable cs ends s₀ s own)
    {op : ClosedOp C w} (hl : op.Legal cs s) (hs : ¬ op.Safe ends s) :
    closedStep ends s op = none := by
  cases op with
  | close c => exact absurd trivial hs
  | process o timer flags => exact absurd trivial hs
  | add c d => exact absurd trivial hs
  | del c d => exact g.del_none hw hl.1 hl.2 d (not_not.mp hs)

theorem ClosedTable.run_iff (hw : Wired cs ends s₀) (g : ClosedTable cs ends s₀ s own)
    (ops : List (ClosedOp C w)) (hl : AllSteps ends (ClosedOp.Legal cs) s ops) :
    (∀ pre, pre <+: ops → ∃ t, closedRun ends s pre = some t ∧ Usable cs ends t) ↔
      AllSteps ends (ClosedOp.Safe ends) s ops := by
  induction ops generalizing s own with
  | nil =>
    refine iff_of_true (fun pre hpre => ?_) trivial
    rw [List.prefix_nil.mp hpre]
    exact ⟨s, rfl, g.usable hw⟩
  | cons op ops ih =>
    obtain ⟨hop, hops⟩ := hl
    constructor
    · intro h
      have hsafe : op.Safe ends s := by
        by_contra hs
        obtain ⟨t, ht, -⟩ := h [op] (List.prefix_append [op] ops)
        simp [closedRun, g.step_none hw hop hs] at ht
      refine ⟨hsafe, fun t ht => ?_⟩
      obtain ⟨u, own', hu, g'⟩ := g.step hw hop hsafe
      obtain rfl : u = t := Option.some.inj (hu.symm.trans ht)
      refine (ih g' (hops u hu)).mp fun pre hpre => ?_
      obtain ⟨v, hv, huse⟩ := h (op :: pre) ((List.prefix_cons_inj op).mpr hpre)
      exact ⟨v, by simpa [closedRun, hu] using hv, huse⟩
    · rintro ⟨hsafe, hrest⟩ pre hpre
      obtain ⟨u, own', hu, g'⟩ := g.step hw hop hsafe
      rcases List.prefix_cons_iff.mp hpre with rfl | ⟨pre', rfl, hpre'⟩
      · exact ⟨s, rfl, g.usable hw⟩
      · obtain ⟨t, ht, huse⟩ := (ih g' (hops u hu)).mpr (hrest u hu) pre' hpre'
        exact ⟨t, by simpa [closedRun, hu] using ht, huse⟩

/-- From a table that satisfies the invariant, whatever connections are closed: every
state that a run reaches is usable, and no operation reads out of range, if and only
if no deletion moves a disabled slot. -/
theorem closedRun_usable_iff (cs : List C) (ends : C → Side → E) (s₀ : World E C w)
    (hw : Wired cs ends s₀) (g : PollInv cs ends s₀) (ops : List (ClosedOp C w))
    (hl : AllSteps ends (ClosedOp.Legal cs) s₀ ops) :
    (∀ pre, pre <+: ops → ∃ t, closedRun ends s₀ pre = some t ∧ Usable cs ends t) ↔
      AllSteps ends (ClosedOp.Safe ends) s₀ ops := by
  obtain ⟨own, g'⟩ := ClosedTable.of_pollInv hw g
  exact g'.run_iff hw ops hl

end Run

/-- Three connections with descriptors 0, 1 and 2. -/
def threeConnections : World (Fin 3 × Side) (Fin 3) 64 :=
  { World.zero 0 with
    event e := (World.zero e.1 : World (Fin 3 × Side) (Fin 3) 64).event e
    conn c := ⟨some (c, .read), some (c, .write), c⟩
    files := [some 0, some 1, some 2]
    events := [⟨0, 0, 0⟩, ⟨0, 0, 0⟩, ⟨0, 0, 0⟩] }

/-- The read event of each is registered. -/
def threeRegistered : World (Fin 3 × Side) (Fin 3) 64 :=
  (pollRun (·, ·) threeConnections [.add 0 .read, .add 1 .read, .add 2 .read]).getD
    threeConnections

theorem threeRegistered_inv : Wired [0, 1, 2] (·, ·) threeRegistered ∧
    PollInv [0, 1, 2] (·, ·) threeRegistered := by
  have hops : ∀ op ∈ [PollOp.add (0 : Fin 3) .read, .add 1 .read, .add 2 .read],
      op.conn ∈ [0, 1, 2] := by decide
  have hwired : Wired [0, 1, 2] (·, ·) threeConnections :=
    ⟨by decide, fun _ _ d => by cases d <;> rfl, fun _ _ _ => rfl, by decide, by decide, by decide,
      by decide, by decide⟩
  exact PollTable.registered hwired rfl (fun _ _ _ => ⟨rfl, rfl⟩) hops threeConnections

/-- The second connection is closed, poll reports its descriptor and the slot is
disabled. Then events of the two others are deleted. -/
def closeAndDelete (dels : List (Fin 3)) : List (ClosedOp (Fin 3) 64) :=
  .close 1 :: .process ⟨1, 0, fun i => if i = 1 then POLLNVAL else 0, 7⟩ 10 UPDATE_TIME ::
    dels.map fun c => .del c .read

/-- The first slot is freed, and the last one, which is in use, takes its place. -/
theorem closedRun_usable_iff_first :
    AllSteps (·, ·) (ClosedOp.Safe (·, ·)) threeRegistered (closeAndDelete [0]) ∧
    ∀ pre, pre <+: closeAndDelete [0] → ∃ t, closedRun (·, ·) threeRegistered pre = some t ∧
      Usable [0, 1, 2] (·, ·) t := by
  have hsafe : AllSteps (·, ·) (ClosedOp.Safe (·, ·)) threeRegistered (closeAndDelete [0]) := by
    decide
  exact ⟨hsafe, (closedRun_usable_iff [0, 1, 2] (·, ·) threeRegistered threeRegistered_inv.1
    threeRegistered_inv.2 (closeAndDelete [0]) (by decide)).mpr hsafe⟩

/-- Once the last slot is freed, the disabled one is the last, and the next deletion
reads `files()[-1]`. -/
theorem closedRun_usable_fails : ¬ ∀ (cs : List (Fin 3)) (ends : Fin 3 → Side → Fin 3 × Side)
    (s₀ : World (Fin 3 × Side) (Fin 3) 64), Wired cs ends s₀ → PollInv cs ends s₀ →
    ∀ ops : List (ClosedOp (Fin 3) 64), AllSteps ends (ClosedOp.Legal cs) s₀ ops →
    ∀ pre, pre <+: ops → ∃ t, closedRun ends s₀ pre = some t ∧ Usable cs ends t := by
  intro h
  obtain ⟨t, ht, -⟩ := h [0, 1, 2] (·, ·) threeRegistered threeRegistered_inv.1
    threeRegistered_inv.2 (closeAndDelete [2, 0]) (by decide) _ List.prefix_rfl
  have hnone : closedRun (·, ·) threeRegistered (closeAndDelete [2, 0]) = none :=
    Option.isNone_iff_eq_none.mp (by decide)
  rw [hnone] at ht
  cases ht

end Lingx.Events
