import Lingx.Events.State
import Lingx.Process

/-! `Poll_init_`, the size of the poll table. A cycle resizes the table when it has more
connections than the cycle before it; the table keeps the largest size so far, so a
rise that stays under an earlier peak meets the assertion. -/

namespace Lingx.Events

/-- What `Poll_init_` reads of a cycle: its `connection_n()` and, unless the old cycle is
null, that of the old cycle. -/
structure PollCycle where
  connectionN : ℕ
  oldConnectionN : Option ℕ
  deriving DecidableEq, Repr

def USE_LEVEL_EVENT : BitVec 32 := 0x00000001
def USE_FD_EVENT : BitVec 32 := 0x00000400

/-- `std::vector::resize`. -/
def resize {α : Type} (l : List α) (n : ℕ) (a : α) : List α :=
  l.take n ++ List.replicate (n - l.length) a

variable {E C : Type} {w : ℕ}

/-- `Poll_init_`, with the `Event_flags` it sets; `none` is a failed assertion. -/
def pollInit (t : ProcessType) (cycle : PollCycle) (s : World E C w) :
    Option (World E C w × BitVec 32) := do
  let s := if s.events = [] then s.setNEvents 0 else s
  let s ←
    if t.isWorker ∨ ∀ old ∈ cycle.oldConnectionN, old < cycle.connectionN then
      if s.events.length ≤ cycle.connectionN then
        some { s with events := resize s.events cycle.connectionN ⟨0, 0, 0⟩ }
      else none
    else some s
  some (s, USE_LEVEL_EVENT ||| USE_FD_EVENT)

/-- The cycles of a process in turn, each the old cycle of the next one: no assertion
fails, and each call leaves room for the connections of its cycle and no less than
there was. -/
def KeepsRoom (t : ProcessType) : Option ℕ → World E C w → List ℕ → Prop
  | _, _, [] => True
  | old, s, n :: ns => ∃ s' flags, pollInit t ⟨n, old⟩ s = some (s', flags) ∧
      n ≤ s'.events.length ∧ s.events.length ≤ s'.events.length ∧ KeepsRoom t (some n) s' ns

/-- A rise over the cycle before is at least a rise to the largest size so far. -/
def RisesToPeak : (peak last : ℕ) → List ℕ → Prop
  | _, _, [] => True
  | peak, last, n :: ns => (last < n → peak ≤ n) ∧ RisesToPeak (max peak n) n ns

section Step

variable {t : ProcessType} {s s' : World E C w} {old : Option ℕ} {n last : ℕ} {flags : BitVec 32}
  {ns : List ℕ}

theorem length_resize {α : Type} (l : List α) (a : α) : (resize l n a).length = n := by
  simp only [resize, List.length_append, List.length_take, List.length_replicate]
  omega

theorem setNEvents_if_events : (if s.events = [] then s.setNEvents 0 else s).events = s.events := by
  split_ifs <;> rfl

theorem pollInit_resize (h : t.isWorker ∨ ∀ m ∈ old, m < n) (hl : s.events.length ≤ n) :
    ∃ s' flags, pollInit t ⟨n, old⟩ s = some (s', flags) ∧ s'.events.length = n := by
  unfold pollInit
  simp only [if_pos h, setNEvents_if_events, if_pos hl]
  exact ⟨_, _, rfl, length_resize ..⟩

theorem pollInit_assert (h : t.isWorker ∨ ∀ m ∈ old, m < n) (hl : ¬s.events.length ≤ n) :
    pollInit t ⟨n, old⟩ s = none := by
  unfold pollInit
  simp only [if_pos h, setNEvents_if_events, if_neg hl]
  rfl

theorem pollInit_keep (h : ¬(t.isWorker ∨ ∀ m ∈ old, m < n)) :
    ∃ s' flags, pollInit t ⟨n, old⟩ s = some (s', flags) ∧ s'.events = s.events := by
  unfold pollInit
  simp only [if_neg h]
  exact ⟨_, _, rfl, setNEvents_if_events⟩

/-- The table of a process has the largest size so far, as long as each rise reaches it. -/
theorem keepsRoom_iff (ht : ¬t.isWorker) (hl : last ≤ s.events.length) :
    KeepsRoom t (some last) s ns ↔ RisesToPeak s.events.length last ns := by
  induction ns generalizing s last with
  | nil => exact Iff.rfl
  | cons n ns ih =>
    have hold : (t.isWorker ∨ ∀ m ∈ some last, m < n) ↔ last < n := by simp [ht]
    rw [KeepsRoom, RisesToPeak]
    by_cases hn : last < n
    · by_cases hp : s.events.length ≤ n
      · obtain ⟨s', flags, hi, hs'⟩ := pollInit_resize (hold.2 hn) hp
        have hm : max s.events.length n = s'.events.length := by omega
        rw [hm, ← ih (by omega)]
        constructor
        · rintro ⟨s₁, flags₁, h₁, -, -, hr⟩
          rw [hi] at h₁
          cases h₁
          exact ⟨fun _ => hp, hr⟩
        · exact fun h => ⟨s', flags, hi, by omega, by omega, h.2⟩
      · rw [pollInit_assert (hold.2 hn) hp]
        constructor
        · rintro ⟨_, _, h, -⟩
          cases h
        · exact fun h => absurd (h.1 hn) hp
    · obtain ⟨s', flags, hi, hs'⟩ := pollInit_keep (s := s) (mt hold.1 hn)
      have hm : max s.events.length n = s'.events.length := by rw [hs']; omega
      rw [hm, ← ih (by omega)]
      constructor
      · rintro ⟨s₁, flags₁, h₁, -, -, hr⟩
        rw [hi] at h₁
        cases h₁
        exact ⟨fun h => absurd h hn, hr⟩
      · exact fun h => ⟨s', flags, hi, by omega, by rw [hs'], h.2⟩

end Step

theorem head_le_of_rise {l₁ l₂ ns : List ℕ} {n m q : ℕ} (he : n :: ns = l₁ ++ m :: q :: l₂)
    (hmq : m < q) (hk : ∀ k ∈ l₁, k ≤ q) : n ≤ q := by
  cases l₁ with
  | nil =>
    simp only [List.nil_append, List.cons.injEq] at he
    omega
  | cons k l₁ =>
    simp only [List.cons_append, List.cons.injEq] at he
    exact he.1 ▸ hk k (List.mem_cons_self ..)

/-- The rises of a sequence, each seen with all that comes before it. -/
theorem risesToPeak_iff {peak last : ℕ} {ns : List ℕ} (hl : last ≤ peak) :
    RisesToPeak peak last ns ↔
      ∀ l₁ m n l₂, last :: ns = l₁ ++ m :: n :: l₂ → m < n → peak ≤ n ∧ ∀ k ∈ l₁, k ≤ n := by
  induction ns generalizing peak last with
  | nil =>
    refine ⟨fun _ l₁ m n l₂ h => ?_, fun _ => trivial⟩
    have := congrArg List.length h
    simp only [List.length_append, List.length_cons, List.length_nil] at this
    omega
  | cons n ns ih =>
    rw [RisesToPeak, ih (le_max_right peak n)]
    constructor
    · rintro ⟨h0, h⟩ l₁ m q l₂ he hmq
      cases l₁ with
      | nil =>
        simp only [List.nil_append, List.cons.injEq] at he
        obtain ⟨rfl, rfl, rfl⟩ := he
        exact ⟨h0 hmq, nofun⟩
      | cons k l₁ =>
        simp only [List.cons_append, List.cons.injEq] at he
        obtain ⟨rfl, he⟩ := he
        obtain ⟨hp, hk⟩ := h l₁ m q l₂ he hmq
        exact ⟨by omega, List.forall_mem_cons.2 ⟨by omega, hk⟩⟩
    · intro h
      refine ⟨fun hn => (h [] last n ns rfl hn).1, fun l₁ m q l₂ he hmq => ?_⟩
      obtain ⟨hp, hk⟩ := h (last :: l₁) m q l₂ (congrArg _ he) hmq
      obtain ⟨-, hk⟩ := List.forall_mem_cons.1 hk
      have hq : n ≤ q := head_le_of_rise he hmq hk
      exact ⟨by omega, hk⟩

/-- The poll table of a process that is no worker keeps room exactly when each rise of
the number of connections over the cycle before is at least a rise to the largest
number so far. -/
theorem pollInit_keepsRoom (t : ProcessType) (s : World E C w) (ns : List ℕ) (ht : ¬t.isWorker)
    (hs : s.events = []) :
    KeepsRoom t none s ns ↔
      ∀ l₁ m n l₂, ns = l₁ ++ m :: n :: l₂ → m < n → ∀ k ∈ l₁, k ≤ n := by
  cases ns with
  | nil => exact ⟨fun _ l₁ m n l₂ h => by simp at h, fun _ => trivial⟩
  | cons n ns =>
    have hroom : s.events.length ≤ n := by simp [hs]
    obtain ⟨s', flags, hi, hs'⟩ : ∃ s' flags, pollInit t ⟨n, none⟩ s = some (s', flags) ∧
        s'.events.length = n := pollInit_resize (.inr nofun) hroom
    have hfirst : KeepsRoom t none s (n :: ns) ↔ KeepsRoom t (some n) s' ns := by
      rw [KeepsRoom]
      constructor
      · rintro ⟨s₁, flags₁, h₁, -, -, hr⟩
        rw [hi] at h₁
        cases h₁
        exact hr
      · exact fun hr => ⟨s', flags, hi, by omega, by simp [hs], hr⟩
    rw [hfirst, keepsRoom_iff ht (by omega), hs', risesToPeak_iff le_rfl]
    constructor
    · exact fun h l₁ m q l₂ he hmq => (h l₁ m q l₂ he hmq).2
    · intro h l₁ m q l₂ he hmq
      have hk := h l₁ m q l₂ he hmq
      exact ⟨head_le_of_rise he hmq hk, hk⟩

/-- Ten connections, then five, then seven: the third cycle meets the assertion. -/
theorem pollInit_below_peak :
    ¬KeepsRoom .single none (World.zero () : World Unit Unit 32) [10, 5, 7] := by
  rintro ⟨s₁, flags₁, h₁, -, -, s₂, flags₂, h₂, -, -, s₃, flags₃, h₃, -⟩
  cases h₁
  cases h₂
  cases h₃

theorem pollInit_keepsRoom_ten :
    KeepsRoom .single none (World.zero () : World Unit Unit 32) [10, 5, 10] :=
  (pollInit_keepsRoom .single _ _ (by decide) rfl).2 fun l₁ m n l₂ he hmn k hk => by
    rcases l₁ with _ | ⟨a, _ | ⟨b, _ | ⟨c, l₁⟩⟩⟩ <;> simp at he hk
    omega

end Lingx.Events
