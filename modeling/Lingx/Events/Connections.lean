import Lingx.Events.PollInit
import Lingx.Library.Chain

/-! `Cycle::init_connections_events`. The connections of a cycle and their events are in three
vectors of one size, and the loop links the connections, from the last one to the first, through
the member that is their `data` when they are in use. The free list holds every connection once,
whatever the vectors held before. -/

namespace Lingx.Events

open Library

/-- A connection of a cycle, with what the function does not write of it. A pointer is the place
in the vector that it points to. -/
structure CycleConnection (R : Type) where
  data : Option ℕ
  read : Option ℕ
  write : Option ℕ
  fd : ℤ
  rest : R
  deriving DecidableEq, Repr

/-- An event of a cycle, with what the function does not write of it. -/
structure CycleEvent (R : Type) where
  closed : Bool
  instance_ : Bool
  rest : R
  deriving DecidableEq, Repr

structure CycleConnections (R S : Type) where
  connectionN : ℕ
  connections : List (CycleConnection R)
  readEvents : List (CycleEvent S)
  writeEvents : List (CycleEvent S)
  freeConnections : Option ℕ
  freeConnectionN : ℕ
  deriving DecidableEq, Repr

variable {R S : Type} {cs : List (CycleConnection R)} {next : Option ℕ} {i j k : ℕ}

def CycleConnection.init (next : Option ℕ) (i : ℕ) (c : CycleConnection R) : CycleConnection R :=
  { c with data := next, read := some i, write := some i, fd := -1 }

/-- The loop, where `i` connections are left. -/
def initLoop : ℕ → Option ℕ → List (CycleConnection R) → List (CycleConnection R) × Option ℕ
  | 0, next, cs => (cs, next)
  | i + 1, next, cs => initLoop i (some i) (cs.modify i (.init next i))

/-- `Cycle::init_connections_events`; `r` and `e` are what a new connection and a new event hold
otherwise, which is all zeros. -/
def initConnectionsEvents (r : R) (e : S) (s : CycleConnections R S) : CycleConnections R S :=
  let connections := resize s.connections s.connectionN ⟨none, none, none, 0, r⟩
  let readEvents := (resize s.readEvents s.connectionN ⟨false, false, e⟩).map fun m =>
    { m with closed := true, instance_ := true }
  let writeEvents := (resize s.writeEvents s.connectionN ⟨false, false, e⟩).map fun m =>
    { m with closed := true }
  let (connections, next) := initLoop s.connectionN none connections
  { s with
    connections := connections
    readEvents := readEvents
    writeEvents := writeEvents
    freeConnections := next
    freeConnectionN := s.connectionN }

/-- The connection behind one in the free list. -/
def nextFree (cs : List (CycleConnection R)) (i : ℕ) : Option ℕ := (cs[i]?).bind (·.data)

theorem initLoop_length : (initLoop i next cs).1.length = cs.length := by
  induction i generalizing next cs with
  | zero => rfl
  | succ i ih => rw [initLoop, ih, List.length_modify]

theorem initLoop_getElem?_of_le (h : i ≤ j) : (initLoop i next cs).1[j]? = cs[j]? := by
  induction i generalizing next cs with
  | zero => rfl
  | succ i ih =>
    rw [initLoop, ih (by omega), List.getElem?_modify_ne _ _ (show i ≠ j by omega)]

theorem initLoop_getElem?_of_lt (h : j < i) : ∃ next', (initLoop i next cs).1[j]? =
    cs[j]?.map (.init next' j) := by
  induction i generalizing next cs with
  | zero => omega
  | succ i ih =>
    rw [initLoop]
    rcases Nat.lt_succ_iff_lt_or_eq.mp h with hlt | rfl
    · have hrec : ∃ next', (initLoop i (some i) (cs.modify i (.init next i))).1[j]? =
          (cs.modify i (.init next i))[j]?.map (.init next' j) := ih hlt
      obtain ⟨next', hnext⟩ := hrec
      refine ⟨next', hnext.trans ?_⟩
      rw [List.getElem?_modify_ne _ _ (show i ≠ j by omega)]
    · refine ⟨next, ?_⟩
      rw [initLoop_getElem?_of_le le_rfl, List.getElem?_modify_eq]
      rfl

/-- Where the connections from `i` on are linked, the loop links those in front of them. -/
theorem initLoop_chain (hlen : i ≤ cs.length) (h : Chain (nextFree cs) next (List.range' i k)) :
    Chain (nextFree (initLoop i next cs).1) (initLoop i next cs).2 (List.range' 0 (i + k)) := by
  induction i generalizing next cs k with
  | zero => rwa [Nat.zero_add]
  | succ i ih =>
    rw [initLoop, Nat.add_right_comm]
    refine ih (k := k + 1) (by rw [List.length_modify]; omega) ⟨rfl, ?_⟩
    have hself : nextFree (cs.modify i (.init next i)) i = next := by
      rw [nextFree, List.getElem?_modify_eq, List.getElem?_eq_getElem hlen]
      rfl
    rw [hself]
    refine h.congr fun m hm => ?_
    have hlt := (List.mem_range'_1.mp hm).1
    rw [nextFree, nextFree, List.getElem?_modify_ne _ _ (show i ≠ m by omega)]

theorem resize_getElem? {α : Type} {l : List α} {n : ℕ} {a : α} (h : i < n) :
    (resize l n a)[i]? = some (l.getD i a) := by
  rw [resize, List.getElem?_append, List.length_take, List.getD_eq_getElem?_getD]
  split_ifs with hlt
  · rw [List.getElem?_take_of_lt h, List.getElem?_eq_getElem (by omega)]
    rfl
  · rw [List.getElem?_replicate_of_lt (by omega), List.getElem?_eq_none (by omega)]
    rfl

structure FreeConnection (r : R) (e : S) (s t : CycleConnections R S) (i : ℕ) : Prop where
  connection : ∃ x, t.connections[i]? = some x ∧ x.read = some i ∧ x.write = some i ∧ x.fd = -1 ∧
    x.rest = ((s.connections[i]?).map (·.rest)).getD r
  readEvent : ∃ m, t.readEvents[i]? = some m ∧ m.closed = true ∧ m.instance_ = true ∧
    m.rest = ((s.readEvents[i]?).map (·.rest)).getD e
  writeEvent : ∃ m, t.writeEvents[i]? = some m ∧ m.closed = true ∧
    m.instance_ = ((s.writeEvents[i]?).map (·.instance_)).getD false ∧
    m.rest = ((s.writeEvents[i]?).map (·.rest)).getD e

/-- The free list holds every connection once, in the order of the vector, each with the two
events at its own place and no descriptor, whatever the cycle held before. -/
theorem initConnectionsEvents_free (r : R) (e : S) (s : CycleConnections R S) :
    let t := initConnectionsEvents r e s
    Chain (nextFree t.connections) t.freeConnections (List.range s.connectionN) ∧
      t.freeConnectionN = s.connectionN ∧ t.connections.length = s.connectionN ∧
      t.readEvents.length = s.connectionN ∧ t.writeEvents.length = s.connectionN ∧
      ∀ i < s.connectionN, FreeConnection r e s t i := by
  intro t
  have hlen := length_resize (n := s.connectionN) s.connections
    (⟨none, none, none, 0, r⟩ : CycleConnection R)
  refine ⟨?_, rfl, ?_, ?_, ?_, fun i hi => ⟨?_, ?_, ?_⟩⟩
  · have hchain := initLoop_chain (k := 0) hlen.ge
      (show Chain (nextFree (resize s.connections s.connectionN
        (⟨none, none, none, 0, r⟩ : CycleConnection R))) none (List.range' s.connectionN 0) from rfl)
    rw [Nat.add_zero, ← List.range_eq_range'] at hchain
    exact hchain
  · exact initLoop_length.trans hlen
  · exact (List.length_map _).trans (length_resize _ _)
  · exact (List.length_map _).trans (length_resize _ _)
  · have hfirst : ∃ next', t.connections[i]? = (resize s.connections s.connectionN
        (⟨none, none, none, 0, r⟩ : CycleConnection R))[i]?.map (.init next' i) :=
      initLoop_getElem?_of_lt hi
    obtain ⟨next', hnext⟩ := hfirst
    rw [resize_getElem? hi, List.getD_eq_getElem?_getD] at hnext
    refine ⟨_, hnext, rfl, rfl, rfl, ?_⟩
    cases s.connections[i]? <;> rfl
  · refine ⟨_, (List.getElem?_map ..).trans (congrArg _ (resize_getElem? hi)), rfl, rfl, ?_⟩
    rw [List.getD_eq_getElem?_getD]
    cases s.readEvents[i]? <;> rfl
  · refine ⟨_, (List.getElem?_map ..).trans (congrArg _ (resize_getElem? hi)), rfl, ?_, ?_⟩ <;>
    · rw [List.getD_eq_getElem?_getD]
      cases s.writeEvents[i]? <;> rfl

end Lingx.Events
