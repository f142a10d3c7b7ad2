import Mathlib.Tactic.Common

/-! The kinds of processes. -/

namespace Lingx

/-- The values of `Process_type`, in their order. -/
inductive ProcessType where
  | single | master | signaller | worker | helper
  deriving DecidableEq, Repr

namespace ProcessType

def toNat : ProcessType → ℕ
  | single => 0
  | master => 1
  | signaller => 2
  | worker => 3
  | helper => 4

/-- `Process_type >= PROCESS_WORKER`. -/
def isWorker (t : ProcessType) : Prop := worker.toNat ≤ t.toNat

instance (t : ProcessType) : Decidable t.isWorker :=
  inferInstanceAs (Decidable (worker.toNat ≤ t.toNat))

end ProcessType

end Lingx
