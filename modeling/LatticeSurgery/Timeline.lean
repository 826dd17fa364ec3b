import LatticeSurgery.Layout.Coord

/-! # Timelines

The result of routing: what happens in each cycle, and which patches each node holds.
-/

namespace LatticeSurgery

/-- How far a node has come. -/
inductive Stage where
  /-- Queued for placement. -/
  | waiting
  /-- Holding its patches for some more cycles. -/
  | active (remaining : Nat)
  /-- Finished. -/
  | resolved
  deriving Repr, DecidableEq

/-- What happens in one cycle. -/
structure CycleRecord where
  cycle : Nat
  /-- Nodes placed in this cycle. -/
  admitted : List NodeId := []
  /-- Nodes that hold their patches during this cycle. -/
  active : List NodeId := []
  /-- Nodes that finish at the start of this cycle. -/
  resolved : List NodeId := []
  deriving Repr, DecidableEq

/-- Whether nothing happens. -/
def CycleRecord.isIdle (record : CycleRecord) : Bool :=
  record.admitted.isEmpty && record.active.isEmpty && record.resolved.isEmpty

/-- A placed schedule. -/
structure Timeline where
  /-- The cycles in which something happens. -/
  cycles : List CycleRecord := []
  /-- Patches held by each node, its ends and ancillae included. -/
  routes : NodeMap (List Coord) := ∅
  deriving DecidableEq

/-- Cycle in which a node is placed. -/
def Timeline.admittedAt? (timeline : Timeline) (id : NodeId) : Option Nat :=
  (timeline.cycles.find? (·.admitted.contains id)).map (·.cycle)

end LatticeSurgery
