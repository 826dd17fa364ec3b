import LatticeSurgery.Factory

/-! # Plans

The result of scheduling: which nodes start in each cycle, and which factory instances serve them.
-/

namespace LatticeSurgery

/-- A schedule, cycle by cycle. -/
structure Plan where
  /-- Number of cycles. -/
  cycles : Nat := 0
  /-- Nodes admitted in each cycle, in the order of admission. -/
  layers : List (List NodeId) := []
  /-- Units drawn by each node, in the order of its producers. -/
  draws : NodeMap (List Draw) := ∅
  deriving DecidableEq

namespace Plan

/-- Cycle in which a node is admitted. -/
def cycleOf? (plan : Plan) (id : NodeId) : Option Nat := plan.layers.findIdx? (·.contains id)

/-- All admitted nodes, in order. -/
def order (plan : Plan) : List NodeId := plan.layers.flatten

end Plan

end LatticeSurgery
