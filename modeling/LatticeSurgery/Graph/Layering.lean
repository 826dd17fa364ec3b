import LatticeSurgery.Iteration
import LatticeSurgery.Graph.Basic

/-! # Layering a whole graph

Nodes are settled one after the other, each after its producers, and a settled node lies one layer
above its highest producer. After a change to the edges this gives every live node its layer again
and rebuilds the groups.
-/

namespace LatticeSurgery

/-- A graph whose nodes are being settled. -/
structure Settling where
  graph : Graph
  /-- Number of producers of each node that are not settled yet. -/
  missing : Array Nat
  /-- Nodes that can be settled now. -/
  queue : List NodeId
  /-- Nodes settled so far. -/
  order : List NodeId := []
  deriving DecidableEq

namespace Settling

/-- Tells one consumer that a producer of it is settled. -/
def satisfy (s : Settling) (id : NodeId) : Settling :=
  if s.graph.isRetired id then s
  else
    let left := (s.missing[id]?).getD 0 - 1
    { s with
      missing := s.missing.setIfInBounds id left
      queue := if left = 0 then s.queue ++ [id] else s.queue }

/-- Gives a node its layer and tells its consumers. -/
def settle (s : Settling) (id : NodeId) : Settling :=
  let graph := s.graph.modify id fun node => { node with layer := s.graph.layerAbove node.producers }
  (graph.consumers id).foldl (fun acc edge => acc.satisfy edge.node)
    { s with graph, order := s.order ++ [id] }

/-- Settles the first node of the queue. -/
def step (s : Settling) : Next Settling Settling :=
  match s.queue with
  | [] => .done s
  | id :: queue => .again ({ s with queue }.settle id)

end Settling

namespace Graph

/-- Nothing settled yet; the live nodes without producers can be. -/
def unsettled (g : Graph) : Settling :=
  { graph := g
    missing := g.nodes.map fun node => if node.retired then 0 else node.producers.length
    queue := (g.live.filter (·.producers.isEmpty)).map (·.id) }

/-- Groups nodes by their layers, in construction order, and tells their producers. -/
def regroup (g : Graph) (ids : List NodeId) : Graph :=
  let order := sortBy (fun a b => a ≤ b) ids
  { order.foldl raiseProducers g with layers := (order.filterMap g.node?).foldl g.placeIn #[] }

/-- Computes the layers of the live nodes again. A failure leaves the layers of the nodes that were
    settled and the groups as they were. -/
def relayer (g : Graph) : Except (Failure Graph) Graph :=
  match iterate Settling.step (g.size + 1) g.unsettled with
  | none => .error ⟨.overflow, g⟩
  | some s =>
      if s.order.length = g.size then .ok (s.graph.regroup s.order)
      else .error ⟨.invalidGraph (.cycle (g.size - s.order.length) g.name), s.graph⟩

end Graph

end LatticeSurgery
