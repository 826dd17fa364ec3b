import LatticeSurgery.Chains
import LatticeSurgery.Settings
import LatticeSurgery.Graph.Builder
import LatticeSurgery.Graph.Estimate
import LatticeSurgery.Routing.Run

/-! # Compiled blocks

From a graph and a floorplan to a placed schedule: magic states are bound to factory instances, then
everything is routed.
-/

namespace LatticeSurgery

/-- Version of the library. -/
def version : String := "0.1.0"

/-- A compiled block. -/
structure Block where
  /-- The graph with its magic states bound to instances. -/
  graph : Graph
  timeline : Timeline
  /-- The chains of factory instances, if any magic state is drawn. -/
  chains : Option Chains
  /-- The floorplan at the end. -/
  floor : Floorplan
  deriving DecidableEq

namespace Settings

/-- Schedules a graph without placing it. -/
def schedule (s : Settings) (g : Graph) : Except Error Plan := g.schedule s.channelCapacity s.factories

/-- Depth under the channel capacity, factories and placement aside. -/
def depthEstimate (s : Settings) (g : Graph) : Nat := g.depthParallel s.channelCapacity

/-- Binds the magic states of a graph, if it has any. -/
def bindInstances (s : Settings) (g : Graph) : Except Error (Option Chains × Graph) :=
  if g.sources.isEmpty then .ok (none, g)
  else
    match g.bindInstances s.channelCapacity s.factories with
    | .ok (chains, g) => .ok (some chains, g)
    | .error failure => .error failure.error

/-- Compiles a graph onto a floorplan. -/
def compile (s : Settings) (g : Graph) (floor : Floorplan) : Except Error Block := do
  s.validate
  let (chains, graph) ← s.bindInstances g
  match floor.route graph s.router.stallLimit with
  | .ok (timeline, floor) => return { graph, timeline, chains, floor }
  | .error failure => throw failure.error

end Settings

end LatticeSurgery
