import LatticeSurgery.Graph.Layering
import LatticeSurgery.Plan.Scheduler

/-! # Factory instances as resources

Before this step all draws of a magic state come from one shared source. A schedule says which
factory instance serves each draw; here every instance becomes a resource of its own with a chain of
nodes: a root makes its first unit, and each later unit is made by a refill that waits for the
previous consumer.
-/

namespace LatticeSurgery

/-- The nodes that make up the chains. -/
structure Chains where
  /-- First producer of each instance. -/
  roots : List NodeId := []
  /-- Producers of the later units. -/
  refills : List NodeId := []
  /-- Shared sources taken out of the graph. -/
  retired : List NodeId := []
  /-- The schedule that chose the instances. -/
  plan : Plan := {}
  deriving DecidableEq

/-- Chains under construction. -/
structure Chaining where
  graph : Graph
  /-- Last consumer of each instance so far. -/
  tails : SymbolMap NodeId := ∅
  /-- Magic states whose draws were moved to an instance. -/
  shared : List Symbol := []
  roots : List NodeId := []
  refills : List NodeId := []
  deriving DecidableEq

/-- Makes a consumer read an instance in place of the shared state. -/
def Node.redirect (node : Node) (shared own : Symbol) (producer : NodeId) : Node :=
  { node with
    targets := node.targets.map fun target => if target = shared then own else target
    producers := node.producers.filter (·.symbol != shared) ++ [⟨own, producer⟩] }

namespace Chaining

/-- Adds the producer of the next unit of an instance. -/
def produce (c : Chaining) (draw : Draw) : NodeId × Chaining :=
  let own := draw.instanceSymbol
  let id := c.graph.nextId
  let node : Node :=
    { id, operation := .init, targets := [own], cycles := max draw.period 1, isFactory := true }
  match c.tails[own]? with
  | none =>
      (id, { c with graph := (c.graph.registerSource own id).push node, roots := c.roots ++ [id] })
  | some previous =>
      let node := { node with
        operation := .prep
        layer := c.graph.layerOf previous + 1
        producers := [⟨own, previous⟩] }
      (id,
        { c with
          graph := (c.graph.push node).modify previous (·.addConsumer ⟨own, id⟩)
          refills := c.refills ++ [id] })

/-- Moves one draw of a consumer from the shared source to its instance. -/
def bind (c : Chaining) (consumer : NodeId) (draw : Draw) : Except (Failure Graph) Chaining :=
  match (c.graph.node? consumer).bind (·.producer? draw.symbol) with
  | none => .error ⟨.inconsistent (.lostEdge consumer draw.symbol), c.graph⟩
  | some source =>
      let own := draw.instanceSymbol
      let freed := c.graph.modify source fun node =>
        { node with consumers := node.consumers.filter (· != ⟨draw.symbol, consumer⟩) }
      let (producer, c) := produce { c with graph := freed, shared := appendNew c.shared [draw.symbol] } draw
      let graph := (c.graph.modify consumer (·.redirect draw.symbol own producer)).modify producer
        (·.addConsumer ⟨own, consumer⟩)
      .ok { c with graph, tails := c.tails.insert own consumer }

/-- Moves several draws, each given with its consumer. -/
def bindAll (c : Chaining) : List (NodeId × Draw) → Except (Failure Graph) Chaining
  | [] => .ok c
  | (consumer, draw) :: rest => do
      let c ← c.bind consumer draw
      c.bindAll rest

end Chaining

/-- All draws of a plan with their consumers, in the order in which they are served. -/
def Plan.served (plan : Plan) : List (NodeId × Draw) :=
  plan.order.flatMap fun id => (plan.draws.getD id []).map fun draw => (id, draw)

namespace Graph

/-- Takes out the source of a magic state if nothing draws from it any more; also gives the sources
    taken out so far. -/
def retireSource (acc : List NodeId × Graph) (symbol : Symbol) : List NodeId × Graph :=
  match acc.2.sources[symbol]? with
  | none => acc
  | some source =>
      let g := { acc.2 with sources := acc.2.sources.erase symbol }
      if (g.consumers source).isEmpty then
        (acc.1 ++ [source], g.modify source fun node => { node with retired := true })
      else (acc.1, g)

/-- Schedules a graph and turns every draw into an edge of a chain. A scheduling error leaves the
    graph alone; a later one leaves what was changed until then. -/
def bindInstances (g : Graph) (capacity : Nat) (factories : List Factory) :
    Except (Failure Graph) (Chains × Graph) :=
  match g.schedule capacity factories with
  | .error e => .error ⟨e, g⟩
  | .ok plan => do
      let c ← Chaining.bindAll { graph := g } plan.served
      let shared := sortBy (fun a b => (compare a b).isLE) c.shared
      let (retired, graph) := shared.foldl retireSource ([], c.graph)
      let graph ← graph.relayer
      return ({ roots := c.roots, refills := c.refills, retired, plan }, graph)

end Graph

end LatticeSurgery
