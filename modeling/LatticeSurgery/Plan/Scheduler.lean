import LatticeSurgery.Iteration
import LatticeSurgery.Plan
import LatticeSurgery.Graph.Basic

/-! # Scheduling

Greedy, cycle by cycle: the candidates take their turns in order of priority, and each is admitted if
the channel has room, its producers were admitted before it, nobody claimed its resources in this
cycle, and the factories have a unit for each magic state it draws.
-/

namespace LatticeSurgery

/-- One cycle of scheduling in progress. -/
structure Sweep where
  /-- Nodes admitted in this or an earlier cycle. -/
  resolved : List NodeId
  pool : Pool
  draws : NodeMap (List Draw)
  /-- Nodes admitted in this cycle. -/
  admitted : List NodeId := []
  /-- Exclusive resources of the nodes admitted in this cycle. -/
  claimed : List Symbol := []
  /-- Number of non-local nodes admitted in this cycle. -/
  nonLocal : Nat := 0

namespace Sweep

/-- Whether one dependency of a node is met. -/
def meets (g : Graph) (s : Sweep) (edge : Edge) : Bool :=
  if g.isDraw edge then 0 < s.pool.inventory edge.symbol
  else s.resolved.contains edge.node && !s.claimed.contains edge.symbol

/-- Whether a node can be admitted now. -/
def admits (g : Graph) (capacity : Nat) (s : Sweep) (node : Node) : Bool :=
  !s.resolved.contains node.id
    && (!node.nonLocal || s.nonLocal < capacity)
    && node.producers.all (s.meets g)

/-- Takes the units that a node draws. -/
def draw (s : Sweep) (id : NodeId) : List Symbol → Except Error Sweep
  | [] => .ok s
  | symbol :: rest =>
      match s.pool.consume symbol with
      | some (unit, pool) =>
          { s with pool, draws := s.draws.insert id (s.draws.getD id [] ++ [unit]) }.draw id rest
      | none => .error (.inconsistent (.noInventory symbol))

/-- Admits a node. -/
def accept (g : Graph) (s : Sweep) (node : Node) : Except Error Sweep :=
  { s with
    resolved := node.id :: s.resolved
    admitted := s.admitted ++ [node.id]
    claimed := s.claimed ++ node.targets.filter (!g.isMagic ·)
    nonLocal := s.nonLocal + node.nonLocal.toNat }.draw node.id (g.drawn node)

/-- The turn of one candidate. -/
def turn (g : Graph) (capacity : Nat) (s : Sweep) (id : NodeId) : Except Error Sweep :=
  match g.node? id with
  | some node => if s.admits g capacity node then s.accept g node else .ok s
  | none => .ok s

/-- The turns of several candidates, one after the other. -/
def turns (g : Graph) (capacity : Nat) (s : Sweep) : List NodeId → Except Error Sweep
  | [] => .ok s
  | id :: rest => do
      let s ← s.turn g capacity id
      s.turns g capacity rest

end Sweep

/-- Scheduling between two cycles. -/
structure Scheduling where
  /-- Nodes that may be admitted next. -/
  candidates : List NodeId
  pool : Pool
  /-- Nodes admitted in the cycles so far. -/
  layers : Array (List NodeId) := #[]
  resolved : List NodeId := []
  draws : NodeMap (List Draw) := ∅

namespace Scheduling

/-- The state at the start of a cycle. -/
def opening (s : Scheduling) : Sweep := { resolved := s.resolved, pool := s.pool, draws := s.draws }

/-- One cycle. With nothing admitted while every factory holds a unit, no later cycle can differ. -/
def cycle (g : Graph) (capacity : Nat) (s : Scheduling) : Next Scheduling (Except Error Plan) :=
  if s.candidates.isEmpty then
    .done (.ok { cycles := s.layers.size, layers := s.layers.toList, draws := s.draws })
  else
    let candidates := g.prioritise s.candidates
    match s.opening.turns g capacity candidates with
    | .error e => .done (.error e)
    | .ok sweep =>
        let left := candidates.filter (!sweep.resolved.contains ·)
        if sweep.admitted.isEmpty && sweep.pool.saturated then
          .done (.error (.stalled s.layers.size left))
        else
          let woken := sweep.admitted.flatMap fun id => (g.consumers id).map (·.node)
          .again
            { candidates := appendNew left (woken.filter (!sweep.resolved.contains ·))
              pool := sweep.pool.advance
              layers := s.layers.push sweep.admitted
              resolved := sweep.resolved
              draws := sweep.draws }

end Scheduling

namespace Graph

/-- A bound on the cycles of a schedule: between two admissions the slowest factory finishes. -/
def scheduleBound (g : Graph) (pool : Pool) : Nat := (g.nodes.size + 1) * (pool.slowest + 1) + 1

/-- Schedules all operations with at most `capacity` non-local admissions per cycle. -/
def schedule (g : Graph) (capacity : Nat) (factories : List Factory) : Except Error Plan :=
  let pool := Pool.new factories
  match g.undersupplied? pool.produces with
  | some symbol => .error (.missingFactory symbol)
  | none =>
      (iterate (Scheduling.cycle g capacity) (g.scheduleBound pool)
        { candidates := g.entries, pool }).getD (.error .unfinished)

end Graph

end LatticeSurgery
