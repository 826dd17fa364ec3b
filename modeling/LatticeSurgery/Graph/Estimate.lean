import LatticeSurgery.Factory
import LatticeSurgery.Iteration
import LatticeSurgery.Graph.Basic

/-! # Depth estimates

How many cycles a graph needs when placement is ignored: with a limited channel, and with factories
that have to feed every draw. Also how often two resources take part in concurrent operations.
-/

namespace LatticeSurgery

/-- A factory whose output is counted apart from any schedule. -/
structure Line where
  /-- Cycles needed for one unit. -/
  period : Nat
  /-- Cycles of production not handed out yet. -/
  progress : Nat := 0
  deriving Repr, DecidableEq

namespace Line

/-- Whether a finished unit is waiting. -/
def ready (line : Line) : Bool := line.period ≤ line.progress

/-- Hands out a unit; what was made beyond it counts for the next one. -/
def handOut (line : Line) : Line := { line with progress := line.progress - line.period }

/-- One cycle of production. A blocking line stops at one unit, the others keep stockpiling. -/
def advance (blocking : Bool) (line : Line) : Line :=
  if !blocking || line.progress < line.period then { line with progress := line.progress + 1 } else line

end Line

/-- The lines of each magic state. -/
structure Lines where
  groups : SymbolMap (List Line) := ∅

namespace Lines

/-- The lines of one state. -/
def of (lines : Lines) (symbol : Symbol) : List Line := lines.groups.getD symbol []

/-- One more line, behind the others of its state. -/
def add (lines : Lines) (factory : Factory) : Lines :=
  ⟨lines.groups.insert factory.symbol (lines.of factory.symbol ++ [{ period := factory.period }])⟩

/-- All lines at the start of their first unit; those of each state are ordered by period. -/
def new (factories : List Factory) : Lines :=
  ⟨(factories.foldl add {}).groups.map fun _ => sortBy fun a b => a.period ≤ b.period⟩

/-- Whether some line makes a state. -/
def produces (lines : Lines) (symbol : Symbol) : Bool := lines.groups.contains symbol

/-- Rank of the fastest line of a state that has a finished unit. -/
def rank? (lines : Lines) (symbol : Symbol) : Option Nat := (lines.of symbol).findIdx? Line.ready

/-- Hands out a unit of a state from the fastest line that has one. -/
def serve? (lines : Lines) (symbol : Symbol) : Option Lines :=
  (lines.rank? symbol).map fun rank => ⟨lines.groups.modify symbol (·.modify rank Line.handOut)⟩

/-- One cycle of production everywhere. -/
def advance (blocking : Bool) (lines : Lines) : Lines :=
  ⟨lines.groups.map fun _ => List.map (Line.advance blocking)⟩

end Lines

/-- A stock of magic states that is used up unit by unit and filled up cycle by cycle. -/
structure Supply (σ : Type) where
  /-- Whether a state is made at all. -/
  produces : σ → Symbol → Bool
  /-- Hands out a unit of a state, if there is one. -/
  serve? : σ → Symbol → Option σ
  /-- One cycle of production. -/
  advance : σ → σ

/-- Lines as a supply. -/
def Lines.supply (blocking : Bool) : Supply Lines := ⟨produces, serve?, advance blocking⟩

/-- Serves waiting draws in order; gives those that go on waiting and the stock afterwards. -/
def Supply.serveAll (supply : Supply σ) (stock : σ) : List Symbol → List Symbol × σ
  | [] => ([], stock)
  | symbol :: rest =>
      match supply.serve? stock symbol with
      | some stock => supply.serveAll stock rest
      | none =>
          let (waiting, stock) := supply.serveAll stock rest
          (symbol :: waiting, stock)

/-- State of the simulation that feeds every draw. -/
structure Feeding (σ : Type) where
  cycles : Nat := 0
  /-- Draws that wait for a unit, oldest first. -/
  pending : List Symbol := []
  stock : σ

/-- Order of pairs: by the first component, then by the second. -/
abbrev pairOrder : Symbol × Symbol → Symbol × Symbol → Ordering :=
  compareLex (compareOn Prod.fst) (compareOn Prod.snd)

instance : Std.LawfulEqCmp pairOrder where
  eq_of_compare {a b} h := by
    simp only [pairOrder, compareLex, compareOn, Ordering.then_eq_eq, Std.compare_eq_iff_eq] at h
    exact Prod.ext h.1 h.2

namespace Graph

/-- Cycles under a channel budget: each layer takes one, and one more for every operation on several
    resources that does not fit. -/
def depthParallel (g : Graph) (capacity : Nat) : Nat :=
  (g.layers.toList.map fun layer => max (1 + layer.congestion - capacity) 1).foldr (· + ·) 0

/-- Draws of the nodes in one layer. -/
def layerDraws (g : Graph) (index : Nat) : List Symbol :=
  (((g.layers[index]?).map (·.fed)).getD []).flatMap fun id => ((g.node? id).map g.drawn).getD []

/-- One cycle of feeding: the draws of the next layer queue up, finished units are handed out, and
    production goes on. -/
def feedCycle (g : Graph) (supply : Supply σ) (s : Feeding σ) : Feeding σ :=
  let (pending, stock) := supply.serveAll s.stock (s.pending ++ g.layerDraws s.cycles)
  { cycles := s.cycles + 1, pending, stock := supply.advance stock }

/-- Feeding goes on while there are layers left or draws waiting. -/
def feed (g : Graph) (supply : Supply σ) (s : Feeding σ) : Next (Feeding σ) Nat :=
  if s.cycles < g.depth ∨ s.pending ≠ [] then .again (g.feedCycle supply s) else .done s.cycles

/-- Cycles needed to feed every draw from a supply, each draw queueing up at the cycle of its layer. -/
def feedDepth (g : Graph) (supply : Supply σ) (stock : σ) (bound : Nat) : Except Error Nat :=
  match g.undersupplied? (supply.produces stock) with
  | some symbol => .error (.missingFactory symbol)
  | none =>
      match iterate (g.feed supply) bound { stock } with
      | some cycles => .ok cycles
      | none => .error .unfinished

/-- A bound on the steps of feeding: after the last layer every draw waits for one unit at most. -/
def feedBound (g : Graph) (factories : List Factory) : Nat :=
  let draws := ((List.range g.depth).flatMap g.layerDraws).length
  g.depth + draws * (longestPeriod factories + 1) + 1

/-- Cycles needed to feed every draw from the lines of some factories. -/
def depthFactories (g : Graph) (factories : List Factory) (blocking : Bool) : Except Error Nat :=
  g.feedDepth (Lines.supply blocking) (Lines.new factories) (g.feedBound factories)

/-- Pairs of targets of distinct non-local nodes of one layer, once per pair of nodes. -/
def interactions (g : Graph) (layer : Layer) : List (Symbol × Symbol) :=
  let nodes := (layer.nodes.filterMap g.node?).filter (·.nonLocal)
  nodes.flatMap fun node => (nodes.filter (·.id != node.id)).flatMap fun other =>
    node.targets.flatMap fun a => other.targets.map fun b => (a, b)

/-- How often each pair of resources takes part in concurrent operations of a layer. -/
def interactionCounts (g : Graph) : Std.ExtTreeMap (Symbol × Symbol) Nat pairOrder :=
  (g.layers.toList.flatMap g.interactions).foldl
    (fun counts pair => counts.insert pair (counts.getD pair 0 + 1)) ∅

end Graph

end LatticeSurgery
