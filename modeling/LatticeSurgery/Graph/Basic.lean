import LatticeSurgery.Operation
import LatticeSurgery.Sorting
import LatticeSurgery.Graph.Urgency

/-! # Dependency graphs

Operations stand in an array, addressed by their position. Each node lists its producers and its
consumers, one edge per resource, and the nodes are grouped into layers: a node lies one layer above
its highest producer.
-/

namespace LatticeSurgery

/-- One end of a dependency: the resource it carries and the node at the far end. -/
structure Edge where
  symbol : Symbol
  node : NodeId
  deriving Repr, DecidableEq

/-- An operation in a dependency graph. -/
structure Node where
  /-- Position in the graph. -/
  id : NodeId
  operation : Operation
  /-- Resources acted on, in order. -/
  targets : List Symbol
  /-- Duration in cycles. -/
  cycles : Nat := operation.cycles
  /-- Whether the node produces magic states. -/
  isFactory : Bool := false
  layer : Nat := 0
  urgency : Urgency := .idle
  /-- Where each resource that is read comes from. -/
  producers : List Edge := []
  /-- Where the output goes. -/
  consumers : List Edge := []
  /-- Whether the node was taken out of the graph. -/
  retired : Bool := false
  deriving Repr, DecidableEq

namespace Node

/-- Whether the node acts on more than one resource. -/
def nonLocal (node : Node) : Bool := 1 < node.targets.length

/-- Producer of a resource that the node reads. -/
def producer? (node : Node) (symbol : Symbol) : Option NodeId :=
  (node.producers.find? (·.symbol == symbol)).map (·.node)

/-- Whether the node acts on a resource. -/
def touches (node : Node) (symbol : Symbol) : Bool := node.targets.contains symbol

/-- Ancilla patches needed for each target. -/
def ancillae (node : Node) : Nat := node.operation.ancillae

/-- Cycles for which a placed node holds its patches. -/
def duration (node : Node) : Nat := max node.cycles 1

/-- Adds a consumer, unless it is listed already. -/
def addConsumer (node : Node) (edge : Edge) : Node :=
  { node with consumers := if edge ∈ node.consumers then node.consumers else node.consumers ++ [edge] }

/-- Written form: the label, then the targets in brackets. -/
def text (node : Node) : String :=
  node.operation.label ++ ":[" ++ ", ".intercalate node.targets ++ "]"

end Node

/-- The nodes of one layer. -/
structure Layer where
  /-- Nodes in the order in which they were placed. -/
  nodes : List NodeId := []
  /-- Number of nodes that act on more than one resource. -/
  congestion : Nat := 0
  /-- Nodes fed by a factory. -/
  fed : List NodeId := []
  deriving Repr, DecidableEq

/-- A layered dependency graph. -/
structure Graph where
  name : String
  nodes : Array Node := #[]
  layers : Array Layer := #[]
  /-- Every resource known so far. -/
  kinds : SymbolMap ResourceKind := ∅
  /-- The node that supplies each magic state. -/
  sources : SymbolMap NodeId := ∅
  /-- Declared inputs. -/
  inputs : List Symbol := []
  deriving DecidableEq

namespace Graph

/-- A node, if the graph has it. -/
def node? (g : Graph) (id : NodeId) : Option Node := g.nodes[id]?

/-- A node that the graph is expected to have. -/
def node (g : Graph) (id : NodeId) : Except Error Node :=
  match g.node? id with
  | some node => .ok node
  | none => .error (.unknownNode id)

/-- The nodes that were not taken out, in construction order. -/
def live (g : Graph) : List Node := g.nodes.toList.filter (!·.retired)

/-- Identifiers of the live nodes. -/
def liveIds (g : Graph) : List NodeId := g.live.map (·.id)

/-- Number of live nodes. -/
def size (g : Graph) : Nat := g.live.length

/-- Number of layers. -/
def depth (g : Graph) : Nat := g.layers.size

/-- Identifier that the next node gets. -/
def nextId (g : Graph) : NodeId := g.nodes.size

/-- Whether a node produces magic states. -/
def isFactory (g : Graph) (id : NodeId) : Bool := (g.node? id).any (·.isFactory)

/-- Whether a node was taken out. -/
def isRetired (g : Graph) (id : NodeId) : Bool := (g.node? id).any (·.retired)

/-- Producers of a node. -/
def producers (g : Graph) (id : NodeId) : List Edge := ((g.node? id).map (·.producers)).getD []

/-- Consumers of a node. -/
def consumers (g : Graph) (id : NodeId) : List Edge := ((g.node? id).map (·.consumers)).getD []

/-- Layer of a node. -/
def layerOf (g : Graph) (id : NodeId) : Nat := ((g.node? id).map (·.layer)).getD 0

/-- Urgency of a node. -/
def urgencyOf (g : Graph) (id : NodeId) : Urgency := ((g.node? id).map (·.urgency)).getD .idle

/-- Kind of a resource, if it is known. -/
def kind? (g : Graph) (symbol : Symbol) : Option ResourceKind := g.kinds[symbol]?

/-- Whether a resource is a magic state. -/
def isMagic (g : Graph) (symbol : Symbol) : Bool := g.kind? symbol == some .magicState

/-- Whether an edge to a producer takes a unit of a magic state from a factory. -/
def isDraw (g : Graph) (edge : Edge) : Bool := g.isMagic edge.symbol && g.isFactory edge.node

/-- Magic states that a node draws, in the order of its producers. -/
def drawn (g : Graph) (node : Node) : List Symbol := (node.producers.filter g.isDraw).map (·.symbol)

/-- First magic state drawn by a live node for which `supplied` fails. -/
def undersupplied? (g : Graph) (supplied : Symbol → Bool) : Option Symbol :=
  (g.live.flatMap g.drawn).find? (!supplied ·)

/-- Live operations that wait for no other operation: all their producers are factories. -/
def entries (g : Graph) : List NodeId :=
  (g.live.filter fun node => !node.isFactory && node.producers.all (g.isFactory ·.node)).map (·.id)

/-- One more than the highest layer among some producers, or zero without producers. -/
def layerAbove (g : Graph) (producers : List Edge) : Nat :=
  (producers.map (g.layerOf ·.node + 1)).foldl max 0

/-- Whether `a` takes its turn no later than `b`: the more urgent first, then the older. -/
def takesTurn (g : Graph) (a b : NodeId) : Bool :=
  (g.urgencyOf a).above (g.urgencyOf b) || (g.urgencyOf a == g.urgencyOf b && a ≤ b)

/-- Nodes in the order in which they take their turns. -/
def prioritise (g : Graph) (ids : List NodeId) : List NodeId := sortBy g.takesTurn ids

theorem takesTurn_trans (g : Graph) (a b c : NodeId) (first : g.takesTurn a b) (second : g.takesTurn b c) :
    g.takesTurn a c := by
  simp only [takesTurn, Bool.or_eq_true, Bool.and_eq_true, beq_iff_eq, decide_eq_true_eq] at first second ⊢
  rcases first with above | ⟨same, older⟩
  · rcases second with above' | ⟨same', _⟩
    · exact .inl (Urgency.above_trans above above')
    · exact .inl (same' ▸ above)
  · rcases second with above' | ⟨same', older'⟩
    · exact .inl (same ▸ above')
    · exact .inr ⟨same.trans same', Nat.le_trans older older'⟩

theorem takesTurn_total (g : Graph) (a b : NodeId) : g.takesTurn a b || g.takesTurn b a := by
  simp only [takesTurn, Bool.or_eq_true, Bool.and_eq_true, beq_iff_eq, decide_eq_true_eq]
  rcases Urgency.above_or_eq (g.urgencyOf a) (g.urgencyOf b) with above | same | below
  · exact .inl (.inl above)
  · rcases Nat.le_total a b with older | younger
    · exact .inl (.inr ⟨same, older⟩)
    · exact .inr (.inr ⟨same.symm, younger⟩)
  · exact .inr (.inl below)

theorem takesTurn_antisymm (g : Graph) (a b : NodeId) (first : g.takesTurn a b) (second : g.takesTurn b a) :
    a = b := by
  simp only [takesTurn, Bool.or_eq_true, Bool.and_eq_true, beq_iff_eq, decide_eq_true_eq] at first second
  rcases first with above | ⟨same, older⟩
  · rcases second with above' | ⟨same', _⟩
    · simpa using Urgency.above_trans above above'
    · simp [same'] at above
  · rcases second with above' | ⟨_, younger⟩
    · simp [same] at above'
    · exact Nat.le_antisymm older younger

/-- Changes one node. -/
def modify (g : Graph) (id : NodeId) (f : Node → Node) : Graph :=
  { g with nodes := g.nodes.modify id f }

/-- A change shows at its own node only. -/
theorem node?_modify (g : Graph) (id other : NodeId) (f : Node → Node) :
    (g.modify id f).node? other = if other = id then (g.node? other).map f else g.node? other := by
  simp only [node?, modify, Array.getElem?_modify, eq_comm]

/-- Makes the kind of a resource known. -/
def register (g : Graph) (symbol : Symbol) (kind : ResourceKind) : Graph :=
  { g with kinds := g.kinds.insert symbol kind }

/-- Makes a node the supplier of a magic state. -/
def registerSource (g : Graph) (symbol : Symbol) (id : NodeId) : Graph :=
  { g.register symbol .magicState with sources := g.sources.insert symbol id }

/-- Layers with a node put into the one that it is assigned to. -/
def placeIn (g : Graph) (layers : Array Layer) (node : Node) : Array Layer :=
  let layers := layers ++ Array.replicate (node.layer + 1 - layers.size) ({} : Layer)
  layers.modify node.layer fun layer =>
    { nodes := layer.nodes ++ [node.id]
      congestion := layer.congestion + node.nonLocal.toNat
      fed := if node.producers.any (g.isFactory ·.node) then layer.fed ++ [node.id] else layer.fed }

/-- Puts a node of the graph into its layer. -/
def place (g : Graph) (node : Node) : Graph := { g with layers := g.placeIn g.layers node }

/-- Adds a node at the end. -/
def push (g : Graph) (node : Node) : Graph :=
  { g with nodes := g.nodes.push node }.place node

/-- A new node gets the next identifier, and every other keeps its own. -/
theorem node?_push (g : Graph) (node : Node) (id : NodeId) :
    (g.push node).node? id = if id = g.nextId then some node else g.node? id := by
  simp only [node?, push, place, nextId, Array.getElem?_push]
  rfl

/-- Tells the producers of a node how far above them it lies. -/
def raiseProducers (g : Graph) (id : NodeId) : Graph :=
  (g.producers id).foldl
    (fun acc edge => acc.modify edge.node fun producer =>
      { producer with urgency := producer.urgency.raise (max (g.layerOf id - producer.layer) 1) })
    g

/-- Written form: a heading, then one line per layer. -/
def text (g : Graph) : String :=
  let line (entry : Layer × Nat) : String :=
    "  " ++ toString entry.2 ++ ":"
      ++ String.join (entry.1.nodes.map fun id => " " ++ ((g.node? id).map (·.text)).getD "")
      ++ "\n"
  s!"{g.name} ({g.size} nodes, {g.depth} layers)\n" ++ String.join (g.layers.toList.zipIdx.map line)

end Graph

end LatticeSurgery
