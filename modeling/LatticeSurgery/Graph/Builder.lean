import LatticeSurgery.Graph.Basic

/-! # Building a graph

A graph is built one operation at a time. The builder remembers who wrote each exclusive resource
last; an operation depends on the last writer of every exclusive target, and on the shared source of
every magic state it draws. A call that fails changes nothing.
-/

namespace LatticeSurgery

/-- A graph under construction. -/
structure Builder where
  graph : Graph
  /-- Last node to write each exclusive resource. -/
  lastWriter : SymbolMap NodeId := ∅
  deriving DecidableEq

/-- First element that also occurs earlier in the list, `seen` counting as earlier. -/
def firstRepeated? [DecidableEq α] (seen : List α) : List α → Option α
  | [] => none
  | x :: xs => if x ∈ seen then some x else firstRepeated? (seen ++ [x]) xs

/-- Magic state that an operation draws when it is added as a magic-state operation. -/
def Operation.stateSymbol (op : Operation) : Symbol := op.magicState.getD op.label

namespace Graph

/-- The node that supplies a magic state, added to the graph at its first use. -/
def sourceOf (g : Graph) (symbol : Symbol) : NodeId × Graph :=
  match g.sources[symbol]? with
  | some id => (id, g)
  | none =>
      (g.nextId,
        (g.registerSource symbol g.nextId).push
          { id := g.nextId, operation := .init, targets := [symbol], isFactory := true })

end Graph

namespace Builder

/-- A builder of an empty graph. -/
def new (name : String) : Builder := { graph := { name } }

/-- Declares an input, produced in the lowest layer, unless the resource is known already. -/
def declare (b : Builder) (symbol : Symbol) : Builder :=
  if (b.graph.kind? symbol).isSome then b
  else
    let id := b.graph.nextId
    let graph := { b.graph with inputs := b.graph.inputs ++ [symbol] }
    { graph := ((graph.register symbol .exclusive).push
        { id, operation := .init, targets := [symbol] }).raiseProducers id
      lastWriter := b.lastWriter.insert symbol id }

/-- Declares inputs in order. -/
def declareAll (b : Builder) (symbols : List Symbol) : Builder := symbols.foldl declare b

/-- Where a target of an operation comes from; `none` for a resource that the operation introduces. -/
def origin (b : Builder) (op : Operation) (target : Symbol) : Except Error (Option Edge) :=
  match b.graph.kind? target with
  | some .magicState =>
      match b.graph.sources[target]? with
      | some source => .ok (some ⟨target, source⟩)
      | none => .error (.invalidGraph (.sourceless target))
  | some .exclusive =>
      match b.lastWriter[target]? with
      | some writer => .ok (some ⟨target, writer⟩)
      | none => .error (.inconsistent (.noWriter target))
  | none => if op.produces then .ok none else .error (.unknownResource target op.label)

/-- Origins of several targets, or the error of the first target that has none. -/
def origins (b : Builder) (op : Operation) : List Symbol → Except Error (List Edge)
  | [] => .ok []
  | target :: rest => do
      let edge ← b.origin op target
      let edges ← b.origins op rest
      return edge.toList ++ edges

/-- Adds a node whose producers are known. Targets not known before become exclusive resources. -/
def attach (b : Builder) (op : Operation) (targets : List Symbol) (producers : List Edge)
    (cycles : Nat) : NodeId × Builder :=
  let fresh := targets.filter fun target => (b.graph.kind? target).isNone
  let graph := fresh.foldl (·.register · .exclusive) b.graph
  let id := graph.nextId
  let node : Node :=
    { id, operation := op, targets, cycles := max cycles 1, layer := graph.layerAbove producers, producers }
  let written := targets.filter fun target => graph.kind? target == some .exclusive
  let graph := producers.foldl
    (fun acc edge => acc.modify edge.node (·.addConsumer ⟨edge.symbol, id⟩)) graph
  (id,
    { graph := (graph.push node).raiseProducers id
      lastWriter := written.foldl (fun acc target => acc.insert target id) b.lastWriter })

/-- Adds an operation with a given duration. If `magic` is set it also draws one unit of the magic
    state of its kind, or of the one named by its label. -/
def addLasting (b : Builder) (op : Operation) (targets : List Symbol) (magic : Bool) (cycles : Nat) :
    Except Error (NodeId × Builder) :=
  match firstRepeated? [] targets with
  | some target => .error (.invalidGraph (.repeatedTarget op.label target))
  | none => do
      let producers ← b.origins op targets
      let state := op.stateSymbol
      if magic && !targets.contains state then
        if b.graph.kind? state = some .exclusive then
          .error (.invalidGraph (.collision state))
        else
          let (source, graph) := b.graph.sourceOf state
          let b : Builder := { b with graph }
          return b.attach op (targets ++ [state]) (producers ++ [⟨state, source⟩]) cycles
      else
        return b.attach op targets producers cycles

/-- Adds an operation with the duration of its kind. -/
def add (b : Builder) (op : Operation) (targets : List Symbol) (magic : Bool) :
    Except Error (NodeId × Builder) :=
  b.addLasting op targets magic op.cycles

/-- Adds an operation that draws a magic state exactly if its kind consumes one. -/
def addGate (b : Builder) (op : Operation) (targets : List Symbol) : Except Error (NodeId × Builder) :=
  b.add op targets op.magicState.isSome

end Builder

end LatticeSurgery
