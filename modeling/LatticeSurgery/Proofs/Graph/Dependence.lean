import Mathlib.Data.List.Nodup
import LatticeSurgery.Proofs.Graph.Numbered
import LatticeSurgery.Proofs.Graph.Wiring

/-! # Dependencies in a wired graph

An edge of a wired graph either draws a magic state from its source or leads to the last older operation
on an exclusive resource. A set of nodes that holds the operations its members depend on therefore
holds, with a node, every older node that shares an exclusive resource with it.
-/

namespace LatticeSurgery

namespace Graph

theorem producers_of_node? {g : Graph} {id : NodeId} {node : Node} (found : g.node? id = some node) :
    g.producers id = node.producers := by
  simp [producers, found]

theorem targetsOf_of_node? {g : Graph} {id : NodeId} {node : Node} (found : g.node? id = some node) :
    g.targetsOf id = node.targets := by
  simp [targetsOf, found]

theorem isFactory_of_node? {g : Graph} {id : NodeId} {node : Node} (found : g.node? id = some node) :
    g.isFactory id = node.isFactory := by
  simp [isFactory, found]

theorem exists_node?_of_mem_targetsOf {g : Graph} {id : NodeId} {symbol : Symbol}
    (member : symbol ∈ g.targetsOf id) : ∃ node, g.node? id = some node := by
  unfold targetsOf at member
  cases found : g.node? id with
  | none => simp [found] at member
  | some node => exact ⟨node, rfl⟩

theorem exists_node?_of_mem_producers {g : Graph} {id : NodeId} {edge : Edge}
    (member : edge ∈ g.producers id) : ∃ node, g.node? id = some node := by
  unfold producers at member
  cases found : g.node? id with
  | none => simp [found] at member
  | some node => exact ⟨node, rfl⟩

theorem known_of_isMagic {g : Graph} {symbol : Symbol} (magic : g.isMagic symbol) : g.kind? symbol ≠ none := by
  simp [beq_iff_eq.mp magic]

theorem mem_drawn {g : Graph} {node : Node} {symbol : Symbol} :
    symbol ∈ g.drawn node ↔ ∃ edge ∈ node.producers, g.isDraw edge ∧ edge.symbol = symbol := by
  simp [drawn, and_assoc]

theorem isMagic_of_mem_drawn {g : Graph} {node : Node} {symbol : Symbol} (h : symbol ∈ g.drawn node) :
    g.isMagic symbol := by
  obtain ⟨edge, _, draws, rfl⟩ := mem_drawn.mp h
  rw [isDraw, Bool.and_eq_true] at draws
  exact draws.1

/-- Nodes that are held together with all operations that they depend on. -/
def Closed (g : Graph) (held : List NodeId) : Prop :=
  ∀ id ∈ held, ∀ edge ∈ g.producers id, g.isFactory edge.node = false → edge.node ∈ held

namespace Wired

variable {g : Graph} (wired : g.Wired) {id : NodeId} {node : Node}
include wired

theorem id_eq (found : g.node? id = some node) : node.id = id := by
  have stem := wired.numbered (stem?_of_node? found)
  exact stem

theorem isNumbered : g.Numbered := fun _ _ => wired.id_eq

/-- A factory makes its own magic state out of nothing. -/
theorem of_isFactory (found : g.node? id = some node) (factory : node.isFactory) :
    ∃ symbol : Symbol, g.sources[symbol]? = some id ∧ node.targets = [symbol] ∧ node.producers = [] := by
  obtain ⟨symbol, source⟩ := wired.factory (stem?_of_node? found) factory
  have same := wired.source source
  rw [stem?_of_node? found] at same
  have same := Option.some.inj same
  exact ⟨symbol, source, congrArg Node.targets same, congrArg Node.producers same⟩

theorem not_isFactory_of_mem_producers {edge : Edge} (found : g.node? id = some node)
    (member : edge ∈ node.producers) : node.isFactory = false := by
  refine Bool.eq_false_iff.mpr fun factory => ?_
  obtain ⟨_, _, _, none⟩ := wired.of_isFactory found factory
  rw [none] at member
  cases member

theorem producers_eq (found : g.node? id = some node) (operation : node.isFactory = false) :
    node.producers = node.targets.filterMap (g.origin? id) := by
  have stem := wired.producers (stem?_of_node? found) operation
  exact stem

theorem isMagic_of_source {symbol : Symbol} (source : g.sources[symbol]? = some id) :
    g.isMagic symbol ∧ g.isFactory id := by
  have magic := wired.supplied.mpr ⟨id, source⟩
  refine ⟨by simp [isMagic, magic], ?_⟩
  rw [isFactory_eq_stem, wired.source source]
  rfl

theorem isFactory_of_magic {symbol : Symbol} (source : g.sources[symbol]? = some id)
    (found : g.node? id = some node) : node.isFactory ∧ node.targets = [symbol] := by
  have same := wired.source source
  rw [stem?_of_node? found] at same
  have same := Option.some.inj same
  exact ⟨congrArg Node.isFactory same, congrArg Node.targets same⟩

theorem not_isFactory_of_exclusive {symbol : Symbol} (acts : symbol ∈ g.targetsOf id)
    (exclusive : g.isMagic symbol = false) : g.isFactory id = false := by
  obtain ⟨node, found⟩ := exists_node?_of_mem_targetsOf acts
  rw [targetsOf_of_node? found] at acts
  rw [isFactory_of_node? found]
  by_contra factory
  obtain ⟨own, source, targets, _⟩ := wired.of_isFactory found (by simpa using factory)
  obtain ⟨magic, _⟩ := wired.isMagic_of_source source
  rw [targets, List.mem_singleton] at acts
  rw [acts, magic] at exclusive
  cases exclusive

theorem edge_cases {edge : Edge} (member : edge ∈ g.producers id) :
    edge.symbol ∈ g.targetsOf id ∧
      (g.isMagic edge.symbol ∧ g.isFactory edge.node ∧ g.sources[edge.symbol]? = some edge.node ∨
        g.isMagic edge.symbol = false ∧ g.isFactory edge.node = false ∧
          g.writerBefore? edge.symbol id = some edge.node) := by
  obtain ⟨node, found⟩ := exists_node?_of_mem_producers member
  rw [producers_of_node? found] at member
  rw [wired.producers_eq found (wired.not_isFactory_of_mem_producers found member)] at member
  obtain ⟨symbol, target, origin⟩ := List.mem_filterMap.mp member
  obtain ⟨rfl, ⟨magic, source⟩ | ⟨exclusive, writer⟩⟩ := origin?_eq_some origin
  · exact ⟨targetsOf_of_node? found ▸ target, .inl ⟨magic, (wired.isMagic_of_source source).2, source⟩⟩
  · have acts := (writerBefore?_eq_some writer).2.1
    exact ⟨targetsOf_of_node? found ▸ target,
      .inr ⟨exclusive, wired.not_isFactory_of_exclusive acts exclusive, writer⟩⟩

/-- What is not read from a factory is read from an older operation. -/
theorem exists_operation {edge : Edge} (member : edge ∈ g.producers id) (produced : g.isFactory edge.node = false) :
    ∃ producer, g.node? edge.node = some producer ∧ producer.isFactory = false ∧ edge.node < id := by
  obtain ⟨_, ⟨_, factory, _⟩ | ⟨_, _, writer⟩⟩ := wired.edge_cases member
  · rw [produced] at factory
    cases factory
  · obtain ⟨producer, there⟩ := exists_node?_of_mem_targetsOf (writerBefore?_eq_some writer).2.1
    exact ⟨producer, there, isFactory_of_node? there ▸ produced, wired.older member⟩

theorem nodup_targets (id : NodeId) : (g.targetsOf id).Nodup := by
  rw [targetsOf_eq_stem]
  cases found : g.stem? id with
  | none => exact .nil
  | some node => exact wired.distinct found

/-- A node reads every resource through one edge at most. -/
theorem nodup_symbols (id : NodeId) : ((g.producers id).map (·.symbol)).Nodup := by
  cases found : g.node? id with
  | none => simp [Graph.producers, found]
  | some node =>
      rw [producers_of_node? found]
      cases kind : node.isFactory with
      | true =>
          obtain ⟨_, _, _, none⟩ := wired.of_isFactory found kind
          simp [none]
      | false =>
          have distinct := wired.nodup_targets id
          rw [targetsOf_of_node? found] at distinct
          rw [wired.producers_eq found kind, List.map_filterMap]
          refine List.Nodup.filterMap ?_ distinct
          intro a b symbol first second
          obtain ⟨edge, first, here⟩ := Option.map_eq_some_iff.mp first
          obtain ⟨edge', second, here'⟩ := Option.map_eq_some_iff.mp second
          exact ((origin?_eq_some first).1.symm.trans (here.trans here'.symm)).trans (origin?_eq_some second).1

/-- An operation on an exclusive resource waits for the last one, which is no older than any other. -/
theorem exists_producer {symbol : Symbol} {older : Nat} {id : Nat} (below : older < id)
    (first : symbol ∈ g.targetsOf older) (second : symbol ∈ g.targetsOf id)
    (exclusive : g.isMagic symbol = false) :
    ∃ writer, ⟨symbol, writer⟩ ∈ g.producers id ∧ older ≤ writer ∧ writer < id ∧
      symbol ∈ g.targetsOf writer := by
  obtain ⟨node, found⟩ := exists_node?_of_mem_targetsOf second
  have operation := wired.not_isFactory_of_exclusive second exclusive
  obtain ⟨writer, latest⟩ := exists_writerBefore? below first
  obtain ⟨before, acts, last⟩ := writerBefore?_eq_some latest
  refine ⟨writer, ?_, Nat.le_of_not_lt fun earlier => last older earlier below first, before, acts⟩
  rw [isFactory_of_node? found] at operation
  rw [targetsOf_of_node? found] at second
  rw [producers_of_node? found, wired.producers_eq found operation]
  exact List.mem_filterMap.mpr ⟨symbol, second, by simp [origin?, exclusive, latest]⟩

/-- The chain of last writers leads from an operation to every older one on the same resource. -/
theorem mem_of_closed {held : List NodeId} (closed : g.Closed held) {symbol : Symbol}
    (exclusive : g.isMagic symbol = false) {older id : Nat} (upto : older ≤ id)
    (first : symbol ∈ g.targetsOf older) (second : symbol ∈ g.targetsOf id) (member : id ∈ held) :
    older ∈ held := by
  induction id using Nat.strongRecOn with
  | ind id ih =>
      rcases Nat.eq_or_lt_of_le upto with rfl | below
      · exact member
      · obtain ⟨writer, edge, between, before, acts⟩ := wired.exists_producer below first second exclusive
        have operation := wired.not_isFactory_of_exclusive acts exclusive
        exact ih writer before between acts (closed id member _ edge operation)

/-- Nothing is retired, so all nodes are live. -/
theorem mem_live : node ∈ g.live ↔ g.node? node.id = some node := by
  rw [mem_live_of_numbered wired.isNumbered, and_iff_left_iff_imp]
  intro found
  have alive := wired.live (stem?_of_node? found)
  exact alive

theorem mem_entries : id ∈ g.entries ↔ ∃ node, g.node? id = some node ∧ node.isFactory = false ∧
    ∀ edge ∈ g.producers id, g.isFactory edge.node := by
  simp only [Graph.entries, List.mem_map, List.mem_filter, wired.mem_live, Bool.and_eq_true, Bool.not_eq_true',
    List.all_eq_true]
  constructor
  · rintro ⟨node, ⟨found, operation, fed⟩, rfl⟩
    exact ⟨node, found, operation, by rw [producers_of_node? found]; exact fed⟩
  · rintro ⟨node, found, operation, fed⟩
    obtain rfl := wired.id_eq found
    exact ⟨node, ⟨found, operation, by rw [← producers_of_node? found]; exact fed⟩, rfl⟩

end Wired

end Graph

end LatticeSurgery
