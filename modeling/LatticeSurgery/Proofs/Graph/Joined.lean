import Mathlib.Logic.Relation
import LatticeSurgery.Proofs.Graph.Dependence

/-! # Joined graphs

Binding the draws of a graph gives it factories that wait for operations, so it is not wired any more.
What it keeps is that both ends of an edge know of it, that factories and operations stay apart, and
that an exclusive resource is handed from each operation on it to the next. A joined graph can be
scheduled, layered and bound again.
-/

namespace LatticeSurgery

namespace Graph

structure Joined (g : Graph) : Prop where
  numbered : g.Numbered
  distinct : ∀ id, (g.targetsOf id).Nodup
  known : ∀ {id symbol}, symbol ∈ g.targetsOf id → g.kind? symbol ≠ none
  mirrored : ∀ {symbol id n}, ⟨symbol, n⟩ ∈ g.consumers id ↔ ⟨symbol, id⟩ ∈ g.producers n
  consumersNodup : ∀ id, (g.consumers id).Nodup
  single : ∀ id, ((g.producers id).map (·.symbol)).Nodup
  reads : ∀ {id edge}, edge ∈ g.producers id → edge.symbol ∈ g.targetsOf id
  /-- What a factory delivers is a magic state, and an operation takes it. -/
  drawn : ∀ {id edge}, edge ∈ g.producers id → g.isFactory edge.node →
    g.isMagic edge.symbol ∧ g.isFactory id = false
  makes : ∀ {id symbol}, g.isFactory id → symbol ∈ g.targetsOf id → g.isMagic symbol
  serial : ∀ {symbol older id}, older < id → symbol ∈ g.targetsOf older → symbol ∈ g.targetsOf id →
    g.isMagic symbol = false → ∃ writer, ⟨symbol, writer⟩ ∈ g.producers id ∧ older ≤ writer ∧ writer < id ∧
      symbol ∈ g.targetsOf writer
  sources : ∀ {symbol : Symbol} {id}, g.sources[symbol]? = some id → g.isFactory id ∧ g.producers id = []
  retired : ∀ {id}, g.isRetired id → g.consumers id = [] ∧ g.producers id = []

/-- Whether one node reads something from another. -/
def Feeds (g : Graph) (producer reader : NodeId) : Prop := ∃ symbol, ⟨symbol, producer⟩ ∈ g.producers reader

/-- A numbering of the nodes in which every edge leads upwards. -/
def Ranks (g : Graph) (rank : NodeId → Nat) : Prop :=
  ∀ id, ∀ edge ∈ g.producers id, rank edge.node < rank id

theorem isRetired_eq_stem (g : Graph) (id : NodeId) : g.isRetired id = (g.stem? id).any (·.retired) := by
  simp only [isRetired, stem?]
  cases g.node? id <;> rfl

namespace Alike

variable {g h : Graph} (alike : g.Alike h)
include alike

theorem isFactory (id : NodeId) : g.isFactory id = h.isFactory id := by
  rw [isFactory_eq_stem, isFactory_eq_stem, alike.stem?]

theorem isRetired (id : NodeId) : g.isRetired id = h.isRetired id := by
  rw [isRetired_eq_stem, isRetired_eq_stem, alike.stem?]

theorem ranks {rank : NodeId → Nat} (ranks : h.Ranks rank) : g.Ranks rank := by
  intro id edge member
  rw [alike.producers] at member
  exact ranks id edge member

theorem joined (joined : h.Joined) : g.Joined where
  numbered := joined.numbered.of_alike alike
  distinct := by simpa only [alike.targetsOf] using joined.distinct
  known := by simpa only [alike.targetsOf, alike.kind?] using @joined.known
  mirrored := by simpa only [alike.consumers, alike.producers] using @joined.mirrored
  consumersNodup := by simpa only [alike.consumers] using joined.consumersNodup
  single := by simpa only [alike.producers] using joined.single
  reads := by simpa only [alike.producers, alike.targetsOf] using @joined.reads
  drawn := by simpa only [alike.producers, alike.isFactory, alike.isMagic] using @joined.drawn
  makes := by simpa only [alike.targetsOf, alike.isFactory, alike.isMagic] using @joined.makes
  serial := by simpa only [alike.producers, alike.targetsOf, alike.isMagic] using @joined.serial
  sources := by simpa only [alike.sources, alike.isFactory, alike.producers] using @joined.sources
  retired := by simpa only [alike.isRetired, alike.consumers, alike.producers] using @joined.retired

end Alike

/-! ## Wired graphs are joined -/

namespace Wired

variable {g : Graph} (wired : g.Wired)
include wired

theorem ranks : g.Ranks fun id => id := fun _ _ member => wired.older member

theorem isRetired_eq_false (id : NodeId) : g.isRetired id = false := by
  rw [isRetired_eq_stem]
  cases found : g.stem? id with
  | none => rfl
  | some node => exact wired.live found

theorem joined : g.Joined where
  numbered := wired.isNumbered
  distinct := wired.nodup_targets
  known := by
    intro id symbol acts
    obtain ⟨node, found⟩ := exists_node?_of_mem_targetsOf acts
    rw [targetsOf_of_node? found] at acts
    exact wired.known (stem?_of_node? found) acts
  mirrored := wired.consumers
  consumersNodup := fun _ => wired.consumersNodup
  single := wired.nodup_symbols
  reads := fun member => (wired.edge_cases member).1
  drawn := by
    intro id edge member factory
    obtain ⟨_, ⟨magic, _⟩ | ⟨_, operation, _⟩⟩ := wired.edge_cases member
    · obtain ⟨node, found⟩ := exists_node?_of_mem_producers member
      rw [producers_of_node? found] at member
      exact ⟨magic, isFactory_of_node? found ▸ wired.not_isFactory_of_mem_producers found member⟩
    · rw [operation] at factory
      cases factory
  makes := by
    intro id symbol factory acts
    by_contra exclusive
    rw [wired.not_isFactory_of_exclusive acts (Bool.eq_false_iff.mpr exclusive)] at factory
    cases factory
  serial := wired.exists_producer
  sources := by
    intro symbol id source
    refine ⟨(wired.isMagic_of_source source).2, ?_⟩
    rw [producers_eq_stem, wired.source source]
    rfl
  retired := by
    intro id retired
    rw [wired.isRetired_eq_false] at retired
    cases retired

end Wired

/-! ## Edges of a joined graph -/

namespace Joined

variable {g : Graph} (joined : g.Joined) {id : NodeId} {edge : Edge}
include joined

theorem nodup_producers (id : NodeId) : (g.producers id).Nodup := (joined.single id).of_map

theorem reader_live (member : edge ∈ g.producers id) : id ∈ g.liveIds := by
  obtain ⟨node, found⟩ := exists_node?_of_mem_producers member
  refine (mem_liveIds joined.numbered).mpr ⟨lt_nextId found, Bool.eq_false_iff.mpr fun retired => ?_⟩
  rw [(joined.retired retired).2] at member
  cases member

theorem producer_live (member : edge ∈ g.producers id) : edge.node ∈ g.liveIds := by
  have listed := joined.mirrored.mpr member
  refine (mem_liveIds joined.numbered).mpr ⟨?_, Bool.eq_false_iff.mpr fun retired => ?_⟩
  · by_contra outside
    have none : g.node? edge.node = none := by
      simpa [node?, nextId] using outside
    simp [consumers, none] at listed
  · rw [(joined.retired retired).1] at listed
    cases listed

theorem isDraw_eq (member : edge ∈ g.producers id) : g.isDraw edge = g.isFactory edge.node := by
  unfold isDraw
  cases factory : g.isFactory edge.node with
  | false => exact Bool.and_false _
  | true => rw [(joined.drawn member factory).1, Bool.and_true]

theorem nodup_drawn {node : Node} (found : g.node? id = some node) : (g.drawn node).Nodup := by
  have distinct := joined.single id
  rw [producers_of_node? found] at distinct
  exact distinct.sublist (List.filter_sublist.map _)

theorem not_isFactory_of_mem_drawn {node : Node} {symbol : Symbol} (found : g.node? id = some node)
    (drawn : symbol ∈ g.drawn node) : node.isFactory = false := by
  obtain ⟨edge, inside, draws, _⟩ := mem_drawn.mp drawn
  rw [← producers_of_node? found] at inside
  rw [joined.isDraw_eq inside] at draws
  rw [← isFactory_of_node? found]
  exact (joined.drawn inside draws).2

/-- An exclusive resource is handed on from every operation on it to each later one. -/
theorem feeds_of_exclusive {symbol : Symbol} {older id : Nat} (below : older < id)
    (first : symbol ∈ g.targetsOf older) (second : symbol ∈ g.targetsOf id) (exclusive : g.isMagic symbol = false) :
    Relation.TransGen g.Feeds older id := by
  induction id using Nat.strongRecOn with
  | ind id ih =>
      obtain ⟨writer, edge, between, before, acts⟩ := joined.serial below first second exclusive
      rcases Nat.eq_or_lt_of_le between with rfl | between
      · exact .single ⟨symbol, edge⟩
      · exact (ih writer before between acts).tail ⟨symbol, edge⟩

/-- A node reads a resource from one producer. -/
theorem producer_unique {symbol : Symbol} {p q : NodeId} (first : ⟨symbol, p⟩ ∈ g.producers id)
    (second : ⟨symbol, q⟩ ∈ g.producers id) : p = q := by
  have same := List.inj_on_of_nodup_map (joined.single id) first second rfl
  exact congrArg Edge.node same

end Joined

end Graph

end LatticeSurgery
