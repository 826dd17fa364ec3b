import LatticeSurgery.Proofs.Graph.Construction
import LatticeSurgery.Proofs.Graph.Settling
import LatticeSurgery.Proofs.Plan.Sweep
import LatticeSurgery.Proofs.Sorting

/-! # Layers and groups

Every live node lies right above its highest producer, and the groups hold the nodes of each layer in
construction order, with their congestion and the nodes fed by a factory. A builder keeps this from node
to node, and layering brings it about again.
-/

namespace LatticeSurgery

/-- A group with one more node. -/
def Layer.add (layer : Layer) (id : NodeId) (nonLocal fed : Bool) : Layer where
  nodes := layer.nodes ++ [id]
  congestion := layer.congestion + nonLocal.toNat
  fed := if fed then layer.fed ++ [id] else layer.fed

namespace Graph

def isFed (g : Graph) (id : NodeId) : Bool := (g.producers id).any (g.isFactory ·.node)

/-- The group that some nodes make up. -/
def group (g : Graph) (ids : List NodeId) : Layer where
  nodes := ids
  congestion := ids.countP g.isNonLocal
  fed := ids.filter g.isFed

/-- The groups of some nodes, layer by layer. -/
structure Grouping (g : Graph) (layers : Array Layer) (ids : List NodeId) : Prop where
  groups : ∀ i, (layers[i]?).getD {} = g.group (ids.filter (g.layerOf · == i))
  covered : ∀ id ∈ ids, g.layerOf id < layers.size
  peaked : ∀ i < layers.size, ∃ id ∈ ids, i ≤ g.layerOf id

structure Tiered (g : Graph) : Prop where
  level : ∀ id ∈ g.liveIds, g.layerOf id = g.layerAbove (g.producers id)
  grouping : g.Grouping g.layers g.liveIds

/-! ## Building groups -/

theorem group_append (g : Graph) (ids : List NodeId) (id : NodeId) :
    g.group (ids ++ [id]) = (g.group ids).add id (g.isNonLocal id) (g.isFed id) := by
  simp only [group, Layer.add, List.countP_append, List.countP_singleton, List.filter_append, List.filter_singleton,
    Layer.mk.injEq, true_and]
  constructor
  · cases g.isNonLocal id <;> rfl
  · cases g.isFed id <;> simp

theorem size_placeIn (g : Graph) (layers : Array Layer) (node : Node) :
    (g.placeIn layers node).size = max layers.size (node.layer + 1) := by
  simp only [placeIn, Array.size_modify, Array.size_append, Array.size_replicate]
  omega

theorem getElem?_placeIn (g : Graph) (layers : Array Layer) (node : Node) (i : Nat) :
    ((g.placeIn layers node)[i]?).getD {}
      = if i = node.layer
        then ((layers[i]?).getD {}).add node.id node.nonLocal (node.producers.any (g.isFactory ·.node))
        else (layers[i]?).getD {} := by
  have padded : ((layers ++ Array.replicate (node.layer + 1 - layers.size) ({} : Layer))[i]?).getD {}
      = (layers[i]?).getD {} := by
    rw [Array.getElem?_append]
    split
    · rfl
    next outside =>
        rw [Array.getElem?_replicate, Array.getElem?_eq_none (Nat.le_of_not_lt outside)]
        split <;> rfl
  simp only [placeIn, Array.getElem?_modify]
  split
  next here =>
      subst here
      have inside : node.layer < (layers ++ Array.replicate (node.layer + 1 - layers.size) ({} : Layer)).size := by
        simp only [Array.size_append, Array.size_replicate]
        omega
      rw [if_pos rfl, ← padded, Array.getElem?_eq_getElem inside]
      rfl
  next elsewhere => rw [if_neg (Ne.symm elsewhere), padded]

variable {g h : Graph} {layers : Array Layer} {ids : List NodeId} {id : NodeId} {node : Node}

theorem grouping_nil (g : Graph) : g.Grouping #[] [] := ⟨fun _ => rfl, by simp, by simp⟩

theorem Grouping.placeIn (grouping : g.Grouping layers ids) (found : g.node? id = some node) (named : node.id = id) :
    g.Grouping (g.placeIn layers node) (ids ++ [id]) := by
  have layer : g.layerOf id = node.layer := by simp [layerOf, found]
  have far : g.isNonLocal id = node.nonLocal := by simp [isNonLocal, found]
  have fed : g.isFed id = node.producers.any (g.isFactory ·.node) := by simp [isFed, producers_of_node? found]
  constructor
  · intro i
    rw [getElem?_placeIn, List.filter_append, List.filter_singleton, layer]
    split
    next here => rw [here, beq_self_eq_true, cond_true, group_append, ← here, grouping.groups, named, far, fed]
    next elsewhere =>
        have differs : (node.layer == i) = false := beq_eq_false_iff_ne.mpr (Ne.symm elsewhere)
        rw [differs, cond_false, List.append_nil, grouping.groups]
  · intro other member
    rw [size_placeIn]
    rcases List.mem_append.mp member with earlier | last
    · have inside := grouping.covered other earlier
      omega
    · rw [List.mem_singleton.mp last, layer]
      omega
  · intro i inside
    by_cases old : i < layers.size
    · obtain ⟨other, member, below⟩ := grouping.peaked i old
      exact ⟨other, List.mem_append_left _ member, below⟩
    · rw [size_placeIn] at inside
      exact ⟨id, List.mem_append_right _ (List.mem_singleton_self id), by omega⟩

theorem Grouping.foldl (grouping : g.Grouping layers ids) {rest : List NodeId}
    (found : ∀ id ∈ rest, ∃ node, g.node? id = some node ∧ node.id = id) :
    g.Grouping ((rest.filterMap g.node?).foldl g.placeIn layers) (ids ++ rest) := by
  induction rest generalizing layers ids with
  | nil => simpa using grouping
  | cons id rest ih =>
      obtain ⟨node, here, named⟩ := found id List.mem_cons_self
      have next := ih (grouping.placeIn here named) fun other member => found other (List.mem_cons_of_mem _ member)
      rw [List.append_assoc, List.singleton_append] at next
      rw [List.filterMap_cons, here]
      exact next

theorem Grouping.congr (grouping : g.Grouping layers ids)
    (same : ∀ id ∈ ids, h.layerOf id = g.layerOf id ∧ h.isNonLocal id = g.isNonLocal id ∧ h.isFed id = g.isFed id) :
    h.Grouping layers ids := by
  have filtered : ∀ i, ids.filter (h.layerOf · == i) = ids.filter (g.layerOf · == i) := by
    intro i
    apply List.filter_congr
    intro id member
    rw [(same id member).1]
  constructor
  · intro i
    rw [grouping.groups, filtered]
    have inside : ∀ id ∈ ids.filter (g.layerOf · == i), id ∈ ids := fun id member => List.mem_of_mem_filter member
    simp only [group, Layer.mk.injEq, true_and]
    constructor
    · apply List.countP_congr
      intro id member
      rw [(same id (inside id member)).2.1]
    · apply List.filter_congr
      intro id member
      rw [(same id (inside id member)).2.2]
  · intro id member
    rw [(same id member).1]
    exact grouping.covered id member
  · intro i inside
    obtain ⟨id, member, below⟩ := grouping.peaked i inside
    exact ⟨id, member, (same id member).1 ▸ below⟩

/-! ## What tiers depend on -/

theorem liveIds_congr (same : ∀ id, h.stem? id = g.stem? id) : h.liveIds = g.liveIds := by
  have through : ∀ g : Graph, g.liveIds = ((g.nodes.toList.map Node.stem).filter (!·.retired)).map (·.id) := by
    intro g
    rw [List.filter_map, List.map_map]
    rfl
  rw [through, through]
  congr 2
  apply List.ext_getElem?
  intro id
  have here := same id
  simpa [stem?, node?] using here

theorem isNonLocal_eq_stem (g : Graph) (id : NodeId) : g.isNonLocal id = (g.stem? id).any (·.nonLocal) := by
  simp only [isNonLocal, stem?]
  cases g.node? id <;> rfl

theorem isFed_congr (same : ∀ id, h.stem? id = g.stem? id) (id : NodeId) : h.isFed id = g.isFed id := by
  simp only [isFed, producers_eq_stem, isFactory_eq_stem, same]

theorem Tiered.congr (tiered : g.Tiered) (same : ∀ id, h.stem? id = g.stem? id)
    (layer : ∀ id, h.layerOf id = g.layerOf id) (layers : h.layers = g.layers) : h.Tiered := by
  have alive := liveIds_congr same
  constructor
  · intro id member
    rw [layer, tiered.level id (alive ▸ member), producers_eq_stem, producers_eq_stem, same]
    exact layerAbove_congr fun edge _ => (layer edge.node).symm
  · rw [alive, layers]
    apply tiered.grouping.congr
    intro id _
    exact ⟨layer id, by rw [isNonLocal_eq_stem, isNonLocal_eq_stem, same], isFed_congr same id⟩

theorem layerOf_modify {f : Node → Node} (keeps : ∀ node, (f node).layer = node.layer) (g : Graph) (id n : NodeId) :
    (g.modify id f).layerOf n = g.layerOf n := by
  simp only [layerOf, node?_modify]
  split
  · cases g.node? n <;> simp [keeps]
  · rfl

theorem foldl_keeps {step : Graph → α → Graph} (read : Graph → β) (keeps : ∀ g a, read (step g a) = read g)
    (as : List α) (g : Graph) : read (as.foldl step g) = read g := by
  induction as generalizing g with
  | nil => rfl
  | cons a as ih => exact (ih (step g a)).trans (keeps g a)

theorem layerOf_raiseProducers (g : Graph) (id n : NodeId) : (g.raiseProducers id).layerOf n = g.layerOf n := by
  apply foldl_keeps (·.layerOf n)
  intro acc edge
  apply layerOf_modify
  exact fun _ => rfl

theorem layers_raiseProducers (g : Graph) (id : NodeId) : (g.raiseProducers id).layers = g.layers := by
  apply foldl_keeps (·.layers)
  exact fun _ _ => rfl

theorem layerOf_link (g : Graph) (id n : NodeId) (edges : List Edge) : (g.link id edges).layerOf n = g.layerOf n := by
  apply foldl_keeps (·.layerOf n)
  intro acc edge
  apply layerOf_modify
  exact fun _ => rfl

theorem layers_link (g : Graph) (id : NodeId) (edges : List Edge) : (g.link id edges).layers = g.layers := by
  apply foldl_keeps (·.layers)
  exact fun _ _ => rfl

/-! ## Layering -/

theorem sortBy_eq_liveIds (numbered : g.Numbered) (same : ids.Perm g.liveIds) :
    sortBy (fun a b => a ≤ b) ids = g.liveIds := by
  have sorted : (sortBy (fun a b : NodeId => decide (a ≤ b)) ids).Pairwise fun a b => decide (a ≤ b) := by
    apply pairwise_sortBy
    · intro a b c first second
      exact decide_eq_true (Nat.le_trans (of_decide_eq_true first) (of_decide_eq_true second))
    · intro a b
      simpa using Nat.le_total a b
  have perm := (sortBy_perm (fun a b : NodeId => decide (a ≤ b)) ids).trans same
  apply perm.eq_of_pairwise _ sorted ((pairwise_liveIds numbered).imp fun below => decide_eq_true (Nat.le_of_lt below))
  intro a b _ _ first second
  exact Nat.le_antisymm (of_decide_eq_true first) (of_decide_eq_true second)

theorem Joined.tiered_of_relayer (joined : g.Joined) {rank : NodeId → Nat} (ranks : g.Ranks rank) :
    ∃ h, g.relayer = .ok h ∧ h.Alike g ∧ h.Tiered := by
  obtain ⟨s, done, -, sorted, all⟩ := joined.relayer_eq_ok ranks
  have alike := sorted.counts.alike
  have numbered := joined.numbered.of_alike alike
  have same : ∀ id, (s.graph.regroup s.order).stem? id = s.graph.stem? id := (alike_regroup _ _).stem?
  have alive : s.graph.liveIds = g.liveIds := liveIds_congr alike.stem?
  have order := sortBy_eq_liveIds numbered (alive ▸ all)
  have layer : ∀ id, (s.graph.regroup s.order).layerOf id = s.graph.layerOf id :=
    fun id => foldl_keeps (·.layerOf id) (fun g n => layerOf_raiseProducers g n id) _ s.graph
  refine ⟨_, done, (alike_regroup _ _).trans alike, ?_, ?_⟩
  · intro id member
    rw [liveIds_congr same, alive] at member
    rw [layer, sorted.layers id (all.mem_iff.mpr member), (alike_regroup _ _).producers, alike.producers]
    exact layerAbove_congr fun edge _ => (layer edge.node).symm
  · have grouping : s.graph.Grouping (s.graph.regroup s.order).layers s.graph.liveIds := by
      unfold regroup
      rw [order]
      apply (grouping_nil s.graph).foldl
      intro id member
      obtain ⟨node, found⟩ := lt_nextId_iff.mp ((mem_liveIds numbered).mp member).1
      exact ⟨node, found, numbered id node found⟩
    rw [liveIds_congr same]
    apply grouping.congr
    intro id _
    exact ⟨layer id, by rw [isNonLocal_eq_stem, isNonLocal_eq_stem, same], isFed_congr same id⟩

/-! ## Building -/

theorem liveIds_push (g : Graph) (alive : node.retired = false) : (g.push node).liveIds = g.liveIds ++ [node.id] := by
  simp [liveIds, live, push, place, alive]

theorem Tiered.push (tiered : g.Tiered) (numbered : g.Numbered) (named : node.id = g.nextId)
    (alive : node.retired = false) (level : node.layer = g.layerAbove node.producers)
    (older : ∀ edge ∈ node.producers, edge.node < g.nextId)
    (inside : ∀ id, ∀ edge ∈ g.producers id, edge.node < g.nextId) : (g.push node).Tiered := by
  have old : ∀ id, id < g.nextId → (g.push node).node? id = g.node? id := by
    intro id below
    rw [node?_push, if_neg (Nat.ne_of_lt below)]
  have new : (g.push node).node? g.nextId = some node := by rw [node?_push, if_pos rfl]
  have layer : ∀ id, id < g.nextId → (g.push node).layerOf id = g.layerOf id := by
    intro id below
    rw [layerOf, old id below, layerOf]
  have producers : ∀ id, id < g.nextId → (g.push node).producers id = g.producers id := by
    intro id below
    rw [Graph.producers, old id below, Graph.producers]
  have factory : ∀ id, id < g.nextId → (g.push node).isFactory id = g.isFactory id := by
    intro id below
    rw [isFactory, old id below, isFactory]
  have below : ∀ id ∈ g.liveIds, id < g.nextId := fun id member => ((mem_liveIds numbered).mp member).1
  have grouped : (g.push node).Grouping g.layers g.liveIds := by
    apply tiered.grouping.congr
    intro id member
    refine ⟨layer id (below id member), by rw [isNonLocal, old id (below id member), isNonLocal], ?_⟩
    rw [isFed, producers id (below id member), isFed]
    apply Bool.eq_iff_iff.mpr
    simp only [List.any_eq_true]
    constructor
    · rintro ⟨edge, member, fed⟩
      exact ⟨edge, member, factory edge.node (inside id edge member) ▸ fed⟩
    · rintro ⟨edge, member, fed⟩
      exact ⟨edge, member, (factory edge.node (inside id edge member)).symm ▸ fed⟩
  constructor
  · intro id member
    rw [liveIds_push g alive] at member
    rcases List.mem_append.mp member with member | last
    · rw [layer id (below id member), producers id (below id member), tiered.level id member]
      exact layerAbove_congr fun edge member => (layer edge.node (inside id edge member)).symm
    · rw [List.mem_singleton.mp last, named, producers_of_node? new]
      have here : (g.push node).layerOf g.nextId = node.layer := by simp [layerOf, new]
      rw [here, level]
      exact layerAbove_congr fun edge member => (layer edge.node (older edge member)).symm
  · rw [liveIds_push g alive]
    exact grouped.placeIn (named ▸ new) rfl

theorem Wired.producer_lt (wired : g.Wired) {edge : Edge} (member : edge ∈ g.producers id) : edge.node < g.nextId := by
  obtain ⟨reader, found⟩ := exists_node?_of_mem_producers member
  exact Nat.lt_trans (wired.older member) (lt_nextId found)

end Graph

namespace Builder

/-- The graph as it is right before an operation is pushed: fresh targets are known, and producers know of the operation. -/
def linked (b : Builder) (targets : List Symbol) (producers : List Edge) : Graph :=
  (b.graph.registerAll (targets.filter fun target => (b.graph.kind? target).isNone)).link b.graph.nextId producers

section

variable (b : Builder) (op : Operation) (targets : List Symbol) (producers : List Edge) (cycles : Nat)

@[simp] theorem nextId_linked : (b.linked targets producers).nextId = b.graph.nextId := by simp [linked]

@[simp] theorem stem?_linked (id : NodeId) : (b.linked targets producers).stem? id = b.graph.stem? id := by simp [linked]

@[simp] theorem layerOf_linked (id : NodeId) : (b.linked targets producers).layerOf id = b.graph.layerOf id := by
  rw [linked, Graph.layerOf_link, Graph.registerAll_eq]
  rfl

theorem graph_attach : (b.attach op targets producers cycles).2.graph
    = ((b.linked targets producers).push { operationNode b.graph.nextId op targets producers cycles with
        layer := b.graph.layerAbove producers }).raiseProducers b.graph.nextId := by
  let fresh := targets.filter fun target => (b.graph.kind? target).isNone
  have level : b.graph.layerAbove producers = (b.graph.registerAll fresh).layerAbove producers := by
    rw [Graph.registerAll_eq]
    rfl
  rw [level, linked, ← Graph.nextId_registerAll b.graph fresh]
  rfl

end

theorem tiered_attach {b : Builder} {op : Operation} {targets : List Symbol} {producers : List Edge} {cycles : Nat}
    (wired : b.graph.Wired) (older : ∀ edge ∈ producers, edge.node < b.graph.nextId) (tiered : b.graph.Tiered) :
    (b.attach op targets producers cycles).2.graph.Tiered := by
  have before : (b.linked targets producers).Tiered := by
    apply tiered.congr (by simp) (by simp)
    rw [linked, Graph.layers_link, Graph.registerAll_eq]
  rw [graph_attach]
  refine Graph.Tiered.congr ?_ (Graph.alike_raiseProducers _ _).stem? (Graph.layerOf_raiseProducers _ _)
    (Graph.layers_raiseProducers _ _)
  apply before.push
  · intro id found there
    exact (wired.numbered (stem?_linked b targets producers id ▸ Graph.stem?_of_node? there) :)
  · simp [operationNode]
  · rfl
  · exact Graph.layerAbove_congr fun edge _ => (layerOf_linked b targets producers edge.node).symm
  · rw [nextId_linked]
    exact older
  · intro id edge member
    rw [Graph.producers_eq_stem, stem?_linked, ← Graph.producers_eq_stem] at member
    simpa using wired.producer_lt member

theorem tiered_withSource {g : Graph} {symbol : Symbol} (wired : g.Wired) (tiered : g.Tiered) :
    (g.withSource symbol).Tiered := by
  have registered : (g.registerSource symbol g.nextId).Tiered := tiered.congr (fun _ => rfl) (fun _ => rfl) rfl
  apply registered.push
  · exact wired.joined.numbered
  · rfl
  · rfl
  · rfl
  · intro edge member
    cases member
  · exact fun id edge member => wired.producer_lt member

theorem Reachable.tiered {b : Builder} (h : b.Reachable) : b.graph.Tiered := by
  refine h.graph_induction ?_ tiered_attach ?_ tiered_withSource
  · exact fun tiered _ => tiered.congr (fun _ => rfl) (fun _ => rfl) rfl
  · exact fun name => ⟨fun id member => absurd member List.not_mem_nil, Graph.grouping_nil _⟩

end Builder

end LatticeSurgery
