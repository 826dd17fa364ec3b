import LatticeSurgery.Proofs.Chains.Rebinding

/-! # What every graph keeps

Building, layering and binding write edges, layers and groups in different places. Whatever the calls
and in whatever order, these agree afterwards: every edge is known at both ends, nothing waits for itself,
a node lies right above its producers, and the groups show exactly the live nodes.
-/

namespace LatticeSurgery

namespace Graph

/-- Agreement of nodes, edges, layers and groups. -/
structure WellFormed (g : Graph) : Prop where
  numbered : ∀ id node, g.node? id = some node → node.id = id
  distinct : ∀ id node, g.node? id = some node → node.targets.Nodup
  mirrored : ∀ symbol id n, ⟨symbol, id⟩ ∈ g.producers n ↔ ⟨symbol, n⟩ ∈ g.consumers id
  once : ∀ id, (g.producers id).Nodup ∧ (g.consumers id).Nodup
  alive : ∀ id, ∀ edge ∈ g.producers id, id ∈ g.liveIds ∧ edge.node ∈ g.liveIds
  acyclic : ∀ id, ¬ Relation.TransGen g.Feeds id id
  /-- A node lies above all its producers, and right above one of them or at the bottom. -/
  level : ∀ id ∈ g.liveIds, (∀ edge ∈ g.producers id, g.layerOf edge.node < g.layerOf id) ∧
    (g.layerOf id = 0 ∨ ∃ edge ∈ g.producers id, g.layerOf id = g.layerOf edge.node + 1)
  increasing : g.liveIds.Pairwise (· < ·)
  covered : ∀ id ∈ g.liveIds, g.layerOf id < g.layers.size
  groups : ∀ i layer, g.layers[i]? = some layer →
    layer.nodes = g.liveIds.filter (g.layerOf · == i) ∧ layer.congestion = layer.nodes.countP g.isNonLocal ∧
      layer.fed = layer.nodes.filter g.isFed
  retired : ∀ id, g.isRetired id → g.producers id = [] ∧ g.consumers id = [] ∧
    ∀ layer ∈ g.layers, id ∉ layer.nodes ∧ id ∉ layer.fed
  exclusive : ∀ a ∈ g.liveIds, ∀ b ∈ g.liveIds, a ≠ b → g.layerOf a = g.layerOf b →
    ∀ symbol ∈ g.targetsOf a, symbol ∈ g.targetsOf b → g.kind? symbol ≠ some .exclusive

variable {g : Graph}

theorem layerAbove_spec (g : Graph) (edges : List Edge) :
    (∀ edge ∈ edges, g.layerOf edge.node < g.layerAbove edges) ∧
      (g.layerAbove edges = 0 ∨ ∃ edge ∈ edges, g.layerAbove edges = g.layerOf edge.node + 1) := by
  constructor
  · intro edge member
    have above : g.layerOf edge.node + 1 ∈ edges.map (g.layerOf ·.node + 1) := List.mem_map_of_mem member
    exact le_foldl_max above 0
  · apply (isGreatest_foldl_max 0 (edges.map (g.layerOf ·.node + 1))).1.imp_right
    intro member
    obtain ⟨edge, inside, same⟩ := List.mem_map.mp member
    exact ⟨edge, inside, same.symm⟩

theorem Ranks.lt_of_feeds {rank : NodeId → Nat} (ranks : g.Ranks rank) {a b : NodeId}
    (path : Relation.TransGen g.Feeds a b) : rank a < rank b := by
  induction path with
  | single edge =>
      obtain ⟨symbol, edge⟩ := edge
      exact ranks _ _ edge
  | tail _ edge ih =>
      obtain ⟨symbol, edge⟩ := edge
      exact Nat.lt_trans ih (ranks _ _ edge)

theorem Tiered.ranks (tiered : g.Tiered) (joined : g.Joined) : g.Ranks g.layerOf := by
  intro id edge member
  rw [tiered.level id (joined.reader_live member)]
  exact (g.layerAbove_spec (g.producers id)).1 edge member

theorem Tiered.not_exclusive (tiered : g.Tiered) (joined : g.Joined) {a b : NodeId} (apart : a ≠ b)
    (same : g.layerOf a = g.layerOf b) {symbol : Symbol} (first : symbol ∈ g.targetsOf a)
    (second : symbol ∈ g.targetsOf b) : g.kind? symbol ≠ some .exclusive := by
  intro kind
  have exclusive : g.isMagic symbol = false := by simp [isMagic, kind]
  have ranks := tiered.ranks joined
  rcases Nat.lt_or_gt_of_ne apart with below | above
  · have lower := ranks.lt_of_feeds (joined.feeds_of_exclusive below first second exclusive)
    omega
  · have lower := ranks.lt_of_feeds (joined.feeds_of_exclusive above second first exclusive)
    omega

theorem Tiered.getElem?_layers (tiered : g.Tiered) {i : Nat} {layer : Layer} (found : g.layers[i]? = some layer) :
    layer = g.group (g.liveIds.filter (g.layerOf · == i)) := by
  have here := tiered.grouping.groups i
  rw [found] at here
  exact here

theorem Tiered.mem_liveIds_of_mem (tiered : g.Tiered) {layer : Layer} (member : layer ∈ g.layers) {id : NodeId}
    (listed : id ∈ layer.nodes ∨ id ∈ layer.fed) : id ∈ g.liveIds := by
  obtain ⟨i, found⟩ := Array.getElem?_of_mem member
  rw [tiered.getElem?_layers found] at listed
  rcases listed with listed | listed
  · exact List.mem_of_mem_filter listed
  · exact List.mem_of_mem_filter (List.mem_of_mem_filter listed)

theorem Formed.wellFormed {level : Nat} (formed : g.Formed level) (tiered : g.Tiered) : g.WellFormed := by
  have joined := formed.joined
  obtain ⟨rank, ranks⟩ := formed.acyclic
  constructor
  case numbered => exact joined.numbered
  case distinct =>
    intro id node found
    rw [← targetsOf_of_node? found]
    exact joined.distinct id
  case mirrored => exact fun _ _ _ => joined.mirrored.symm
  case once => exact fun id => ⟨joined.nodup_producers id, joined.consumersNodup id⟩
  case alive => exact fun id edge member => ⟨joined.reader_live member, joined.producer_live member⟩
  case acyclic =>
    intro id path
    exact Nat.lt_irrefl _ (ranks.lt_of_feeds path)
  case level =>
    intro id alive
    rw [tiered.level id alive]
    exact g.layerAbove_spec (g.producers id)
  case increasing => exact pairwise_liveIds joined.numbered
  case covered => exact tiered.grouping.covered
  case groups =>
    intro i layer found
    rw [tiered.getElem?_layers found]
    exact ⟨rfl, rfl, rfl⟩
  case retired =>
    intro id out
    obtain ⟨consumers, producers⟩ := joined.retired out
    refine ⟨producers, consumers, fun layer member => ?_⟩
    rw [← not_or]
    intro listed
    rw [((mem_liveIds joined.numbered).mp (tiered.mem_liveIds_of_mem member listed)).2] at out
    cases out
  case exclusive => exact fun a _ b _ apart same symbol => tiered.not_exclusive joined apart same

/-- Every graph that a builder makes of plain names, after any calls that layer or bind it. -/
theorem wellFormed_of_rewritten {b : Builder} (reachable : b.Reachable) (plain : b.graph.Plain)
    (rewritten : Relation.ReflTransGen Rewrites b.graph g) : g.WellFormed := by
  obtain ⟨level, formed, tiered⟩ := formed_of_rewritten reachable plain rewritten
  exact formed.wellFormed tiered

/-- Bound, then bound in vain, then bound again to instances of an instance. -/
theorem wellFormed_of_rewritten_twice :
    ∃ (b : Builder) (g h : Graph) (first second : Chains), b.Reachable ∧ b.graph.Plain ∧
      b.graph.bindInstances 1 [⟨"T", 2⟩] = .ok (first, g) ∧
      g.bindInstances 1 [⟨"T", 2⟩] = .error ⟨.missingFactory "T#0", g⟩ ∧
      g.bindInstances 2 [⟨"T#0", 1⟩, ⟨"T#0", 1⟩] = .ok (second, h) ∧ second.retired = [6] ∧
      h.kind? "T#0#1" = some .magicState ∧ h.WellFormed := by
  have runs : pairOfGates.toOption.any fun b =>
      (b.graph.bindInstances 1 [⟨"T", 2⟩]).toOption.any fun one =>
        (one.2.bindInstances 2 [⟨"T#0", 1⟩, ⟨"T#0", 1⟩]).toOption.any fun two =>
          decide b.graph.Plain
            && one.2.undersupplied? (Pool.new [⟨"T", 2⟩]).produces == some "T#0"
            && two.1.retired == [6] && two.2.kind? "T#0#1" == some .magicState := by decide +kernel
  obtain ⟨b, built, runs⟩ := exists_ok_of_any runs
  obtain ⟨⟨first, g⟩, one, runs⟩ := exists_ok_of_any runs
  obtain ⟨⟨second, h⟩, two, runs⟩ := exists_ok_of_any runs
  simp only [Bool.and_eq_true, beq_iff_eq, decide_eq_true_eq] at runs
  obtain ⟨⟨⟨plain, missing⟩, retired⟩, kind⟩ := runs
  have reachable := reachable_pairOfGates built
  have unsupplied : g.bindInstances 1 [⟨"T", 2⟩] = .error ⟨.missingFactory "T#0", g⟩ := by
    apply bindInstances_of_schedule_error
    rw [schedule, missing]
  have rewritten : Relation.ReflTransGen Rewrites b.graph h :=
    ((Relation.ReflTransGen.refl.tail (.bound one)).tail (.bindingFailed unsupplied)).tail (.bound two)
  exact ⟨b, g, h, first, second, reachable, plain, one, unsupplied, two, retired, kind,
    wellFormed_of_rewritten reachable plain rewritten⟩

end Graph

end LatticeSurgery
