import LatticeSurgery.Proofs.Plan.Depth
import LatticeSurgery.Proofs.Plan.Rationing

/-! # Cycles and layers

A plan cannot admit an operation before the cycle that has the number of its layer: its producers lie below, and a
factory of the lowest layer needs a cycle before it has anything to give. Where nobody draws a magic state and the
channel holds every layer, the plan waits for nothing else either. Each cycle then admits its layer, by priority.
-/

namespace LatticeSurgery

/-! ## No earlier than the layer -/

namespace Plan

variable {g : Graph} {capacity : Nat} {factories : List Factory} {plan : Plan} {id : NodeId}

/-- An instance has its period before it hands anything out. -/
theorem Paced.period_le (paced : plan.Paced g factories) {delivery : Delivery} (made : delivery ∈ plan.deliveries) :
    delivery.unit.period ≤ delivery.cycle := by
  obtain ⟨before, after, split⟩ := List.append_of_mem made
  exact Nat.le_of_add_left_le (paced.lowest before delivery after split).1

theorem mem_deliveries {cycle : Nat} (admits : plan.Admits id cycle) {unit : Draw}
    (drawn : unit ∈ plan.draws.getD id []) : ⟨cycle, unit⟩ ∈ plan.deliveries := by
  obtain ⟨layer, found, member⟩ := admits
  refine List.mem_flatMap.mpr ⟨(layer, cycle), List.mem_zipIdx_iff_getElem?.mpr found, ?_⟩
  exact List.mem_flatMap.mpr ⟨id, member, List.mem_map_of_mem drawn⟩

/-- The period of an instance is that of a factory on the list. -/
theorem exists_factory_of_isInstance {unit : Draw} (made : unit.IsInstance factories) :
    ∃ factory ∈ factories, factory.symbol = unit.symbol ∧ factory.period = unit.period := by
  have listed := mem_sortBy.mp (List.mem_of_getElem? made)
  obtain ⟨factory, member, period⟩ := List.mem_map.mp listed
  obtain ⟨member, symbol⟩ := List.mem_filter.mp member
  exact ⟨factory, member, of_decide_eq_true symbol, period⟩

/-- Factories are in the lowest layer and have nothing to give in the first cycle. -/
theorem Paced.fedAbove (paced : plan.Paced g factories) (wired : g.Wired) (tiered : g.Tiered)
    (periods : ∀ factory ∈ factories, 1 ≤ factory.period) : FedAbove g plan.layers := by
  intro i layer found id member edge reads factory
  obtain ⟨node, known⟩ := Graph.exists_node?_of_mem_producers reads
  have drawn : edge.symbol ∈ g.drawn node :=
    Graph.mem_drawn.mpr ⟨edge, Graph.producers_of_node? known ▸ reads, (wired.joined.isDraw_eq reads).trans factory, rfl⟩
  rw [← paced.symbols known] at drawn
  obtain ⟨unit, gets, _⟩ := List.mem_map.mp drawn
  obtain ⟨maker, listed, _, period⟩ := exists_factory_of_isInstance (paced.instances unit gets)
  have waits : unit.period ≤ i := paced.period_le (mem_deliveries ⟨layer, found, member⟩ gets)
  have least := periods maker listed
  obtain ⟨source, there, makes⟩ := (Option.any_eq_true _ _).mp factory
  have named := wired.id_eq there
  have bottom := tiered.layerOf_of_isFactory wired (wired.mem_live.mpr (named.symm ▸ there)) makes
  rw [named] at bottom
  omega

end Plan

/-- No operation is admitted in a cycle below its layer, and so no plan has fewer cycles than the graph has layers. -/
theorem layer_le_cycle_of_schedule {b : Builder} {capacity : Nat} {factories : List Factory} {plan : Plan}
    (reachable : b.Reachable) (periods : ∀ factory ∈ factories, 1 ≤ factory.period)
    (h : b.graph.schedule capacity factories = .ok plan) :
    (∀ node ∈ b.graph.live, node.isFactory = false →
      (∃ cycle, plan.Admits node.id cycle) ∧ ∀ cycle, plan.Admits node.id cycle → node.layer ≤ cycle) ∧
    b.graph.depth ≤ plan.cycles := by
  have wired := reachable.sound.wired
  have safe := Plan.Safe.of_schedule wired h
  have fed := (Plan.Paced.of_schedule wired h).fedAbove wired reachable.tiered periods
  have cycles : plan.cycles = plan.layers.length := by
    obtain ⟨s, _, _, rfl⟩ := Scheduling.reaches_of_schedule h
    exact Array.length_toList.symm
  refine ⟨fun node live operation => ⟨?_, ?_⟩, ?_⟩
  · refine Plan.exists_admits.mpr (List.count_pos_iff.mp ?_)
    rw [Plan.order, safe.complete node live operation]
    exact Nat.one_pos
  · rintro cycle ⟨layer, found, member⟩
    have low := safe.layerOf_le_of_fedAbove wired.joined reachable.tiered fed found member (List.mem_map_of_mem live)
    rwa [Graph.layerOf, wired.mem_live.mp live] at low
  · rw [cycles]
    exact safe.depth_le_of_fedAbove wired reachable.tiered fed reachable.consumers_ne_nil

/-- Two factories that need one cycle each let both gates start in the layer where they are. -/
theorem layer_le_cycle_of_schedule_pair :
    ∃ (b : Builder) (plan : Plan), b.Reachable ∧ b.graph.schedule 2 [⟨"T", 1⟩, ⟨"T", 1⟩] = .ok plan ∧
      plan.layers = [[0, 1], [3, 4], [5]] ∧ b.graph.layers.toList.map (·.nodes) = [[0, 1, 2], [3, 4], [5]] ∧
      (∀ node ∈ b.graph.live, node.isFactory = false →
        (∃ cycle, plan.Admits node.id cycle) ∧ ∀ cycle, plan.Admits node.id cycle → node.layer ≤ cycle) ∧
      b.graph.depth ≤ plan.cycles := by
  have runs : pairOfGates.toOption.any fun b => (b.graph.schedule 2 [⟨"T", 1⟩, ⟨"T", 1⟩]).toOption.any fun plan =>
      plan.layers == [[0, 1], [3, 4], [5]] && b.graph.layers.toList.map (·.nodes) == [[0, 1, 2], [3, 4], [5]] := by
    decide +kernel
  obtain ⟨b, built, runs⟩ := exists_ok_of_any runs
  obtain ⟨plan, scheduled, runs⟩ := exists_ok_of_any runs
  simp only [Bool.and_eq_true, beq_iff_eq] at runs
  have reachable := reachable_pairOfGates built
  exact ⟨b, plan, reachable, scheduled, runs.1, runs.2, layer_le_cycle_of_schedule reachable (by simp) scheduled⟩

/-! ## A cycle for each layer -/

namespace Sweep

variable {g : Graph} {capacity : Nat} {s t : Sweep} {queue : List NodeId}

/-- The turns of a cycle admit in the order of the queue. -/
theorem sublist_turns (numbered : g.Numbered) (h : s.turns g capacity queue = .ok t) :
    ∃ added, added.Sublist queue ∧ t.admitted = s.admitted ++ added := by
  induction queue generalizing s with
  | nil =>
      cases h
      exact ⟨[], .slnil, (List.append_nil _).symm⟩
  | cons id queue ih =>
      obtain ⟨next, first, h⟩ := bind_eq_ok.mp h
      obtain ⟨added, inside, last⟩ := ih h
      obtain rfl | ⟨node, found, _, accepts⟩ := turn_eq_ok first
      · exact ⟨added, inside.cons id, last⟩
      · refine ⟨id :: added, inside.cons_cons id, ?_⟩
        rw [last, accepts.admitted, numbered id node found, List.append_assoc, List.singleton_append]

end Sweep

/-- The nodes of a layer, by priority. -/
def Graph.tier (g : Graph) (i : Nat) : List NodeId := g.prioritise (g.liveIds.filter (g.layerOf · == i))

namespace Scheduling

variable {g : Graph} {capacity : Nat} {s : Scheduling} {t : Sweep} {factories : List Factory}

/-- A cycle that finds all lower layers admitted admits the next one. -/
theorem Leveled.admitted_eq (leveled : Leveled g s) (wide : Uncongested g capacity) (orderly : Orderly g capacity s)
    (fair : Sweep.Fair g capacity s.opening t) (members : ∀ id ∈ t.admitted, id ∈ s.candidates)
    (done : s.opening.turns g capacity (g.prioritise s.candidates) = .ok t) : t.admitted = g.tier s.layers.size := by
  have wired := wide.wired
  have sorted : t.admitted.Pairwise fun a b => g.takesTurn a b := by
    obtain ⟨added, inside, same⟩ := Sweep.sublist_turns wired.joined.numbered done
    obtain rfl : t.admitted = added := same
    exact (g.pairwise_prioritise s.candidates).sublist inside
  refine (g.prioritise_eq_of_perm ?_ sorted).symm
  have distinct := (Graph.nodup_liveIds wired.joined.numbered).filter (g.layerOf · == s.layers.size)
  refine (List.perm_ext_iff_of_nodup fair.nodup_admitted distinct).mpr fun id => ?_
  rw [List.mem_filter, beq_iff_eq]
  refine ⟨leveled.level_of_admitted wide orderly fair members, fun ⟨alive, level⟩ => ?_⟩
  have below : g.layerOf id < (s.next g t).layers.size := by
    rw [level, size_layers_next]
    exact Nat.lt_succ_self _
  refine ((Sweep.mem_resolved fair).mp (leveled.next wide orderly fair members done id alive below)).resolve_right ?_
  -- whoever was admitted before is of a lower layer
  intro early
  obtain ⟨cycle, before, layer, found, member⟩ := orderly.mem_resolved.mp early
  have low := orderly.layered.layerOf_le wired.joined wide.tiered wide.unfed found member alive
  omega

theorem layers_of_reaches (wide : Uncongested g capacity)
    (reached : Reaches (cycle g capacity) { candidates := g.entries, pool := Pool.new factories } s) :
    s.layers.toList = (List.range s.layers.size).map g.tier := by
  induction reached with
  | refl => rfl
  | @tail before after reached next ih =>
      obtain ⟨orderly, stocked⟩ := orderly_of_reaches wide.wired reached
      obtain ⟨t, done, fair, _, members⟩ := turns_eq_ok wide.wired orderly stocked
      obtain ⟨last, same, rfl⟩ := cycle_eq_again next
      obtain rfl := Except.ok.inj (done.symm.trans same)
      have admitted := (leveled_of_reaches wide reached).1.admitted_eq wide orderly fair members done
      have layers : (before.next g t).layers.toList = before.layers.toList ++ [t.admitted] := Array.toList_push
      rw [layers, ih, admitted, size_layers_next, List.range_succ, List.map_append, List.map_singleton]

end Scheduling

/-- A channel that holds every layer has room for a joint operation. -/
theorem Scheduling.Uncongested.room_of_nonLocal {g : Graph} {capacity : Nat} (wide : Uncongested g capacity)
    {node : Node} (live : node ∈ g.live) (far : node.nonLocal) : 0 < capacity := by
  have joint : g.isNonLocal node.id := by simp [Graph.isNonLocal, wide.wired.mem_live.mp live, far]
  have fits := wide.countP_le (List.nodup_singleton node.id) (i := g.layerOf node.id) fun id member => by
    rw [List.mem_singleton.mp member]
    exact ⟨List.mem_map_of_mem live, rfl⟩
  rwa [List.countP_singleton, if_pos joint] at fits

/-- Without magic states, and with a channel that holds every layer, the cycles of the schedule are the layers of the
    graph, each by priority. -/
theorem schedule_eq_layers {b : Builder} (reachable : b.Reachable)
    (undrawn : ∀ node ∈ b.graph.live, b.graph.drawn node = []) {capacity : Nat}
    (room : ∀ layer ∈ b.graph.layers.toList, layer.congestion ≤ capacity) (factories : List Factory) :
    ∃ plan, b.graph.schedule capacity factories = .ok plan ∧ plan.cycles = b.graph.depth ∧
      plan.layers.length = b.graph.depth ∧
      ∀ (i : Nat) layer, b.graph.layers[i]? = some layer → ∃ admitted : List NodeId, plan.layers[i]? = some admitted ∧
        admitted.Perm layer.nodes ∧ admitted.Pairwise fun one other => b.graph.takesTurn one other := by
  have wide : Scheduling.Uncongested b.graph capacity :=
    ⟨reachable.sound.wired, reachable.tiered, reachable.unfed undrawn, room⟩
  have supplied : b.graph.Supplied factories := by
    intro node live symbol drawn
    rw [undrawn node live] at drawn
    cases drawn
  obtain ⟨plan, scheduled, _⟩ := (Scheduling.schedule_of_supplied wide.wired capacity supplied).resolve_right (by
    rintro ⟨_, _, _, narrow⟩
    exact narrow fun _ live far => wide.room_of_nonLocal live far)
  obtain ⟨s, reached, none, rfl⟩ := Scheduling.reaches_of_schedule scheduled
  have safe := Plan.Safe.of_schedule wide.wired scheduled
  have deep : s.layers.size = b.graph.depth :=
    Nat.le_antisymm (Scheduling.leveled_of_reaches wide reached).2 (safe.depth_le wide.wired wide.unfed wide.tiered)
  refine ⟨_, scheduled, deep, deep, fun i layer found => ⟨b.graph.tier i, ?_, ?_, b.graph.pairwise_prioritise _⟩⟩
  · have inside : i < s.layers.size := deep ▸ (Array.getElem?_eq_some_iff.mp found).1
    simp [Scheduling.layers_of_reaches wide reached, inside]
  · rw [wide.tiered.getElem?_layers found]
    exact sortBy_perm _ _

/-- Of two operations in one layer the younger comes first, for a third one waits for it. -/
theorem schedule_eq_layers_urgent :
    ∃ (b : Builder) (plan : Plan), b.Reachable ∧ (∀ node ∈ b.graph.live, b.graph.drawn node = []) ∧
      (∀ layer ∈ b.graph.layers.toList, layer.congestion ≤ 1) ∧ b.graph.schedule 1 [] = .ok plan ∧
      b.graph.layers.toList.map (·.nodes) = [[0, 1, 2], [3, 4], [5]] ∧ plan.layers = [[0, 1, 2], [4, 3], [5]] ∧
      plan.cycles = b.graph.depth := by
  have runs : (((Builder.new "urgent").declareAll ["a", "b", "c"]).addGates
      [(.hadamard, ["a"]), (.cnot, ["b", "c"]), (.hadamard, ["b"])]).toOption.any fun b =>
      b.graph.live.all (fun node => b.graph.drawn node == [])
        && b.graph.layers.toList.all (fun layer => layer.congestion ≤ 1)
        && b.graph.layers.toList.map (·.nodes) == [[0, 1, 2], [3, 4], [5]]
        && (b.graph.schedule 1 []).toOption.all (·.layers == [[0, 1, 2], [4, 3], [5]]) := by decide +kernel
  obtain ⟨b, built, runs⟩ := exists_ok_of_any runs
  simp only [Bool.and_eq_true, List.all_eq_true, beq_iff_eq, decide_eq_true_eq] at runs
  obtain ⟨⟨⟨undrawn, room⟩, nodes⟩, layers⟩ := runs
  have reachable := (Builder.Reachable.declareAll ["a", "b", "c"] (.new "urgent")).addGates built
  obtain ⟨plan, scheduled, cycles, _⟩ := schedule_eq_layers reachable undrawn room []
  rw [scheduled, Except.toOption, Option.all_some, beq_iff_eq] at layers
  exact ⟨b, plan, reachable, undrawn, room, scheduled, nodes, layers, cycles⟩

end LatticeSurgery
