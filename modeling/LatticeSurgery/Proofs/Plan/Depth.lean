import Mathlib.Algebra.Order.BigOperators.Group.List
import Mathlib.Algebra.Order.Group.Nat
import LatticeSurgery.Graph.Estimate
import LatticeSurgery.Proofs.Graph.WellFormed
import LatticeSurgery.Proofs.Plan.Outcome
import LatticeSurgery.Proofs.Plan.Waiting

/-! # Depth and the length of a schedule

Without magic states a cycle of scheduling admits every operation whose producers were admitted before, as long as
there is room in the channel. So a schedule takes a cycle for each layer at least, and as many as the channel needs
for all joint operations, and it takes no more than one cycle for each layer if no layer overfills the channel. Where
one does, the estimate that charges a layer for each operation too many can lie above the length of the schedule:
the next cycle takes several of them, and operations of the next layer besides.
-/

namespace LatticeSurgery

/-! ## Layers from below -/

/-- Whoever draws from a factory is admitted in a cycle above the layer of the factory. -/
def FedAbove (g : Graph) (layers : List (List NodeId)) : Prop :=
  ∀ (i : Nat) layer, layers[i]? = some layer → ∀ id ∈ layer, ∀ edge ∈ g.producers id, g.isFactory edge.node →
    g.layerOf edge.node < i

/-- Nothing is admitted before the cycle that has the number of its layer. -/
theorem Layered.layerOf_le_of_fedAbove {g : Graph} {capacity : Nat} {layers : List (List NodeId)}
    (layered : Layered g capacity layers) (joined : g.Joined) (tiered : g.Tiered) (fed : FedAbove g layers)
    {i : Nat} {layer : List NodeId} (found : layers[i]? = some layer) {id : NodeId} (member : id ∈ layer)
    (alive : id ∈ g.liveIds) : g.layerOf id ≤ i := by
  induction i using Nat.strongRecOn generalizing layer id with
  | ind i ih =>
      rw [tiered.level id alive]
      rcases (g.layerAbove_spec (g.producers id)).2 with bottom | ⟨edge, reads, above⟩
      · omega
      · cases made : g.isFactory edge.node with
        | true =>
            have below := fed i layer found id member edge reads made
            omega
        | false =>
            obtain ⟨j, before, earlier, there, listed⟩ := layered.ordered i layer found id member edge reads made
            have below := ih j before there listed (joined.producer_live reads)
            omega

theorem fedAbove_of_unfed {g : Graph} (unfed : ∀ id, g.isFactory id = false) (layers : List (List NodeId)) :
    FedAbove g layers := by
  simp [FedAbove, unfed]

theorem Layered.layerOf_le {g : Graph} {capacity : Nat} {layers : List (List NodeId)}
    (layered : Layered g capacity layers) (joined : g.Joined) (tiered : g.Tiered) (unfed : ∀ id, g.isFactory id = false)
    {i : Nat} {layer : List NodeId} (found : layers[i]? = some layer) {id : NodeId} (member : id ∈ layer)
    (alive : id ∈ g.liveIds) : g.layerOf id ≤ i :=
  layered.layerOf_le_of_fedAbove joined tiered (fedAbove_of_unfed unfed layers) found member alive

/-- A factory lies in the lowest layer. -/
theorem Graph.Tiered.layerOf_of_isFactory {g : Graph} (tiered : g.Tiered) (wired : g.Wired) {node : Node}
    (live : node ∈ g.live) (factory : node.isFactory) : g.layerOf node.id = 0 := by
  obtain ⟨_, _, _, none⟩ := wired.of_isFactory (wired.mem_live.mp live) factory
  rw [tiered.level node.id (List.mem_map_of_mem live), Graph.producers_of_node? (wired.mem_live.mp live), none]
  rfl

/-- A schedule takes a cycle for each layer at least, if no factory stands idle. -/
theorem Plan.Safe.depth_le_of_fedAbove {g : Graph} {capacity : Nat} {plan : Plan} (safe : plan.Safe g capacity)
    (wired : g.Wired) (tiered : g.Tiered) (fed : FedAbove g plan.layers)
    (used : ∀ id, g.isFactory id → g.consumers id ≠ []) : g.depth ≤ plan.layers.length := by
  have below : ∀ node ∈ g.live, node.isFactory = false → g.layerOf node.id < plan.layers.length := by
    intro node live operation
    have listed : node.id ∈ plan.layers.flatten := by
      refine List.count_pos_iff.mp ?_
      rw [safe.complete node live operation]
      exact Nat.one_pos
    obtain ⟨layer, planned, member⟩ := List.mem_flatten.mp listed
    obtain ⟨i, found⟩ := List.getElem?_of_mem planned
    have low := safe.layerOf_le_of_fedAbove wired.joined tiered fed found member (List.mem_map_of_mem live)
    exact Nat.lt_of_le_of_lt low (List.getElem?_eq_some_iff.mp found).1
  by_contra short
  obtain ⟨id, alive, high⟩ := tiered.grouping.peaked plan.layers.length (by simpa [Graph.depth] using short)
  obtain ⟨node, live, rfl⟩ := List.mem_map.mp alive
  cases factory : node.isFactory with
  | false => exact Nat.not_lt_of_le high (below node live factory)
  | true =>
      -- somebody draws from it, so there is a cycle
      have made := Graph.isFactory_of_node? (wired.mem_live.mp live) ▸ factory
      obtain ⟨⟨symbol, reader⟩, consumes⟩ := List.exists_mem_of_ne_nil _ (used node.id made)
      have reads := wired.consumers.mp consumes
      obtain ⟨consumer, known⟩ := Graph.exists_node?_of_mem_producers reads
      have operation := wired.not_isFactory_of_mem_producers known (Graph.producers_of_node? known ▸ reads)
      have some := below consumer (wired.mem_live.mpr ((wired.id_eq known).symm ▸ known)) operation
      rw [tiered.layerOf_of_isFactory wired live factory] at high
      omega

namespace Plan.Safe

variable {g : Graph} {capacity : Nat} {plan : Plan} (safe : plan.Safe g capacity) (wired : g.Wired)
  (unfed : ∀ id, g.isFactory id = false)
include safe wired unfed

theorem perm_liveIds : plan.layers.flatten.Perm g.liveIds := by
  have listed : ∀ node ∈ g.live, plan.layers.flatten.count node.id = 1 := by
    intro node live
    refine safe.complete node live ?_
    rw [← Graph.isFactory_of_node? (wired.mem_live.mp live)]
    exact unfed node.id
  refine List.perm_iff_count.mpr fun id => ?_
  rw [(Graph.nodup_liveIds wired.joined.numbered).count]
  split
  next alive =>
      obtain ⟨node, live, rfl⟩ := List.mem_map.mp alive
      exact listed node live
  next gone =>
      refine List.count_eq_zero.mpr fun member => gone ?_
      obtain ⟨node, live, rfl, _⟩ := safe.operations id member
      exact List.mem_map_of_mem live

theorem depth_le (tiered : g.Tiered) : g.depth ≤ plan.layers.length :=
  safe.depth_le_of_fedAbove wired tiered (fedAbove_of_unfed unfed _) fun id factory => by
    rw [unfed id] at factory
    cases factory

theorem countP_nonLocal_le : g.live.countP (·.nonLocal) ≤ capacity * plan.layers.length := by
  have ids : g.live.countP (·.nonLocal) = g.liveIds.countP g.isNonLocal := by
    rw [Graph.liveIds, List.countP_map]
    refine List.countP_congr fun node live => ?_
    simp [Graph.isNonLocal, wired.mem_live.mp live]
  rw [ids, ← (safe.perm_liveIds wired unfed).countP_eq, List.countP_flatten, Nat.mul_comm]
  have total := List.sum_le_card_nsmul (plan.layers.map (List.countP g.isNonLocal)) capacity fun count member => by
    obtain ⟨layer, planned, rfl⟩ := List.mem_map.mp member
    exact safe.room layer planned
  simpa using total

end Plan.Safe

/-! ## Layers that fit into the channel -/

namespace Scheduling

variable {g : Graph} {capacity : Nat} {s : Scheduling} {t : Sweep} {factories : List Factory}

theorem Orderly.mem_liveIds (orderly : Orderly g capacity s) (wired : g.Wired) {id : NodeId}
    (candidate : id ∈ s.candidates) : id ∈ g.liveIds := by
  obtain ⟨node, found, _⟩ := orderly.operations id (.inr candidate)
  exact (Graph.mem_liveIds wired.joined.numbered).mpr ⟨Graph.lt_nextId found, wired.isRetired_eq_false id⟩

/-- All layers below the number of cycles so far are admitted. -/
def Leveled (g : Graph) (s : Scheduling) : Prop :=
  ∀ id ∈ g.liveIds, g.layerOf id < s.layers.size → id ∈ s.resolved

/-- The channel is wide enough for every layer, and no factory has a part in the graph. -/
structure Uncongested (g : Graph) (capacity : Nat) : Prop where
  wired : g.Wired
  tiered : g.Tiered
  unfed : ∀ id, g.isFactory id = false
  room : ∀ layer ∈ g.layers.toList, layer.congestion ≤ capacity

theorem Uncongested.countP_le (wide : Uncongested g capacity) {ids : List NodeId} {i : Nat} (distinct : ids.Nodup)
    (inside : ∀ id ∈ ids, id ∈ g.liveIds ∧ g.layerOf id = i) : ids.countP g.isNonLocal ≤ capacity := by
  have subset : ids ⊆ g.liveIds.filter (g.layerOf · == i) := fun id member =>
    List.mem_filter.mpr ⟨(inside id member).1, beq_iff_eq.mpr (inside id member).2⟩
  have fewer := (distinct.subperm subset).countP_le g.isNonLocal
  refine fewer.trans ?_
  have same := congrArg Layer.congestion (wide.tiered.grouping.groups i)
  rw [show (g.group (g.liveIds.filter (g.layerOf · == i))).congestion
    = (g.liveIds.filter (g.layerOf · == i)).countP g.isNonLocal from rfl] at same
  rw [← same]
  cases found : g.layers[i]? with
  | none => exact Nat.zero_le _
  | some layer => exact wide.room layer (Array.mem_toList_iff.mpr (Array.mem_of_getElem? found))

/-- What a cycle admits is of the layer that has its number. -/
theorem Leveled.level_of_admitted (leveled : Leveled g s) (wide : Uncongested g capacity)
    (orderly : Orderly g capacity s) (fair : Sweep.Fair g capacity s.opening t)
    (members : ∀ id ∈ t.admitted, id ∈ s.candidates) {id : NodeId} (admitted : id ∈ t.admitted) :
    id ∈ g.liveIds ∧ g.layerOf id = s.layers.size := by
  have wired := wide.wired
  have alive := orderly.mem_liveIds wired (members id admitted)
  have last : (s.next g t).layers.toList[s.layers.size]? = some t.admitted := by simp [Scheduling.next]
  have low := (orderly_next wired orderly fair members).layered.layerOf_le wired.joined wide.tiered wide.unfed last
    admitted alive
  have high : ¬g.layerOf id < s.layers.size := fun below =>
    orderly.pending id (members id admitted) (leveled id alive below)
  exact ⟨alive, by omega⟩

theorem Leveled.next (leveled : Leveled g s) (wide : Uncongested g capacity) (orderly : Orderly g capacity s)
    (fair : Sweep.Fair g capacity s.opening t) (members : ∀ id ∈ t.admitted, id ∈ s.candidates)
    (done : s.opening.turns g capacity (g.prioritise s.candidates) = .ok t) : Leveled g (s.next g t) := by
  have wired := wide.wired
  have resolved : ∀ id, id ∈ t.resolved ↔ id ∈ t.admitted ∨ id ∈ s.resolved := fun id => Sweep.mem_resolved fair
  intro id alive below
  rw [size_layers_next] at below
  rcases Nat.lt_or_eq_of_le (Nat.le_of_lt_succ below) with lower | level
  · exact (resolved id).mpr (.inr (leveled id alive lower))
  · by_contra out
    obtain ⟨node, live, rfl⟩ := List.mem_map.mp alive
    have found := wired.mem_live.mp live
    have operation : node.isFactory = false := Graph.isFactory_of_node? found ▸ wide.unfed node.id
    have ready : ∀ edge ∈ g.producers node.id, g.isFactory edge.node = false → edge.node ∈ s.resolved := by
      intro edge reads _
      have lower := wide.tiered.ranks wired.joined node.id edge reads
      exact leveled edge.node (wired.joined.producer_live reads) (level ▸ lower)
    have candidate := orderly.candidate_of_ready wired found operation ready fun early =>
      out ((resolved node.id).mpr (.inr early))
    have lacks := orderly.fair_opening.lacks_of_left_out (.refl _) wired orderly.closed done (mem_sortBy.mpr candidate)
      found ready out
    obtain ⟨far, full⟩ := lacks.resolve_right fun ⟨symbol, drawn, _⟩ => by
      obtain ⟨edge, reads, draws, _⟩ := Graph.mem_drawn.mp drawn
      rw [wired.joined.isDraw_eq (Graph.producers_of_node? found ▸ reads), wide.unfed] at draws
      cases draws
    have inside : ∀ other ∈ node.id :: t.admitted, other ∈ g.liveIds ∧ g.layerOf other = s.layers.size := by
      intro other member
      rcases List.mem_cons.mp member with rfl | admitted
      · exact ⟨alive, level⟩
      · exact leveled.level_of_admitted wide orderly fair members admitted
    have distinct : (node.id :: t.admitted).Nodup :=
      List.nodup_cons.mpr ⟨fun admitted => out ((resolved node.id).mpr (.inl admitted)), fair.nodup_admitted⟩
    have fits := wide.countP_le distinct inside
    have joint : g.isNonLocal node.id := by simp [Graph.isNonLocal, found, far]
    rw [List.countP_cons_of_pos joint, ← fair.count] at fits
    omega

theorem leveled_of_reaches (wide : Uncongested g capacity)
    (reached : Reaches (cycle g capacity) { candidates := g.entries, pool := Pool.new factories } s) :
    Leveled g s ∧ s.layers.size ≤ g.depth := by
  induction reached with
  | refl => exact ⟨fun _ _ below => absurd below (Nat.not_lt_zero _), Nat.zero_le _⟩
  | @tail before after reached next ih =>
      obtain ⟨leveled, within⟩ := ih
      obtain ⟨orderly, stocked⟩ := orderly_of_reaches wide.wired reached
      obtain ⟨t, done, fair, _, members⟩ := turns_eq_ok wide.wired orderly stocked
      obtain ⟨last, same, rfl⟩ := cycle_eq_again next
      obtain rfl := Except.ok.inj (done.symm.trans same)
      refine ⟨leveled.next wide orderly fair members done, ?_⟩
      rw [size_layers_next]
      -- a cycle begins only while some candidate is left, and its layer is not below the number of the cycle
      have more : before.candidates ≠ [] := by
        intro none
        rw [cycle, none] at next
        cases next
      obtain ⟨id, candidate⟩ := List.exists_mem_of_ne_nil _ more
      have alive := orderly.mem_liveIds wide.wired candidate
      have high : ¬g.layerOf id < before.layers.size := fun below =>
        orderly.pending id candidate (leveled id alive below)
      have covered : g.layerOf id < g.depth := wide.tiered.grouping.covered id alive
      omega

end Scheduling

theorem Graph.depthParallel_of_room {g : Graph} {capacity : Nat}
    (room : ∀ layer ∈ g.layers.toList, layer.congestion ≤ capacity) : g.depthParallel capacity = g.depth := by
  have ones : g.layers.toList.map (fun layer => max (1 + layer.congestion - capacity) 1)
      = g.layers.toList.map fun _ => 1 := by
    refine List.map_congr_left fun layer member => ?_
    have fits := room layer member
    omega
  rw [depthParallel, ones, ← List.sum_eq_foldr]
  simp [depth]

/-- Every source was added for a draw. -/
theorem Builder.Reachable.consumers_ne_nil {b : Builder} (reachable : b.Reachable) (id : NodeId)
    (factory : b.graph.isFactory id) : b.graph.consumers id ≠ [] := by
  obtain ⟨node, found, makes⟩ := (Option.any_eq_true _ _).mp factory
  obtain ⟨symbol, source, _⟩ := reachable.sound.wired.of_isFactory found makes
  exact reachable.drawn source

/-- A graph that draws nothing has no factories. -/
theorem Builder.Reachable.unfed {b : Builder} (reachable : b.Reachable)
    (undrawn : ∀ node ∈ b.graph.live, b.graph.drawn node = []) (id : NodeId) : b.graph.isFactory id = false := by
  have wired := reachable.sound.wired
  refine Bool.eq_false_iff.mpr fun factory => ?_
  obtain ⟨⟨state, reader⟩, consumes⟩ := List.exists_mem_of_ne_nil _ (reachable.consumers_ne_nil id factory)
  have reads := wired.consumers.mp consumes
  obtain ⟨consumer, known⟩ := Graph.exists_node?_of_mem_producers reads
  have draws : b.graph.isDraw ⟨state, id⟩ := (wired.joined.isDraw_eq reads).trans factory
  have drawn : state ∈ b.graph.drawn consumer :=
    Graph.mem_drawn.mpr ⟨⟨state, id⟩, Graph.producers_of_node? known ▸ reads, draws, rfl⟩
  rw [undrawn consumer (wired.mem_live.mpr ((wired.id_eq known).symm ▸ known))] at drawn
  cases drawn

/-- How long the schedule of a graph without magic states is: no shorter than the graph is deep or than the channel
    needs for the joint operations, and exactly as long as estimated if the channel is wide enough for every layer. -/
theorem cycles_of_undrawn {b : Builder} (reachable : b.Reachable)
    (undrawn : ∀ node ∈ b.graph.live, b.graph.drawn node = []) {capacity : Nat} (wide : 1 ≤ capacity)
    (factories : List Factory) :
    ∃ plan, b.graph.schedule capacity factories = .ok plan ∧ b.graph.depth ≤ plan.cycles ∧
      b.graph.live.countP (·.nonLocal) ≤ capacity * plan.cycles ∧
      ((∀ layer ∈ b.graph.layers.toList, layer.congestion ≤ capacity) →
        b.graph.depthParallel capacity = plan.cycles) := by
  have wired := reachable.sound.wired
  have tiered := reachable.tiered
  have unfed := reachable.unfed undrawn
  have supplied : b.graph.Supplied factories := by
    intro node live symbol drawn
    rw [undrawn node live] at drawn
    cases drawn
  obtain ⟨plan, scheduled, _⟩ := (Scheduling.schedule_of_supplied wired capacity supplied).resolve_right (by
    rintro ⟨_, _, _, narrow⟩
    exact narrow fun _ _ _ => wide)
  obtain ⟨s, reached, none, rfl⟩ := Scheduling.reaches_of_schedule scheduled
  have orderly := (Scheduling.orderly_of_reaches wired reached).1
  have safe : Plan.Safe b.graph capacity { cycles := s.layers.size, layers := s.layers.toList, draws := s.draws } :=
    Scheduling.safe_of_orderly orderly wired none rfl
  have deep := safe.depth_le wired unfed tiered
  refine ⟨_, scheduled, deep, safe.countP_nonLocal_le wired unfed, fun room => ?_⟩
  have short := (Scheduling.leveled_of_reaches ⟨wired, tiered, unfed, room⟩ reached).2
  rw [Graph.depthParallel_of_room room]
  exact Nat.le_antisymm deep short

/-- Four joint preparations that have nothing to do with each other. -/
def fourPairs : Except Error Builder :=
  (Builder.new "pairs").addGates
    [(.init, ["a", "b"]), (.init, ["c", "d"]), (.init, ["e", "f"]), (.init, ["g", "h"])]

/-- A channel for four takes all of them in one cycle, as estimated. -/
theorem cycles_of_undrawn_wide :
    ∃ (b : Builder) (plan : Plan), b.Reachable ∧ (∀ node ∈ b.graph.live, b.graph.drawn node = []) ∧
      (∀ layer ∈ b.graph.layers.toList, layer.congestion ≤ 4) ∧ b.graph.live.countP (·.nonLocal) = 4 ∧
      b.graph.schedule 4 [] = .ok plan ∧ b.graph.depthParallel 4 = plan.cycles ∧ plan.cycles = 1 := by
  have runs : fourPairs.toOption.any fun b =>
      b.graph.live.all (fun node => b.graph.drawn node == []) && b.graph.live.countP (·.nonLocal) == 4
        && b.graph.layers.toList.all (fun layer => layer.congestion ≤ 4) && b.graph.depthParallel 4 == 1 := by
    decide +kernel
  obtain ⟨b, built, runs⟩ := exists_ok_of_any runs
  simp only [Bool.and_eq_true, List.all_eq_true, beq_iff_eq, decide_eq_true_eq] at runs
  obtain ⟨⟨⟨undrawn, joint⟩, room⟩, estimate⟩ := runs
  have reachable := (Builder.Reachable.new "pairs").addGates built
  obtain ⟨plan, scheduled, _, _, estimated⟩ := cycles_of_undrawn reachable undrawn (Nat.le_add_left 1 3) []
  have same := estimated room
  exact ⟨b, plan, reachable, undrawn, room, joint, scheduled, same, same.symm.trans estimate⟩

/-- A channel for two takes two of them in each of two cycles, and the estimate is three. -/
theorem depthParallel_exceeds_cycles :
    ∃ (b : Builder) (plan : Plan), b.Reachable ∧ (∀ node ∈ b.graph.live, b.graph.drawn node = []) ∧
      b.graph.schedule 2 [] = .ok plan ∧ plan.cycles = 2 ∧ b.graph.depthParallel 2 = 3 := by
  have runs : fourPairs.toOption.any fun b => (b.graph.schedule 2 []).toOption.any fun plan =>
      b.graph.live.all (fun node => b.graph.drawn node == []) && plan.cycles == 2 && b.graph.depthParallel 2 == 3 := by
    decide +kernel
  obtain ⟨b, built, runs⟩ := exists_ok_of_any runs
  obtain ⟨plan, scheduled, runs⟩ := exists_ok_of_any runs
  simp only [Bool.and_eq_true, List.all_eq_true, beq_iff_eq] at runs
  obtain ⟨⟨undrawn, cycles⟩, estimate⟩ := runs
  exact ⟨b, plan, (Builder.Reachable.new "pairs").addGates built, undrawn, scheduled, cycles, estimate⟩

end LatticeSurgery
