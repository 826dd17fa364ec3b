import LatticeSurgery.Proofs.Chains.Rebinding

/-! # Layering again changes nothing

A builder gives a node its layer when it is added, from the layers of its producers, and tells these how far above them
it lies. Layering a whole graph does the same in another order. In a graph that is tiered and whose nodes are informed of
their consumers it finds everything as it is, whatever calls the graph has been through.
-/

namespace LatticeSurgery

/-! ## Urgencies that are settled -/

namespace Urgency

/-- Whether a consumer that is `gap` layers away adds nothing. -/
def Absorbs (u : Urgency) (gap : Nat) : Prop := u.raise gap = u

theorem absorbs_raise (u : Urgency) (gap : Nat) : (u.raise gap).Absorbs gap := by
  cases u <;> simp [Absorbs, raise]

theorem Absorbs.raise {u : Urgency} {gap : Nat} (absorbs : u.Absorbs gap) (other : Nat) :
    (u.raise other).Absorbs gap := by
  cases u with
  | idle => cases absorbs
  | within nearest =>
      have bounded : min nearest gap = nearest := by simpa [Absorbs, Urgency.raise] using absorbs
      simp only [Absorbs, Urgency.raise, within.injEq]
      omega

end Urgency

/-- A node that is told of a consumer in the given layer. -/
def Node.raised (level : Nat) (node : Node) : Node :=
  { node with urgency := node.urgency.raise (max (level - node.layer) 1) }

namespace Graph

variable {g h : Graph} {id n : NodeId} {edge : Edge}

/-- How far a node lies above a producer. -/
def rise (g : Graph) (id producer : NodeId) : Nat := max (g.layerOf id - g.layerOf producer) 1

/-- Every node has been told how far above it its consumers lie. -/
def Informed (g : Graph) : Prop :=
  ∀ id, ∀ edge ∈ g.producers id, (g.urgencyOf edge.node).Absorbs (g.rise id edge.node)

theorem modify_eq_self {f : Node → Node} (fixed : ∀ node, g.node? id = some node → f node = node) :
    g.modify id f = g := by
  have same : g.nodes.modify id f = g.nodes := by
    apply Array.ext_getElem?
    intro n
    rw [Array.getElem?_modify]
    split
    next here =>
        subst here
        cases found : g.nodes[id]? with
        | none => rfl
        | some node => exact congrArg some (fixed node found)
    · rfl
  rw [modify, same]

theorem urgencyOf_raised (g : Graph) (level : Nat) (id n : NodeId) :
    (g.modify id (Node.raised level)).urgencyOf n
      = if n = id ∧ n < g.nextId then (g.urgencyOf n).raise (max (level - g.layerOf n) 1) else g.urgencyOf n := by
  simp only [urgencyOf, layerOf, node?_modify]
  by_cases here : n = id
  · subst here
    cases found : g.node? n with
    | none =>
        have outside : ¬ n < g.nextId := fun inside => by
          obtain ⟨node, there⟩ := lt_nextId_iff.mp inside
          rw [found] at there
          cases there
        simp [outside]
    | some node => simp [lt_nextId found, Node.raised]
  · simp [here]

theorem urgencyOf_modify {f : Node → Node} (keeps : ∀ node, (f node).urgency = node.urgency) (g : Graph)
    (id n : NodeId) : (g.modify id f).urgencyOf n = g.urgencyOf n := by
  simp only [urgencyOf, node?_modify]
  split
  · cases g.node? n <;> simp [keeps]
  · rfl

theorem urgencyOf_link (g : Graph) (id n : NodeId) (edges : List Edge) :
    (g.link id edges).urgencyOf n = g.urgencyOf n := by
  apply foldl_keeps (·.urgencyOf n)
  intro acc edge
  apply urgencyOf_modify
  exact fun _ => rfl

/-! ## Telling the producers of a node -/

theorem raiseProducers_eq (g : Graph) (id : NodeId) : g.raiseProducers id
    = (g.producers id).foldl (fun acc edge => acc.modify edge.node (Node.raised (g.layerOf id))) g := rfl

/-- What a node has been told already it still knows afterwards. -/
theorem absorbs_foldl {level gap : Nat} (edges : List Edge) (absorbs : (g.urgencyOf n).Absorbs gap) :
    ((edges.foldl (fun acc edge => acc.modify edge.node (Node.raised level)) g).urgencyOf n).Absorbs gap := by
  refine List.foldlRecOn (motive := fun acc : Graph => (acc.urgencyOf n).Absorbs gap) edges _ absorbs ?_
  intro acc absorbs edge _
  rw [urgencyOf_raised]
  split
  · exact absorbs.raise _
  · exact absorbs

theorem absorbs_foldl_of_mem {level : Nat} {edges : List Edge} (member : edge ∈ edges) (inside : edge.node < g.nextId) :
    ((edges.foldl (fun acc edge => acc.modify edge.node (Node.raised level)) g).urgencyOf edge.node).Absorbs
      (max (level - g.layerOf edge.node) 1) := by
  induction edges generalizing g with
  | nil => cases member
  | cons first edges ih =>
      rw [List.foldl_cons]
      rcases List.mem_cons.mp member with rfl | member
      · apply absorbs_foldl
        rw [urgencyOf_raised, if_pos ⟨rfl, inside⟩]
        exact Urgency.absorbs_raise _ _
      · have later := ih (g := g.modify first.node (Node.raised level)) member (by simpa using inside)
        rw [layerOf_modify (by intro node; rfl)] at later
        exact later

theorem absorbs_raiseProducers {gap : Nat} (absorbs : (g.urgencyOf n).Absorbs gap) (id : NodeId) :
    ((g.raiseProducers id).urgencyOf n).Absorbs gap :=
  absorbs_foldl (g.producers id) absorbs

theorem absorbs_raiseProducers_of_mem (member : edge ∈ g.producers id) (inside : edge.node < g.nextId) :
    ((g.raiseProducers id).urgencyOf edge.node).Absorbs (g.rise id edge.node) :=
  absorbs_foldl_of_mem member inside

theorem foldl_eq_self {α : Type} {step : Graph → α → Graph} {as : List α} (fixed : ∀ a ∈ as, step g a = g) :
    as.foldl step g = g := by
  induction as with
  | nil => rfl
  | cons a as ih =>
      obtain ⟨first, others⟩ := List.forall_mem_cons.mp fixed
      rw [List.foldl_cons, first]
      exact ih others

theorem Informed.raiseProducers_eq_self (informed : g.Informed) (id : NodeId) : g.raiseProducers id = g := by
  rw [raiseProducers_eq]
  apply foldl_eq_self
  intro edge member
  apply modify_eq_self
  intro node found
  have absorbs : node.urgency.raise (max (g.layerOf id - node.layer) 1) = node.urgency := by
    simpa [Urgency.Absorbs, rise, urgencyOf, layerOf, found] using informed id edge member
  rw [Node.raised, absorbs]

/-! ## Layering -/

/-- Telling several nodes' producers leaves all of them informed. -/
theorem absorbs_of_mem {ids : List NodeId} (listed : id ∈ ids) (member : edge ∈ g.producers id)
    (inside : edge.node < g.nextId) :
    ((ids.foldl raiseProducers g).urgencyOf edge.node).Absorbs (g.rise id edge.node) := by
  induction ids generalizing g with
  | nil => cases listed
  | cons first ids ih =>
      have alike := alike_raiseProducers g first
      rw [List.foldl_cons]
      rcases List.mem_cons.mp listed with rfl | listed
      · have told := absorbs_raiseProducers_of_mem member inside
        refine List.foldlRecOn (motive := fun acc : Graph => (acc.urgencyOf edge.node).Absorbs _) ids _ told ?_
        exact fun acc absorbs other _ => absorbs_raiseProducers absorbs other
      · have later := ih (g := g.raiseProducers first) listed (by rwa [alike.producers]) (by rwa [alike.size])
        simpa only [rise, layerOf_raiseProducers] using later

theorem informed_regroup {ids : List NodeId} (all : ∀ id, ∀ edge ∈ g.producers id, id ∈ ids ∧ edge.node < g.nextId) :
    (g.regroup ids).Informed := by
  have alike := alike_regroup g ids
  have layer : ∀ id, (g.regroup ids).layerOf id = g.layerOf id :=
    fun id => foldl_keeps (·.layerOf id) (fun g n => layerOf_raiseProducers g n id) _ g
  intro id edge member
  rw [alike.producers] at member
  obtain ⟨listed, inside⟩ := all id edge member
  rw [rise, layer, layer]
  exact absorbs_of_mem ((mem_sortBy ..).mpr listed) member inside

theorem Joined.informed_of_relayer (joined : g.Joined) {rank : NodeId → Nat} (ranks : g.Ranks rank)
    (done : g.relayer = .ok h) : h.Informed := by
  obtain ⟨s, settled, -, sorted, all⟩ := joined.relayer_eq_ok ranks
  obtain rfl := Except.ok.inj (settled.symm.trans done)
  have alike := sorted.counts.alike
  apply informed_regroup
  intro id edge member
  rw [alike.producers] at member
  rw [alike.size]
  exact ⟨all.mem_iff.mpr (joined.reader_live member), ((mem_liveIds joined.numbered).mp (joined.producer_live member)).1⟩

/-- The nodes and their layers determine the groups. -/
theorem Grouping.unique {layers layers' : Array Layer} {ids : List NodeId} (first : g.Grouping layers ids)
    (second : g.Grouping layers' ids) : layers = layers' := by
  have le : ∀ {one two : Array Layer}, g.Grouping one ids → g.Grouping two ids → one.size ≤ two.size := by
    intro one two peaks covers
    by_contra more
    obtain ⟨id, member, above⟩ := peaks.peaked two.size (Nat.lt_of_not_le more)
    exact absurd (covers.covered id member) (Nat.not_lt.mpr above)
  have size := Nat.le_antisymm (le first second) (le second first)
  apply Array.ext size
  intro i inside inside'
  have same := (first.groups i).trans (second.groups i).symm
  simpa [inside, inside'] using same

theorem Tiered.lift_eq_self (tiered : g.Tiered) (alive : id ∈ g.liveIds) : g.lift id = g := by
  apply modify_eq_self
  intro node found
  have level := tiered.level id alive
  rw [producers_of_node? found, layerOf, found] at level
  rw [← level]
  rfl

theorem Joined.graph_of_reaches (joined : g.Joined) (tiered : g.Tiered) {s : Settling}
    (reach : Reaches Settling.step g.unsettled s) : s.graph = g := by
  refine (reach.invariant (P := fun s => Settling.Sorted g s ∧ s.graph = g) ?_ ?_).2
  · rintro s t ⟨sorted, same⟩ next
    refine ⟨(Settling.sorted_step joined sorted next).1, ?_⟩
    unfold Settling.step at next
    split at next
    · cases next
    next id queue first =>
        cases next
        have alive := ((sorted.counts.ready id).mp (by simp [first])).1
        rw [Settling.settle_eq, Settling.graph_foldl_satisfy]
        dsimp only
        rw [same, tiered.lift_eq_self alive]
  · exact ⟨Settling.sorted_unsettled joined, rfl⟩

/-- A graph that is layered and informed is left as it is. -/
theorem Joined.relayer_eq_self (joined : g.Joined) {rank : NodeId → Nat} (ranks : g.Ranks rank) (tiered : g.Tiered)
    (informed : g.Informed) : g.relayer = .ok g := by
  obtain ⟨s, settled, reach, sorted, all⟩ := joined.relayer_eq_ok ranks
  rw [settled, joined.graph_of_reaches tiered reach, regroup, sortBy_eq_liveIds joined.numbered all]
  have groups : g.Grouping ((g.liveIds.filterMap g.node?).foldl g.placeIn #[]) g.liveIds := by
    apply (grouping_nil g).foldl
    intro id member
    obtain ⟨node, found⟩ := lt_nextId_iff.mp ((mem_liveIds joined.numbered).mp member).1
    exact ⟨node, found, joined.numbered id node found⟩
  rw [foldl_eq_self fun id _ => informed.raiseProducers_eq_self id, groups.unique tiered.grouping]

/-- The edges determine the layers: two layerings of the same nodes agree. -/
theorem Tiered.layerOf_unique (first : g.Tiered) (second : h.Tiered) (alike : h.Alike g) (joined : g.Joined)
    {rank : NodeId → Nat} (ranks : g.Ranks rank) (alive : id ∈ g.liveIds) : h.layerOf id = g.layerOf id := by
  have live := liveIds_congr alike.stem?
  induction level : rank id using Nat.strongRecOn generalizing id with
  | ind level ih =>
      subst level
      rw [second.level id (live ▸ alive), first.level id alive, alike.producers]
      apply layerAbove_congr
      intro edge member
      exact ih _ (ranks id edge member) (joined.producer_live member) rfl

theorem Tiered.layers_unique (first : g.Tiered) (second : h.Tiered) (alike : h.Alike g) (joined : g.Joined)
    {rank : NodeId → Nat} (ranks : g.Ranks rank) : h.layers = g.layers := by
  have grouping : g.Grouping h.layers g.liveIds := by
    rw [← liveIds_congr alike.stem?]
    apply second.grouping.congr
    intro id alive
    rw [liveIds_congr alike.stem?] at alive
    refine ⟨(first.layerOf_unique second alike joined ranks alive).symm, ?_, (isFed_congr alike.stem? id).symm⟩
    rw [isNonLocal_eq_stem, isNonLocal_eq_stem, alike.stem?]
  exact grouping.unique first.grouping

/-! ## Building and binding -/

theorem Informed.congr (informed : g.Informed) (same : ∀ id, h.stem? id = g.stem? id)
    (layer : ∀ id, h.layerOf id = g.layerOf id) (urgency : ∀ id, h.urgencyOf id = g.urgencyOf id) : h.Informed := by
  intro id edge member
  rw [producers_eq_stem, same, ← producers_eq_stem] at member
  rw [rise, layer, layer, urgency]
  exact informed id edge member

/-- A new node tells its producers, and what the others were told holds as before. -/
theorem Informed.push (informed : g.Informed) (inside : ∀ id, ∀ edge ∈ g.producers id, edge.node < g.nextId)
    (node : Node) (older : ∀ edge ∈ node.producers, edge.node < g.nextId) :
    ((g.push node).raiseProducers g.nextId).Informed := by
  have alike := alike_raiseProducers (g.push node) g.nextId
  have old : ∀ {n}, n ≠ g.nextId → (g.push node).node? n = g.node? n := by
    intro n different
    rw [node?_push, if_neg different]
  intro id edge member
  rw [alike.producers] at member
  rw [rise, layerOf_raiseProducers, layerOf_raiseProducers, ← rise]
  by_cases new : id = g.nextId
  · subst new
    apply absorbs_raiseProducers_of_mem member
    rw [producers, node?_push, if_pos rfl] at member
    rw [nextId_push]
    exact Nat.lt_succ_of_lt (older edge member)
  · rw [producers, old new, ← producers] at member
    apply absorbs_raiseProducers
    rw [rise, layerOf, layerOf, urgencyOf, old new, old (Nat.ne_of_lt (inside id edge member))]
    exact informed id edge member

end Graph

namespace Builder

theorem informed_attach {b : Builder} {op : Operation} {targets : List Symbol} {producers : List Edge} {cycles : Nat}
    (wired : b.graph.Wired) (older : ∀ edge ∈ producers, edge.node < b.graph.nextId) (informed : b.graph.Informed) :
    (b.attach op targets producers cycles).2.graph.Informed := by
  have urgency : ∀ id, (b.linked targets producers).urgencyOf id = b.graph.urgencyOf id := by
    intro id
    rw [linked, Graph.urgencyOf_link, Graph.registerAll_eq]
    rfl
  have before : (b.linked targets producers).Informed := informed.congr (by simp) (by simp) urgency
  rw [graph_attach, ← nextId_linked b targets producers]
  apply before.push
  · intro id edge member
    rw [Graph.producers_eq_stem, stem?_linked, ← Graph.producers_eq_stem] at member
    simpa using wired.producer_lt member
  · rw [nextId_linked]
    exact older

theorem informed_withSource {g : Graph} {symbol : Symbol} (wired : g.Wired) (informed : g.Informed) :
    (g.withSource symbol).Informed := by
  have registered : (g.registerSource symbol g.nextId).Informed := informed
  have pushed := registered.push (fun id edge member => wired.producer_lt member) (Graph.sourceNode g.nextId symbol)
    (by simp [Graph.sourceNode])
  -- a source reads nothing, so it tells nobody
  have quiet : (g.withSource symbol).producers (g.registerSource symbol g.nextId).nextId = [] := by
    rw [Graph.withSource, Graph.producers, Graph.node?_push, if_pos rfl]
    rfl
  rw [← Graph.withSource, Graph.raiseProducers, quiet] at pushed
  exact pushed

theorem Reachable.informed {b : Builder} (h : b.Reachable) : b.graph.Informed := by
  refine h.graph_induction ?_ informed_attach ?_ informed_withSource
  · exact fun informed _ => informed.congr (fun _ => rfl) (fun _ => rfl) (fun _ => rfl)
  · exact fun name id edge member => absurd member (by simp [Builder.new, Graph.producers, Graph.node?])

end Builder

namespace Graph

theorem Formed.informed_of_rewrites {g h : Graph} {level : Nat} (formed : g.Formed level) (informed : g.Informed)
    (rewrites : g.Rewrites h) : h.Informed := by
  obtain rfl | ⟨_, k, formed, layered⟩ := formed.rewrites_cases rewrites
  · exact informed
  · obtain ⟨rank, ranks⟩ := formed.acyclic
    exact formed.joined.informed_of_relayer ranks layered

theorem informed_of_rewritten {b : Builder} {g : Graph} (reachable : b.Reachable) (plain : b.graph.Plain)
    (rewritten : Relation.ReflTransGen Rewrites b.graph g) : g.Informed := by
  induction rewritten with
  | refl => exact reachable.informed
  | tail before rewrites ih =>
      obtain ⟨level, formed, _⟩ := formed_of_rewritten reachable plain before
      exact formed.informed_of_rewrites ih rewrites

end Graph

/-- Layering leaves a graph as it is that a builder made of plain names, whatever calls that layer or bind it came
    after. It does compute the layers: whatever layers, groups and urgencies stand in their place, it gives the layers
    and groups of the graph back. -/
theorem relayer_of_rewritten {b : Builder} {g : Graph} (reachable : b.Reachable) (plain : b.graph.Plain)
    (rewritten : Relation.ReflTransGen Graph.Rewrites b.graph g) :
    g.relayer = .ok g ∧ ∀ h : Graph, h.Alike g → ∃ k, h.relayer = .ok k ∧ k.relayer = .ok k ∧ k.Alike g ∧
      (∀ id ∈ g.liveIds, k.layerOf id = g.layerOf id) ∧ k.layers = g.layers := by
  obtain ⟨level, formed, tiered⟩ := Graph.formed_of_rewritten reachable plain rewritten
  obtain ⟨rank, ranks⟩ := formed.acyclic
  have joined := formed.joined
  refine ⟨joined.relayer_eq_self ranks tiered (Graph.informed_of_rewritten reachable plain rewritten), fun h alike => ?_⟩
  obtain ⟨k, done, alike', tiered'⟩ := (alike.joined joined).tiered_of_relayer (alike.ranks ranks)
  have same := alike'.trans alike
  have informed := (alike.joined joined).informed_of_relayer (alike.ranks ranks) done
  exact ⟨k, done, (same.joined joined).relayer_eq_self (same.ranks ranks) tiered' informed, same,
    fun id alive => tiered.layerOf_unique tiered' same joined ranks alive, tiered.layers_unique tiered' same joined ranks⟩

/-- After binding, the layers are the same again even from a graph without groups. -/
theorem relayer_of_rewritten_bound :
    ∃ (b : Builder) (chains : Chains) (g k : Graph), b.Reachable ∧ b.graph.Plain ∧
      b.graph.bindInstances 1 [⟨"T", 2⟩] = .ok (chains, g) ∧ chains.retired = [2] ∧ g.depth = 5 ∧
      b.graph.relayer = .ok b.graph ∧ g.relayer = .ok g ∧
      ({ g with layers := #[] } : Graph).relayer = .ok k ∧ k.layers = g.layers := by
  have runs : pairOfGates.toOption.any fun b =>
      (b.graph.bindInstances 1 [⟨"T", 2⟩]).toOption.any fun done =>
        decide b.graph.Plain
          && done.1.retired == [2] && done.2.depth == 5 := by decide +kernel
  obtain ⟨b, built, runs⟩ := exists_ok_of_any runs
  obtain ⟨⟨chains, g⟩, done, runs⟩ := exists_ok_of_any runs
  simp only [Bool.and_eq_true, beq_iff_eq, decide_eq_true_eq] at runs
  obtain ⟨⟨plain, retired⟩, depth⟩ := runs
  have reachable := reachable_pairOfGates built
  obtain ⟨before, -⟩ := relayer_of_rewritten reachable plain .refl
  obtain ⟨after, recomputes⟩ := relayer_of_rewritten reachable plain (Relation.ReflTransGen.refl.tail (.bound done))
  obtain ⟨k, cleared, -, -, -, same⟩ :=
    recomputes { g with layers := #[] } ⟨rfl, fun _ => rfl, fun _ => rfl, rfl, rfl⟩
  exact ⟨b, chains, g, k, reachable, plain, done, retired, depth, before, after, cleared, same⟩

end LatticeSurgery
