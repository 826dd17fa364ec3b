import Mathlib.Data.Finset.Prod
import LatticeSurgery.Graph.Estimate
import LatticeSurgery.Proofs.Graph.WellFormed

/-! # Concurrent operations

How often two resources take part in concurrent operations is tallied layer by layer. The tally of two resources is the
number of pairs of operations on several resources that share a layer, one acting on the first resource and the other
on the second. The order of the two does not matter. Only a magic state meets itself, as operations on an exclusive
resource lie in different layers.
-/

namespace LatticeSurgery

namespace Graph

variable {g : Graph} {ids : List NodeId}

/-- Different operations on several resources that lie in one layer. -/
def Concurrent (g : Graph) (m n : NodeId) : Prop :=
  m ≠ n ∧ g.isNonLocal m ∧ g.isNonLocal n ∧ g.layerOf m = g.layerOf n

instance (g : Graph) (m n : NodeId) : Decidable (g.Concurrent m n) := inferInstanceAs (Decidable (_ ∧ _))

/-- Pairs of concurrent operations, the first of which acts on one resource and the second on another. -/
def encounters (g : Graph) (a b : Symbol) : Finset (NodeId × NodeId) :=
  (g.liveIds.toFinset ×ˢ g.liveIds.toFinset).filter fun pair =>
    g.Concurrent pair.1 pair.2 ∧ a ∈ g.targetsOf pair.1 ∧ b ∈ g.targetsOf pair.2

/-- What is tallied for some nodes: pairs of their targets, once for each pair of nodes that differ. -/
def crossings {α : Type} (key : α → NodeId) (targets : α → List Symbol) (nodes : List α) : List (Symbol × Symbol) :=
  nodes.flatMap fun node => (nodes.filter (key · != key node)).flatMap fun other => targets node ×ˢ targets other

theorem crossings_map {α β : Type} (f : α → β) (key : β → NodeId) (targets : β → List Symbol) (nodes : List α) :
    crossings key targets (nodes.map f)
      = crossings (fun node => key (f node)) (fun node => targets (f node)) nodes := by
  simp only [crossings, List.flatMap_map, List.filter_map]
  rfl

/-- Pairs of different nodes of a list. -/
def pairsAmong (ids : List NodeId) : List (NodeId × NodeId) := (ids ×ˢ ids).filter fun pair => pair.2 != pair.1

theorem crossings_eq (targets : NodeId → List Symbol) (ids : List NodeId) :
    crossings (fun id => id) targets ids = (pairsAmong ids).flatMap fun pair => targets pair.1 ×ˢ targets pair.2 := by
  have pairs : pairsAmong ids = ids.flatMap fun id => (ids.filter (· != id)).map fun other => (id, other) := by
    simp only [pairsAmong, SProd.sprod, List.product, List.filter_flatMap, List.filter_map]
    rfl
  simp only [crossings, pairs, List.flatMap_assoc, List.flatMap_map]

/-- The nodes that count in a layer, by their identifiers. -/
theorem map_crowd (numbered : g.Numbered) (ids : List NodeId) :
    ((ids.filterMap g.node?).filter (·.nonLocal)).map (fun node => (node.id, node.targets))
      = (ids.filter g.isNonLocal).map fun id => (id, g.targetsOf id) := by
  induction ids with
  | nil => rfl
  | cons id ids ih =>
      cases found : g.node? id with
      | none => simpa [found, isNonLocal] using ih
      | some node =>
          have named := numbered id node found
          have targets := targetsOf_of_node? found
          cases far : node.nonLocal <;> simpa [found, isNonLocal, far, named, targets] using ih

theorem interactions_eq (numbered : g.Numbered) (layer : Layer) : g.interactions layer
    = (pairsAmong (layer.nodes.filter g.isNonLocal)).flatMap fun pair => g.targetsOf pair.1 ×ˢ g.targetsOf pair.2 := by
  have nodes : g.interactions layer = crossings Prod.fst Prod.snd
      (((layer.nodes.filterMap g.node?).filter (·.nonLocal)).map fun node => (node.id, node.targets)) := by
    rw [crossings_map]
    rfl
  rw [nodes, map_crowd numbered, crossings_map]
  exact crossings_eq g.targetsOf _

theorem mem_pairsAmong {m n : NodeId} : (m, n) ∈ pairsAmong ids ↔ (m ∈ ids ∧ n ∈ ids) ∧ n ≠ m := by
  simp [pairsAmong]

theorem nodup_pairsAmong (once : ids.Nodup) : (pairsAmong ids).Nodup := (once.product once).filter _

/-- All pairs of concurrent operations, layer by layer. -/
def concurrentPairs (g : Graph) : List (NodeId × NodeId) :=
  (List.range g.depth).flatMap fun i => pairsAmong ((g.liveIds.filter (g.layerOf · == i)).filter g.isNonLocal)

theorem mem_concurrentPairs (tiered : g.Tiered) {m n : NodeId} :
    (m, n) ∈ g.concurrentPairs ↔ m ∈ g.liveIds ∧ n ∈ g.liveIds ∧ g.Concurrent m n := by
  simp only [concurrentPairs, List.mem_flatMap, List.mem_range, mem_pairsAmong, List.mem_filter, beq_iff_eq, Concurrent]
  constructor
  · rintro ⟨i, inside, ⟨⟨⟨live, rfl⟩, far⟩, ⟨live', level⟩, far'⟩, apart⟩
    exact ⟨live, live', apart.symm, far, far', level.symm⟩
  · rintro ⟨live, live', apart, far, far', level⟩
    exact ⟨g.layerOf m, tiered.grouping.covered m live, ⟨⟨⟨live, rfl⟩, far⟩, ⟨live', level.symm⟩, far'⟩, apart.symm⟩

theorem nodup_concurrentPairs (numbered : g.Numbered) : g.concurrentPairs.Nodup := by
  apply List.nodup_flatMap.mpr
  constructor
  · intro i _
    exact nodup_pairsAmong (((nodup_liveIds numbered).filter _).filter _)
  · apply List.nodup_range.imp
    intro i j apart
    -- a pair lies in the layer of its first node, so no two layers share one
    rintro ⟨m, n⟩ one two
    simp only [mem_pairsAmong, List.mem_filter, beq_iff_eq] at one two
    exact apart (one.1.1.1.2.symm.trans two.1.1.1.2)

theorem Tiered.interactions_eq (tiered : g.Tiered) (joined : g.Joined) : g.layers.toList.flatMap g.interactions
    = g.concurrentPairs.flatMap fun pair => g.targetsOf pair.1 ×ˢ g.targetsOf pair.2 := by
  have layers : g.layers.toList
      = (List.range g.depth).map fun i => g.group (g.liveIds.filter (g.layerOf · == i)) := by
    apply List.ext_getElem?
    intro i
    rw [Array.getElem?_toList]
    cases found : g.layers[i]? with
    | none =>
        have outside := Array.getElem?_eq_none_iff.mp found
        simp [depth, outside]
    | some layer =>
        obtain ⟨inside, -⟩ := Array.getElem?_eq_some_iff.mp found
        simp [depth, inside, tiered.getElem?_layers found]
  rw [layers, concurrentPairs, List.flatMap_assoc, List.flatMap_map]
  congr 1
  funext i
  exact Graph.interactions_eq joined.numbered _

section

variable (tiered : g.Tiered) (joined : g.Joined) (a b : Symbol)
include tiered joined

theorem Tiered.count_interactions :
    (g.layers.toList.flatMap g.interactions).count (a, b) = (g.encounters a b).card := by
  have once : ∀ pair ∈ g.concurrentPairs, (g.targetsOf pair.1 ×ˢ g.targetsOf pair.2).Nodup :=
    fun pair _ => (joined.distinct pair.1).product (joined.distinct pair.2)
  rw [tiered.interactions_eq joined, count_flatMap_of_nodup once, List.countP_eq_length_filter,
    ← List.toFinset_card_of_nodup ((nodup_concurrentPairs joined.numbered).filter _)]
  congr 1
  ext ⟨m, n⟩
  simp only [List.mem_toFinset, List.mem_filter, mem_concurrentPairs tiered, encounters, Finset.mem_filter,
    Finset.mem_product, decide_eq_true_eq, List.mem_product]
  grind

theorem Tiered.getElem?_interactionCounts : g.interactionCounts[(a, b)]?
    = if g.encounters a b = ∅ then none else some (g.encounters a b).card := by
  have counted := tiered.count_interactions joined a b
  have never : g.encounters a b = ∅ ↔ (a, b) ∉ g.layers.toList.flatMap g.interactions := by
    rw [← Finset.card_eq_zero, ← counted, List.count_eq_zero]
  rw [interactionCounts, getElem?_tally, counted]
  split
  next meets => simp [never, meets]
  next apart => simp [never, apart]

theorem Tiered.magic_of_encounter {symbol : Symbol} (meets : g.encounters symbol symbol ≠ ∅) :
    g.kind? symbol = some .magicState := by
  obtain ⟨⟨m, n⟩, pair⟩ := Finset.nonempty_iff_ne_empty.mpr meets
  obtain ⟨-, ⟨apart, -, -, level⟩, first, second⟩ := Finset.mem_filter.mp pair
  have exclusive := tiered.not_exclusive joined apart level first second
  have known := joined.known first
  cases kind : g.kind? symbol with
  | none => exact absurd kind known
  | some kind' =>
      cases kind' with
      | exclusive => exact absurd kind exclusive
      | magicState => rfl

end

theorem concurrent_comm {m n : NodeId} : g.Concurrent m n ↔ g.Concurrent n m := by
  unfold Concurrent
  grind

theorem card_encounters_comm (g : Graph) (a b : Symbol) : (g.encounters a b).card = (g.encounters b a).card := by
  apply Finset.card_equiv (Equiv.prodComm NodeId NodeId)
  rintro ⟨m, n⟩
  simp only [encounters, Finset.mem_filter, Finset.mem_product, Equiv.prodComm_apply, Prod.swap_prod_mk]
  rw [concurrent_comm]
  grind

end Graph

/-- In every graph that a builder made, the tally of two resources is the number of times that they meet. It is
    symmetric, and only magic states meet themselves. -/
theorem interactionCounts_of_reachable {b : Builder} (reachable : b.Reachable) :
    (∀ one two : Symbol, b.graph.interactionCounts[(one, two)]?
      = if b.graph.encounters one two = ∅ then none else some (b.graph.encounters one two).card) ∧
    (∀ one two : Symbol, b.graph.interactionCounts[(one, two)]? = b.graph.interactionCounts[(two, one)]?) ∧
    ∀ symbol : Symbol, (symbol, symbol) ∈ b.graph.interactionCounts → b.graph.kind? symbol = some .magicState := by
  have tiered := reachable.tiered
  have joined := reachable.sound.wired.joined
  have counted := tiered.getElem?_interactionCounts joined
  refine ⟨counted, fun one two => ?_, fun symbol present => ?_⟩
  · have same := b.graph.card_encounters_comm one two
    simp only [counted, ← Finset.card_eq_zero, same]
  · apply tiered.magic_of_encounter joined
    intro never
    rw [Std.ExtTreeMap.mem_iff_isSome_getElem?, counted, if_pos never] at present
    cases present

/-- Two draws of one state beside an operation that draws nothing: the state meets itself once in each order, and the
    targets of one operation do not meet. -/
theorem interactionCounts_of_reachable_drawn :
    ∃ b : Builder, b.Reachable ∧
      b.graph.interactionCounts[("T", "T")]? = some 2 ∧ (b.graph.encounters "T" "T").card = 2 ∧
      b.graph.interactionCounts[("a", "d")]? = some 1 ∧ b.graph.interactionCounts[("d", "a")]? = some 1 ∧
      b.graph.encounters "c" "d" = ∅ ∧ b.graph.kind? "T" = some .magicState := by
  have runs : (((Builder.new "wide").declareAll ["a", "b", "c", "d"]).addGates
      [(.t, ["a"]), (.t, ["b"]), (.cnot, ["c", "d"])]).toOption.any fun b =>
        b.graph.interactionCounts[("T", "T")]? == some 2 && b.graph.interactionCounts[("a", "d")]? == some 1
          && b.graph.interactionCounts[("c", "d")]? == none := by decide +kernel
  obtain ⟨b, built, runs⟩ := exists_ok_of_any runs
  simp only [Bool.and_eq_true, beq_iff_eq] at runs
  obtain ⟨⟨state, pair⟩, none⟩ := runs
  have reachable := (Builder.Reachable.declareAll ["a", "b", "c", "d"] (.new "wide")).addGates built
  obtain ⟨counted, symmetric, magic⟩ := interactionCounts_of_reachable reachable
  refine ⟨b, reachable, state, ?_, pair, symmetric "a" "d" ▸ pair, ?_, magic "T" ?_⟩
  · have met := counted "T" "T"
    rw [state] at met
    split at met
    · cases met
    · exact (Option.some.inj met).symm
  · have met := counted "c" "d"
    rw [none] at met
    split at met
    next never => exact never
    · cases met
  · rw [Std.ExtTreeMap.mem_iff_isSome_getElem?, state]
    rfl

end LatticeSurgery
