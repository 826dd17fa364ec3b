import Mathlib.Data.List.Perm.Subperm
import LatticeSurgery.Proofs.Graph.Joined

/-! # Every node settles

Layering counts for each node the producers it was not told of yet, and settles it when none is left.
In a joined graph that has a ranking the queue runs dry only when every live node is settled, so layering
succeeds, and each node has then got the layer above its producers.
-/

namespace LatticeSurgery

namespace Graph

theorem layerAbove_congr {g h : Graph} {edges : List Edge}
    (same : ∀ edge ∈ edges, g.layerOf edge.node = h.layerOf edge.node) : g.layerAbove edges = h.layerAbove edges := by
  unfold layerAbove
  congr 1
  apply List.map_congr_left
  intro edge member
  rw [same edge member]

/-- The graph with one node put right above its producers. -/
def lift (g : Graph) (id : NodeId) : Graph :=
  g.modify id fun node => { node with layer := g.layerAbove node.producers }

theorem alike_lift (g : Graph) (id : NodeId) : (g.lift id).Alike g := by
  apply alike_modify <;> intro node <;> rfl

theorem layerOf_lift (g : Graph) (id n : NodeId) :
    (g.lift id).layerOf n = if n = id then g.layerAbove (g.producers n) else g.layerOf n := by
  simp only [layerOf, lift, node?_modify, producers]
  split
  · cases g.node? n <;> rfl
  · rfl

/-- The edges that lead out of some nodes, each with the node it comes from. -/
def outgoing (g : Graph) (ids : List NodeId) : List (NodeId × Edge) :=
  ids.flatMap fun id => (g.consumers id).map fun edge => (id, edge)

theorem mem_outgoing {g : Graph} {ids : List NodeId} {id : NodeId} {edge : Edge} :
    (id, edge) ∈ g.outgoing ids ↔ id ∈ ids ∧ edge ∈ g.consumers id := by
  simp [outgoing]

/-- The edges into a node that `told` does not hold. -/
def untold (g : Graph) (told : List (NodeId × Edge)) (n : NodeId) : List Edge :=
  (g.producers n).filter fun edge => (edge.node, ⟨edge.symbol, n⟩) ∉ told

theorem mem_untold {g : Graph} {told : List (NodeId × Edge)} {n : NodeId} {edge : Edge} :
    edge ∈ g.untold told n ↔ edge ∈ g.producers n ∧ (edge.node, ⟨edge.symbol, n⟩) ∉ told := by
  simp [untold]

/-- One more edge is missing at its reader only. -/
theorem untold_append {g : Graph} (joined : g.Joined) (told : List (NodeId × Edge)) (id : NodeId) (edge : Edge)
    (n : NodeId) : g.untold (told ++ [(id, edge)]) n
      = if n = edge.node then (g.untold told n).erase ⟨edge.symbol, id⟩ else g.untold told n := by
  split
  next here =>
      subst here
      have distinct : (g.untold told edge.node).Nodup := (joined.nodup_producers edge.node).filter _
      rw [distinct.erase_eq_filter, untold, untold, List.filter_filter]
      apply List.filter_congr
      rintro ⟨symbol, producer⟩ _
      cases edge
      simp only [List.mem_append, List.mem_singleton, Prod.mk.injEq, Edge.mk.injEq, bne, Bool.decide_and,
        Bool.decide_or, decide_not]
      grind
  next elsewhere =>
      apply List.filter_congr
      intro other _
      have differs : (other.node, (⟨other.symbol, n⟩ : Edge)) ≠ (id, edge) := by
        intro same
        exact elsewhere (congrArg (·.2.node) same)
      simp [differs]

theorem untold_outgoing_eq_nil {g : Graph} (joined : g.Joined) {ids : List NodeId} {n : NodeId} :
    g.untold (g.outgoing ids) n = [] ↔ ∀ edge ∈ g.producers n, edge.node ∈ ids := by
  simp only [List.eq_nil_iff_forall_not_mem, mem_untold, mem_outgoing, joined.mirrored]
  grind

theorem length_liveIds (g : Graph) : g.liveIds.length = g.size := List.length_map _

end Graph

namespace Settling

variable {g : Graph} {s t : Settling} {told : List (NodeId × Edge)} {id : NodeId} {edge : Edge}

/-! ## Telling the consumers -/

/-- The counters and the queue are right for the edges told so far. -/
structure Counts (g : Graph) (told : List (NodeId × Edge)) (s : Settling) : Prop where
  alike : s.graph.Alike g
  size : s.missing.size = g.nextId
  missing : ∀ n, (s.missing[n]?).getD 0 = (g.untold told n).length
  distinct : (s.order ++ s.queue).Nodup
  ready : ∀ n, n ∈ s.order ++ s.queue ↔ n ∈ g.liveIds ∧ g.untold told n = []

theorem order_satisfy (s : Settling) (id : NodeId) : (s.satisfy id).order = s.order := by
  unfold satisfy
  split <;> rfl

theorem counts_satisfy (joined : g.Joined) (counts : Counts g told s) (member : edge ∈ g.consumers id)
    (new : (id, edge) ∉ told) : Counts g (told ++ [(id, edge)]) (s.satisfy edge.node) := by
  have inside : ⟨edge.symbol, id⟩ ∈ g.producers edge.node := joined.mirrored.mp member
  have alive := joined.reader_live inside
  obtain ⟨below, fresh⟩ := (Graph.mem_liveIds joined.numbered).mp alive
  have missing : ⟨edge.symbol, id⟩ ∈ g.untold told edge.node := Graph.mem_untold.mpr ⟨inside, new⟩
  have waiting : edge.node ∉ s.order ++ s.queue := by
    intro listed
    rw [((counts.ready _).mp listed).2] at missing
    cases missing
  have left : (s.missing[edge.node]?).getD 0 - 1 = (g.untold (told ++ [(id, edge)]) edge.node).length := by
    rw [Graph.untold_append joined, if_pos rfl, List.length_erase_of_mem missing, counts.missing]
  have others : ∀ n, n ≠ edge.node → g.untold (told ++ [(id, edge)]) n = g.untold told n := by
    intro n differs
    rw [Graph.untold_append joined, if_neg differs]
  unfold satisfy
  rw [counts.alike.isRetired, fresh, if_neg (by simp)]
  dsimp only
  rw [left]
  constructor
  case alike => exact counts.alike
  case size => simpa using counts.size
  case missing =>
    intro n
    rw [Array.getElem?_setIfInBounds]
    split
    next here => rw [if_pos (by rw [counts.size]; exact below), here]; rfl
    next elsewhere =>
        rw [counts.missing, others n (Ne.symm elsewhere)]
  case distinct =>
    dsimp only
    split
    · rw [← List.append_assoc]
      exact counts.distinct.append (List.pairwise_singleton _ _) (by simpa using waiting)
    · exact counts.distinct
  case ready =>
    intro n
    by_cases here : n = edge.node
    · subst here
      dsimp only
      split
      next none => simpa [alive] using List.length_eq_zero_iff.mp none
      next some =>
          constructor
          · intro listed
            exact absurd listed waiting
          · rintro ⟨_, none⟩
            exact absurd (by rw [none]; rfl) some
    · have kept : n ∈ s.order ++ (if (g.untold (told ++ [(id, edge)]) edge.node).length = 0
          then s.queue ++ [edge.node] else s.queue) ↔ n ∈ s.order ++ s.queue := by
        split
        · simp [here]
        · rfl
      rw [others n here, ← counts.ready]
      exact kept

theorem counts_tell (joined : g.Joined) {edges : List Edge} (counts : Counts g told s)
    (members : ∀ edge ∈ edges, edge ∈ g.consumers id) (distinct : edges.Nodup)
    (new : ∀ edge ∈ edges, (id, edge) ∉ told) :
    Counts g (told ++ edges.map fun edge => (id, edge))
        (edges.foldl (fun acc edge => acc.satisfy edge.node) s) ∧
      (edges.foldl (fun acc edge => acc.satisfy edge.node) s).order = s.order := by
  induction edges generalizing told s with
  | nil => exact ⟨by simpa using counts, rfl⟩
  | cons edge edges ih =>
      obtain ⟨once, distinct⟩ := List.nodup_cons.mp distinct
      have next := counts_satisfy joined counts (members edge List.mem_cons_self) (new edge List.mem_cons_self)
      have later : ∀ other ∈ edges, (id, other) ∉ told ++ [(id, edge)] := by
        intro other member
        simp only [List.mem_append, List.mem_singleton, Prod.mk.injEq, true_and, not_or]
        exact ⟨new other (List.mem_cons_of_mem _ member), fun same => once (same ▸ member)⟩
      obtain ⟨counted, order⟩ := ih next (fun other member => members other (List.mem_cons_of_mem _ member))
        distinct later
      rw [List.append_assoc, List.singleton_append] at counted
      exact ⟨counted, order.trans (order_satisfy s edge.node)⟩

/-! ## Settling one node -/

/-- Exactly the edges out of the settled nodes were told, and a settled node has its layer. -/
structure Sorted (g : Graph) (s : Settling) : Prop where
  counts : Counts g (g.outgoing s.order) s
  layers : ∀ n ∈ s.order, s.graph.layerOf n = s.graph.layerAbove (g.producers n)

theorem Sorted.mem_iff (sorted : Sorted g s) (joined : g.Joined) {n : NodeId} :
    n ∈ s.order ++ s.queue ↔ n ∈ g.liveIds ∧ ∀ edge ∈ g.producers n, edge.node ∈ s.order := by
  rw [sorted.counts.ready, Graph.untold_outgoing_eq_nil joined]

theorem Sorted.length_le (sorted : Sorted g s) : s.order.length + s.queue.length ≤ g.size := by
  rw [← List.length_append, ← Graph.length_liveIds]
  refine (sorted.counts.distinct.subperm ?_).length_le
  intro n listed
  exact ((sorted.counts.ready n).mp listed).1

theorem sorted_unsettled (joined : g.Joined) : Sorted g g.unsettled := by
  have queued : ∀ n, n ∈ g.unsettled.queue ↔ n ∈ g.liveIds ∧ g.producers n = [] := by
    intro n
    simp only [Graph.unsettled, Graph.liveIds, List.mem_map, List.mem_filter, List.isEmpty_iff,
      Graph.mem_live_of_numbered joined.numbered]
    constructor
    · rintro ⟨node, ⟨⟨found, alive⟩, none⟩, rfl⟩
      exact ⟨⟨node, ⟨found, alive⟩, rfl⟩, Graph.producers_of_node? found ▸ none⟩
    · rintro ⟨⟨node, ⟨found, alive⟩, rfl⟩, none⟩
      exact ⟨node, ⟨⟨found, alive⟩, Graph.producers_of_node? found ▸ none⟩, rfl⟩
  have all : ∀ n, g.untold (g.outgoing []) n = g.producers n := by
    intro n
    simp [Graph.untold, Graph.outgoing]
  refine ⟨⟨.refl g, ?_, ?_, ?_, ?_⟩, fun n member => absurd member List.not_mem_nil⟩
  · simp [Graph.unsettled, Graph.nextId]
  · intro n
    rw [show g.unsettled.order = [] from rfl, all]
    simp only [Graph.unsettled, Array.getElem?_map]
    cases found : g.node? n with
    | none =>
        rw [Graph.node?] at found
        simp [Graph.producers, Graph.node?, found]
    | some node =>
        rw [Graph.producers_of_node? found]
        have there : g.nodes[n]? = some node := found
        rw [there]
        cases retired : node.retired with
        | false => simp [retired]
        | true =>
            have none := (joined.retired (by rw [Graph.isRetired_of_node? found, retired])).2
            rw [Graph.producers_of_node? found] at none
            simp [retired, none]
  · have sub : g.unsettled.queue.Sublist g.liveIds := List.filter_sublist.map _
    exact (Graph.nodup_liveIds joined.numbered).sublist sub
  · intro n
    rw [show g.unsettled.order = [] from rfl, all, List.nil_append]
    exact queued n

theorem settle_eq (s : Settling) (id : NodeId) :
    s.settle id = (s.graph.consumers id).foldl (fun acc edge => acc.satisfy edge.node)
      { s with graph := s.graph.lift id, order := s.order ++ [id] } := by
  rw [← (s.graph.alike_lift id).consumers]
  rfl

theorem sorted_settle (joined : g.Joined) {queue : List NodeId} (sorted : Sorted g s) (first : s.queue = id :: queue) :
    Sorted g ({ s with queue }.settle id) ∧ ({ s with queue }.settle id).order = s.order ++ [id] := by
  have lists : s.order ++ s.queue = (s.order ++ [id]) ++ queue := by simp [first]
  have ready : ∀ n ∈ s.order ++ [id], ∀ edge ∈ g.producers n, edge.node ∈ s.order := by
    intro n member
    exact ((sorted.mem_iff joined).mp (by rw [lists]; exact List.mem_append_left _ member)).2
  have unsettled : id ∉ s.order := by
    have distinct := sorted.counts.distinct
    rw [first] at distinct
    intro member
    exact (List.nodup_append.mp distinct).2.2 id member id List.mem_cons_self rfl
  have begun : Counts g (g.outgoing s.order)
      { s with graph := s.graph.lift id, queue, order := s.order ++ [id] } := by
    refine ⟨(s.graph.alike_lift id).trans sorted.counts.alike, sorted.counts.size, sorted.counts.missing, ?_, ?_⟩
    · exact lists ▸ sorted.counts.distinct
    · exact lists ▸ sorted.counts.ready
  obtain ⟨counts, order⟩ := counts_tell joined begun (fun _ member => member) (joined.consumersNodup id)
    (fun edge _ told => unsettled (Graph.mem_outgoing.mp told).1)
  rw [settle_eq]
  dsimp only
  rw [sorted.counts.alike.consumers]
  refine ⟨⟨?_, ?_⟩, order⟩
  · rw [order]
    simpa [Graph.outgoing] using counts
  · rw [graph_foldl_satisfy, order]
    intro n member
    dsimp only
    -- the node that is lifted is not among the producers, which were settled before
    have below : (s.graph.lift id).layerAbove (g.producers n) = s.graph.layerAbove (g.producers n) := by
      apply Graph.layerAbove_congr
      intro edge inside
      rw [Graph.layerOf_lift, if_neg]
      exact fun here => unsettled (here ▸ ready n member edge inside)
    rw [below, Graph.layerOf_lift, sorted.counts.alike.producers]
    split
    · rfl
    next elsewhere => exact sorted.layers n ((List.mem_append.mp member).resolve_right (by simpa using elsewhere))

theorem sorted_step (joined : g.Joined) (sorted : Sorted g s) (h : s.step = .again t) :
    Sorted g t ∧ g.size - t.order.length < g.size - s.order.length := by
  unfold step at h
  split at h
  · cases h
  next id queue first =>
      cases h
      obtain ⟨next, order⟩ := sorted_settle joined sorted first
      have room := sorted.length_le
      refine ⟨next, ?_⟩
      rw [order, List.length_append]
      rw [first, List.length_cons] at room
      simp only [List.length_singleton]
      omega

/-- With an empty queue nothing is left: a live node of least rank would have been ready. -/
theorem Sorted.complete (sorted : Sorted g s) (joined : g.Joined) {rank : NodeId → Nat} (ranks : g.Ranks rank)
    (none : s.queue = []) : s.order.Perm g.liveIds := by
  have distinct := sorted.counts.distinct
  have members := fun n => sorted.mem_iff joined (n := n)
  rw [none, List.append_nil] at distinct
  simp only [none, List.append_nil] at members
  refine (List.perm_ext_iff_of_nodup distinct (Graph.nodup_liveIds joined.numbered)).mpr fun n => ?_
  refine ⟨fun member => ((members n).mp member).1, fun alive => ?_⟩
  induction level : rank n using Nat.strongRecOn generalizing n with
  | ind level ih =>
      subst level
      refine (members n).mpr ⟨alive, fun edge inside => ?_⟩
      exact ih _ (ranks n edge inside) edge.node (joined.producer_live inside) rfl

end Settling

namespace Graph

/-- Layering a joined graph that has a ranking succeeds. -/
theorem Joined.relayer_eq_ok {g : Graph} (joined : g.Joined) {rank : NodeId → Nat} (ranks : g.Ranks rank) :
    ∃ s : Settling, g.relayer = .ok (s.graph.regroup s.order) ∧ Reaches Settling.step g.unsettled s ∧
      Settling.Sorted g s ∧ s.order.Perm g.liveIds := by
  have ends : (iterate Settling.step (g.size + 1) g.unsettled).isSome := by
    apply isSome_iterate (P := Settling.Sorted g) fun s => g.size - s.order.length
    · intro s t sorted next
      exact Settling.sorted_step joined sorted next
    · exact Settling.sorted_unsettled joined
    · omega
  obtain ⟨s, run⟩ := Option.isSome_iff_exists.mp ends
  obtain ⟨last, reach, done⟩ := reaches_of_iterate run
  have sorted : Settling.Sorted g last :=
    reach.invariant (fun _ _ holds next => (Settling.sorted_step joined holds next).1) (Settling.sorted_unsettled joined)
  have dry : last.queue = [] ∧ last = s := by
    unfold Settling.step at done
    split at done
    next empty => cases done; exact ⟨empty, rfl⟩
    · cases done
  obtain ⟨empty, rfl⟩ := dry
  have all := sorted.complete joined ranks empty
  refine ⟨last, ?_, reach, sorted, all⟩
  unfold relayer
  rw [run]
  dsimp only
  rw [if_pos (all.length_eq.trans g.length_liveIds)]

end Graph

end LatticeSurgery
