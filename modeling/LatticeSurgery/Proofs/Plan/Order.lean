import LatticeSurgery.Proofs.Graph.Joined
import LatticeSurgery.Proofs.Plan.Schedule

/-! # The order of a plan

A plan of any numbered graph admits a node after everything it waits for, even within one cycle, and
hands it one unit for each of its draws. If the graph is joined and has a ranking, then whatever waits
for an operation is woken by it, so that no operation is left out, and no refill either.
-/

namespace LatticeSurgery

namespace Graph

/-- A list of nodes, the latest first, in which every node comes after what it waits for. -/
def Sequenced (g : Graph) : List NodeId → Prop
  | [] => True
  | id :: earlier =>
      id ∉ earlier ∧ (∀ edge ∈ g.producers id, g.isDraw edge = false → edge.node ∈ earlier) ∧ g.Sequenced earlier

variable {g : Graph} {done : List NodeId} {id : NodeId} {edge : Edge}

theorem Sequenced.nodup (sequenced : g.Sequenced done) : done.Nodup := by
  induction done with
  | nil => exact .nil
  | cons id earlier ih => exact List.nodup_cons.mpr ⟨sequenced.1, ih sequenced.2.2⟩

theorem Sequenced.idxOf_lt (sequenced : g.Sequenced done) (member : id ∈ done) (inside : edge ∈ g.producers id)
    (waits : g.isDraw edge = false) : done.reverse.idxOf edge.node < done.reverse.idxOf id := by
  induction done with
  | nil => cases member
  | cons last earlier ih =>
      obtain ⟨fresh, after, sequenced⟩ := sequenced
      rw [List.reverse_cons]
      rcases List.mem_cons.mp member with rfl | member
      · have before := List.mem_reverse.mpr (after edge inside waits)
        rw [List.idxOf_append_of_mem before, List.idxOf_append_of_notMem (by simpa using fresh)]
        exact Nat.lt_add_right _ (List.idxOf_lt_length_of_mem before)
      · have below := ih sequenced member
        have bound := List.idxOf_lt_length_of_mem (List.mem_reverse.mpr member)
        have before := List.idxOf_lt_length_iff.mp (Nat.lt_trans below bound)
        rw [List.idxOf_append_of_mem before, List.idxOf_append_of_mem (List.mem_reverse.mpr member)]
        exact below

/-- The nodes admitted so far, the latest first, and the units they got. -/
structure Executed (g : Graph) (units : List Draw) (done : List NodeId) (draws : NodeMap (List Draw)) : Prop where
  sequenced : g.Sequenced done
  present : ∀ id ∈ done, id < g.nextId
  served : ∀ id ∈ done, ∀ node, g.node? id = some node →
    (draws.getD id []).map (·.symbol) = g.drawn node ∧ ∀ unit ∈ draws.getD id [], unit ∈ units
  blank : ∀ id, id ∉ done → draws[id]? = none

end Graph

namespace Sweep

variable {g : Graph} {capacity : Nat} {s t : Sweep} {id : NodeId} {node : Node} {units : List Draw}

theorem executed_accepts (numbered : g.Numbered) (found : g.node? id = some node)
    (admits : s.admits g capacity node) (accepts : s.Accepts g node t) (lines : s.pool.units = units)
    (executed : g.Executed units s.resolved s.draws) : g.Executed units t.resolved t.draws := by
  obtain rfl := numbered id node found
  obtain ⟨admits, met⟩ := Bool.and_eq_true_iff.mp admits
  have fresh : node.id ∉ s.resolved := by simpa using (Bool.and_eq_true_iff.mp admits).1
  obtain ⟨got, here, symbols, members⟩ := accepts.served
  have first : s.draws.getD node.id [] = [] := NodeMap.getD_of_none (executed.blank _ fresh) []
  rw [accepts.resolved]
  constructor
  case sequenced =>
    refine ⟨fresh, fun edge inside waits => ?_, executed.sequenced⟩
    have met := List.all_eq_true.mp met edge (Graph.producers_of_node? found ▸ inside)
    simp only [meets, waits, Bool.false_eq_true, if_false, Bool.and_eq_true] at met
    simpa using met.1
  case present =>
    intro other member
    rcases List.mem_cons.mp member with rfl | member
    · exact Graph.lt_nextId found
    · exact executed.present other member
  case served =>
    intro other member node' found'
    rcases List.mem_cons.mp member with rfl | member
    · obtain rfl := Option.some.inj (found.symm.trans found')
      rw [here, first, List.nil_append]
      exact ⟨symbols, fun unit inside => lines ▸ members unit inside⟩
    · have differs : other ≠ node.id := fun same => fresh (same ▸ member)
      rw [NodeMap.getD_congr (accepts.others other differs)]
      exact executed.served other member node' found'
  case blank =>
    intro other outside
    rw [List.mem_cons, not_or] at outside
    rw [accepts.others other outside.1]
    exact executed.blank other outside.2

end Sweep

namespace Scheduling

variable {g : Graph} {capacity : Nat} {s u : Scheduling} {t : Sweep} {units : List Draw}

structure Advancing (g : Graph) (units : List Draw) (s : Scheduling) : Prop where
  order : s.resolved = s.layers.toList.flatten.reverse
  lines : s.pool.units = units
  executed : g.Executed units s.resolved s.draws

/-- What waits for something admitted is admitted or a candidate, and so is every entry. -/
def Awake (g : Graph) (s : Scheduling) : Prop :=
  ∀ id, (id ∈ g.entries ∨ ∃ edge ∈ g.producers id, edge.node ∈ s.resolved) → id ∈ s.resolved ∨ id ∈ s.candidates

theorem advancing_start (g : Graph) (pool : Pool) : Advancing g pool.units { candidates := g.entries, pool } where
  order := rfl
  lines := rfl
  executed := ⟨trivial, by simp, by simp, by simp⟩

theorem advancing_turns (numbered : g.Numbered) (advancing : Advancing g units s)
    (h : s.opening.turns g capacity (g.prioritise s.candidates) = .ok t) :
    t.resolved = t.admitted.reverse ++ s.resolved ∧ t.pool.units = units ∧ g.Executed units t.resolved t.draws := by
  refine Sweep.turns_keep (P := fun t => t.resolved = t.admitted.reverse ++ s.resolved ∧ t.pool.units = units ∧
    g.Executed units t.resolved t.draws) ?_ ⟨rfl, advancing.lines, advancing.executed⟩ h
  rintro before after id node found admits accepts ⟨resolved, lines, executed⟩
  refine ⟨?_, accepts.units.trans lines, Sweep.executed_accepts numbered found admits accepts lines executed⟩
  rw [accepts.resolved, accepts.admitted, resolved]
  simp

theorem advancing_cycle (numbered : g.Numbered) (advancing : Advancing g units s)
    (h : s.cycle g capacity = .again u) : Advancing g units u := by
  obtain ⟨t, done, rfl⟩ := cycle_eq_again h
  obtain ⟨resolved, lines, executed⟩ := advancing_turns numbered advancing done
  refine ⟨?_, lines ▸ Pool.units_advance t.pool, executed⟩
  simp [next, resolved, advancing.order]

theorem awake_cycle (joined : g.Joined) (advancing : Advancing g units s) (awake : Awake g s)
    (h : s.cycle g capacity = .again u) : Awake g u := by
  obtain ⟨t, done, rfl⟩ := cycle_eq_again h
  obtain ⟨resolved, _, _⟩ := advancing_turns joined.numbered advancing done
  have earlier : ∀ id ∈ s.resolved, id ∈ t.resolved := by
    intro id member
    rw [resolved]
    exact List.mem_append_right _ member
  intro id woken
  by_cases admitted : id ∈ t.resolved
  · exact .inl admitted
  · refine .inr (mem_candidates_next.mpr ⟨admitted, ?_⟩)
    have pending := fun woken => (awake id woken).resolve_left fun member => admitted (earlier id member)
    rcases woken with entry | ⟨⟨symbol, producer⟩, inside, member⟩
    · exact .inl (pending (.inl entry))
    · have member : producer ∈ t.resolved := member
      rw [resolved] at member
      rcases List.mem_append.mp member with now | before
      · exact .inr ⟨producer, List.mem_reverse.mp now, ⟨symbol, id⟩, joined.mirrored.mpr inside, rfl⟩
      · exact .inl (pending (.inr ⟨_, inside, before⟩))

end Scheduling

/-! ## Plans -/

theorem Graph.Numbered.executed_of_schedule {g : Graph} {capacity : Nat} {factories : List Factory} {plan : Plan}
    (numbered : g.Numbered) (h : g.schedule capacity factories = .ok plan) :
    g.Executed (Pool.new factories).units plan.order.reverse plan.draws := by
  obtain ⟨s, reached, _, rfl⟩ := Scheduling.reaches_of_schedule h
  have advancing := reached.invariant (P := Scheduling.Advancing g (Pool.new factories).units)
    (fun _ _ holds next => Scheduling.advancing_cycle numbered holds next) (Scheduling.advancing_start g _)
  have order : s.layers.toList.flatten.reverse = s.resolved := advancing.order.symm
  rw [Plan.order, order]
  exact advancing.executed

namespace Graph.Joined

variable {g : Graph} (joined : g.Joined) {capacity : Nat} {factories : List Factory} {plan : Plan}
include joined

theorem mem_entries {id : NodeId} (alive : id ∈ g.liveIds) (operation : g.isFactory id = false)
    (fed : ∀ edge ∈ g.producers id, g.isFactory edge.node) : id ∈ g.entries := by
  obtain ⟨node, live, rfl⟩ := List.mem_map.mp alive
  have found := ((mem_live_of_numbered joined.numbered).mp live).1
  rw [isFactory_of_node? found] at operation
  rw [producers_of_node? found] at fed
  refine List.mem_map.mpr ⟨node, List.mem_filter.mpr ⟨live, ?_⟩, rfl⟩
  rw [operation, List.all_eq_true.mpr fed]
  rfl

/-- Every operation is admitted, and so is everything that waits for one. -/
theorem mem_order_of_schedule {rank : NodeId → Nat} (ranks : g.Ranks rank)
    (h : g.schedule capacity factories = .ok plan) {id : NodeId} (alive : id ∈ g.liveIds)
    (fit : g.isFactory id = false ∨ g.producers id ≠ []) : id ∈ plan.order := by
  obtain ⟨s, reached, none, rfl⟩ := Scheduling.reaches_of_schedule h
  obtain ⟨advancing, awake⟩ := reached.invariant
    (P := fun s => Scheduling.Advancing g (Pool.new factories).units s ∧ Scheduling.Awake g s)
    (fun _ _ holds next => ⟨Scheduling.advancing_cycle joined.numbered holds.1 next,
      Scheduling.awake_cycle joined holds.1 holds.2 next⟩)
    ⟨Scheduling.advancing_start g _, fun _ woken => .inr (woken.resolve_right (by simp))⟩
  have woken : ∀ id, (id ∈ g.entries ∨ ∃ edge ∈ g.producers id, edge.node ∈ s.resolved) → id ∈ s.resolved := by
    intro id reason
    have member := awake id reason
    rw [none] at member
    exact member.resolve_right List.not_mem_nil
  suffices admitted : id ∈ s.resolved by
    rw [advancing.order] at admitted
    exact List.mem_reverse.mp admitted
  induction level : rank id using Nat.strongRecOn generalizing id with
  | ind level ih =>
      subst level
      apply woken
      by_cases fed : ∀ edge ∈ g.producers id, g.isFactory edge.node
      · left
        apply joined.mem_entries alive _ fed
        rcases fit with operation | waits
        · exact operation
        · -- what a factory delivers is never taken by a factory
          obtain ⟨edge, inside⟩ := List.exists_mem_of_ne_nil _ waits
          exact (joined.drawn inside (fed edge inside)).2
      · right
        simp only [not_forall, Bool.not_eq_true] at fed
        obtain ⟨edge, inside, operation⟩ := fed
        exact ⟨edge, inside, ih _ (ranks id edge inside) (joined.producer_live inside) (.inl operation) rfl⟩

end Graph.Joined

end LatticeSurgery
