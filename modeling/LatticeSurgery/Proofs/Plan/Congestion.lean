import Mathlib.Data.Nat.Count
import LatticeSurgery.Proofs.Chains.Service
import LatticeSurgery.Proofs.Plan.Waiting

/-! # Congested cycles

A cycle of a plan is congested if the channel is full and keeps an operation waiting that lacks nothing else: its
producers are done, and the factories that serve it have had the time for its units since their last service. These
are the cycles that only the channel costs: a way to run the operations that waits for the producers and factories
of the plan, but knows no channel, can be faster by no more than their number.
-/

namespace LatticeSurgery

namespace Plan

variable {g : Graph} {capacity : Nat} {factories : List Factory} {plan : Plan} {id : NodeId} {cycle : Nat}

/-- Cycle in which a node is admitted; the end of the plan for others. -/
def cycleOf (plan : Plan) (id : NodeId) : Nat := (plan.cycleOf? id).getD plan.cycles

/-- First cycle in which a factory can have a unit for a node, given whom it serves before. -/
def suppliedAt (plan : Plan) (id : NodeId) (unit : Draw) : Nat :=
  ((plan.served.filter fun entry => entry.2 = unit && plan.cycleOf entry.1 < plan.cycleOf id).map
    fun entry => plan.cycleOf entry.1 + unit.period).foldl max unit.period

/-- First cycle in which only the channel can keep a node waiting. -/
def readyAt (g : Graph) (plan : Plan) (id : NodeId) : Nat :=
  (((g.producers id).filter (!g.isFactory ·.node)).map (plan.cycleOf ·.node + 1)
    ++ (plan.draws.getD id []).map (plan.suppliedAt id)).foldl max 0

/-- Whether the channel is full in a cycle and keeps an operation waiting. -/
def congested (g : Graph) (capacity : Nat) (plan : Plan) (cycle : Nat) : Bool :=
  plan.layers[cycle]?.any (fun layer => capacity ≤ layer.countP g.isNonLocal)
    && plan.order.any fun id => g.isNonLocal id && plan.readyAt g id ≤ cycle && cycle < plan.cycleOf id

/-- Number of congested cycles. -/
def congestion (g : Graph) (capacity : Nat) (plan : Plan) : Nat := Nat.count (plan.congested g capacity ·) plan.cycles

/-! ## When a node is ready -/

theorem readyAt_le_iff {bound : Nat} :
    plan.readyAt g id ≤ bound ↔
      (∀ edge ∈ g.producers id, g.isFactory edge.node = false → plan.cycleOf edge.node < bound) ∧
        ∀ unit ∈ plan.draws.getD id [], plan.suppliedAt id unit ≤ bound := by
  simp only [readyAt, foldl_max_le_iff, Nat.zero_le, true_and, List.forall_mem_append, List.forall_mem_map,
    List.mem_filter, Bool.not_eq_true', and_imp, Nat.succ_le_iff]

theorem suppliedAt_le_iff {unit : Draw} {bound : Nat} :
    plan.suppliedAt id unit ≤ bound ↔ unit.period ≤ bound ∧
      ∀ other, (other, unit) ∈ plan.served → plan.cycleOf other < plan.cycleOf id →
        plan.cycleOf other + unit.period ≤ bound := by
  simp only [suppliedAt, foldl_max_le_iff, List.forall_mem_map, List.mem_filter, Bool.and_eq_true, decide_eq_true_eq,
    and_imp, Prod.forall]
  refine and_congr_right fun _ => ⟨fun all other served => ?_, ?_⟩
  · exact all other unit served rfl
  · rintro all other _ served rfl
    exact all other served

theorem cycleOf_eq (once : plan.order.Nodup) (admits : plan.Admits id cycle) : plan.cycleOf id = cycle := by
  obtain ⟨layer, found, member⟩ := admits
  obtain ⟨inside, rfl⟩ := List.getElem?_eq_some_iff.mp found
  have first : plan.cycleOf? id = some cycle := by
    refine List.findIdx?_eq_some_iff_getElem.mpr ⟨inside, by simpa using member, fun before earlier => ?_⟩
    have apart := List.pairwise_iff_getElem.mp (List.nodup_flatten.mp once).2 before cycle (by omega) inside earlier
    simpa using fun there => apart there member
  rw [cycleOf, first, Option.getD_some]

theorem Safe.nodup (safe : plan.Safe g capacity) : plan.order.Nodup := by
  refine List.nodup_iff_count_le_one.mpr fun id => ?_
  by_cases member : id ∈ plan.order
  · obtain ⟨node, live, rfl, operation⟩ := safe.operations id member
    exact Nat.le_of_eq (safe.complete node live operation)
  · exact (List.count_eq_zero.mpr member).trans_le (Nat.zero_le 1)

theorem Safe.admits_cycleOf (safe : plan.Safe g capacity) (member : id ∈ plan.order) :
    plan.Admits id (plan.cycleOf id) := by
  obtain ⟨cycle, admits⟩ := exists_admits.mpr member
  rwa [cycleOf_eq safe.nodup admits]

/-- The producers of a node are admitted before it. -/
theorem Safe.cycleOf_lt (safe : plan.Safe g capacity) (member : id ∈ plan.order) {edge : Edge}
    (reads : edge ∈ g.producers id) (operation : g.isFactory edge.node = false) :
    edge.node ∈ plan.order ∧ plan.cycleOf edge.node < plan.cycleOf id := by
  obtain ⟨layer, found, listed⟩ := safe.admits_cycleOf member
  obtain ⟨before, earlier, there, producer⟩ := safe.ordered _ layer found id listed edge reads operation
  have admits : plan.Admits edge.node before := ⟨there, producer⟩
  rw [cycleOf_eq safe.nodup admits]
  exact ⟨exists_admits.mp ⟨before, admits⟩, earlier⟩

/-- Services come in the order of their cycles. -/
theorem pairwise_cycleOf (once : plan.order.Nodup) :
    plan.served.Pairwise fun a b => plan.cycleOf a.1 ≤ plan.cycleOf b.1 := by
  have cycle : ∀ {i : Nat} {layer}, plan.layers[i]? = some layer → ∀ id ∈ layer, plan.cycleOf id = i :=
    fun found id member => cycleOf_eq once ⟨_, found, member⟩
  have order : plan.order.Pairwise fun a b => plan.cycleOf a ≤ plan.cycleOf b := by
    refine List.pairwise_flatten.mpr ⟨fun layer listed => ?_, List.pairwise_iff_getElem.mpr ?_⟩
    · obtain ⟨i, found⟩ := List.getElem?_of_mem listed
      refine List.pairwise_of_forall_mem_list fun a one b two => Nat.le_of_eq ?_
      rw [cycle found a one, cycle found b two]
    · intro i j first second below a one b two
      rw [cycle (List.getElem?_eq_getElem first) a one, cycle (List.getElem?_eq_getElem second) b two]
      exact Nat.le_of_lt below
  refine List.pairwise_flatMap.mpr ⟨fun id _ => ?_, order.imp fun before => ?_⟩
  · refine List.pairwise_map.mpr (List.pairwise_of_forall ?_)
    exact fun _ _ => Nat.le_refl _
  · intro first one second two
    obtain ⟨_, _, rfl⟩ := List.mem_map.mp one
    obtain ⟨_, _, rfl⟩ := List.mem_map.mp two
    exact before

theorem index_lt_of_cycleOf (once : plan.order.Nodup) {i j : Nat} {a b : NodeId × Draw}
    (first : plan.served[i]? = some a) (second : plan.served[j]? = some b)
    (before : plan.cycleOf a.1 < plan.cycleOf b.1) : i < j := by
  obtain ⟨inside, rfl⟩ := List.getElem?_eq_some_iff.mp first
  obtain ⟨inside', rfl⟩ := List.getElem?_eq_some_iff.mp second
  rcases Nat.lt_trichotomy i j with below | rfl | above
  · exact below
  · exact absurd before (Nat.lt_irrefl _)
  · exact absurd before (Nat.not_lt.mpr
      (List.pairwise_iff_getElem.mp (pairwise_cycleOf once) j i inside' inside above))

/-! ## Who waits for the channel -/

/-- A node that is ready and not yet admitted makes the cycle a congested one. -/
theorem congested_of_ready (wired : g.Wired) (h : g.schedule capacity factories = .ok plan) (member : id ∈ plan.order)
    (ready : plan.readyAt g id ≤ cycle) (early : cycle < plan.cycleOf id) : plan.congested g capacity cycle := by
  have safe := Safe.of_schedule wired h
  obtain ⟨s, orderly, stocked, none, same⟩ := Scheduling.schedule_eq_ok wired h
  have layers : plan.layers = s.layers.toList := congrArg Plan.layers same
  have draws : plan.draws = s.draws := congrArg Plan.draws same
  have inside : cycle < plan.cycles := by
    have last := (safe.admits_cycleOf member).lt
    rw [layers, Array.length_toList] at last
    exact same ▸ Nat.lt_trans early last
  obtain ⟨node, live, rfl, operation⟩ := safe.operations id member
  have found := wired.mem_live.mp live
  obtain ⟨producers, supplies⟩ := readyAt_le_iff.mp ready
  rcases lacks_of_schedule wired h found operation inside with ⟨since, within, admits⟩ | lacks
  · rw [cycleOf_eq safe.nodup admits] at early
    omega
  cases lacks with
  | producer reads produced late =>
      have before := safe.cycleOf_lt member reads produced
      exact absurd (safe.admits_cycleOf before.1) (late _ (producers _ reads produced))
  | channel joint layer full =>
      rw [congested, layer, Option.any_some, decide_eq_true full, Bool.true_and]
      refine List.any_eq_true.mpr ⟨node.id, member, ?_⟩
      simp only [joint, ready, early, decide_true, Bool.and_self]
  | unit known drawn busy =>
      -- the unit that the node gets in the end would be there already
      obtain rfl := Option.some.inj (found.symm.trans known)
      have resolved : node.id ∈ s.resolved := by
        rw [orderly.order, List.mem_reverse, ← layers]
        exact member
      obtain ⟨symbols, made⟩ := stocked.served node.id resolved node found
      rw [← symbols] at drawn
      obtain ⟨unit, gets, named⟩ := List.mem_map.mp drawn
      obtain ⟨first, services⟩ := suppliedAt_le_iff.mp (supplies unit (draws ▸ gets))
      rcases busy unit (made unit gets) named with still | ⟨other, since, admits, taken, within, still⟩
      · omega
      · have served := services other (mem_served.mpr ⟨exists_admits.mp ⟨since, admits⟩, taken⟩)
        rw [cycleOf_eq safe.nodup admits] at served
        have finished := served (by omega)
        omega

/-! ## Other ways to run the operations -/

/-- Times that respect the producers and the factories of a plan: a node comes after its producers, and after the
    periods that its factories need since they served others before it. -/
structure Respects (g : Graph) (plan : Plan) (time : NodeId → Nat) : Prop where
  producers : ∀ id ∈ plan.order, ∀ edge ∈ g.producers id, g.isFactory edge.node = false → time edge.node < time id
  periods : ∀ id unit, (id, unit) ∈ plan.served → unit.period ≤ time id
  services : ∀ id other unit, (id, unit) ∈ plan.served → (other, unit) ∈ plan.served →
    plan.cycleOf other < plan.cycleOf id → time other + unit.period ≤ time id

theorem count_congested_le (g : Graph) (capacity : Nat) (plan : Plan) {early late : Nat} (order : early ≤ late) :
    Nat.count (plan.congested g capacity ·) late ≤ Nat.count (plan.congested g capacity ·) early + (late - early) := by
  obtain ⟨gap, rfl⟩ := Nat.exists_eq_add_of_le order
  rw [Nat.count_add, Nat.add_sub_cancel_left]
  exact Nat.add_le_add_left (Nat.count_le _) _

/-- No such times are ahead of the plan by more than the congested cycles. -/
theorem Respects.cycleOf_le {time : NodeId → Nat} (respects : plan.Respects g time) (wired : g.Wired)
    (h : g.schedule capacity factories = .ok plan) (member : id ∈ plan.order) :
    plan.cycleOf id ≤ time id + Nat.count (plan.congested g capacity ·) (plan.cycleOf id) := by
  have safe := Safe.of_schedule wired h
  have grow := Nat.count_monotone (plan.congested g capacity ·)
  induction cycle : plan.cycleOf id using Nat.strongRecOn generalizing id with
  | ind now ih =>
      subst cycle
      have ready : plan.readyAt g id ≤ time id + Nat.count (plan.congested g capacity ·) (plan.readyAt g id) := by
        obtain ⟨producers, supplies⟩ := readyAt_le_iff.mp (Nat.le_refl (plan.readyAt g id))
        refine readyAt_le_iff.mpr ⟨fun edge reads operation => ?_, fun unit draws => ?_⟩
        · obtain ⟨listed, before⟩ := safe.cycleOf_lt member reads operation
          have hyp := ih _ before listed rfl
          have later := respects.producers id member edge reads operation
          have more := grow (Nat.le_of_lt (producers edge reads operation))
          omega
        · have served := mem_served.mpr ⟨member, draws⟩
          obtain ⟨_, services⟩ := suppliedAt_le_iff.mp (supplies unit draws)
          refine suppliedAt_le_iff.mpr ⟨Nat.le_add_right_of_le (respects.periods id unit served), ?_⟩
          intro other taken before
          have hyp := ih _ before (mem_served.mp taken).1 rfl
          have later := respects.services id other unit served taken before
          have more := grow (Nat.le_of_add_right_le (services other taken before))
          omega
      rcases Nat.le_total (plan.cycleOf id) (plan.readyAt g id) with early | late
      · have few := count_congested_le g capacity plan early
        omega
      · -- from when it is ready on, every cycle that passes the node over is congested
        obtain ⟨gap, reached⟩ := Nat.exists_eq_add_of_le late
        have all : Nat.count (fun k => plan.congested g capacity (plan.readyAt g id + k)) gap = gap := by
          refine Nat.count_of_forall fun k below => ?_
          exact congested_of_ready wired h member (Nat.le_add_right _ _) (by omega)
        rw [reached, Nat.count_add, all]
        omega

end Plan

/-! ## The last cycle -/

namespace Scheduling

variable {g : Graph} {capacity : Nat} {factories : List Factory} {s : Scheduling}

/-- A cycle that admits nobody leaves its candidates to the next one. -/
theorem admits_last_of_reaches (wired : g.Wired)
    (reached : Reaches (cycle g capacity) { candidates := g.entries, pool := Pool.new factories } s)
    (none : s.candidates = []) : s.layers.size = 0 ∨ ∃ id, s.plan.Admits id (s.layers.size - 1) := by
  cases reached with
  | refl => exact .inl rfl
  | @tail before _ reached next =>
      right
      obtain ⟨orderly, stocked⟩ := orderly_of_reaches wired reached
      obtain ⟨t, done, fair, _, _⟩ := turns_eq_ok wired orderly stocked
      obtain ⟨last, same, rfl⟩ := cycle_eq_again next
      obtain rfl := Except.ok.inj (done.symm.trans same)
      have more : before.candidates ≠ [] := by
        intro none
        rw [cycle, none] at next
        cases next
      obtain ⟨id, candidate⟩ := List.exists_mem_of_ne_nil _ more
      have out : id ∈ t.resolved := by
        by_contra left
        have stays := (mem_candidates_next (g := g)).mpr ⟨left, .inl candidate⟩
        rw [none] at stays
        cases stays
      have admitted := ((Sweep.mem_resolved fair).mp out).resolve_right (orderly.pending id candidate)
      refine ⟨id, ?_⟩
      rw [show (before.next g t).layers.size - 1 = before.layers.size from Nat.pred_eq_of_eq_succ (Array.size_push ..)]
      exact admits_next admitted

end Scheduling

namespace Plan

variable {g : Graph} {capacity : Nat} {factories : List Factory} {plan : Plan}

/-- A plan that is not empty ends with a cycle that admits somebody. -/
theorem exists_last (wired : g.Wired) (h : g.schedule capacity factories = .ok plan) (some : 0 < plan.cycles) :
    ∃ id ∈ plan.order, plan.cycleOf id + 1 = plan.cycles := by
  have safe := Safe.of_schedule wired h
  obtain ⟨s, reached, none, rfl⟩ := Scheduling.reaches_of_schedule h
  obtain ⟨id, admits⟩ := (Scheduling.admits_last_of_reaches wired reached none).resolve_left (Nat.ne_of_gt some)
  refine ⟨id, exists_admits.mp ⟨_, admits⟩, ?_⟩
  exact (congrArg (· + 1) (cycleOf_eq safe.nodup admits)).trans (Nat.sub_add_cancel some)

/-- A plan is no longer than what respects its producers and factories, but for its congested cycles. -/
theorem Respects.cycles_le {time : NodeId → Nat} (respects : plan.Respects g time) (wired : g.Wired)
    (h : g.schedule capacity factories = .ok plan) {bound : Nat} (within : ∀ id ∈ plan.order, time id < bound) :
    plan.cycles ≤ bound + plan.congestion g capacity := by
  rcases Nat.eq_zero_or_pos plan.cycles with empty | some
  · rw [empty]
    exact Nat.zero_le _
  · obtain ⟨id, member, last⟩ := exists_last wired h some
    have ahead := respects.cycleOf_le wired h member
    have early := within id member
    have fewer := Nat.count_monotone (plan.congested g capacity ·) (Nat.le_of_lt (Nat.lt_of_succ_le (Nat.le_of_eq last)))
    rw [congestion]
    omega

end Plan

end LatticeSurgery
