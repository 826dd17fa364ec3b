import LatticeSurgery.Proofs.Chains.Supply
import LatticeSurgery.Proofs.Routing.Standstill

/-! # A budget of cycles

A cycle in which something happens takes from the work that the live nodes have ahead of them, and a quiet one takes
from the quiet cycles that are allowed in a row. So a run is over within a number of cycles that the graph and the limit
fix beforehand, whatever locks the floor starts with. It ends without an answer only if a node asks for more than any
floor can give.
-/

namespace LatticeSurgery

/-- Cycles that the live nodes run for, all together. -/
def Graph.totalDuration (g : Graph) : Nat := (g.live.map (·.duration)).foldr (· + ·) 0

namespace Run

variable {g : Graph} {r s : Run} {id : NodeId} {limit n : Nat} {f : Floorplan} {life : NodeId → Life}

/-! ## What a cycle takes -/

theorem exists_live_workOf_lt (stocked : g.Stocked) (history : r.History g 1 [] [] life)
    (h : (r.turnover g).admission g = .ok s) (busy : ¬s.isQuiet r.expiring) :
    ∃ node ∈ g.live, s.workOf node < r.workOf node := by
  obtain ⟨node, known, wanted, less⟩ := exists_workOf_lt stocked.numbered history h busy
  have alive : g.isRetired node.id = false := by
    rcases wanted with here | ⟨reader, edge, reads, same⟩
    · exact here
    · exact same ▸ stocked.producer_alive reads
  exact ⟨node, Graph.mem_live_of_node? stocked.numbered known alive, less⟩

theorem clock_admission (queued : (r.turnover g).Queued) (h : (r.turnover g).admission g = .ok s) :
    s.cycle = r.cycle ∧ s.idle = r.idle :=
  admission_induction (P := fun t => t.cycle = r.cycle ∧ t.idle = r.idle) queued
    (turnover_induction (P := fun t => t.cycle = r.cycle ∧ t.idle = r.idle) ⟨rfl, rfl⟩ (fun _ _ _ same _ _ => same)
      (fun _ _ same _ => same))
    (fun _ _ same => same) (fun _ _ _ _ _ _ same _ _ => same) h

/-- An upper bound on the cycles after which a run goes on from here. -/
def budget (g : Graph) (limit : Nat) (r : Run) : Nat := r.work g.live * (limit + 1) + (limit - r.idle)

theorem budget_lt (stocked : g.Stocked) (reached : Reaches (step g limit) (start g f) r)
    (h : r.step g limit = .again s) : s.budget g limit < r.budget g limit := by
  obtain ⟨life, history⟩ := history_of_reaches reached
  obtain ⟨t, admitted, last⟩ := step_eq_again h
  obtain ⟨_, idle⟩ := clock_admission history.queued_turnover admitted
  have known : ∀ node ∈ g.live, g.node? node.id = some node := fun node member =>
    ((Graph.mem_live_of_numbered stocked.numbered).mp member).1
  by_cases quiet : t.isQuiet r.expiring
  · rw [close_of_quiet quiet, idle] at last
    split at last
    · cases last
    next within =>
        cases last
        have less := Nat.mul_le_mul_right (limit + 1) (work_le history admitted known)
        show t.work g.live * (limit + 1) + (limit - (r.idle + 1)) < r.work g.live * (limit + 1) + (limit - r.idle)
        omega
  · rw [close_of_busy quiet] at last
    cases last
    -- what the work falls by is worth more than all the quiet cycles that may follow
    have less := Nat.mul_le_mul_right (limit + 1)
      (work_lt history admitted known (exists_live_workOf_lt stocked history admitted quiet))
    rw [Nat.succ_mul] at less
    show t.work g.live * (limit + 1) + (limit - 0) < r.work g.live * (limit + 1) + (limit - r.idle)
    omega

/-- The clock counts the cycles after which the run went on. -/
theorem cycle_of_advance (reached : Reaches (step g limit) (start g f) r)
    (h : advance (step g limit) n r = some s) : s.cycle = r.cycle + n := by
  induction n generalizing r with
  | zero =>
      cases h
      rfl
  | succ n ih =>
      rw [advance] at h
      split at h
      next next first =>
          obtain ⟨life, history⟩ := history_of_reaches reached
          obtain ⟨t, admitted, last⟩ := step_eq_again first
          have same := (clock_admission history.queued_turnover admitted).1
          obtain ⟨idle, rfl⟩ := close_eq_again last
          rw [ih (reached.tail first) h]
          dsimp only
          omega
      · cases h

/-! ## How a run ends -/

/-- What a run can end with at a cycle: a timeline, nodes that have no place, or a live node that asks for more than any
    floor can give. -/
inductive Ending (g : Graph) (cycle : Nat) : Outcome → Prop where
  | routed (timeline : Timeline) (left : Floorplan) : Ending g cycle (.ok (timeline, left))
  | unroutable (waiting : List NodeId) (left : Floorplan) : Ending g cycle (.error ⟨.unroutable cycle waiting, left⟩)
  | exceeded {node : Node} {e : Error} (left : Floorplan) :
      node ∈ g.live → node.Exceeds cycle e → Ending g cycle (.error ⟨e, left⟩)

theorem ending_of_finish : Ending g r.cycle (r.finish g) := by
  unfold finish
  dsimp only
  split
  · exact .routed _ _
  · exact .unroutable _ _

theorem ending_of_close {resolved : List NodeId} {outcome : Outcome} (h : r.close limit resolved = .done outcome) :
    Ending g r.cycle outcome := by
  by_cases quiet : r.isQuiet resolved
  · rw [close_of_quiet quiet] at h
    split at h
    · cases h
      exact .unroutable _ _
    · cases h
  · rw [close_of_busy quiet] at h
    cases h

theorem ending_of_admission {gone : List NodeId} (stocked : g.Stocked) (history : r.History g 0 [] gone life)
    {failure : Failure Floorplan} (h : r.admission g = .error failure) : Ending g r.cycle (.error failure) := by
  obtain ⟨id, member, node, known, exceeds⟩ := exceeds_of_admitAll h
  have waits := history.queued id (mem_sortBy.mp member) List.not_mem_nil
  have alive := history.not_isRetired stocked.producer_alive waits
  exact .exceeded failure.state (Graph.mem_live_of_node? stocked.numbered known alive) exceeds

theorem ending_of_step (stocked : g.Stocked) (reached : Reaches (step g limit) (start g f) r) {outcome : Outcome}
    (h : r.step g limit = .done outcome) : Ending g r.cycle outcome := by
  obtain ⟨life, history⟩ := history_of_reaches reached
  have turned : (r.turnover g).cycle = r.cycle :=
    turnover_induction (P := fun t => t.cycle = r.cycle) rfl (fun _ _ _ same _ _ => same) (fun _ _ same _ => same)
  unfold step at h
  split at h
  · cases h
    exact ending_of_finish
  · split at h
    next failure failed =>
        cases h
        exact turned ▸ ending_of_admission stocked history.turnover failed
    next s admitted => exact (clock_admission history.queued_turnover admitted).1 ▸ ending_of_close h

end Run

theorem Graph.budget_le_routeBound (g : Graph) (limit : Nat) :
    (g.totalDuration + g.size + 1) * (limit + 1) ≤ g.routeBound limit := by
  have live : g.live.Sublist g.nodes.toList := List.filter_sublist
  have durations : g.totalDuration ≤ (g.nodes.toList.map (·.duration)).foldr (· + ·) 0 := by
    rw [totalDuration, ← List.sum_eq_foldr, ← List.sum_eq_foldr]
    exact (live.map _).sum_le_sum fun _ _ => Nat.zero_le _
  have count : g.size ≤ g.nodes.size := by
    rw [size, ← Array.length_toList]
    exact live.length_le
  have le := Nat.mul_le_mul_right (limit + 1) (Nat.add_le_add_right (Nat.add_le_add durations count) 1)
  exact Nat.le_succ_of_le le

/-- Routing ends on every graph and every floor, locked or not. The run goes on after `n` cycles, the next one is its
    last, and all of them are within the budget; the answer is a timeline or the nodes that have no place, unless a live
    node asks for more ancillae than a list has room for or for an end that is not a 64-bit number. -/
theorem route_ends_within {g : Graph} (produced : g.Produced) (f : Floorplan) (limit : Nat) :
    ∃ n r, advance (Run.step g limit) n (Run.start g f) = some r ∧ r.step g limit = .done (f.route g limit) ∧
      n + 1 ≤ (g.totalDuration + g.size + 1) * (limit + 1) ∧ Run.Ending g n (f.route g limit) := by
  have stocked := produced.stocked
  have first : (Run.start g f).cycle = 0 ∧ (Run.start g f).idle = 0 :=
    Run.wakeAll_induction (P := fun t => t.cycle = 0 ∧ t.idle = 0) (fun _ _ same _ => same) ⟨rfl, rfl⟩ g.entries
  have bound : (Run.start g f).budget g limit + 1 = (g.totalDuration + g.size + 1) * (limit + 1) := by
    rw [Run.budget, Run.work_start, first.2, Nat.succ_mul]
    rfl
  have ends : (iterate (Run.step g limit) ((Run.start g f).budget g limit + 1) (Run.start g f)).isSome :=
    isSome_iterate (P := Reaches (Run.step g limit) (Run.start g f)) (Run.budget g limit)
      (fun _ _ reached next => ⟨reached.tail next, Run.budget_lt stocked reached next⟩) .refl (Nat.lt_succ_self _)
  obtain ⟨outcome, ran⟩ := Option.isSome_iff_exists.mp ends
  obtain ⟨n, r, within, onward, last⟩ := advance_of_iterate ran
  have gives : f.route g limit = outcome := by
    rw [Floorplan.route, iterate_of_le ran (bound ▸ g.budget_le_routeBound limit), Option.getD_some]
  have cycle : r.cycle = n := by
    rw [Run.cycle_of_advance .refl onward, first.1, Nat.zero_add]
  refine ⟨n, r, onward, gives ▸ last, bound ▸ within, ?_⟩
  rw [gives, ← cycle]
  exact Run.ending_of_step stocked (reaches_of_advance onward) last

/-- A patch that somebody else has locked is no reason to go on for longer. -/
theorem route_ends_within_locked :
    Run.gateOnInstance.Produced ∧ Run.gateOnInstance.totalDuration = 5 ∧ Run.gateOnInstance.size = 3 ∧
      ∃ n r, advance (Run.step Run.gateOnInstance 3) n (Run.start Run.gateOnInstance Run.lockedRow) = some r ∧
        r.step Run.gateOnInstance 3 = .done (Run.lockedRow.route Run.gateOnInstance 3) ∧ n + 1 ≤ 36 ∧
        Run.Ending Run.gateOnInstance n (Run.lockedRow.route Run.gateOnInstance 3) := by
  have total : Run.gateOnInstance.totalDuration = 5 := by decide +kernel
  have size : Run.gateOnInstance.size = 3 := by decide +kernel
  obtain ⟨n, r, onward, last, within, ending⟩ := route_ends_within Run.produced_gateOnInstance Run.lockedRow 3
  rw [total, size] at within
  exact ⟨Run.produced_gateOnInstance, total, size, n, r, onward, last, within, ending⟩

/-- A register and two channel patches. -/
def spareRow : Floorplan where
  layout := { cols := 3, rows := [lineOfPatches 0 [.register, .route, .route]] }
  book := ({} : AddressBook).bind "a" ⟨0, 0⟩

/-- One operation that asks for a number of ancillae. -/
def hungryGate (count : Nat) : Except Error Builder :=
  ((Builder.new "hungry").declareAll ["a"]).addGates [(.custom "BIG" 1 count, ["a"])]

/-- Of two requests for more ancillae than the floor has, one is given up as it should be, and the other, for more than
    any list has room for, ends the run in its second cycle without an answer. -/
theorem route_oversized :
    ∃ (b c : Builder) (left left' : Floorplan), b.Reachable ∧ c.Reachable ∧
      spareRow.route b.graph 8 = .error ⟨.unroutable 10 [1], left⟩ ∧
      spareRow.route c.graph 8 = .error ⟨.oversized 18446744073709551615, left'⟩ := by
  have start := Builder.Reachable.declareAll ["a"] (.new "hungry")
  have few : (hungryGate 1000).toOption.any fun b =>
      (spareRow.route b.graph 8).mapError (·.error) == .error (.unroutable 10 [1]) := by decide +kernel
  have many : (hungryGate 18446744073709551615).toOption.any fun b =>
      (spareRow.route b.graph 8).mapError (·.error) == .error (.oversized 18446744073709551615) := by
    decide +kernel
  obtain ⟨b, built, few⟩ := exists_ok_of_any few
  obtain ⟨c, built', many⟩ := exists_ok_of_any many
  obtain ⟨left, few⟩ := exists_error_of_mapError (beq_iff_eq.mp few)
  obtain ⟨left', many⟩ := exists_error_of_mapError (beq_iff_eq.mp many)
  exact ⟨b, c, left, left', start.addGates built, start.addGates built', few, many⟩

end LatticeSurgery
