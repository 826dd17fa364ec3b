import Mathlib.Algebra.Order.BigOperators.Group.List
import Mathlib.Algebra.Order.Group.Nat
import LatticeSurgery.Proofs.Routing.Readiness

/-! # Every run ends

A node that is not placed yet has its placement and its whole duration ahead of it, an active one what its
counter says. Counting down and placing take from this work and nothing adds to it, so a run can have only
so many cycles in which something happens.
-/

namespace LatticeSurgery

namespace Run

variable {g : Graph} {r s : Run} {node : Node} {limit : Nat}

/-! ## The work ahead -/

/-- What a node has ahead of it: its placement, if it is not placed yet, and the cycles it has left. -/
def workOf (r : Run) (node : Node) : Nat :=
  match r.stages[node.id]? with
  | some .resolved => 0
  | some (.active n) => n
  | _ => node.duration + 1

/-- What some nodes have ahead of them, all together. -/
def work (r : Run) (nodes : List Node) : Nat := (nodes.map r.workOf).foldr (· + ·) 0

theorem workOf_congr (same : s.stages[node.id]? = r.stages[node.id]?) : s.workOf node = r.workOf node := by
  rw [workOf, workOf, same]

theorem workOf_unplaced (unplaced : r.stages[node.id]? = none ∨ r.stages[node.id]? = some .waiting) :
    r.workOf node = node.duration + 1 := by
  rcases unplaced with none | waits
  · rw [workOf, none]
  · rw [workOf, waits]

theorem workOf_enqueue {id : NodeId} (fresh : r.stages[id]? = none) : (r.enqueue id).workOf node = r.workOf node := by
  have stages := r.getElem?_stages_enqueue id node.id
  by_cases here : node.id = id
  · rw [if_pos here] at stages
    rw [workOf_unplaced (.inr stages), workOf_unplaced (.inl (here ▸ fresh))]
  · rw [if_neg here] at stages
    exact workOf_congr stages

theorem workOf_countDown {life : NodeId → Life} (progress : r.Progress g 1 [] [] life) (node : Node) :
    r.countDown.workOf node ≤ r.workOf node ∧
      (node.id ∈ r.active → r.countDown.workOf node < r.workOf node) := by
  rcases progress.stage_countDown node.id with ⟨n, stage, active, _, counted⟩ | ⟨idle, _, same⟩
  · have left := (progress.active node.id n stage).1
    have less : r.countDown.workOf node < r.workOf node := by
      rw [workOf, workOf, stage, counted]
      by_cases last : n ≤ 1
      · rw [if_pos last]
        exact left
      · rw [if_neg last]
        exact Nat.sub_lt left Nat.one_pos
    exact ⟨less.le, fun _ => less⟩
  · exact ⟨(workOf_congr same).le, fun active => absurd active (by simpa using idle)⟩

/-- Waking and giving up patches leave the work as it is. -/
theorem workOf_turnover (g : Graph) (r : Run) (node : Node) : (r.turnover g).workOf node = r.countDown.workOf node :=
  turnover_induction (P := fun t => t.workOf node = r.countDown.workOf node) rfl (fun _ _ _ same _ _ => same)
    (fun _ _ same wakes => (workOf_enqueue wakes.fresh).trans same)

/-- A placement is work done, and what the node has left is at most its duration. -/
theorem workOf_settle {id : NodeId} {patches : List Coord} {asked floor : Floorplan} {placed : Node}
    (waits : r.stages[id]? = some .waiting) (admits : r.Admits g id placed patches asked floor)
    (known : g.node? node.id = some node) :
    (r.settle id placed patches (asked.startOf placed r.cycle) floor).workOf node ≤ r.workOf node ∧
      (node.id = id →
        (r.settle id placed patches (asked.startOf placed r.cycle) floor).workOf node < r.workOf node) := by
  have stages : (r.settle id placed patches (asked.startOf placed r.cycle) floor).stages[node.id]? = _ :=
    getElem?_stages_settle node.id
  by_cases here : node.id = id
  · subst here
    obtain rfl : placed = node := Option.some.inj (admits.known.symm.trans known)
    rw [if_pos rfl] at stages
    have less : (r.settle placed.id placed patches (asked.startOf placed r.cycle) floor).workOf placed
        < r.workOf placed := by
      rw [workOf_unplaced (.inr waits), workOf, stages]
      exact Nat.lt_succ_of_le (Nat.sub_le _ _)
    exact ⟨less.le, fun _ => less⟩
  · rw [if_neg here] at stages
    exact ⟨(workOf_congr stages).le, fun same => absurd same here⟩

theorem workOf_admission (queued : r.Queued) (h : r.admission g = .ok s) (known : g.node? node.id = some node) :
    s.workOf node ≤ r.workOf node ∧ (node.id ∈ s.admitted → s.workOf node < r.workOf node) := by
  refine admission_induction (P := fun t => t.workOf node ≤ r.workOf node ∧
    (node.id ∈ t.admitted → t.workOf node < r.workOf node)) queued ?_ (fun _ _ holds => holds) ?_ h
  · exact ⟨Nat.le_refl _, fun member => absurd member List.not_mem_nil⟩
  · rintro t id placed patches asked floor ⟨le, less⟩ waits admits
    obtain ⟨le', less'⟩ := workOf_settle waits admits known
    refine ⟨le'.trans le, fun member => ?_⟩
    rcases List.mem_append.mp member with earlier | here
    · exact le'.trans_lt (less earlier)
    · exact (less' (List.mem_singleton.mp here)).trans_le le

/-! ## Cycles in which something happens -/

theorem active_turnover (g : Graph) (r : Run) : (r.turnover g).active = r.countDown.active :=
  turnover_induction (P := fun t => t.active = r.countDown.active) rfl (fun _ _ _ same _ _ => same)
    (fun _ _ same _ => same)

/-- The active nodes are those that stay active and those that are placed. -/
theorem active_admission (queued : r.Queued) (h : r.admission g = .ok s) : s.active = r.active ++ s.admitted := by
  refine admission_induction (P := fun t => t.active = r.active ++ t.admitted) queued ?_ (fun _ _ same => same) ?_ h
  · exact (List.append_nil _).symm
  · intro t id node patches asked floor same _ _
    show t.active ++ [id] = r.active ++ (t.admitted ++ [id])
    rw [same, List.append_assoc]

/-- Whether nothing is placed, finishes or runs in a cycle that ends here. -/
def isQuiet (r : Run) (resolved : List NodeId) : Bool :=
  r.admitted.isEmpty && resolved.isEmpty && r.active.isEmpty

theorem isQuiet_iff {resolved : List NodeId} :
    r.isQuiet resolved ↔ r.admitted = [] ∧ resolved = [] ∧ r.active = [] := by
  simp [isQuiet, and_assoc]

/-- Without active nodes nothing can happen but placements. -/
theorem isQuiet_admission_iff (queued : (r.turnover g).Queued) (h : (r.turnover g).admission g = .ok s) :
    s.isQuiet r.expiring ↔ r.active = [] ∧ s.admitted = [] := by
  have active := active_admission queued h
  rw [active_turnover] at active
  rw [isQuiet_iff, active]
  constructor
  · rintro ⟨unplaced, unfinished, idle⟩
    refine ⟨List.eq_nil_iff_forall_not_mem.mpr fun id member => ?_, unplaced⟩
    rcases Nat.lt_or_ge 1 (r.remaining id) with more | last
    · have stays := List.mem_append_left s.admitted (mem_active_countDown.mpr ⟨member, more⟩)
      rw [idle] at stays
      cases stays
    · have expires := mem_expiring.mpr ⟨member, last⟩
      rw [unfinished] at expires
      cases expires
  · rintro ⟨idle, unplaced⟩
    exact ⟨unplaced, by simp [expiring, idle], by simp [countDown, idle, unplaced]⟩

theorem waiting_of_mem_admitted (queued : r.Queued) (h : r.admission g = .ok s) {id : NodeId}
    (member : id ∈ s.admitted) : r.stages[id]? = some .waiting ∧ ∃ node, g.node? id = some node := by
  have holds := admission_induction (P := fun t =>
    (∀ id : NodeId, t.stages[id]? = some .waiting → r.stages[id]? = some .waiting) ∧
      ∀ id ∈ t.admitted, r.stages[id]? = some .waiting ∧ ∃ node, g.node? id = some node)
    queued ?_ (fun _ _ holds => holds) ?_ h
  · exact holds.2 id member
  · exact ⟨fun _ waits => waits, fun id member => absurd member List.not_mem_nil⟩
  · rintro t placed node patches asked floor ⟨waited, holds⟩ waits admits
    refine ⟨fun id later => ?_, fun id member => ?_⟩
    · rw [getElem?_stages_settle] at later
      split at later
      · cases later
      · exact waited id later
    · rcases List.mem_append.mp member with earlier | here
      · exact holds id earlier
      · cases List.mem_singleton.mp here
        exact ⟨waited placed waits, node, admits.known⟩

/-- No node has more ahead of it after a cycle. -/
theorem workOf_cycle {life : NodeId → Life} (history : r.History g 1 [] [] life)
    (h : (r.turnover g).admission g = .ok s) (known : g.node? node.id = some node) : s.workOf node ≤ r.workOf node := by
  calc
    s.workOf node ≤ (r.turnover g).workOf node := (workOf_admission history.queued_turnover h known).1
    _ = r.countDown.workOf node := workOf_turnover g r node
    _ ≤ r.workOf node := (workOf_countDown history.toProgress node).1

/-- If something happens in a cycle, a node that is in the graph, or that some node reads from, has less ahead of it
    afterwards. -/
theorem exists_workOf_lt {life : NodeId → Life} (numbered : g.Numbered) (history : r.History g 1 [] [] life)
    (h : (r.turnover g).admission g = .ok s) (busy : ¬s.isQuiet r.expiring) :
    ∃ node, g.node? node.id = some node ∧
      (g.isRetired node.id = false ∨ ∃ n, ∃ edge ∈ g.producers n, edge.node = node.id) ∧
      s.workOf node < r.workOf node := by
  have queued := history.queued_turnover
  have turned := fun node => workOf_turnover g r node
  have counted := fun node => workOf_countDown history.toProgress node
  rw [isQuiet_admission_iff queued h, not_and_or] at busy
  rcases busy with runs | places
  · obtain ⟨id, active⟩ := List.exists_mem_of_ne_nil _ runs
    obtain ⟨n, stage⟩ := (history.counted id).mp active
    obtain ⟨node, known, _⟩ := (history.lives id _ stage (by simp)).1.lasts
    obtain rfl := numbered id node known
    exact ⟨node, known, history.wanted node.id _ stage,
      (workOf_admission queued h known).1.trans_lt ((turned node).trans_lt ((counted node).2 active))⟩
  · obtain ⟨id, placed⟩ := List.exists_mem_of_ne_nil _ places
    obtain ⟨waits, node, known⟩ := waiting_of_mem_admitted queued h placed
    obtain rfl := numbered id node known
    exact ⟨node, known, history.turnover.wanted node.id _ waits,
      ((workOf_admission queued h known).2 placed).trans_le ((turned node).le.trans (counted node).1)⟩

section

variable {nodes : List Node} {life : NodeId → Life} (history : r.History g 1 [] [] life)
  (h : (r.turnover g).admission g = .ok s) (known : ∀ node ∈ nodes, g.node? node.id = some node)
include history h known

theorem work_le : s.work nodes ≤ r.work nodes := by
  rw [work, work, ← List.sum_eq_foldr, ← List.sum_eq_foldr]
  exact List.sum_le_sum fun node member => workOf_cycle history h (known node member)

/-- A cycle leaves less work if one of the nodes has less ahead of it. -/
theorem work_lt (less : ∃ node ∈ nodes, s.workOf node < r.workOf node) : s.work nodes < r.work nodes := by
  rw [work, work, ← List.sum_eq_foldr, ← List.sum_eq_foldr]
  exact List.sum_lt_sum _ _ (fun node member => workOf_cycle history h (known node member)) less

end

/-! ## Runs without quiet cycles -/

/-- The state in which the next cycle begins. -/
def closed (r : Run) (resolved : List NodeId) (idle : Nat) : Run :=
  { r with
    waiting := r.waiting.filter (!r.admitted.contains ·)
    idle
    records := r.records.push { cycle := r.cycle, admitted := r.admitted, active := r.active, resolved }
    cycle := r.cycle + 1 }

theorem close_of_busy {resolved : List NodeId} (busy : ¬r.isQuiet resolved) :
    r.close limit resolved = .again (r.closed resolved 0) := by
  unfold isQuiet at busy
  simp only [close, if_neg busy, Nat.not_lt_zero, if_false, closed]

/-- A quiet cycle is counted, and one too many ends the run. -/
theorem close_of_quiet {resolved : List NodeId} (quiet : r.isQuiet resolved) :
    r.close limit resolved
      = if limit < r.idle + 1 then .done (.error ⟨.unroutable r.cycle r.waiting, r.floor⟩)
        else .again (r.closed resolved (r.idle + 1)) := by
  have kept : r.waiting.filter (!r.admitted.contains ·) = r.waiting := by simp [(isQuiet_iff.mp quiet).1]
  unfold isQuiet at quiet
  simp only [close, if_pos quiet, kept, closed]

theorem step_of_admission (goesOn : ¬(r.waiting.isEmpty && r.active.isEmpty))
    (h : (r.turnover g).admission g = .ok s) : r.step g limit = s.close limit r.expiring := by
  rw [step, if_neg goesOn, h]

/-- If no quiet cycle is allowed, a cycle after which the run goes on is not quiet. -/
theorem step_zero_eq_again (h : r.step g 0 = .again s) :
    ∃ t, ¬(r.waiting.isEmpty && r.active.isEmpty) ∧ (r.turnover g).admission g = .ok t ∧ ¬t.isQuiet r.expiring ∧
      s = t.closed r.expiring 0 := by
  obtain ⟨t, admitted, last⟩ := step_eq_again h
  have goesOn : ¬(r.waiting.isEmpty && r.active.isEmpty) := by
    intro drained
    rw [step, if_pos drained] at h
    cases h
  have busy : ¬t.isQuiet r.expiring := by
    intro quiet
    rw [close_of_quiet quiet, if_pos (Nat.succ_pos _)] at last
    cases last
  rw [close_of_busy busy] at last
  cases last
  exact ⟨t, goesOn, admitted, busy, rfl⟩

/-- Such a cycle is the same whatever the limit. -/
theorem step_of_step_zero (limit : Nat) (h : r.step g 0 = .again s) : r.step g limit = .again s := by
  obtain ⟨t, goesOn, admitted, busy, rfl⟩ := step_zero_eq_again h
  rw [step_of_admission goesOn admitted, close_of_busy busy]

/-- At the start every node has its placement and its whole duration ahead of it. -/
theorem work_start (g : Graph) (f : Floorplan) (nodes : List Node) :
    (start g f).work nodes = (nodes.map (·.duration)).foldr (· + ·) 0 + nodes.length := by
  have fresh : ∀ node, (start g f).workOf node = node.duration + 1 := fun node =>
    wakeAll_induction (P := fun t => t.workOf node = node.duration + 1)
      (fun _ _ same wakes => (workOf_enqueue wakes.fresh).trans same) (workOf_unplaced (.inl (by simp))) g.entries
  rw [work, List.map_congr_left fun node _ => fresh node, ← List.sum_eq_foldr, List.sum_map_add, List.sum_eq_foldr]
  simp

theorem idle_of_reaches {f : Floorplan} (reached : Reaches (step g 0) (start g f) r) : r.idle = 0 := by
  refine reached.invariant (P := fun r => r.idle = 0) (fun s t _ next => ?_) ?_
  · obtain ⟨_, _, _, _, rfl⟩ := step_zero_eq_again next
    rfl
  · exact wakeAll_induction (P := fun t => t.idle = 0) (fun _ _ same _ => same) rfl g.entries

/-- Every record tells of something that happened. -/
def Eventful (r : Run) : Prop := ∀ (i : Nat) record, r.records[i]? = some record → record.isIdle = false

/-- Dating a node back adds to the records of the past and takes nothing from them. -/
theorem Eventful.settle {id : NodeId} {patches : List Coord} {start : Nat} {floor : Floorplan} (eventful : r.Eventful) :
    (r.settle id node patches start floor).Eventful := by
  intro i record found
  obtain ⟨old, inside, rfl⟩ := getElem?_backdate found
  have happened := eventful i old inside
  simp only [CycleRecord.isIdle, Bool.and_eq_false_iff, List.isEmpty_eq_false_iff] at happened ⊢
  exact happened.imp_left (Or.imp_right (List.append_ne_nil_of_left_ne_nil · _))

theorem Eventful.closed {resolved : List NodeId} (eventful : r.Eventful) (busy : ¬r.isQuiet resolved) (idle : Nat) :
    (r.closed resolved idle).Eventful := by
  intro i record found
  rw [Run.closed, Array.getElem?_push] at found
  split at found
  next =>
      cases found
      rw [isQuiet, Bool.and_right_comm] at busy
      exact Bool.eq_false_iff.mpr busy
  · exact eventful i record found

theorem eventful_of_reaches {f : Floorplan} (reached : Reaches (step g 0) (start g f) r) : r.Eventful := by
  induction reached with
  | refl => exact wakeAll_induction (P := Eventful) (fun _ _ holds _ => holds) (by simp [Eventful]) g.entries
  | @tail before after reached next ih =>
      obtain ⟨t, _, admitted, busy, rfl⟩ := step_zero_eq_again next
      obtain ⟨life, history⟩ := history_of_reaches reached
      have turned : (before.turnover g).Eventful :=
        turnover_induction (P := Eventful) ih (fun _ _ _ holds _ _ => holds) (fun _ _ holds _ => holds)
      have told : t.Eventful := admission_induction (P := Eventful) history.queued_turnover turned
        (fun _ _ holds => holds) (fun _ _ _ _ _ _ holds _ _ => holds.settle) admitted
      exact told.closed busy 0

/-- A cycle that begins here is not the end of the run, and nothing is placed, finishes or runs in it. -/
structure Quiet (g : Graph) (r : Run) : Prop where
  goesOn : ¬(r.waiting.isEmpty && r.active.isEmpty)
  ended : ∃ s, (r.turnover g).admission g = .ok s ∧ s.isQuiet r.expiring

/-- What ends a stretch of cycles in which something happens: all is done, a placement fails, or the next
    cycle is quiet. -/
inductive Stops (g : Graph) (r : Run) : Prop where
  | drained : r.waiting = [] → r.active = [] → Stops g r
  | failed {failure : Failure Floorplan} : ¬(r.waiting.isEmpty && r.active.isEmpty) →
      (r.turnover g).admission g = .error failure → Stops g r
  | quiet : r.Quiet g → Stops g r

theorem stops_of_step {outcome : Outcome} (h : r.step g limit = .done outcome) : r.Stops g := by
  by_cases drained : r.waiting.isEmpty && r.active.isEmpty
  · simp only [Bool.and_eq_true, List.isEmpty_iff] at drained
    exact .drained drained.1 drained.2
  · cases ended : (r.turnover g).admission g with
    | error failure => exact .failed drained ended
    | ok s =>
        by_cases quiet : s.isQuiet r.expiring
        · exact .quiet ⟨drained, s, ended, quiet⟩
        · rw [step_of_admission drained ended, close_of_busy quiet] at h
          cases h

/-- Whatever the limit, a run comes to the same stop, and it takes no more cycles than there is work. -/
theorem exists_stop (numbered : g.Numbered) (f : Floorplan) :
    ∃ n r, n ≤ (start g f).work g.nodes.toList ∧ Reaches (step g 0) (start g f) r ∧ r.Stops g ∧
      ∀ limit, advance (step g limit) n (start g f) = some r := by
  -- with a limit of zero a run ends at its first quiet cycle, so every cycle after which it goes on lowers the work
  have ends : (iterate (step g 0) ((start g f).work g.nodes.toList + 1) (start g f)).isSome := by
    refine isSome_iterate (P := Reaches (step g 0) (start g f)) (·.work g.nodes.toList) (fun s t reached next => ?_)
      .refl (Nat.lt_succ_self _)
    obtain ⟨u, _, admitted, busy, rfl⟩ := step_zero_eq_again next
    obtain ⟨life, history⟩ := history_of_reaches reached
    obtain ⟨node, known, _, less⟩ := exists_workOf_lt numbered history admitted busy
    have less : u.work g.nodes.toList < s.work g.nodes.toList := work_lt history admitted
      (fun _ => (Graph.mem_nodes numbered).mp) ⟨node, (Graph.mem_nodes numbered).mpr known, less⟩
    exact ⟨reached.tail next, less⟩
  obtain ⟨outcome, ran⟩ := Option.isSome_iff_exists.mp ends
  obtain ⟨n, r, within, onward, last⟩ := advance_of_iterate ran
  exact ⟨n, r, Nat.le_of_lt_succ within, reaches_of_advance onward, stops_of_step last, fun limit =>
    advance_of_again (fun _ _ => step_of_step_zero limit) onward⟩

end Run

/-- The bound on the cycles of routing leaves room for a run to its stop and as many quiet cycles as are allowed. -/
theorem Floorplan.route_of_iterate {f : Floorplan} {g : Graph} {limit n : Nat} {r : Run} {outcome : Run.Outcome}
    (within : n ≤ (Run.start g f).work g.nodes.toList) (onward : advance (Run.step g limit) n (Run.start g f) = some r)
    (h : iterate (Run.step g limit) (limit + 1) r = some outcome) : f.route g limit = outcome := by
  have room : n + (limit + 1) ≤ g.routeBound limit := by
    have enough : (Run.start g f).work g.nodes.toList ≤ (Run.start g f).work g.nodes.toList * (limit + 1) :=
      Nat.le_mul_of_pos_right _ (Nat.succ_pos limit)
    rw [Graph.routeBound, ← Array.length_toList, ← Run.work_start g f, Nat.add_mul]
    omega
  rw [← iterate_of_advance onward] at h
  rw [route, iterate_of_le h room, Option.getD_some]

end LatticeSurgery
