import LatticeSurgery.Proofs.Plan.Outcome

/-! # Scheduling without a queue

A scheduler that keeps no candidates and gives every operation that is left a turn in every cycle. It
makes the same plans: an operation that is no candidate still waits for another operation, so its turn
changes nothing, and taking its turn away leaves the others in their order.
-/

namespace LatticeSurgery

/-- Scheduling between two cycles, without a record of who may be admitted next. -/
structure FullSweep where
  pool : Pool
  /-- Nodes admitted in the cycles so far. -/
  layers : Array (List NodeId) := #[]
  resolved : List NodeId := []
  draws : NodeMap (List Draw) := ∅

namespace FullSweep

/-- The state at the start of a cycle. -/
def opening (s : FullSweep) : Sweep := { resolved := s.resolved, pool := s.pool, draws := s.draws }

/-- Live operations that were not admitted yet, in construction order. -/
def left (g : Graph) (s : FullSweep) : List NodeId :=
  ((g.live.filter (!·.isFactory)).map (·.id)).filter (!s.resolved.contains ·)

/-- One cycle, in which everybody who is left takes a turn. -/
def cycle (g : Graph) (capacity : Nat) (s : FullSweep) : Next FullSweep (Except Error Plan) :=
  if (s.left g).isEmpty then
    .done (.ok { cycles := s.layers.size, layers := s.layers.toList, draws := s.draws })
  else
    match s.opening.turns g capacity (g.prioritise (s.left g)) with
    | .error e => .done (.error e)
    | .ok sweep =>
        if sweep.admitted.isEmpty && sweep.pool.saturated then
          .done (.error (.stalled s.layers.size ((g.prioritise (s.left g)).filter (!sweep.resolved.contains ·))))
        else
          .again
            { pool := sweep.pool.advance
              layers := s.layers.push sweep.admitted
              resolved := sweep.resolved
              draws := sweep.draws }

theorem cycle_of_turns {g : Graph} {capacity : Nat} {s : FullSweep} {t : Sweep} (more : s.left g ≠ [])
    (done : s.opening.turns g capacity (g.prioritise (s.left g)) = .ok t) :
    s.cycle g capacity
      = if t.admitted.isEmpty && t.pool.saturated then
          .done (.error (.stalled s.layers.size ((g.prioritise (s.left g)).filter (!t.resolved.contains ·))))
        else
          .again { pool := t.pool.advance, layers := s.layers.push t.admitted, resolved := t.resolved,
                   draws := t.draws } := by
  unfold cycle
  rw [if_neg (by simpa using more)]
  simp only [done]

end FullSweep

/-- Schedules all operations by full sweeps. The factories are not looked at beforehand. -/
def Graph.scheduleBySweeps (g : Graph) (capacity : Nat) (factories : List Factory) : Except Error Plan :=
  let pool := Pool.new factories
  (iterate (FullSweep.cycle g capacity) (g.scheduleBound pool) { pool }).getD (.error .unfinished)

/-- The same plan, or a standstill in the same cycle. -/
inductive SameOutcome : Except Error Plan → Except Error Plan → Prop where
  | plan (plan : Plan) : SameOutcome (.ok plan) (.ok plan)
  | stalled (cycle : Nat) (pending pending' : List NodeId) :
      SameOutcome (.error (.stalled cycle pending)) (.error (.stalled cycle pending'))

/-! ## One cycle -/

/-- Turns that would change nothing can be left out. -/
theorem Sweep.turns_filter {g : Graph} {capacity : Nat} {opened s : Sweep} {queue : List NodeId}
    (wired : g.Wired) (closed : g.Closed opened.resolved) {keeps : NodeId → Bool}
    (refused : ∀ id ∈ queue, keeps id = false → ∀ s, Fair g capacity opened s →
      ∀ node, g.node? id = some node → s.admits g capacity node = false)
    (fair : Fair g capacity opened s) :
    s.turns g capacity (queue.filter keeps) = s.turns g capacity queue := by
  induction queue generalizing s with
  | nil => rfl
  | cons id queue ih =>
      have rest := fun other member => refused other (List.mem_cons_of_mem id member)
      have later : ∀ {t}, Fair g capacity opened t →
          t.turns g capacity (queue.filter keeps) = t.turns g capacity queue := ih rest
      rcases turn_cases wired capacity s id with ⟨idle, _⟩ | ⟨node, t, found, admits, done, accepts⟩
      · have skip : s.turns g capacity (id :: queue) = s.turns g capacity queue := by
          rw [turns, idle]
          rfl
        rw [skip, ← later fair]
        cases kept : keeps id with
        | false => rw [List.filter_cons_of_neg (by simp [kept])]
        | true =>
            rw [List.filter_cons_of_pos kept, turns, idle]
            rfl
      · have kept : keeps id = true := by
          refine Bool.not_eq_false _ ▸ fun dropped => ?_
          rw [refused id List.mem_cons_self dropped s fair node found] at admits
          cases admits
        rw [List.filter_cons_of_pos kept, turns, turns, done]
        exact later (fair_accepts wired closed found admits accepts fair)

namespace Scheduling

variable {g : Graph} {capacity : Nat} {s : Scheduling} {t : Sweep} {units : List Draw} {id : NodeId}

/-- A schedule in progress without its candidates. -/
def forget (s : Scheduling) : FullSweep where
  pool := s.pool
  layers := s.layers
  resolved := s.resolved
  draws := s.draws

theorem mem_left_forget (wired : g.Wired) :
    id ∈ s.forget.left g ↔ (∃ node, g.node? id = some node ∧ node.isFactory = false) ∧ id ∉ s.resolved := by
  simp only [FullSweep.left, forget, List.mem_filter, List.mem_map, wired.mem_live, Bool.not_eq_true',
    List.contains_eq_mem, decide_eq_false_iff_not]
  refine and_congr_left fun _ => ⟨?_, ?_⟩
  · rintro ⟨node, ⟨found, operation⟩, rfl⟩
    exact ⟨node, found, operation⟩
  · rintro ⟨node, found, operation⟩
    have named := wired.id_eq found
    exact ⟨node, ⟨named.symm ▸ found, operation⟩, named⟩

theorem nodup_left (wired : g.Wired) (s : FullSweep) : (s.left g).Nodup := by
  have ids : ((g.live.filter (!·.isFactory)).map (·.id)).Pairwise (· < ·) :=
    List.pairwise_map.mpr ((Graph.pairwise_live wired.isNumbered).filter _)
  exact (ids.imp Nat.ne_of_lt).filter _

theorem Orderly.mem_left (orderly : Orderly g capacity s) (wired : g.Wired) (candidate : id ∈ s.candidates) :
    id ∈ s.forget.left g :=
  (mem_left_forget wired).mpr ⟨orderly.operations id (.inr candidate), orderly.pending id candidate⟩

/-- An operation that is no candidate waits for an operation that was not admitted before this cycle. -/
theorem Orderly.refused (orderly : Orderly g capacity s) (wired : g.Wired) (member : id ∈ s.forget.left g)
    (outside : id ∉ s.candidates) (fair : Sweep.Fair g capacity s.opening t) {node : Node}
    (found : g.node? id = some node) : t.admits g capacity node = false := by
  obtain ⟨⟨node', found', operation⟩, fresh⟩ := (mem_left_forget wired).mp member
  obtain rfl := Option.some.inj (found.symm.trans found')
  have asleep := mt (orderly.woken id node found operation) (not_or.mpr ⟨fresh, outside⟩)
  rw [not_or] at asleep
  obtain ⟨inner, unwoken⟩ := asleep
  refine Bool.eq_false_iff.mpr fun admits => inner (wired.mem_entries.mpr ⟨node, found, operation, ?_⟩)
  intro edge inside
  refine Bool.not_eq_false _ ▸ fun produced => unwoken ⟨edge, inside, ?_⟩
  exact fair.ready_of_admits wired found admits inside produced

/-- The candidates take their turns in the order they have among all that is left. -/
theorem prioritise_candidates (wired : g.Wired) (orderly : Orderly g capacity s) (distinct : s.candidates.Nodup) :
    g.prioritise s.candidates = (g.prioritise (s.forget.left g)).filter (s.candidates.contains ·) := by
  have order := sortBy_perm g.takesTurn (s.forget.left g)
  have unique : (g.prioritise (s.forget.left g)).Nodup := order.nodup_iff.mpr (nodup_left wired s.forget)
  refine g.prioritise_eq_of_perm ?_ ((g.pairwise_prioritise _).filter _)
  refine (List.perm_ext_iff_of_nodup (unique.filter _) distinct).mpr fun id => ?_
  rw [List.mem_filter, List.contains_iff_mem]
  exact ⟨And.right, fun candidate => ⟨order.mem_iff.mpr (orderly.mem_left wired candidate), candidate⟩⟩

theorem turns_left (wired : g.Wired) (orderly : Orderly g capacity s) (distinct : s.candidates.Nodup) :
    s.opening.turns g capacity (g.prioritise (s.forget.left g))
      = s.opening.turns g capacity (g.prioritise s.candidates) := by
  rw [prioritise_candidates wired orderly distinct]
  refine (Sweep.turns_filter wired orderly.closed ?_ orderly.fair_opening).symm
  intro id member dropped t fair node found
  have outside : id ∉ s.candidates := by simpa using dropped
  exact orderly.refused wired (mem_sortBy.mp member) outside fair found

theorem left_eq_nil_iff (wired : g.Wired) (orderly : Orderly g capacity s) :
    s.forget.left g = [] ↔ s.candidates = [] := by
  simp only [List.eq_nil_iff_forall_not_mem]
  constructor
  · exact fun none id candidate => none id (orderly.mem_left wired candidate)
  · intro none id member
    obtain ⟨⟨node, found, operation⟩, fresh⟩ := (mem_left_forget wired).mp member
    exact fresh (orderly.all_resolved wired (List.eq_nil_iff_forall_not_mem.mpr none) found operation)

theorem nodup_candidates_next (distinct : s.candidates.Nodup) : (s.next g t).candidates.Nodup := by
  have order := sortBy_perm g.takesTurn s.candidates
  exact nodup_appendNew ((order.nodup_iff.mpr distinct).filter _)

/-- Both schedulers do the same in every cycle, except that they may report different nodes when stuck. -/
theorem agree_cycle (wired : g.Wired) (orderly : Orderly g capacity s) (stocked : Stocked g units s)
    (distinct : s.candidates.Nodup) :
    Next.Agree (fun s t => t = s.forget ∧ Orderly g capacity s ∧ Stocked g units s ∧ s.candidates.Nodup)
      SameOutcome (s.cycle g capacity) (s.forget.cycle g capacity) := by
  by_cases none : s.candidates = []
  · have left := (left_eq_nil_iff wired orderly).mpr none
    rw [cycle, FullSweep.cycle, if_pos (by simp [none]), if_pos (by simp [left])]
    exact .done (.plan _)
  · have left := mt (left_eq_nil_iff wired orderly).mp none
    obtain ⟨t, done, fair, served, members⟩ := turns_eq_ok wired orderly stocked
    have same : s.forget.opening.turns g capacity (g.prioritise (s.forget.left g)) = .ok t :=
      (turns_left wired orderly distinct).trans done
    rw [cycle_of_turns none done, FullSweep.cycle_of_turns left same]
    split
    · exact .done (.stalled _ _ _)
    · exact .again ⟨rfl, orderly_next wired orderly fair members,
        stocked_next stocked fair served orderly members, nodup_candidates_next distinct⟩

/-! ## All cycles -/

theorem agree_iterate (wired : g.Wired) (capacity : Nat) (factories : List Factory) (bound : Nat) :
    Option.Rel SameOutcome
      (iterate (cycle g capacity) bound { candidates := g.entries, pool := Pool.new factories })
      (iterate (FullSweep.cycle g capacity) bound { pool := Pool.new factories }) := by
  have entries : g.entries.Nodup := by
    have ids : g.entries.Pairwise (· < ·) := List.pairwise_map.mpr ((Graph.pairwise_live wired.isNumbered).filter _)
    exact ids.imp Nat.ne_of_lt
  refine iterate_agree (R := fun s t => t = s.forget ∧ Orderly g capacity s ∧
    Stocked g (Pool.new factories).units s ∧ s.candidates.Nodup) ?_ bound
    ⟨rfl, orderly_start wired capacity _, stocked_start g (Pool.within_new factories), entries⟩
  rintro s _ ⟨rfl, orderly, stocked, distinct⟩
  exact agree_cycle wired orderly stocked distinct

/-- Where everything has been admitted, every draw was served by some factory. -/
theorem supplied_of_resolved {factories : List Factory} (wired : g.Wired) (orderly : Orderly g capacity s)
    (stocked : Stocked g (Pool.new factories).units s) (none : s.candidates = []) : g.Supplied factories := by
  intro node live symbol drawn
  have found := wired.mem_live.mp live
  have operation : node.isFactory = false := by
    obtain ⟨edge, inside, _⟩ := Graph.mem_drawn.mp drawn
    exact wired.not_isFactory_of_mem_producers found inside
  obtain ⟨symbols, members⟩ := stocked.served node.id (orderly.all_resolved wired none found operation) node found
  rw [← symbols] at drawn
  obtain ⟨unit, got, rfl⟩ := List.mem_map.mp drawn
  exact Pool.produces_new.mp (Pool.produces_iff.mpr ⟨unit, members unit got, rfl⟩)

end Scheduling

/-- The candidates are bookkeeping only: a plan is made with them exactly if it is made without, and
    scheduling by full sweeps ends within its bound too. -/
theorem schedule_eq_ok_iff_sweeps {b : Builder} (reachable : b.Reachable) (capacity : Nat)
    (factories : List Factory) :
    (∀ plan, b.graph.schedule capacity factories = .ok plan ↔
      b.graph.scheduleBySweeps capacity factories = .ok plan) ∧
    b.graph.scheduleBySweeps capacity factories ≠ .error .unfinished := by
  have wired := reachable.sound.wired
  obtain ⟨s, result, reached, last, run⟩ := Scheduling.exists_result wired capacity factories
  obtain ⟨orderly, stocked⟩ := Scheduling.orderly_of_reaches wired reached
  have both := Scheduling.agree_iterate wired capacity factories (b.graph.scheduleBound (Pool.new factories))
  rw [run] at both
  obtain ⟨result', swept, same⟩ : ∃ result', b.graph.scheduleBySweeps capacity factories = result' ∧
      SameOutcome result result' := by
    unfold Graph.scheduleBySweeps
    dsimp only
    generalize iterate (FullSweep.cycle b.graph capacity) _ _ = ends at both ⊢
    cases both with
    | some same => exact ⟨_, rfl, same⟩
  rw [swept]
  rcases wired.firstUnsupplied_or_supplied factories with ⟨symbol, first⟩ | supplied
  · -- a plan would have served the draw that has no factory
    rw [Scheduling.schedule_of_unsupplied wired capacity first]
    cases same with
    | stalled => simp
    | plan plan =>
        obtain ⟨none, _⟩ | ⟨_, _, _, _, _, stalled⟩ := Scheduling.done_cases wired orderly stocked last
        · exact absurd (Scheduling.supplied_of_resolved wired orderly stocked none) first.not_supplied
        · cases stalled
  · have scheduled : b.graph.schedule capacity factories = result := by
      unfold Graph.schedule
      simp only [Graph.supplied_iff.mp supplied, run]
      rfl
    rw [scheduled]
    cases same with
    | stalled => simp
    | plan => simp

/-- In the cycle after the first gate the second one waits for the factory; the joint operation, which
    is no candidate yet, is swept all the same. -/
theorem schedule_eq_ok_iff_sweeps_pair :
    ∃ (b : Builder) (plan : Plan), b.Reachable ∧ b.graph.schedule 1 [⟨"T", 2⟩] = .ok plan ∧
      plan.layers = [[0, 1], [], [3], [], [4], [5]] ∧ b.graph.scheduleBySweeps 1 [⟨"T", 2⟩] = .ok plan := by
  have runs : pairOfGates.toOption.any fun b => (b.graph.schedule 1 [⟨"T", 2⟩]).toOption.any fun plan =>
      plan.layers == [[0, 1], [], [3], [], [4], [5]] := by decide +kernel
  obtain ⟨b, built, runs⟩ := exists_ok_of_any runs
  obtain ⟨plan, scheduled, runs⟩ := exists_ok_of_any runs
  have reachable := reachable_pairOfGates built
  obtain ⟨same, _⟩ := schedule_eq_ok_iff_sweeps reachable 1 [⟨"T", 2⟩]
  exact ⟨b, plan, reachable, scheduled, by simpa using runs, (same plan).mp scheduled⟩

end LatticeSurgery
