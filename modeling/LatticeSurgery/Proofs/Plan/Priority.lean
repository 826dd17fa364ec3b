import LatticeSurgery.Proofs.Plan.Rationing

/-! # Nobody waits for the less urgent

An operation that could start but has to wait is held up by operations that are ahead of it: they fill the channel, or
have left no unit of a magic state that it draws. The turns of a cycle go by priority, so what happened before the turn
of an operation can be read off the plan: the cycles before, and the more urgent part of the cycle itself.
-/

namespace LatticeSurgery

/-! ## Who is ahead -/

namespace Graph

variable {g : Graph} {a b : NodeId}

/-- Whether one operation has priority over another: it is more urgent, or as urgent and older. -/
def outranks (g : Graph) (a b : NodeId) : Bool :=
  (g.urgencyOf a).above (g.urgencyOf b) || (g.urgencyOf a == g.urgencyOf b && a < b)

theorem outranks_of_takesTurn (first : g.takesTurn a b) (differs : a ≠ b) : g.outranks a b := by
  simp only [takesTurn, outranks, Bool.or_eq_true, Bool.and_eq_true, decide_eq_true_eq] at first ⊢
  exact first.imp_right fun equal => ⟨equal.1, Nat.lt_of_le_of_ne equal.2 differs⟩

theorem takesTurn_of_outranks (above : g.outranks a b) : g.takesTurn a b := by
  simp only [takesTurn, outranks, Bool.or_eq_true, Bool.and_eq_true, decide_eq_true_eq] at above ⊢
  exact above.imp_right fun equal => ⟨equal.1, Nat.le_of_lt equal.2⟩

@[simp] theorem outranks_self (g : Graph) (a : NodeId) : g.outranks a a = false := by simp [outranks]

theorem not_outranks_of_takesTurn (first : g.takesTurn a b) : g.outranks b a = false := by
  refine Bool.not_eq_true _ ▸ fun above => ?_
  obtain rfl := g.takesTurn_antisymm a b first (takesTurn_of_outranks above)
  rw [outranks_self] at above
  cases above

end Graph

namespace Plan

/-- Nodes admitted in a cycle that have priority over a given one. -/
def ahead (g : Graph) (plan : Plan) (id : NodeId) (cycle : Nat) : List NodeId :=
  (plan.layers[cycle]?.getD []).filter (g.outranks · id)

/-- Units handed out before the turn of a node in a cycle: those of the cycles before, and those of the nodes ahead. -/
def deliveriesBefore (g : Graph) (plan : Plan) (id : NodeId) (cycle : Nat) : List Delivery :=
  { plan with layers := plan.layers.take cycle }.deliveries ++ handed plan.draws cycle (plan.ahead g id cycle)

/-- Why a node has to wait in a cycle. -/
inductive Delays (g : Graph) (capacity : Nat) (factories : List Factory) (plan : Plan) (id : NodeId) (cycle : Nat) :
    Prop where
  /-- The channel is full of nodes ahead. -/
  | channel (joint : g.isNonLocal id) (full : (plan.ahead g id cycle).countP g.isNonLocal = capacity)
  /-- Every factory for a state that it draws is still at work when it has its turn. -/
  | unit {node : Node} {symbol : Symbol} (found : g.node? id = some node) (drawn : symbol ∈ g.drawn node)
      (busy : ∀ unit : Draw, unit.IsInstance factories → unit.symbol = symbol →
        ¬ unit.ReadyAt (plan.deliveriesBefore g id cycle) cycle)

theorem Extends.refl (plan : Plan) : plan.Extends plan := ⟨⟨List.prefix_rfl, fun _ _ => id⟩, fun _ _ => rfl⟩

theorem Extends.trans {plan later last : Plan} (first : plan.Extends later) (second : later.Extends last) :
    plan.Extends last where
  layers := first.layers.trans second.layers
  draws id unit drawn := second.draws id unit (first.draws id unit drawn)
  served id member := by
    obtain ⟨cycle, admits⟩ := exists_admits.mpr member
    rw [second.served id (exists_admits.mp ⟨cycle, first.admits admits⟩), first.served id member]

end Plan

/-! ## The turn of one node -/

namespace Sweep

variable {g : Graph} {capacity : Nat} {opened s t : Sweep} {id : NodeId} {node : Node} {queue : List NodeId}

theorem turns_append (g : Graph) (capacity : Nat) (s : Sweep) (early late : List NodeId) :
    s.turns g capacity (early ++ late) = s.turns g capacity early >>= (·.turns g capacity late) := by
  induction early generalizing s with
  | nil => rfl
  | cons id early ih =>
      rw [List.cons_append, turns, turns, bind_assoc]
      exact bind_congr ih

/-- What the turns of a queue leave as it is, and whom they may admit. -/
structure Adds (queue : List NodeId) (s t : Sweep) : Prop where
  admitted : ∃ added, added ⊆ queue ∧ t.admitted = s.admitted ++ added
  resolved : s.resolved ⊆ t.resolved
  draws : ∀ id ∈ s.resolved, t.draws[id]? = s.draws[id]?

theorem adds_accepts (wired : g.Wired) (queued : id ∈ queue) (found : g.node? id = some node)
    (admits : s.admits g capacity node) (accepts : s.Accepts g node t) (adds : Adds queue opened s) :
    Adds queue opened t := by
  have fresh := (of_admits wired found admits).1
  obtain rfl := wired.id_eq found
  obtain ⟨added, inside, same⟩ := adds.admitted
  constructor
  case admitted =>
    refine ⟨added ++ [node.id], List.append_subset.mpr ⟨inside, by simpa using queued⟩, ?_⟩
    rw [accepts.admitted, same, List.append_assoc]
  case resolved =>
    rw [accepts.resolved]
    exact List.subset_cons_of_subset _ adds.resolved
  case draws =>
    intro other early
    have differs : other ≠ node.id := fun here => fresh (here ▸ adds.resolved early)
    rw [accepts.others other differs, adds.draws other early]

theorem adds_turns (wired : g.Wired) (h : s.turns g capacity queue = .ok t) : Adds queue s t := by
  have start : Adds queue s s := ⟨⟨[], List.nil_subset _, (List.append_nil _).symm⟩, fun _ => id, fun _ _ => rfl⟩
  have ends : ∃ last, s.turns g capacity queue = .ok last ∧ Adds queue s last :=
    turns_induction wired (fun _ _ _ _ => adds_accepts wired) start
  obtain ⟨last, done, adds⟩ := ends
  exact Except.ok.inj (done.symm.trans h) ▸ adds

/-- A node that is left out was refused in its turn, after those that come before it. -/
theorem exists_turn (wired : g.Wired) (h : s.turns g capacity queue = .ok t) (member : id ∈ queue)
    (out : id ∉ t.resolved) :
    ∃ early mid late, queue = early ++ id :: late ∧ s.turns g capacity early = .ok mid ∧
      (∀ node, g.node? id = some node → mid.admits g capacity node = false) ∧ mid.turns g capacity late = .ok t := by
  obtain ⟨early, late, rfl⟩ := List.append_of_mem member
  rw [turns_append] at h
  obtain ⟨mid, first, h⟩ := bind_eq_ok.mp h
  obtain ⟨next, turn, h⟩ := bind_eq_ok.mp h
  rcases turn_cases wired capacity mid id with ⟨idle, refused⟩ | ⟨node, after, found, _, done, accepts⟩
  · rw [idle] at turn
    cases turn
    exact ⟨early, mid, late, rfl, first, refused, h⟩
  · rw [done] at turn
    cases turn
    refine absurd ((adds_turns wired h).resolved ?_) out
    rw [accepts.resolved, wired.id_eq found]
    exact List.mem_cons_self

end Sweep

namespace Scheduling

variable {g : Graph} {capacity : Nat} {factories : List Factory} {s : Scheduling} {t mid : Sweep} {id : NodeId}
  {node : Node}

/-- Those admitted before the turn of a node that is left out are those of the cycle that have priority over it. -/
theorem filter_outranks {ids early late : List NodeId} (wired : g.Wired)
    (queue : g.prioritise ids = early ++ id :: late) (first : s.opening.turns g capacity early = .ok mid)
    (rest : mid.turns g capacity late = .ok t) (out : id ∉ t.admitted) :
    t.admitted.filter (g.outranks · id) = mid.admitted := by
  have sorted := g.pairwise_prioritise ids
  rw [queue, List.pairwise_append, List.pairwise_cons] at sorted
  obtain ⟨_, ⟨behind, _⟩, before⟩ := sorted
  obtain ⟨begun, early, same⟩ := (Sweep.adds_turns wired first).admitted
  obtain ⟨added, late, last⟩ := (Sweep.adds_turns wired rest).admitted
  obtain rfl : mid.admitted = begun := same
  rw [last, List.filter_append]
  -- a turn before that of the node is another node's, since the node itself is left out
  have kept : mid.admitted.filter (g.outranks · id) = mid.admitted := by
    refine List.filter_eq_self.mpr fun other admitted => ?_
    have differs : other ≠ id := by
      rintro rfl
      exact out (last ▸ List.mem_append_left _ admitted)
    exact Graph.outranks_of_takesTurn (before other (early admitted) id List.mem_cons_self) differs
  have dropped : added.filter (g.outranks · id) = [] := by
    refine List.filter_eq_nil_iff.mpr fun other admitted => ?_
    rw [Graph.not_outranks_of_takesTurn (behind other (late admitted))]
    exact Bool.false_ne_true
  rw [kept, dropped, List.append_nil]

/-- A node that is left out of a cycle, although all operations that it waits for were admitted before, is held up by
    those ahead of it. -/
theorem delays_next (wired : g.Wired) (orderly : Orderly g capacity s)
    (stocked : Stocked g (Pool.new factories).units s) (accounted : Accounted g factories s)
    (done : s.opening.turns g capacity (g.prioritise s.candidates) = .ok t) (found : g.node? id = some node)
    (operation : node.isFactory = false)
    (ready : ∀ edge ∈ g.producers id, g.isFactory edge.node = false → edge.node ∈ s.resolved) (out : id ∉ t.resolved) :
    (node.nonLocal ∧ (t.admitted.filter (g.outranks · id)).countP g.isNonLocal = capacity) ∨
      ∃ symbol ∈ g.drawn node, ∀ unit : Draw, unit.IsInstance factories → unit.symbol = symbol →
        ¬ unit.ReadyAt
            (s.plan.deliveries ++ handed t.draws s.layers.size (t.admitted.filter (g.outranks · id))) s.layers.size := by
  obtain ⟨all, _, _⟩ := delivers_turns wired orderly stocked accounted done
  have early : id ∉ s.resolved := fun before => out ((Sweep.adds_turns wired done).resolved before)
  have queued : id ∈ g.prioritise s.candidates :=
    mem_sortBy.mpr (orderly.candidate_of_ready wired found operation ready early)
  obtain ⟨before, mid, after, queue, first, refused, rest⟩ := Sweep.exists_turn wired done queued out
  have adds := Sweep.adds_turns wired rest
  obtain ⟨fair, _, delivers⟩ := delivers_turns wired orderly stocked accounted first
  rw [filter_outranks wired queue first rest fun member => out ((Sweep.mem_resolved all).mpr (.inl member))]
  have fresh : id ∉ mid.resolved := fun before => out (adds.resolved before)
  refine (fair.lacks_of_refused wired orderly.closed found fresh ready (refused node found)).imp ?_ ?_
  · rintro ⟨joint, full⟩
    exact ⟨joint, fair.count ▸ Nat.le_antisymm fair.room full⟩
  · rintro ⟨symbol, drawn, empty⟩
    refine ⟨symbol, drawn, fun unit made named => ?_⟩
    -- whoever was served by then gets nothing more in this cycle
    have same : handed t.draws s.layers.size mid.admitted = handed mid.draws s.layers.size mid.admitted := by
      refine handed_congr fun other admitted => NodeMap.getD_congr (adds.draws other ?_) []
      exact (Sweep.mem_resolved fair).mpr (.inl admitted)
    rw [← Pool.mem_units_new, ← delivers.lines] at made
    obtain ⟨slot, inside, rfl⟩ := List.mem_map.mp made
    rw [same, ← delivers.follows.ready_iff inside, Pool.not_ready_of_inventory empty inside named]
    exact Bool.false_ne_true

/-- In a plan that goes on after a cycle, the sweep of the cycle tells who is ahead of whom in it. -/
theorem ahead_eq {plan : Plan} (goes : (s.next g t).plan.Extends plan) :
    plan.ahead g id s.layers.size = t.admitted.filter (g.outranks · id) := by
  obtain ⟨rest, layers⟩ := goes.layers
  rw [layers_next, List.append_assoc] at layers
  simp [Plan.ahead, ← layers]

theorem deliveriesBefore_eq {plan : Plan} (before : s.plan.Extends plan) (goes : (s.next g t).plan.Extends plan) :
    plan.deliveriesBefore g id s.layers.size
      = s.plan.deliveries ++ handed t.draws s.layers.size (t.admitted.filter (g.outranks · id)) := by
  have past : plan.layers.take s.layers.size = s.plan.layers := (List.prefix_iff_eq_take.mp before.layers).symm
  have kept : ({ plan with layers := plan.layers.take s.layers.size } : Plan).deliveries = s.plan.deliveries :=
    deliveries_congr past before.served
  rw [Plan.deliveriesBefore, ahead_eq goes, kept]
  refine congrArg (_ ++ ·) (handed_congr fun other member => ?_)
  exact goes.served other (Plan.exists_admits.mp ⟨_, admits_next (List.mem_of_mem_filter member)⟩)

/-- Every cycle of a plan was run from a state that was reached before. -/
theorem exists_cycle (wired : g.Wired)
    (reached : Reaches (cycle g capacity) { candidates := g.entries, pool := Pool.new factories } s) {i : Nat}
    (below : i < s.layers.size) :
    ∃ (u : Scheduling) (t : Sweep),
      Reaches (cycle g capacity) { candidates := g.entries, pool := Pool.new factories } u ∧ u.layers.size = i ∧
        u.opening.turns g capacity (g.prioritise u.candidates) = .ok t ∧ u.cycle g capacity = .again (u.next g t) ∧
        (u.next g t).plan.Extends s.plan := by
  induction reached with
  | refl => cases below
  | @tail before after reached next ih =>
      obtain ⟨t, done, rfl⟩ := cycle_eq_again next
      have size : (before.next g t).layers.size = before.layers.size + 1 := size_layers_next
      rw [size] at below
      rcases Nat.lt_or_eq_of_le (Nat.le_of_lt_succ below) with earlier | rfl
      · obtain ⟨u, first, there, same, turns, again, goes⟩ := ih earlier
        obtain ⟨orderly, stocked⟩ := orderly_of_reaches wired reached
        obtain ⟨fair, served, _⟩ := delivers_turns wired orderly stocked (accounted_of_reaches wired reached) done
        have onward := extends_next orderly fair served (Sweep.turns_grow done)
        exact ⟨u, first, there, same, turns, again, goes.trans onward⟩
      · exact ⟨before, t, reached, rfl, done, next, .refl _⟩

end Scheduling

namespace Plan

variable {g : Graph} {capacity : Nat} {factories : List Factory} {plan : Plan} {id : NodeId} {node : Node}
  {cycle later : Nat}

theorem Delays.of_schedule (wired : g.Wired) (h : g.schedule capacity factories = .ok plan)
    (found : g.node? id = some node) (operation : node.isFactory = false) (admitted : plan.Admits id later)
    (waits : cycle < later)
    (ready : ∀ edge ∈ g.producers id, g.isFactory edge.node = false → ∃ before < cycle, plan.Admits edge.node before) :
    plan.Delays g capacity factories id cycle := by
  have once := (Safe.of_schedule wired h).nodup
  obtain ⟨s, reached, _, same⟩ := Scheduling.reaches_of_schedule h
  obtain rfl : plan = s.plan := same
  obtain ⟨u, t, early, rfl, done, next, goes⟩ := Scheduling.exists_cycle wired reached (Nat.lt_trans waits admitted.lt)
  obtain ⟨orderly, stocked⟩ := Scheduling.orderly_of_reaches wired early
  obtain ⟨after, _⟩ := Scheduling.orderly_of_reaches wired (early.tail next)
  have accounted := Scheduling.accounted_of_reaches wired early
  obtain ⟨fair, served, _⟩ := Scheduling.delivers_turns wired orderly stocked accounted done
  have before := (Scheduling.extends_next orderly fair served (Sweep.turns_grow done)).trans goes
  have produced : ∀ edge ∈ g.producers id, g.isFactory edge.node = false → edge.node ∈ u.resolved := by
    intro edge reads operates
    obtain ⟨cycle, past, there⟩ := ready edge reads operates
    exact orderly.mem_resolved.mpr ⟨cycle, past, before.admitted past there⟩
  have out : id ∉ t.resolved := by
    intro resolved
    obtain ⟨cycle, below, there⟩ := after.mem_resolved.mp resolved
    have same := (cycleOf_eq once admitted).symm.trans (cycleOf_eq once (goes.admits there))
    have size : (u.next g t).layers.size = u.layers.size + 1 := Array.size_push ..
    omega
  rcases Scheduling.delays_next wired orderly stocked accounted done found operation produced out with
    ⟨joint, full⟩ | ⟨symbol, drawn, busy⟩
  · exact .channel (by simp [Graph.isNonLocal, found, joint]) (Scheduling.ahead_eq goes ▸ full)
  · exact .unit found drawn (Scheduling.deliveriesBefore_eq before goes ▸ busy)

end Plan

/-- Whoever could have been admitted in a cycle but is admitted later had to wait for operations that have priority
    over it, or for the factories. -/
theorem delays_of_schedule {b : Builder} {capacity : Nat} {factories : List Factory} {plan : Plan} {id : NodeId}
    {node : Node} {cycle later : Nat} (reachable : b.Reachable)
    (h : b.graph.schedule capacity factories = .ok plan) (found : b.graph.node? id = some node)
    (operation : node.isFactory = false) (admitted : plan.Admits id later) (waits : cycle < later)
    (ready : ∀ edge ∈ node.producers, b.graph.isFactory edge.node = false →
      ∃ before < cycle, plan.Admits edge.node before) : plan.Delays b.graph capacity factories id cycle :=
  .of_schedule reachable.sound.wired h found operation admitted waits (Graph.producers_of_node? found ▸ ready)

/-- There is room in the channel for both gates, but the older one takes the only unit. -/
theorem delays_of_schedule_pair :
    ∃ (b : Builder) (plan : Plan) (node : Node), b.Reachable ∧ b.graph.schedule 2 [⟨"T", 2⟩] = .ok plan ∧
      b.graph.node? 4 = some node ∧ node.isFactory = false ∧ plan.Admits 4 4 ∧
      (∀ edge ∈ node.producers, b.graph.isFactory edge.node = false → ∃ before < 2, plan.Admits edge.node before) ∧
      plan.ahead b.graph 4 2 = [3] ∧ plan.Delays b.graph 2 [⟨"T", 2⟩] 4 2 := by
  have runs : pairOfGates.toOption.any fun b => (b.graph.schedule 2 [⟨"T", 2⟩]).toOption.any fun plan =>
      plan.layers == [[0, 1], [], [3], [], [4], [5]] && plan.ahead b.graph 4 2 == [3] &&
        (b.graph.node? 4).any fun node => !node.isFactory &&
          node.producers.all fun edge => b.graph.isFactory edge.node || [0, 1].contains edge.node := by decide +kernel
  obtain ⟨b, built, runs⟩ := exists_ok_of_any runs
  obtain ⟨plan, scheduled, runs⟩ := exists_ok_of_any runs
  rw [Bool.and_eq_true, Bool.and_eq_true, beq_iff_eq, beq_iff_eq, Option.any_eq_true] at runs
  obtain ⟨⟨layers, ahead⟩, node, found, runs⟩ := runs
  rw [Bool.and_eq_true, List.all_eq_true, Bool.not_eq_true'] at runs
  obtain ⟨operation, produced⟩ := runs
  have reachable := reachable_pairOfGates built
  have later : plan.Admits 4 4 := ⟨[4], by simp [layers], by decide⟩
  have ready : ∀ edge ∈ node.producers, b.graph.isFactory edge.node = false →
      ∃ before < 2, plan.Admits edge.node before := by
    intro edge reads operates
    have first := produced edge reads
    rw [operates, Bool.false_or, List.contains_iff_mem] at first
    exact ⟨0, by decide, [0, 1], by simp [layers], first⟩
  exact ⟨b, plan, node, reachable, scheduled, found, operation, later, ready, ahead,
    delays_of_schedule reachable scheduled found operation later (by decide) ready⟩

end LatticeSurgery
