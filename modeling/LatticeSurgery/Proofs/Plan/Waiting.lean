import LatticeSurgery.Proofs.Plan.Schedule

/-! # Why an operation waits

A cycle of scheduling passes over an operation only for want of something: a producer that was admitted before, room
in the channel, or a unit of a magic state, all factories of which are still at work. So in every cycle of a plan each
operation is admitted, was admitted, or lacks one of the three.
-/

namespace LatticeSurgery

/-! ## Who is left out of a cycle -/

namespace Sweep

variable {g : Graph} {capacity : Nat} {opened s t : Sweep} {id : NodeId} {node : Node}

theorem Accepts.mem_draws (accepts : s.Accepts g node t) {unit : Draw} (drawn : unit ∈ s.draws.getD id []) :
    unit ∈ t.draws.getD id [] := by
  by_cases here : id = node.id
  · obtain ⟨units, same, _⟩ := accepts.served
    rw [here] at drawn ⊢
    rw [same]
    exact List.mem_append_left _ drawn
  · rwa [NodeMap.getD_congr (accepts.others id here)]

/-- What the turns of a cycle only add to. -/
structure Grows (s t : Sweep) : Prop where
  resolved : s.resolved ⊆ t.resolved
  admitted : s.admitted ⊆ t.admitted
  nonLocal : s.nonLocal ≤ t.nonLocal
  draws : ∀ id, ∀ unit ∈ s.draws.getD id [], unit ∈ t.draws.getD id []

theorem turns_grow {queue : List NodeId} (h : s.turns g capacity queue = .ok t) : Grows s t := by
  refine turns_keep (P := Grows s) ?_ ⟨fun _ => id, fun _ => id, Nat.le_refl _, fun _ _ => id⟩ h
  intro u v _ node _ _ accepts grows
  constructor
  case resolved =>
    rw [accepts.resolved]
    exact List.subset_cons_of_subset _ grows.resolved
  case admitted =>
    rw [accepts.admitted]
    exact List.subset_append_of_subset_left _ grows.admitted
  case nonLocal =>
    rw [accepts.nonLocal]
    exact Nat.le_add_right_of_le grows.nonLocal
  case draws => exact fun id unit drawn => accepts.mem_draws (grows.draws id unit drawn)

/-- Each factory is as it was when the cycle began, or its unit was taken in this cycle. -/
structure Takes (opened s : Sweep) : Prop where
  units : s.pool.units = opened.pool.units
  slots : ∀ slot ∈ s.pool.slots, slot ∈ opened.pool.slots ∨ ∃ id ∈ s.admitted, slot.draw ∈ s.draws.getD id []

theorem Takes.refl (s : Sweep) : Takes s s := ⟨rfl, fun _ => .inl⟩

theorem takes_accepts (accepts : s.Accepts g node t) (takes : Takes opened s) : Takes opened t := by
  refine ⟨accepts.units.trans takes.units, fun slot member => ?_⟩
  rw [accepts.admitted]
  rcases accepts.slots slot member with before | here
  · refine (takes.slots slot before).imp_right fun ⟨id, admitted, drawn⟩ => ?_
    exact ⟨id, List.mem_append_left _ admitted, accepts.mem_draws drawn⟩
  · exact .inr ⟨node.id, List.mem_append_right _ (List.mem_singleton.mpr rfl), here⟩

/-- A unit that a cycle cannot give: it was not finished when the cycle began, or somebody took it. -/
def Absent (opened t : Sweep) (unit : Draw) : Prop :=
  0 < unit.period ∧ ((∃ slot ∈ opened.pool.slots, slot.draw = unit ∧ slot.ready = false) ∨
    ∃ other ∈ t.admitted, unit ∈ t.draws.getD other [])

theorem Takes.absent (takes : Takes opened s) {symbol : Symbol} (empty : s.pool.inventory symbol = 0)
    (grows : Grows s t) {unit : Draw} (made : unit ∈ opened.pool.units) (named : unit.symbol = symbol) :
    Absent opened t unit := by
  rw [← takes.units] at made
  obtain ⟨slot, inside, rfl⟩ := List.mem_map.mp made
  have busy := Pool.not_ready_of_inventory empty inside named
  refine ⟨?_, (takes.slots slot inside).imp (fun here => ⟨slot, here, rfl, busy⟩) ?_⟩
  · exact Nat.zero_lt_of_lt (Slot.ready_eq_false.mp busy)
  · rintro ⟨other, admitted, drawn⟩
    exact ⟨other, grows.admitted admitted, grows.draws other _ drawn⟩

/-- If all operations that a node waits for were admitted before the cycle, nobody admitted in it has claimed what they
    pass on. -/
theorem Fair.meets_of_ready (fair : Fair g capacity opened s) (wired : g.Wired) (closed : g.Closed opened.resolved)
    (fresh : id ∉ s.resolved)
    (ready : ∀ edge ∈ g.producers id, g.isFactory edge.node = false → edge.node ∈ opened.resolved) {edge : Edge}
    (reads : edge ∈ g.producers id) (operation : g.isFactory edge.node = false) : s.meets g edge := by
  have resolved := (mem_resolved fair).mpr (.inr (ready edge reads operation))
  have unclaimed : edge.symbol ∉ s.claimed := by
    intro claimed
    obtain ⟨other, admitted, there, exclusive⟩ := (fair.claimed edge.symbol).mp claimed
    have here := (wired.edge_cases reads).1
    have late := fair.not_mem_opened admitted
    rcases Nat.lt_or_ge other id with older | younger
    · -- the writer before this node came after the other one, and was admitted before the cycle
      obtain ⟨writer, inside, between, _, acts⟩ := wired.exists_producer older there here exclusive
      have operates := wired.not_isFactory_of_exclusive acts exclusive
      exact late (wired.mem_of_closed closed exclusive between there acts (ready _ inside operates))
    · have done := (mem_resolved fair).mpr (.inl admitted)
      exact fresh (wired.mem_of_closed (fair.closed closed) exclusive younger here there done)
  simp [meets, wired.joined.isDraw_eq reads, operation, resolved, unclaimed]

/-- What a node lacks that is refused although the operations it waits for were admitted before the cycle. -/
theorem Fair.lacks_of_refused (fair : Fair g capacity opened s) (wired : g.Wired) (closed : g.Closed opened.resolved)
    (found : g.node? id = some node) (fresh : id ∉ s.resolved)
    (ready : ∀ edge ∈ g.producers id, g.isFactory edge.node = false → edge.node ∈ opened.resolved)
    (refused : s.admits g capacity node = false) :
    (node.nonLocal ∧ capacity ≤ s.nonLocal) ∨ ∃ symbol ∈ g.drawn node, s.pool.inventory symbol = 0 := by
  by_cases met : node.producers.all (s.meets g)
  · left
    simpa [admits, wired.id_eq found, fresh, met] using refused
  · right
    obtain ⟨edge, reads, unmet⟩ := List.all_eq_false.mp (Bool.not_eq_true _ ▸ met)
    have draws : g.isDraw edge := by
      have inside : edge ∈ g.producers id := Graph.producers_of_node? found ▸ reads
      rw [wired.joined.isDraw_eq inside]
      exact Bool.not_eq_false _ ▸ fun operation =>
        unmet (fair.meets_of_ready wired closed fresh ready inside operation)
    refine ⟨edge.symbol, Graph.mem_drawn.mpr ⟨edge, reads, draws, rfl⟩, ?_⟩
    simpa [meets, draws] using unmet

/-- Whoever is left out of a cycle although the operations it waits for were admitted before it needs the channel, and
    the channel is full, or draws a state of which no unit is there. -/
theorem Fair.lacks_of_left_out {queue : List NodeId} (fair : Fair g capacity opened s) (takes : Takes opened s)
    (wired : g.Wired) (closed : g.Closed opened.resolved) (h : s.turns g capacity queue = .ok t)
    (member : id ∈ queue) (found : g.node? id = some node)
    (ready : ∀ edge ∈ g.producers id, g.isFactory edge.node = false → edge.node ∈ opened.resolved)
    (out : id ∉ t.resolved) :
    (node.nonLocal ∧ capacity ≤ t.nonLocal) ∨
      ∃ symbol ∈ g.drawn node, ∀ unit ∈ opened.pool.units, unit.symbol = symbol → Absent opened t unit := by
  induction queue generalizing s with
  | nil => cases member
  | cons first queue ih =>
      obtain ⟨next, turn, h⟩ := bind_eq_ok.mp h
      have grows := turns_grow h
      rcases turn_cases wired capacity s first with ⟨idle, refused⟩ | ⟨other, after, known, admits, done, accepts⟩
      · rw [idle] at turn
        cases turn
        rcases List.mem_cons.mp member with rfl | member
        · have fresh : id ∉ s.resolved := fun early => out (grows.resolved early)
          refine (fair.lacks_of_refused wired closed found fresh ready (refused node found)).imp ?_ ?_
          · exact fun ⟨far, full⟩ => ⟨far, Nat.le_trans full grows.nonLocal⟩
          · exact fun ⟨symbol, drawn, empty⟩ => ⟨symbol, drawn, fun unit => takes.absent empty grows⟩
        · exact ih fair takes h member
      · rw [done] at turn
        cases turn
        rcases List.mem_cons.mp member with rfl | member
        · refine absurd (grows.resolved ?_) out
          rw [accepts.resolved, wired.id_eq known]
          exact List.mem_cons_self
        · exact ih (fair_accepts wired closed known admits accepts fair) (takes_accepts accepts takes) h member

end Sweep

/-! ## What keeps an operation waiting -/

namespace Plan

variable {g : Graph} {capacity : Nat} {units : List Draw} {plan later : Plan} {id : NodeId} {cycle : Nat} {unit : Draw}

/-- The node is admitted in the given cycle. -/
def Admits (plan : Plan) (id : NodeId) (cycle : Nat) : Prop := ∃ layer, plan.layers[cycle]? = some layer ∧ id ∈ layer

/-- The factory has no finished unit in the given cycle: it is at its first one, or was served from not long ago. -/
def Busy (plan : Plan) (unit : Draw) (cycle : Nat) : Prop :=
  cycle < unit.period ∨
    ∃ id since, plan.Admits id since ∧ unit ∈ plan.draws.getD id [] ∧ since ≤ cycle ∧ cycle < since + unit.period

/-- What keeps a node from being admitted in a cycle. -/
inductive Lacks (g : Graph) (capacity : Nat) (units : List Draw) (plan : Plan) (id : NodeId) (cycle : Nat) : Prop where
  | producer {edge : Edge} (reads : edge ∈ g.producers id) (operation : g.isFactory edge.node = false)
      (late : ∀ before < cycle, ¬plan.Admits edge.node before)
  | channel {layer : List NodeId} (joint : g.isNonLocal id) (found : plan.layers[cycle]? = some layer)
      (full : capacity ≤ layer.countP g.isNonLocal)
  | unit {node : Node} {symbol : Symbol} (found : g.node? id = some node) (drawn : symbol ∈ g.drawn node)
      (busy : ∀ unit ∈ units, unit.symbol = symbol → plan.Busy unit cycle)

/-- A plan that goes on where another ends. -/
structure Continues (plan later : Plan) : Prop where
  layers : plan.layers <+: later.layers
  draws : ∀ id, ∀ unit ∈ plan.draws.getD id [], unit ∈ later.draws.getD id []

theorem Admits.lt (admits : plan.Admits id cycle) : cycle < plan.layers.length := by
  obtain ⟨layer, found, _⟩ := admits
  exact (List.getElem?_eq_some_iff.mp found).1

theorem exists_admits : (∃ cycle, plan.Admits id cycle) ↔ id ∈ plan.order := by
  rw [order, List.mem_flatten]
  constructor
  · rintro ⟨cycle, layer, found, member⟩
    exact ⟨layer, List.mem_of_getElem? found, member⟩
  · rintro ⟨layer, planned, member⟩
    obtain ⟨cycle, found⟩ := List.getElem?_of_mem planned
    exact ⟨cycle, layer, found, member⟩

namespace Continues

theorem layer_eq (goes : plan.Continues later) (inside : cycle < plan.layers.length) :
    later.layers[cycle]? = plan.layers[cycle]? := by
  obtain ⟨rest, same⟩ := goes.layers
  rw [← same, List.getElem?_append_left inside]

theorem admits (goes : plan.Continues later) (admits : plan.Admits id cycle) : later.Admits id cycle := by
  obtain ⟨layer, found, member⟩ := admits
  exact ⟨layer, (goes.layer_eq (List.getElem?_eq_some_iff.mp found).1).trans found, member⟩

theorem admitted (goes : plan.Continues later) (inside : cycle < plan.layers.length)
    (admits : later.Admits id cycle) : plan.Admits id cycle := by
  obtain ⟨layer, found, member⟩ := admits
  exact ⟨layer, (goes.layer_eq inside).symm.trans found, member⟩

theorem busy (goes : plan.Continues later) (busy : plan.Busy unit cycle) : later.Busy unit cycle :=
  busy.imp_right fun ⟨id, since, admits, drawn, bounds⟩ => ⟨id, since, goes.admits admits, goes.draws id unit drawn, bounds⟩

/-- What was lacking in the past stays so. -/
theorem lacks (goes : plan.Continues later) (inside : cycle < plan.layers.length)
    (lacks : plan.Lacks g capacity units id cycle) : later.Lacks g capacity units id cycle := by
  cases lacks with
  | producer reads operation late =>
      exact .producer reads operation fun before earlier there =>
        late before earlier (goes.admitted (Nat.lt_trans earlier inside) there)
  | channel joint found full => exact .channel joint ((goes.layer_eq inside).trans found) full
  | unit found drawn busy => exact .unit found drawn fun unit made named => goes.busy (busy unit made named)

end Continues

end Plan

/-! ## Cycle after cycle -/

namespace Scheduling

variable {g : Graph} {capacity : Nat} {units : List Draw} {s : Scheduling} {t : Sweep} {id : NodeId} {node : Node}

/-- The plan as far as it goes. -/
def plan (s : Scheduling) : Plan := { cycles := s.layers.size, layers := s.layers.toList, draws := s.draws }

/-- Between two cycles, how far each factory is, and what kept each operation waiting so far. -/
structure Watched (g : Graph) (capacity : Nat) (units : List Draw) (s : Scheduling) : Prop where
  slots : ∀ slot ∈ s.pool.slots, slot.ready ∨ s.layers.size ≤ slot.progress ∨
    ∃ id since, s.plan.Admits id since ∧ slot.draw ∈ s.draws.getD id [] ∧ s.layers.size ≤ since + slot.progress
  waits : ∀ id node, g.node? id = some node → node.isFactory = false → ∀ cycle < s.layers.size,
    (∃ since ≤ cycle, s.plan.Admits id since) ∨ s.plan.Lacks g capacity units id cycle

theorem watched_start (g : Graph) (capacity : Nat) (units : List Draw) (candidates : List NodeId) (pool : Pool) :
    Watched g capacity units { candidates, pool } where
  slots _ _ := .inr (.inl (Nat.zero_le _))
  waits _ _ _ _ _ below := absurd below (Nat.not_lt_zero _)

theorem layers_next : (s.next g t).plan.layers = s.layers.toList ++ [t.admitted] := Array.toList_push

theorem continues_next (grows : Sweep.Grows s.opening t) : s.plan.Continues (s.next g t).plan where
  layers := ⟨[t.admitted], layers_next.symm⟩
  draws := grows.draws

theorem admits_next (admitted : id ∈ t.admitted) : (s.next g t).plan.Admits id s.layers.size :=
  ⟨t.admitted, by simp [layers_next], admitted⟩

theorem Orderly.mem_resolved (orderly : Orderly g capacity s) :
    id ∈ s.resolved ↔ ∃ cycle < s.layers.size, s.plan.Admits id cycle := by
  rw [orderly.order, List.mem_reverse]
  refine (@Plan.exists_admits s.plan id).symm.trans ⟨?_, ?_⟩
  · exact fun ⟨cycle, admits⟩ => ⟨cycle, admits.lt, admits⟩
  · exact fun ⟨cycle, _, admits⟩ => ⟨cycle, admits⟩

/-- Whoever waits for no operation, or only for operations admitted before, is a candidate. -/
theorem Orderly.candidate_of_ready (orderly : Orderly g capacity s) (wired : g.Wired) (found : g.node? id = some node)
    (operation : node.isFactory = false)
    (ready : ∀ edge ∈ g.producers id, g.isFactory edge.node = false → edge.node ∈ s.resolved)
    (fresh : id ∉ s.resolved) : id ∈ s.candidates := by
  refine (orderly.woken id node found operation ?_).resolve_left fresh
  by_cases fed : ∀ edge ∈ g.producers id, g.isFactory edge.node
  · exact .inl (wired.mem_entries.mpr ⟨node, found, operation, fed⟩)
  · simp only [not_forall, Bool.not_eq_true] at fed
    obtain ⟨edge, reads, produced⟩ := fed
    exact .inr ⟨edge, reads, ready edge reads produced⟩

theorem Watched.busy_of_absent (watched : Watched g capacity units s) (grows : Sweep.Grows s.opening t) {unit : Draw}
    (absent : Sweep.Absent s.opening t unit) : (s.next g t).plan.Busy unit s.layers.size := by
  obtain ⟨slow, ⟨slot, inside, rfl, unready⟩ | ⟨other, admitted, drawn⟩⟩ := absent
  · refine (continues_next grows).busy ?_
    have progress := Slot.ready_eq_false.mp unready
    rcases watched.slots slot inside with ready | first | ⟨id, since, admits, drawn, started⟩
    · rw [unready] at ready
      cases ready
    · exact .inl (Nat.lt_of_le_of_lt first progress)
    · refine .inr ⟨id, since, admits, drawn, Nat.le_of_lt admits.lt, ?_⟩
      exact Nat.lt_of_le_of_lt started (Nat.add_lt_add_left progress since)
  · exact .inr ⟨other, s.layers.size, admits_next admitted, drawn, Nat.le_refl _, Nat.lt_add_of_pos_right slow⟩

/-- In the cycle itself an operation is admitted, was admitted before, or lacks something. -/
theorem Watched.waits_last (watched : Watched g capacity units s) (wired : g.Wired) (orderly : Orderly g capacity s)
    (stocked : Stocked g units s) (fair : Sweep.Fair g capacity s.opening t)
    (done : s.opening.turns g capacity (g.prioritise s.candidates) = .ok t) (found : g.node? id = some node)
    (operation : node.isFactory = false) :
    (∃ since ≤ s.layers.size, (s.next g t).plan.Admits id since) ∨
      (s.next g t).plan.Lacks g capacity units id s.layers.size := by
  have grows := Sweep.turns_grow done
  have goes := continues_next (g := g) grows
  by_cases out : id ∈ t.resolved
  · left
    rcases (Sweep.mem_resolved fair).mp out with admitted | before
    · exact ⟨_, Nat.le_refl _, admits_next admitted⟩
    · obtain ⟨since, before, admits⟩ := orderly.mem_resolved.mp before
      exact ⟨since, Nat.le_of_lt before, goes.admits admits⟩
  · right
    by_cases ready : ∀ edge ∈ g.producers id, g.isFactory edge.node = false → edge.node ∈ s.resolved
    · have candidate := orderly.candidate_of_ready wired found operation ready fun early => out (grows.resolved early)
      rcases orderly.fair_opening.lacks_of_left_out (.refl _) wired orderly.closed done (mem_sortBy.mpr candidate)
        found ready out with ⟨joint, full⟩ | ⟨symbol, drawn, absent⟩
      · have last : (s.next g t).plan.layers[s.layers.size]? = some t.admitted := by simp [layers_next]
        refine .channel ?_ last (fair.count ▸ full)
        simp [Graph.isNonLocal, found, joint]
      · refine .unit found drawn fun unit made named => watched.busy_of_absent grows (absent unit ?_ named)
        exact stocked.lines.symm ▸ made
    · simp only [not_forall] at ready
      obtain ⟨edge, reads, produced, missing⟩ := ready
      refine .producer reads produced fun before earlier admits => missing ?_
      exact orderly.mem_resolved.mpr ⟨before, earlier, goes.admitted (by simpa [plan] using earlier) admits⟩

theorem watched_next (watched : Watched g capacity units s) (wired : g.Wired) (orderly : Orderly g capacity s)
    (stocked : Stocked g units s) (fair : Sweep.Fair g capacity s.opening t)
    (done : s.opening.turns g capacity (g.prioritise s.candidates) = .ok t) :
    Watched g capacity units (s.next g t) := by
  have grows := Sweep.turns_grow done
  have takes : Sweep.Takes s.opening t :=
    Sweep.turns_keep (fun _ _ _ _ _ _ accepts => Sweep.takes_accepts accepts) (Sweep.Takes.refl s.opening) done
  have goes := continues_next (g := g) grows
  have size : (s.next g t).layers.size = s.layers.size + 1 := size_layers_next
  constructor
  case slots =>
    intro slot member
    obtain ⟨before, inside, rfl⟩ := List.mem_map.mp member
    rw [size]
    rcases before.advance_cases with ready | ⟨unready, progress⟩
    · exact .inl ready
    · rw [progress]
      rcases takes.slots before inside with kept | ⟨id, admitted, drawn⟩
      · rcases watched.slots before kept with ready | first | ⟨id, since, admits, drawn, started⟩
        · rw [unready] at ready
          cases ready
        · exact .inr (.inl (Nat.succ_le_succ first))
        · exact .inr (.inr ⟨id, since, goes.admits admits, grows.draws id _ drawn, Nat.succ_le_succ started⟩)
      · exact .inr (.inr ⟨id, s.layers.size, admits_next admitted, drawn, by omega⟩)
  case waits =>
    intro id node found operation cycle below
    rw [size] at below
    rcases Nat.lt_or_eq_of_le (Nat.le_of_lt_succ below) with earlier | rfl
    · refine (watched.waits id node found operation cycle earlier).imp ?_ (goes.lacks earlier)
      exact fun ⟨since, within, admits⟩ => ⟨since, within, goes.admits admits⟩
    · exact watched.waits_last wired orderly stocked fair done found operation

theorem watched_of_reaches (wired : g.Wired) {factories : List Factory}
    (reached : Reaches (cycle g capacity) { candidates := g.entries, pool := Pool.new factories } s) :
    Watched g capacity (Pool.new factories).units s := by
  induction reached with
  | refl => exact watched_start g capacity _ _ _
  | @tail before after reached next ih =>
      obtain ⟨orderly, stocked⟩ := orderly_of_reaches wired reached
      obtain ⟨t, done, fair, _, _⟩ := turns_eq_ok wired orderly stocked
      obtain ⟨last, same, rfl⟩ := cycle_eq_again next
      obtain rfl := Except.ok.inj (done.symm.trans same)
      exact watched_next ih wired orderly stocked fair done

end Scheduling

/-- In every cycle of a plan each operation has been admitted, or lacks something. -/
theorem Plan.lacks_of_schedule {g : Graph} {capacity : Nat} {factories : List Factory} {plan : Plan} (wired : g.Wired)
    (h : g.schedule capacity factories = .ok plan) {id : NodeId} {node : Node} (found : g.node? id = some node)
    (operation : node.isFactory = false) {cycle : Nat} (inside : cycle < plan.cycles) :
    (∃ since ≤ cycle, plan.Admits id since) ∨ plan.Lacks g capacity (Pool.new factories).units id cycle := by
  obtain ⟨s, reached, _, rfl⟩ := Scheduling.reaches_of_schedule h
  exact (Scheduling.watched_of_reaches wired reached).waits id node found operation cycle inside

end LatticeSurgery
