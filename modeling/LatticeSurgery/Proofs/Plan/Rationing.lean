import LatticeSurgery.Proofs.Plan.Congestion
import LatticeSurgery.Proofs.Plan.Deliveries

/-! # Factories are drawn from at their pace

Scheduling keeps counters only, which are reset when a unit is taken and move once a cycle. They agree with the units
that the plan hands out, in the order of admission: each factory has worked since its last one. So a plan takes from a
factory no more often than its period allows, and always from the one of the lowest rank that has a unit.
-/

namespace LatticeSurgery

/-- Units handed to the nodes of a layer in a cycle, in order. -/
def handed (draws : NodeMap (List Draw)) (cycle : Nat) (layer : List NodeId) : List Delivery :=
  layer.flatMap fun id => (draws.getD id []).map (⟨cycle, ·⟩)

namespace Plan

/-- Units that a plan hands out, in the order of admission. -/
def deliveries (plan : Plan) : List Delivery :=
  plan.layers.zipIdx.flatMap fun entry => handed plan.draws entry.2 entry.1

/-- Who gets units, from which instances, and when. -/
structure Paced (g : Graph) (factories : List Factory) (plan : Plan) : Prop where
  drawers : ∀ id, id ∈ plan.draws ↔ ∃ node, g.node? id = some node ∧ g.drawn node ≠ []
  symbols : ∀ {id node}, g.node? id = some node → (plan.draws.getD id []).map (·.symbol) = g.drawn node
  instances : ∀ {id}, ∀ unit ∈ plan.draws.getD id [], unit.IsInstance factories
  /-- An instance has its period before its first delivery and between any two. -/
  spaced : ∀ {unit : Draw}, unit.IsInstance factories →
    (0 :: unit.cyclesIn plan.deliveries).IsChain fun c d => c + unit.period ≤ d
  /-- Every delivery comes from the lowest-numbered instance that was ready after those before it. -/
  lowest : ∀ before delivery after, plan.deliveries = before ++ delivery :: after →
    delivery.unit.ReadyAt before delivery.cycle ∧
      ∀ other : Draw, other.IsInstance factories → other.symbol = delivery.unit.symbol →
        other.rank < delivery.unit.rank → ¬ other.ReadyAt before delivery.cycle

/-- A plan that goes on where another ends, and serves the nodes of the other as it does. -/
structure Extends (plan later : Plan) : Prop extends plan.Continues later where
  served : ∀ id ∈ plan.order, later.draws.getD id [] = plan.draws.getD id []

end Plan

/-! ## What a layer adds -/

section

variable {draws later : NodeMap (List Draw)} {cycle : Nat} {layer : List NodeId} {layers : List (List NodeId)}

theorem handed_congr (kept : ∀ id ∈ layer, later.getD id [] = draws.getD id []) :
    handed later cycle layer = handed draws cycle layer :=
  List.flatMap_congr fun id member => by rw [kept id member]

theorem deliveries_congr {plan other : Plan} (layers : other.layers = plan.layers)
    (kept : ∀ id ∈ plan.order, other.draws.getD id [] = plan.draws.getD id []) : other.deliveries = plan.deliveries := by
  rw [Plan.deliveries, layers, Plan.deliveries]
  refine List.flatMap_congr fun entry member => handed_congr fun id inside => kept id ?_
  exact List.mem_flatten.mpr ⟨entry.1, List.fst_mem_of_mem_zipIdx member, inside⟩

/-- A layer at the end adds its units, and the others keep theirs. -/
theorem deliveries_append {plan next : Plan} (layers : next.layers = plan.layers ++ [layer])
    (kept : ∀ id ∈ plan.order, next.draws.getD id [] = plan.draws.getD id []) :
    next.deliveries = plan.deliveries ++ handed next.draws plan.layers.length layer := by
  have before : ({ next with layers := plan.layers } : Plan).deliveries = plan.deliveries := deliveries_congr rfl kept
  rw [← before, Plan.deliveries, layers, List.zipIdx_append, List.flatMap_append]
  simp [Plan.deliveries]

end

/-! ## One cycle -/

namespace Sweep

variable {g : Graph} {capacity : Nat} {opened s t : Sweep} {node : Node} {units : List Draw} {past : List Delivery}
  {cycle : Nat}

/-- The pool agrees with what was handed out before the cycle and in it. -/
structure Delivers (units : List Draw) (past : List Delivery) (cycle : Nat) (s : Sweep) : Prop where
  lines : s.pool.units = units
  follows : s.pool.Follows (past ++ handed s.draws cycle s.admitted) cycle
  rationed : Rationed units (past ++ handed s.draws cycle s.admitted)

theorem delivers_accepts (ranked : s.pool.Ranked) (accepts : s.Accepts g node t) (fresh : node.id ∉ s.admitted)
    (blank : s.draws[node.id]? = none) (delivers : Delivers units past cycle s) : Delivers units past cycle t := by
  obtain ⟨got, here, yields⟩ := accepts.yields
  have first : s.draws.getD node.id [] = [] := NodeMap.getD_of_none blank []
  have kept : ∀ id ∈ s.admitted, t.draws.getD id [] = s.draws.getD id [] := by
    intro id admitted
    have differs : id ≠ node.id := fun same => fresh (same ▸ admitted)
    exact NodeMap.getD_congr (accepts.others id differs) []
  have adds : handed t.draws cycle t.admitted = handed s.draws cycle s.admitted ++ got.map (⟨cycle, ·⟩) := by
    rw [accepts.admitted, handed, List.flatMap_append, List.flatMap_singleton, here, first, List.nil_append]
    exact congrArg (· ++ _) (handed_congr kept)
  obtain ⟨follows, rationed⟩ :=
    yields.deliver ranked delivers.follows (delivers.lines.symm ▸ delivers.rationed)
  refine ⟨accepts.units.trans delivers.lines, ?_, ?_⟩
  · rw [adds, ← List.append_assoc]
    exact follows
  · rw [adds, ← List.append_assoc, ← delivers.lines]
    exact rationed

end Sweep

namespace Scheduling

variable {g : Graph} {capacity : Nat} {factories : List Factory} {s : Scheduling} {t : Sweep} {id : NodeId} {node : Node}

/-- Between two cycles the pool agrees with what the plan handed out. -/
structure Accounted (g : Graph) (factories : List Factory) (s : Scheduling) : Prop where
  follows : s.pool.Follows s.plan.deliveries s.layers.size
  rationed : Rationed (Pool.new factories).units s.plan.deliveries
  /-- Who draws nothing has no entry. -/
  plain : ∀ id node, g.node? id = some node → g.drawn node = [] → s.draws[id]? = none

theorem accounted_start (g : Graph) (factories : List Factory) :
    Accounted g factories { candidates := g.entries, pool := Pool.new factories } where
  follows := Pool.follows_new factories
  rationed := .nil _
  plain := by simp

/-- After any turns of a cycle the pool agrees with what was handed out up to then. -/
theorem delivers_turns (wired : g.Wired) (orderly : Orderly g capacity s)
    (stocked : Stocked g (Pool.new factories).units s) (accounted : Accounted g factories s) {queue : List NodeId}
    (h : s.opening.turns g capacity queue = .ok t) :
    Sweep.Fair g capacity s.opening t ∧ Sweep.Served g s.opening t ∧
      Sweep.Delivers (Pool.new factories).units s.plan.deliveries s.layers.size t := by
  refine Sweep.turns_keep (P := fun t => Sweep.Fair g capacity s.opening t ∧ Sweep.Served g s.opening t ∧
    Sweep.Delivers (Pool.new factories).units s.plan.deliveries s.layers.size t) ?_ ?_ h
  · rintro before after id node found admits accepts ⟨fair, served, delivers⟩
    obtain rfl := wired.id_eq found
    have unresolved := (Sweep.of_admits wired found admits).1
    rw [Sweep.mem_resolved fair, not_or] at unresolved
    obtain ⟨fresh, new⟩ := unresolved
    have blank : s.opening.draws[node.id]? = none := stocked.blank node.id new
    have ranked : before.pool.Ranked := by
      rw [Pool.Ranked, delivers.lines]
      exact Pool.ranked_new factories
    exact ⟨Sweep.fair_accepts wired orderly.closed found admits accepts fair,
      Sweep.served_accepts wired found fresh blank accepts served,
      Sweep.delivers_accepts ranked accepts fresh ((served.others _ fresh).trans blank) delivers⟩
  · have none : handed s.opening.draws s.layers.size s.opening.admitted = [] := rfl
    refine ⟨orderly.fair_opening, ⟨rfl, stocked.within, ?_, fun _ _ => rfl⟩, stocked.lines, ?_, ?_⟩
    · simp [opening]
    · rw [none, List.append_nil]
      exact accounted.follows
    · rw [none, List.append_nil]
      exact accounted.rationed

theorem plain_turns (plain : ∀ id node, g.node? id = some node → g.drawn node = [] → s.draws[id]? = none)
    (numbered : g.Numbered) {queue : List NodeId} (h : s.opening.turns g capacity queue = .ok t) :
    ∀ id node, g.node? id = some node → g.drawn node = [] → t.draws[id]? = none := by
  refine Sweep.turns_keep (P := fun t => ∀ id node, g.node? id = some node → g.drawn node = [] → t.draws[id]? = none)
    ?_ plain h
  intro before after id node found _ accepts plain other node' found' nothing
  by_cases here : other = node.id
  · obtain rfl := numbered id node found
    obtain rfl := Option.some.inj (found.symm.trans (here ▸ found'))
    rw [accepts.idle nothing]
    exact plain other node found' nothing
  · rw [accepts.others other here]
    exact plain other node' found' nothing

/-- The cycle leaves the layers and the units of the cycles before it as they are. -/
theorem extends_next (orderly : Orderly g capacity s) (fair : Sweep.Fair g capacity s.opening t)
    (served : Sweep.Served g s.opening t) (grows : Sweep.Grows s.opening t) : s.plan.Extends (s.next g t).plan where
  toContinues := continues_next grows
  served id member := by
    have resolved : id ∈ s.resolved := by
      rw [orderly.order]
      exact List.mem_reverse.mpr member
    have outside : id ∉ t.admitted := fun admitted => fair.not_mem_opened admitted resolved
    exact NodeMap.getD_congr (served.others id outside) []

/-- What was handed out before a cycle stays, and the cycle adds its own units. -/
theorem deliveries_next (orderly : Orderly g capacity s) (fair : Sweep.Fair g capacity s.opening t)
    (served : Sweep.Served g s.opening t) (grows : Sweep.Grows s.opening t) :
    (s.next g t).plan.deliveries = s.plan.deliveries ++ handed t.draws s.layers.size t.admitted :=
  deliveries_append layers_next (extends_next orderly fair served grows).served

theorem accounted_next (wired : g.Wired) (orderly : Orderly g capacity s)
    (stocked : Stocked g (Pool.new factories).units s) (accounted : Accounted g factories s)
    (done : s.opening.turns g capacity (g.prioritise s.candidates) = .ok t) : Accounted g factories (s.next g t) := by
  obtain ⟨fair, served, delivers⟩ := delivers_turns wired orderly stocked accounted done
  have adds := deliveries_next orderly fair served (Sweep.turns_grow done)
  constructor
  case follows =>
    rw [adds, size_layers_next]
    exact delivers.follows.advance
  case rationed =>
    rw [adds]
    exact delivers.rationed
  case plain => exact plain_turns accounted.plain wired.joined.numbered done

theorem accounted_of_reaches (wired : g.Wired)
    (reached : Reaches (cycle g capacity) { candidates := g.entries, pool := Pool.new factories } s) :
    Accounted g factories s := by
  induction reached with
  | refl => exact accounted_start g factories
  | tail reached next ih =>
      obtain ⟨orderly, stocked⟩ := orderly_of_reaches wired reached
      obtain ⟨t, done, rfl⟩ := cycle_eq_again next
      exact accounted_next wired orderly stocked ih done

/-- Where nothing is left to admit, every draw was served. -/
theorem Accounted.mem_draws (accounted : Accounted g factories s) (wired : g.Wired) (orderly : Orderly g capacity s)
    (stocked : Stocked g (Pool.new factories).units s) (none : s.candidates = []) :
    id ∈ s.draws ↔ ∃ node, g.node? id = some node ∧ g.drawn node ≠ [] := by
  constructor
  · intro entry
    have resolved : id ∈ s.resolved := by
      by_contra outside
      rw [← Std.ExtTreeMap.isSome_getElem?_iff_mem, stocked.blank id outside] at entry
      cases entry
    obtain ⟨node, found, _⟩ := orderly.operations id (.inl resolved)
    refine ⟨node, found, fun nothing => ?_⟩
    rw [← Std.ExtTreeMap.isSome_getElem?_iff_mem, accounted.plain id node found nothing] at entry
    cases entry
  · rintro ⟨node, found, draws⟩
    obtain ⟨symbol, drawn⟩ := List.exists_mem_of_ne_nil _ draws
    have operation := wired.joined.not_isFactory_of_mem_drawn found drawn
    have symbols := (stocked.served id (orderly.all_resolved wired none found operation) node found).1
    by_contra missing
    rw [Std.ExtTreeMap.getD_eq_fallback missing] at symbols
    exact draws symbols.symm

end Scheduling

namespace Plan

variable {g : Graph} {capacity : Nat} {factories : List Factory} {plan : Plan}

theorem Paced.of_schedule (wired : g.Wired) (h : g.schedule capacity factories = .ok plan) :
    plan.Paced g factories := by
  obtain ⟨s, reached, none, rfl⟩ := Scheduling.reaches_of_schedule h
  obtain ⟨orderly, stocked⟩ := Scheduling.orderly_of_reaches wired reached
  have accounted := Scheduling.accounted_of_reaches wired reached
  have drawers : ∀ id, id ∈ s.draws ↔ ∃ node, g.node? id = some node ∧ g.drawn node ≠ [] :=
    fun _ => accounted.mem_draws wired orderly stocked none
  have units : ∀ id, ∀ unit ∈ s.draws.getD id [], unit ∈ (Pool.new factories).units := by
    intro id unit member
    have entry : id ∈ s.draws := by
      by_contra missing
      rw [Std.ExtTreeMap.getD_eq_fallback missing] at member
      cases member
    obtain ⟨node, found, draws⟩ := (drawers id).mp entry
    obtain ⟨symbol, drawn⟩ := List.exists_mem_of_ne_nil _ draws
    have operation := wired.joined.not_isFactory_of_mem_drawn found drawn
    exact (stocked.served id (orderly.all_resolved wired none found operation) node found).2 unit member
  constructor
  case drawers => exact drawers
  case symbols =>
    intro id node found
    cases operation : node.isFactory with
    | false => exact (stocked.served id (orderly.all_resolved wired none found operation) node found).1
    | true =>
        obtain ⟨_, _, _, nothing⟩ := wired.of_isFactory found operation
        have nothing : g.drawn node = [] := by simp [Graph.drawn, nothing]
        have none : s.plan.draws.getD id [] = [] := NodeMap.getD_of_none (accounted.plain id node found nothing) []
        rw [nothing]
        exact congrArg (·.map (·.symbol)) none
  case instances => exact fun unit member => Pool.mem_units_new.mp (units _ unit member)
  case spaced => exact fun _ => accounted.rationed.spaced _
  case lowest =>
    intro before delivery after split
    have first := accounted.rationed before delivery after split
    exact ⟨first.ready, fun other made => first.lowest other (Pool.mem_units_new.mpr made)⟩

end Plan

/-- A plan for a graph that a builder made takes from each factory no more often than its period allows, and each
    unit from the lowest-numbered instance that is ready. -/
theorem paced_of_schedule {b : Builder} {capacity : Nat} {factories : List Factory} {plan : Plan}
    (reachable : b.Reachable) (h : b.graph.schedule capacity factories = .ok plan) : plan.Paced b.graph factories :=
  .of_schedule reachable.sound.wired h

/-- The faster factory, though listed last, serves the first gate; the slower one is ready before it is again. -/
theorem paced_of_schedule_pair :
    ∃ (b : Builder) (plan : Plan), b.Reachable ∧ b.graph.schedule 1 [⟨"T", 3⟩, ⟨"T", 2⟩] = .ok plan ∧
      plan.layers = [[0, 1], [], [3], [4], [5]] ∧ plan.draws[3]? = some [⟨"T", 0, 2⟩] ∧
      plan.draws[4]? = some [⟨"T", 1, 3⟩] ∧ plan.Paced b.graph [⟨"T", 3⟩, ⟨"T", 2⟩] := by
  have runs : pairOfGates.toOption.any fun b => (b.graph.schedule 1 [⟨"T", 3⟩, ⟨"T", 2⟩]).toOption.any fun plan =>
      plan.layers == [[0, 1], [], [3], [4], [5]] && plan.draws[3]? == some [⟨"T", 0, 2⟩]
        && plan.draws[4]? == some [⟨"T", 1, 3⟩] := by decide +kernel
  obtain ⟨b, built, runs⟩ := exists_ok_of_any runs
  obtain ⟨plan, scheduled, runs⟩ := exists_ok_of_any runs
  simp only [Bool.and_eq_true, beq_iff_eq] at runs
  obtain ⟨⟨layers, first⟩, second⟩ := runs
  have reachable := reachable_pairOfGates built
  exact ⟨b, plan, reachable, scheduled, layers, first, second, paced_of_schedule reachable scheduled⟩

end LatticeSurgery
