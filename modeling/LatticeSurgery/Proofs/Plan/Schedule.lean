import LatticeSurgery.Proofs.Graph.Construction
import LatticeSurgery.Proofs.Plan.Sweep
import LatticeSurgery.Proofs.Sorting

/-! # Schedules are safe

Between two cycles of scheduling everything admitted so far lies in the layers, once and in an order
that respects the dependencies, and every operation that has something to wait for in the past is
either admitted or a candidate. When the candidates run out, nothing is left.
-/

namespace LatticeSurgery

/-- Layers of nodes such that no node comes before what it depends on, and no layer needs more than
    the channel and the resources can give. -/
structure Layered (g : Graph) (capacity : Nat) (layers : List (List NodeId)) : Prop where
  ordered : ∀ (i : Nat) layer, layers[i]? = some layer → ∀ id ∈ layer, ∀ edge ∈ g.producers id,
    g.isFactory edge.node = false → ∃ j < i, ∃ earlier, layers[j]? = some earlier ∧ edge.node ∈ earlier
  room : ∀ layer ∈ layers, layer.countP g.isNonLocal ≤ capacity
  exclusive : ∀ layer ∈ layers, ∀ a ∈ layer, ∀ b ∈ layer, a ≠ b →
    ∀ symbol ∈ g.targetsOf a, symbol ∈ g.targetsOf b → g.isMagic symbol

/-- A plan that admits every operation once, in such layers. -/
structure Plan.Safe (g : Graph) (capacity : Nat) (plan : Plan) : Prop
    extends Layered g capacity plan.layers where
  complete : ∀ node ∈ g.live, node.isFactory = false → plan.layers.flatten.count node.id = 1
  operations : ∀ id ∈ plan.layers.flatten, ∃ node ∈ g.live, node.id = id ∧ node.isFactory = false

theorem Layered.append {g : Graph} {capacity : Nat} {layers : List (List NodeId)} {last : List NodeId}
    (layered : Layered g capacity layers)
    (ready : ∀ id ∈ last, ∀ edge ∈ g.producers id, g.isFactory edge.node = false → edge.node ∈ layers.flatten)
    (room : last.countP g.isNonLocal ≤ capacity)
    (exclusive : ∀ a ∈ last, ∀ b ∈ last, a ≠ b → ∀ symbol ∈ g.targetsOf a, symbol ∈ g.targetsOf b →
      g.isMagic symbol) : Layered g capacity (layers ++ [last]) := by
  have kept : ∀ {j : Nat} {layer}, layers[j]? = some layer → (layers ++ [last])[j]? = some layer := by
    intro j layer found
    rw [List.getElem?_append_left (List.getElem?_eq_some_iff.mp found).1]
    exact found
  constructor
  case ordered =>
    intro i layer found id member edge inside operation
    rcases Nat.lt_trichotomy i layers.length with below | rfl | above
    · rw [List.getElem?_append_left below] at found
      obtain ⟨j, before, earlier, there, edge⟩ := layered.ordered i layer found id member edge inside operation
      exact ⟨j, before, earlier, kept there, edge⟩
    · obtain rfl : last = layer := by simpa using found
      obtain ⟨earlier, there, edge⟩ := List.mem_flatten.mp (ready id member edge inside operation)
      obtain ⟨j, here⟩ := List.mem_iff_getElem?.mp there
      exact ⟨j, (List.getElem?_eq_some_iff.mp here).1, earlier, kept here, edge⟩
    · rw [List.getElem?_eq_none (by simp; omega)] at found
      cases found
  case room =>
    intro layer member
    rcases List.mem_append.mp member with member | here
    · exact layered.room layer member
    · rw [List.mem_singleton.mp here]
      exact room
  case exclusive =>
    intro layer member
    rcases List.mem_append.mp member with member | here
    · exact layered.exclusive layer member
    · rw [List.mem_singleton.mp here]
      exact exclusive

namespace Scheduling

variable {g : Graph} {capacity : Nat} {s : Scheduling} {t : Sweep} {units : List Draw}

/-! ## Between two cycles -/

structure Orderly (g : Graph) (capacity : Nat) (s : Scheduling) : Prop where
  order : s.resolved = s.layers.toList.flatten.reverse
  distinct : s.resolved.Nodup
  closed : g.Closed s.resolved
  operations : ∀ id, id ∈ s.resolved ∨ id ∈ s.candidates → ∃ node, g.node? id = some node ∧ node.isFactory = false
  pending : ∀ id ∈ s.candidates, id ∉ s.resolved
  woken : ∀ id node, g.node? id = some node → node.isFactory = false →
    (id ∈ g.entries ∨ ∃ edge ∈ g.producers id, edge.node ∈ s.resolved) → id ∈ s.resolved ∨ id ∈ s.candidates
  layered : Layered g capacity s.layers.toList

/-- The factories deliver `units`, and every admitted node has got what it draws. -/
structure Stocked (g : Graph) (units : List Draw) (s : Scheduling) : Prop where
  lines : s.pool.units = units
  within : s.pool.Within
  served : ∀ id ∈ s.resolved, ∀ node, g.node? id = some node →
    (s.draws.getD id []).map (·.symbol) = g.drawn node ∧ ∀ unit ∈ s.draws.getD id [], unit ∈ units
  blank : ∀ id, id ∉ s.resolved → s.draws[id]? = none

theorem orderly_start (wired : g.Wired) (capacity : Nat) (pool : Pool) :
    Orderly g capacity { candidates := g.entries, pool } where
  order := rfl
  distinct := .nil
  closed := by simp [Graph.Closed]
  operations id member := by
    obtain ⟨node, found, operation, _⟩ := wired.mem_entries.mp (member.resolve_left List.not_mem_nil)
    exact ⟨node, found, operation⟩
  pending := by simp
  woken id node _ _ awake := by
    rcases awake with entry | ⟨edge, _, impossible⟩
    · exact .inr entry
    · cases impossible
  layered := ⟨by simp, by simp, by simp⟩

theorem stocked_start (g : Graph) {pool : Pool} (within : pool.Within) :
    Stocked g pool.units { candidates := g.entries, pool } :=
  ⟨rfl, within, by simp, by simp⟩

/-! ## One cycle -/

/-- The state after a cycle whose turns led to `t`. -/
def next (g : Graph) (s : Scheduling) (t : Sweep) : Scheduling where
  candidates := appendNew ((g.prioritise s.candidates).filter (!t.resolved.contains ·))
    ((t.admitted.flatMap fun id => (g.consumers id).map (·.node)).filter (!t.resolved.contains ·))
  pool := t.pool.advance
  layers := s.layers.push t.admitted
  resolved := t.resolved
  draws := t.draws

theorem size_layers_next : (s.next g t).layers.size = s.layers.size + 1 := Array.size_push ..

theorem Orderly.fair_opening (orderly : Orderly g capacity s) : Sweep.Fair g capacity s.opening s.opening := by
  refine ⟨rfl, orderly.distinct, ?_, ?_, ?_, rfl, Nat.zero_le _⟩
  all_goals simp [opening]

theorem turns_eq_ok (wired : g.Wired) (orderly : Orderly g capacity s) (stocked : Stocked g units s) :
    ∃ t, s.opening.turns g capacity (g.prioritise s.candidates) = .ok t ∧
      Sweep.Fair g capacity s.opening t ∧ Sweep.Served g s.opening t ∧ ∀ id ∈ t.admitted, id ∈ s.candidates := by
  refine Sweep.turns_induction wired (P := fun t => Sweep.Fair g capacity s.opening t ∧
    Sweep.Served g s.opening t ∧ ∀ id ∈ t.admitted, id ∈ s.candidates) ?_ ?_
  · rintro before after id node queued found admits accepts ⟨fair, served, members⟩
    have candidate : id ∈ s.candidates := mem_sortBy.mp queued
    have fresh := (Sweep.of_admits wired found admits).1
    refine ⟨Sweep.fair_accepts wired orderly.closed found admits accepts fair, ?_, ?_⟩
    · exact Sweep.served_accepts wired found (fun member => fresh ((Sweep.mem_resolved fair).mpr (.inl member)))
        (stocked.blank id (orderly.pending id candidate)) accepts served
    · intro other member
      rw [accepts.admitted, wired.id_eq found] at member
      rcases List.mem_append.mp member with earlier | last
      · exact members other earlier
      · exact List.mem_singleton.mp last ▸ candidate
  · refine ⟨orderly.fair_opening, ⟨rfl, stocked.within, ?_, fun _ _ => rfl⟩, ?_⟩
    all_goals simp [opening]

theorem cycle_of_turns (more : s.candidates ≠ [])
    (done : s.opening.turns g capacity (g.prioritise s.candidates) = .ok t) :
    s.cycle g capacity
      = if t.admitted.isEmpty && t.pool.saturated then
          .done (.error (.stalled s.layers.size ((g.prioritise s.candidates).filter (!t.resolved.contains ·))))
        else .again (s.next g t) := by
  unfold cycle
  rw [if_neg (by simpa using more)]
  simp only [done]
  rfl

theorem cycle_eq_again {u : Scheduling} (h : s.cycle g capacity = .again u) :
    ∃ t, s.opening.turns g capacity (g.prioritise s.candidates) = .ok t ∧ u = s.next g t := by
  unfold cycle at h
  split at h
  · cases h
  · dsimp only at h
    split at h
    · cases h
    next t done =>
        split at h
        · cases h
        · cases h
          exact ⟨t, done, rfl⟩

theorem mem_candidates_next {id : NodeId} :
    id ∈ (s.next g t).candidates ↔
      id ∉ t.resolved ∧ (id ∈ s.candidates ∨ ∃ other ∈ t.admitted, ∃ edge ∈ g.consumers other, edge.node = id) := by
  simp only [next, mem_appendNew, List.mem_filter, Graph.prioritise, mem_sortBy, List.mem_flatMap, List.mem_map,
    Bool.not_eq_true', List.contains_eq_mem, decide_eq_false_iff_not]
  constructor
  · rintro (⟨candidate, fresh⟩ | ⟨consumer, fresh⟩)
    · exact ⟨fresh, .inl candidate⟩
    · exact ⟨fresh, .inr consumer⟩
  · rintro ⟨fresh, candidate | consumer⟩
    · exact .inl ⟨candidate, fresh⟩
    · exact .inr ⟨consumer, fresh⟩

theorem orderly_next (wired : g.Wired) (orderly : Orderly g capacity s)
    (fair : Sweep.Fair g capacity s.opening t) (members : ∀ id ∈ t.admitted, id ∈ s.candidates) :
    Orderly g capacity (s.next g t) := by
  have resolved : ∀ id, id ∈ t.resolved ↔ id ∈ t.admitted ∨ id ∈ s.resolved := fun id => Sweep.mem_resolved fair
  have layers : (s.next g t).layers.toList = s.layers.toList ++ [t.admitted] := Array.toList_push
  constructor
  case order =>
    rw [layers]
    simp [next, fair.resolved, opening, orderly.order]
  case distinct => exact fair.distinct
  case closed => exact fair.closed orderly.closed
  case operations =>
    rintro id (member | candidate)
    · rcases (resolved id).mp member with admitted | earlier
      · exact orderly.operations id (.inr (members id admitted))
      · exact orderly.operations id (.inl earlier)
    · obtain ⟨_, candidate | ⟨other, admitted, ⟨symbol, _⟩, edge, rfl⟩⟩ := mem_candidates_next.mp candidate
      · exact orderly.operations id (.inr candidate)
      · -- a consumer has a producer, and factories have none
        have inside := wired.consumers.mp edge
        obtain ⟨node, found⟩ := Graph.exists_node?_of_mem_producers inside
        exact ⟨node, found, wired.not_isFactory_of_mem_producers found (Graph.producers_of_node? found ▸ inside)⟩
  case pending => exact fun id candidate => (mem_candidates_next.mp candidate).1
  case woken =>
    intro id node found operation awake
    by_cases done : id ∈ t.resolved
    · exact .inl done
    · refine .inr (mem_candidates_next.mpr ⟨done, ?_⟩)
      have unresolved : id ∉ s.resolved := fun earlier => done ((resolved id).mpr (.inr earlier))
      have candidate : (id ∈ g.entries ∨ ∃ edge ∈ g.producers id, edge.node ∈ s.resolved) → id ∈ s.candidates :=
        fun awake => (orderly.woken id node found operation awake).resolve_left unresolved
      rcases awake with entry | ⟨⟨symbol, other⟩, inside, member⟩
      · exact .inl (candidate (.inl entry))
      · rcases (resolved other).mp member with admitted | earlier
        · exact .inr ⟨other, admitted, ⟨symbol, id⟩, wired.consumers.mpr inside, rfl⟩
        · exact .inl (candidate (.inr ⟨_, inside, earlier⟩))
  case layered =>
    rw [layers]
    refine orderly.layered.append ?_ (fair.count ▸ fair.room) fair.exclusive
    intro id member edge inside operation
    have ready := fair.ready id member edge inside operation
    simpa [opening, orderly.order] using ready

theorem stocked_next (stocked : Stocked g units s) (fair : Sweep.Fair g capacity s.opening t)
    (served : Sweep.Served g s.opening t) (orderly : Orderly g capacity s)
    (members : ∀ id ∈ t.admitted, id ∈ s.candidates) : Stocked g units (s.next g t) := by
  have resolved : ∀ id, id ∈ t.resolved ↔ id ∈ t.admitted ∨ id ∈ s.resolved := fun id => Sweep.mem_resolved fair
  have same : s.opening.pool.units = units := stocked.lines
  constructor
  case lines => rw [← same, ← served.units]; exact Pool.units_advance t.pool
  case within => exact Pool.within_advance t.pool
  case served =>
    intro id member node found
    rcases (resolved id).mp member with admitted | earlier
    · exact same ▸ served.served id admitted node found
    · have outside : id ∉ t.admitted := fun admitted => orderly.pending id (members id admitted) earlier
      have kept : t.draws[id]? = s.draws[id]? := served.others id outside
      have draws : (s.next g t).draws.getD id [] = s.draws.getD id [] := NodeMap.getD_congr kept []
      rw [draws]
      exact stocked.served id earlier node found
  case blank =>
    intro id outside
    have outside := mt (resolved id).mpr outside
    rw [not_or] at outside
    exact (served.others id outside.1).trans (stocked.blank id outside.2)

/-! ## All cycles -/

theorem orderly_cycle (wired : g.Wired) {u : Scheduling} (orderly : Orderly g capacity s)
    (stocked : Stocked g units s) (h : s.cycle g capacity = .again u) :
    Orderly g capacity u ∧ Stocked g units u := by
  obtain ⟨t, done, fair, served, members⟩ := turns_eq_ok wired orderly stocked
  obtain ⟨last, same, rfl⟩ := cycle_eq_again h
  obtain rfl := Except.ok.inj (done.symm.trans same)
  exact ⟨orderly_next wired orderly fair members, stocked_next stocked fair served orderly members⟩

theorem orderly_of_reaches (wired : g.Wired) {factories : List Factory}
    (reached : Reaches (cycle g capacity) { candidates := g.entries, pool := Pool.new factories } s) :
    Orderly g capacity s ∧ Stocked g (Pool.new factories).units s :=
  reached.invariant (P := fun s => Orderly g capacity s ∧ Stocked g (Pool.new factories).units s)
    (fun _ _ holds next => orderly_cycle wired holds.1 holds.2 next)
    ⟨orderly_start wired capacity _, stocked_start g (Pool.within_new factories)⟩

/-- An operation whose older operations are all admitted is woken by one of them, or waits for none. -/
theorem Orderly.awake (orderly : Orderly g capacity s) (wired : g.Wired) {id : Nat} {node : Node}
    (found : g.node? id = some node) (operation : node.isFactory = false)
    (older : ∀ other < id, ∀ node, g.node? other = some node → node.isFactory = false → other ∈ s.resolved) :
    id ∈ s.resolved ∨ id ∈ s.candidates := by
  refine orderly.woken id node found operation ?_
  by_cases fed : ∀ edge ∈ g.producers id, g.isFactory edge.node
  · exact .inl (wired.mem_entries.mpr ⟨node, found, operation, fed⟩)
  · simp only [not_forall, Bool.not_eq_true] at fed
    obtain ⟨edge, inside, produced⟩ := fed
    obtain ⟨producer, there, operation, below⟩ := wired.exists_operation inside produced
    exact .inr ⟨edge, inside, older edge.node below producer there operation⟩

theorem Orderly.all_resolved (orderly : Orderly g capacity s) (wired : g.Wired) (none : s.candidates = [])
    {id : Nat} {node : Node} (found : g.node? id = some node) (operation : node.isFactory = false) :
    id ∈ s.resolved := by
  induction id using Nat.strongRecOn generalizing node with
  | ind id ih =>
      have awake := orderly.awake wired found operation fun other below node => ih other below
      rw [none] at awake
      exact awake.resolve_right List.not_mem_nil

theorem safe_of_orderly (orderly : Orderly g capacity s) (wired : g.Wired) (none : s.candidates = [])
    {plan : Plan} (layers : plan.layers = s.layers.toList) : plan.Safe g capacity := by
  have members : ∀ id, id ∈ plan.layers.flatten ↔ id ∈ s.resolved := by
    intro id
    rw [layers, orderly.order, List.mem_reverse]
  refine { layers ▸ orderly.layered with complete := ?_, operations := ?_ }
  · intro node live operation
    have once := orderly.distinct
    rw [orderly.order, List.nodup_reverse, ← layers] at once
    rw [once.count, if_pos]
    exact (members node.id).mpr (orderly.all_resolved wired none (wired.mem_live.mp live) operation)
  · intro id member
    obtain ⟨node, found, operation⟩ := orderly.operations id (.inl ((members id).mp member))
    have named := wired.id_eq found
    exact ⟨node, wired.mem_live.mpr (named ▸ found), named, operation⟩

/-- A plan is given in a state that scheduling reaches and that has no candidates left. -/
theorem reaches_of_schedule {factories : List Factory} {plan : Plan} (h : g.schedule capacity factories = .ok plan) :
    ∃ s, Reaches (cycle g capacity) { candidates := g.entries, pool := Pool.new factories } s ∧
      s.candidates = [] ∧ plan = { cycles := s.layers.size, layers := s.layers.toList, draws := s.draws } := by
  unfold Graph.schedule at h
  dsimp only at h
  split at h
  · cases h
  · cases run : iterate (cycle g capacity) (g.scheduleBound (Pool.new factories))
        { candidates := g.entries, pool := Pool.new factories } with
    | none => rw [run] at h; cases h
    | some result =>
        rw [run] at h
        obtain ⟨s, reached, last⟩ := reaches_of_iterate run
        obtain rfl : result = .ok plan := h
        refine ⟨s, reached, ?_⟩
        unfold cycle at last
        split at last
        next none =>
            cases last
            exact ⟨by simpa using none, rfl⟩
        · dsimp only at last
          split at last
          · cases last
          · split at last <;> cases last

theorem schedule_eq_error {factories : List Factory} {e : Error} (h : g.schedule capacity factories = .error e) :
    (∃ symbol, e = .missingFactory symbol ∨ e = .inconsistent (.noInventory symbol)) ∨
      (∃ cycle pending, e = .stalled cycle pending) ∨ e = .unfinished := by
  unfold Graph.schedule at h
  dsimp only at h
  split at h
  next symbol _ => cases h; exact .inl ⟨symbol, .inl rfl⟩
  · cases run : iterate (cycle g capacity) (g.scheduleBound (Pool.new factories))
        { candidates := g.entries, pool := Pool.new factories } with
    | none => rw [run] at h; cases h; exact .inr (.inr rfl)
    | some result =>
        rw [run] at h
        obtain ⟨s, _, last⟩ := reaches_of_iterate run
        obtain rfl : result = .error e := h
        unfold cycle at last
        split at last
        · cases last
        · dsimp only at last
          split at last
          next failed =>
              cases last
              obtain ⟨symbol, rfl⟩ := Sweep.turns_eq_error failed
              exact .inl ⟨symbol, .inr rfl⟩
          · split at last
            · cases last; exact .inr (.inl ⟨_, _, rfl⟩)
            · cases last

theorem schedule_eq_ok {factories : List Factory} {plan : Plan} (wired : g.Wired)
    (h : g.schedule capacity factories = .ok plan) :
    ∃ s, Orderly g capacity s ∧ Stocked g (Pool.new factories).units s ∧ s.candidates = [] ∧
      plan = { cycles := s.layers.size, layers := s.layers.toList, draws := s.draws } := by
  obtain ⟨s, reached, none, same⟩ := reaches_of_schedule h
  obtain ⟨orderly, stocked⟩ := orderly_of_reaches wired reached
  exact ⟨s, orderly, stocked, none, same⟩

end Scheduling

theorem Plan.Safe.of_schedule {g : Graph} {capacity : Nat} {factories : List Factory} {plan : Plan} (wired : g.Wired)
    (h : g.schedule capacity factories = .ok plan) : plan.Safe g capacity := by
  obtain ⟨s, orderly, _, none, rfl⟩ := Scheduling.schedule_eq_ok wired h
  exact Scheduling.safe_of_orderly orderly wired none rfl

/-- Every plan for a graph that a builder made is safe. Layers and urgencies, on which the order of the
    turns depends, may be any. -/
theorem safe_of_schedule {b : Builder} {g : Graph} {capacity : Nat} {factories : List Factory} {plan : Plan}
    (reachable : b.Reachable) (alike : g.Alike b.graph) (h : g.schedule capacity factories = .ok plan) :
    plan.Safe g capacity :=
  .of_schedule (alike.wired reachable.sound.wired) h

/-- Two T gates that share a factory, and a joint operation after them. -/
def pairOfGates : Except Error Builder := do
  let (_, b) ← ((Builder.new "pair").declareAll ["a", "b"]).addGate .t ["a"]
  let (_, b) ← b.addGate .t ["b"]
  let (_, b) ← b.addGate .cnot ["a", "b"]
  return b

theorem reachable_pairOfGates {b : Builder} (h : pairOfGates = .ok b) : b.Reachable := by
  obtain ⟨⟨_, c⟩, first, h⟩ := bind_eq_ok.mp h
  obtain ⟨⟨_, d⟩, second, h⟩ := bind_eq_ok.mp h
  obtain ⟨⟨_, e⟩, third, h⟩ := bind_eq_ok.mp h
  cases h
  rw [Builder.addGate, Builder.add] at first second third
  have start := Builder.Reachable.declareAll ["a", "b"] (.new "pair")
  exact ((start.addLasting first).addLasting second).addLasting third

/-- With the urgency of the first gate taken away, the second one goes first. -/
theorem safe_of_schedule_pair :
    ∃ (b : Builder) (g : Graph) (plan : Plan), b.Reachable ∧ g.Alike b.graph ∧
      g.urgencyOf 3 ≠ b.graph.urgencyOf 3 ∧ g.schedule 1 [⟨"T", 2⟩] = .ok plan ∧
      plan.layers = [[0, 1], [], [4], [], [3], [5]] ∧ plan.Safe g 1 := by
  have runs : pairOfGates.toOption.any fun b =>
      let g := b.graph.modify 3 fun node => { node with urgency := .idle }
      (g.schedule 1 [⟨"T", 2⟩]).toOption.any fun plan =>
        g.urgencyOf 3 != b.graph.urgencyOf 3 && plan.layers == [[0, 1], [], [4], [], [3], [5]] := by decide +kernel
  obtain ⟨b, built, runs⟩ := exists_ok_of_any runs
  obtain ⟨plan, scheduled, runs⟩ := exists_ok_of_any runs
  simp only [Bool.and_eq_true, bne_iff_ne, beq_iff_eq] at runs
  have reachable := reachable_pairOfGates built
  have alike : (b.graph.modify 3 fun node => { node with urgency := .idle }).Alike b.graph := by
    apply Graph.alike_modify <;> intro node <;> rfl
  exact ⟨b, _, plan, reachable, alike, runs.1, scheduled, runs.2, safe_of_schedule reachable alike scheduled⟩

end LatticeSurgery
