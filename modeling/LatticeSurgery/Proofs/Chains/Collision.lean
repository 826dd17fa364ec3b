import Mathlib.Data.List.Induction
import LatticeSurgery.Proofs.Chains.Rewiring
import LatticeSurgery.Proofs.Plan.Rationing

/-! # Names that collide

Instances of factories are named after their state and rank, and nothing keeps a program from using such a name. The
resource then becomes a magic state, and a node that acts on it and is served by the instance has the name twice.
Nothing else can go wrong with a node: it keeps distinct targets, all its exclusive edges and one edge for each state
that it draws exactly if no instance that serves it has a name which the node still uses.
-/

namespace LatticeSurgery

/-! ## One node -/

theorem Draw.instanceSymbol_ne_symbol (unit : Draw) : unit.instanceSymbol ≠ unit.symbol := by
  intro same
  have lengths := congrArg (fun name : Symbol => name.toList.length) same
  simp [toList_instanceSymbol] at lengths

namespace Service

/-- Whether an instance that serves a node is called like one of the targets that are not renamed yet. -/
def clashes (targets : List Symbol) : List Draw → Bool
  | [] => false
  | unit :: rest => targets.contains unit.instanceSymbol || clashes (targets.filter (· ≠ unit.symbol)) rest

variable {targets : List Symbol} {units : List Draw} {unit : Draw}

theorem clashes_append (targets : List Symbol) (units : List Draw) (unit : Draw) :
    clashes targets (units ++ [unit]) = true ↔ clashes targets units = true ∨
      unit.instanceSymbol ∈ targets ∧ unit.instanceSymbol ∉ units.map (·.symbol) := by
  induction units generalizing targets with
  | nil => simp [clashes]
  | cons first rest ih =>
      rw [List.cons_append, clashes, clashes, Bool.or_eq_true, ih, Bool.or_eq_true, or_assoc]
      simp only [List.mem_filter, decide_eq_true_eq, List.map_cons, List.mem_cons, not_or, and_assoc]

/-- Where nothing clashes, an instance called like a target is called like a state that was bound before. -/
theorem mem_of_not_clashes (apart : clashes targets units = false) (member : unit ∈ units)
    (named : unit.instanceSymbol ∈ targets) : unit.instanceSymbol ∈ units.map (·.symbol) := by
  induction units generalizing targets with
  | nil => cases member
  | cons first rest ih =>
      rw [clashes, Bool.or_eq_false_iff] at apart
      rcases List.mem_cons.mp member with rfl | member
      · simp [named] at apart
      · by_cases here : unit.instanceSymbol = first.symbol
        · rw [here]
          exact List.mem_cons_self
        · exact List.mem_cons_of_mem _ (ih apart.2 member (by simpa [here] using named))

/-- Names that no target has clash with none. -/
theorem not_clashes (apart : ∀ unit ∈ units, unit.instanceSymbol ∉ targets) : clashes targets units = false := by
  induction units generalizing targets with
  | nil => rfl
  | cons first rest ih =>
      obtain ⟨here, later⟩ := List.forall_mem_cons.mp apart
      rw [clashes, Bool.or_eq_false_iff]
      refine ⟨by simpa using here, ih fun unit member => ?_⟩
      exact fun named => later unit member (List.mem_of_mem_filter named)

end Service

/-- A rename to another name keeps a list free of repetitions exactly if the name is new. -/
theorem nodup_rename_iff {names : List Symbol} {shared own : Symbol} (member : shared ∈ names)
    (differs : own ≠ shared) :
    (names.map fun name => if name = shared then own else name).Nodup ↔ names.Nodup ∧ own ∉ names := by
  constructor
  · intro distinct
    refine ⟨distinct.of_map, fun taken => differs ?_⟩
    exact (List.inj_on_of_nodup_map distinct member taken (by simp [differs])).symm
  · rintro ⟨distinct, fresh⟩
    refine List.Nodup.map_on ?_ distinct
    intro a first b second same
    split at same <;> split at same
    · simp [*]
    · exact absurd (same ▸ second) fresh
    · exact absurd (same ▸ first) fresh
    · exact same

namespace Node

variable {node : Node} {services : List (Draw × NodeId)} {target : Symbol}

/-- A node after several services, each given by the unit and the node that makes it. -/
def redirectAll (node : Node) (services : List (Draw × NodeId)) : Node :=
  services.foldl (fun node service => node.redirect service.1.symbol service.1.instanceSymbol service.2) node

theorem redirectAll_append (node : Node) (services : List (Draw × NodeId)) (unit : Draw) (producer : NodeId) :
    node.redirectAll (services ++ [(unit, producer)])
      = (node.redirectAll services).redirect unit.symbol unit.instanceSymbol producer := by
  rw [redirectAll, List.foldl_append]
  rfl

theorem mem_targets_of_redirectAll (member : target ∈ (node.redirectAll services).targets) :
    (target ∈ node.targets ∧ target ∉ services.map (·.1.symbol)) ∨ target ∈ services.map (·.1.instanceSymbol) := by
  induction services using List.reverseRecOn generalizing target with
  | nil => exact .inl ⟨member, List.not_mem_nil⟩
  | append_singleton services service ih =>
      rw [redirectAll_append, redirect] at member
      obtain ⟨name, before, rfl⟩ := List.mem_map.mp member
      split
      · exact .inr (by simp)
      next other =>
          refine (ih before).imp (fun kept => ⟨kept.1, ?_⟩) fun named => ?_
          · simpa [other] using kept.2
          · simp only [List.map_append]
            exact List.mem_append_left _ named

theorem mem_targets_redirectAll (member : target ∈ node.targets) (kept : target ∉ services.map (·.1.symbol)) :
    target ∈ (node.redirectAll services).targets := by
  induction services using List.reverseRecOn with
  | nil => exact member
  | append_singleton services service ih =>
      rw [List.map_append, List.mem_append, not_or] at kept
      rw [redirectAll_append, redirect]
      refine List.mem_map.mpr ⟨target, ih kept.1, if_neg ?_⟩
      simpa using kept.2

/-- The targets of a node stay distinct exactly if no service clashes. -/
theorem nodup_targets_redirectAll (distinct : node.targets.Nodup) (once : (services.map (·.1.symbol)).Nodup)
    (drawn : ∀ service ∈ services, service.1.symbol ∈ node.targets) :
    (node.redirectAll services).targets.Nodup ↔ Service.clashes node.targets (services.map (·.1)) = false := by
  induction services using List.reverseRecOn with
  | nil => exact iff_of_true distinct rfl
  | append_singleton services service ih =>
      obtain ⟨unit, producer⟩ := service
      simp only [List.map_append, List.map_cons, List.map_nil, List.nodup_append] at once
      obtain ⟨once, -, new⟩ := once
      have before := ih once fun service member => drawn service (List.mem_append_left _ member)
      have fresh : unit.symbol ∉ services.map (·.1.symbol) := fun listed =>
        new _ listed _ (List.mem_singleton.mpr rfl) rfl
      have member : unit.symbol ∈ (node.redirectAll services).targets :=
        mem_targets_redirectAll (drawn (unit, producer) (by simp)) fresh
      -- instances of different states have different names
      have taken : unit.instanceSymbol ∈ (node.redirectAll services).targets ↔
          unit.instanceSymbol ∈ node.targets ∧ unit.instanceSymbol ∉ services.map (·.1.symbol) := by
        refine ⟨fun listed => (mem_targets_of_redirectAll listed).resolve_right fun named => ?_, ?_⟩
        · obtain ⟨other, earlier, same⟩ := List.mem_map.mp named
          rw [← (Draw.instanceSymbol_eq_iff.mp same).1] at fresh
          exact fresh (List.mem_map_of_mem (f := fun service : Draw × NodeId => service.1.symbol) earlier)
        · rintro ⟨listed, kept⟩
          exact mem_targets_redirectAll listed kept
      have last := not_congr (Service.clashes_append node.targets (services.map (·.1)) unit)
      rw [Bool.not_eq_true, not_or, Bool.not_eq_true, List.map_map] at last
      rw [redirectAll_append, redirect, nodup_rename_iff member unit.instanceSymbol_ne_symbol, before, taken,
        List.map_append]
      exact last.symm

/-- Without a clash a node keeps the edges that no service is about, and gets one for each service. -/
theorem producers_redirectAll (once : (services.map (·.1.symbol)).Nodup)
    (drawn : ∀ service ∈ services, service.1.symbol ∈ node.targets)
    (apart : Service.clashes node.targets (services.map (·.1)) = false) :
    (node.redirectAll services).producers
      = node.producers.filter (fun edge => !(services.map (·.1.symbol)).contains edge.symbol)
        ++ services.map fun service => ⟨service.1.instanceSymbol, service.2⟩ := by
  induction services using List.reverseRecOn with
  | nil => simp [redirectAll]
  | append_singleton services service ih =>
      obtain ⟨unit, producer⟩ := service
      simp only [List.map_append, List.map_cons, List.map_nil] at once apart
      obtain ⟨once, -, new⟩ := List.nodup_append.mp once
      rw [← Bool.not_eq_true, Service.clashes_append, not_or, Bool.not_eq_true] at apart
      have before := ih once (fun service member => drawn service (List.mem_append_left _ member)) apart.1
      -- an instance called like the state would have clashed, since the state is bound only now
      have own : (services.map fun service => (⟨service.1.instanceSymbol, service.2⟩ : Edge)).filter
          (·.symbol != unit.symbol) = services.map fun service => ⟨service.1.instanceSymbol, service.2⟩ := by
        refine List.filter_eq_self.mpr fun edge member => bne_iff_ne.mpr fun same => ?_
        obtain ⟨service, earlier, rfl⟩ := List.mem_map.mp member
        have same : service.1.instanceSymbol = unit.symbol := same
        have named : service.1.instanceSymbol ∈ node.targets := by
          rw [same]
          exact drawn (unit, producer) (by simp)
        have listed := Service.mem_of_not_clashes apart.1 (List.mem_map_of_mem earlier) named
        rw [List.map_map, same] at listed
        exact new _ listed _ (List.mem_singleton.mpr rfl) rfl
      have kept : (node.producers.filter fun edge => !(services.map (·.1.symbol)).contains edge.symbol).filter
            (·.symbol != unit.symbol)
          = node.producers.filter fun edge =>
            !((services ++ [(unit, producer)]).map (·.1.symbol)).contains edge.symbol := by
        rw [List.filter_filter]
        refine List.filter_congr fun edge _ => ?_
        rw [List.map_append, List.contains_append, Bool.not_or, Bool.and_comm]
        simp only [List.map_cons, List.map_nil, List.contains_cons, List.contains_nil, Bool.or_false, bne]
      rw [redirectAll_append]
      change (node.redirectAll services).producers.filter (·.symbol != unit.symbol)
        ++ [⟨unit.instanceSymbol, producer⟩] = _
      rw [before, List.filter_append, own, kept, List.append_assoc]
      simp only [List.map_append, List.map_cons, List.map_nil]

end Node

/-! ## All services -/

namespace Service

variable {first : NodeId} {served : List (NodeId × Draw)} {consumer id : NodeId} {unit : Draw}

/-- The services of one node in order, each given by the unit and the node that makes it. -/
def servicesOf (first : NodeId) (served : List (NodeId × Draw)) (id : NodeId) : List (Draw × NodeId) :=
  ((served.zipIdx first).filter (·.1.1 == id)).map fun entry => (entry.1.2, entry.2)

theorem servicesOf_append :
    servicesOf first (served ++ [(consumer, unit)]) id
      = servicesOf first served id ++ if consumer = id then [(unit, first + served.length)] else [] := by
  simp only [servicesOf, List.zipIdx_append, List.filter_append, List.map_append]
  split <;> simp [*]

theorem units_servicesOf (first : NodeId) (served : List (NodeId × Draw)) (id : NodeId) :
    (servicesOf first served id).map (·.1) = (served.filter (·.1 == id)).map (·.2) := by
  induction served using List.reverseRecOn with
  | nil => rfl
  | append_singleton served entry ih =>
      obtain ⟨consumer, unit⟩ := entry
      rw [servicesOf_append, List.map_append, ih, List.filter_append, List.map_append]
      by_cases here : consumer = id <;> simp [here]

theorem mem_servicesOf {service : Draw × NodeId} (member : service ∈ servicesOf first served id) :
    ∃ i, served[i]? = some (id, service.1) ∧ service.2 = first + i := by
  obtain ⟨⟨⟨consumer, unit⟩, producer⟩, inside, rfl⟩ := List.mem_map.mp member
  obtain ⟨listed, here⟩ := List.mem_filter.mp inside
  obtain rfl : consumer = id := beq_iff_eq.mp here
  obtain ⟨above, found⟩ := List.mk_mem_zipIdx_iff_le_and_getElem?_sub.mp listed
  exact ⟨producer - first, found, (Nat.add_sub_cancel' above).symm⟩

end Service

/-- A plan serves a node with the units that it draws, one after the other. -/
theorem Plan.units_served {plan : Plan} (once : plan.order.Nodup) {id : NodeId} (listed : id ∈ plan.order) :
    (plan.served.filter (·.1 == id)).map (·.2) = plan.draws.getD id [] := by
  have others : ∀ ids : List NodeId, id ∉ ids →
      (ids.flatMap fun n => (plan.draws.getD n []).map fun draw => (n, draw)).filter (·.1 == id) = [] := by
    intro ids outside
    refine List.filter_eq_nil_iff.mpr fun entry member => ?_
    obtain ⟨n, inside, member⟩ := List.mem_flatMap.mp member
    obtain ⟨_, _, rfl⟩ := List.mem_map.mp member
    simpa using fun same : n = id => outside (same ▸ inside)
  obtain ⟨before, after, split⟩ := List.append_of_mem listed
  rw [split, List.nodup_middle, List.nodup_cons, List.mem_append, not_or] at once
  rw [Plan.served, split, List.flatMap_append, List.flatMap_cons, List.filter_append, List.filter_append,
    others before once.1.1, others after once.1.2, List.nil_append, List.append_nil]
  simp [List.filter_map, Function.comp_def]

namespace Chaining

open Service

variable {g : Graph} {served : List (NodeId × Draw)} {c d : Chaining} {consumer : NodeId} {unit : Draw}

/-- What the graph has become when some services are bound, whatever they are called. -/
structure Traces (g : Graph) (served : List (NodeId × Draw)) (c : Chaining) : Prop where
  size : c.graph.nextId = g.nextId + served.length
  targets : ∀ id node, g.node? id = some node →
    c.graph.targetsOf id = (node.redirectAll (servicesOf g.nextId served id)).targets
  producers : ∀ id node, g.node? id = some node →
    c.graph.producers id = (node.redirectAll (servicesOf g.nextId served id)).producers
  made : ∀ (i : Nat) consumer unit, served[i]? = some (consumer, unit) →
    c.graph.isFactory (g.nextId + i) ∧ c.graph.targetsOf (g.nextId + i) = [unit.instanceSymbol]
  kinds : ∀ symbol, c.graph.kind? symbol
    = if symbol ∈ served.map (·.2.instanceSymbol) then some .magicState else g.kind? symbol
  tails : ∀ own : Symbol, c.tails[own]? = none ↔ own ∉ served.map (·.2.instanceSymbol)

theorem traces_start (g : Graph) : Traces g [] { graph := g } where
  size := rfl
  targets _ _ := Graph.targetsOf_of_node?
  producers _ _ := Graph.producers_of_node?
  made := by simp
  kinds := by simp
  tails := by simp

theorem Traces.bind (traces : Traces g served c) (old : consumer < g.nextId) (h : c.bind consumer unit = .ok d) :
    Traces g (served ++ [(consumer, unit)]) d := by
  obtain ⟨source, _, rewires⟩ := rewires_of_bind h
  have later : g.nextId ≤ c.graph.nextId := traces.size ▸ Nat.le_add_right ..
  have apart : ∀ id node, g.node? id = some node → id ≠ c.graph.nextId :=
    fun id node found => Nat.ne_of_lt (Nat.lt_of_lt_of_le (Graph.lt_nextId found) later)
  constructor
  case size => rw [rewires.size, traces.size, List.length_append, List.length_singleton, Nat.add_assoc]
  case targets =>
    intro id node found
    rw [rewires.targets, if_neg (apart id node found), servicesOf_append, traces.targets id node found]
    by_cases here : id = consumer
    · rw [if_pos here, if_pos here.symm, Node.redirectAll_append]
      rfl
    · rw [if_neg here, if_neg (Ne.symm here), List.append_nil]
  case producers =>
    intro id node found
    rw [rewires.producers, if_neg (apart id node found), servicesOf_append, traces.producers id node found]
    by_cases here : id = consumer
    · rw [if_pos here, if_pos here.symm, Node.redirectAll_append, ← traces.size]
      rfl
    · rw [if_neg here, if_neg (Ne.symm here), List.append_nil]
  case made =>
    intro i other draw found
    rcases Nat.lt_trichotomy i served.length with below | rfl | above
    · rw [List.getElem?_append_left below] at found
      have elsewhere : g.nextId + i ≠ c.graph.nextId := by
        rw [traces.size]
        exact Nat.ne_of_lt (Nat.add_lt_add_left below _)
      have new : g.nextId + i ≠ consumer := Nat.ne_of_gt (Nat.lt_add_right i old)
      rw [rewires.isFactory, if_neg elsewhere, rewires.targets, if_neg elsewhere, if_neg new]
      exact traces.made i other draw found
    · rw [List.getElem?_concat_length] at found
      cases found
      rw [← traces.size, rewires.isFactory, if_pos rfl, rewires.targets, if_pos rfl]
      exact ⟨rfl, rfl⟩
    · rw [List.getElem?_eq_none (by rw [List.length_append]; exact above)] at found
      cases found
  case kinds =>
    intro symbol
    rw [rewires.kinds, traces.kinds]
    simp only [traces.tails, List.map_append, List.map_cons, List.map_nil, List.mem_append, List.mem_singleton]
    by_cases listed : symbol ∈ served.map (·.2.instanceSymbol)
    · simp [listed]
    · by_cases here : symbol = unit.instanceSymbol
      · rw [if_pos ⟨here ▸ listed, here⟩, if_pos (.inr here)]
      · simp [listed, here]
  case tails =>
    intro own
    rw [rewires.tails, Std.ExtTreeMap.getElem?_insert]
    split
    next same => simp [Std.compare_eq_iff_eq.mp same]
    next other =>
        rw [Std.compare_eq_iff_eq] at other
        rw [traces.tails, List.map_append, List.mem_append, not_or]
        exact ⟨fun new => ⟨new, by simpa using Ne.symm other⟩, fun both => both.1⟩

theorem Traces.bindAll {rest : List (NodeId × Draw)} (traces : Traces g served c)
    (old : ∀ service ∈ rest, service.1 < g.nextId) (h : c.bindAll rest = .ok d) : Traces g (served ++ rest) d := by
  induction rest generalizing served c with
  | nil =>
      cases h
      rwa [List.append_nil]
  | cons service rest ih =>
      obtain ⟨consumer, unit⟩ := service
      obtain ⟨next, first, h⟩ := bind_eq_ok.mp h
      rw [← List.singleton_append, ← List.append_assoc]
      exact ih (traces.bind (old _ List.mem_cons_self) first)
        (fun service member => old service (List.mem_cons_of_mem _ member)) h

/-- A node that was added makes one thing. -/
theorem Traces.nodup_of_new (traces : Traces g served c) {id : NodeId} (new : g.nextId ≤ id) :
    (c.graph.targetsOf id).Nodup := by
  obtain ⟨i, rfl⟩ := Nat.exists_eq_add_of_le new
  cases found : served[i]? with
  | some entry =>
      rw [(traces.made i entry.1 entry.2 found).2]
      exact List.nodup_singleton _
  | none =>
      have outside : c.graph.nextId ≤ g.nextId + i := by
        rw [traces.size]
        exact Nat.add_le_add_left (List.getElem?_eq_none_iff.mp found) _
      have none : c.graph.node? (g.nextId + i) = none := Array.getElem?_eq_none outside
      simp [Graph.targetsOf, none]

end Chaining

/-! ## The graph -/

namespace Graph

/-- A node is left with distinct targets, all its exclusive edges, and one edge for each unit that it got, which leads
    to a node that makes it. -/
structure Undisturbed (g h : Graph) (node : Node) (units : List Draw) : Prop where
  distinct : (h.targetsOf node.id).Nodup
  producers : ∃ made : List Edge, h.producers node.id = node.producers.filter (!g.isDraw ·) ++ made ∧
    made.map (·.symbol) = units.map (·.instanceSymbol) ∧
    ∀ edge ∈ made, h.isFactory edge.node ∧ h.targetsOf edge.node = [edge.symbol]

variable {g : Graph} {id : NodeId} {node : Node}

/-- What a node reads of a state that it draws is a draw. -/
theorem Joined.isDraw_iff (joined : g.Joined) (found : g.node? id = some node) {edge : Edge}
    (reads : edge ∈ node.producers) : g.isDraw edge ↔ edge.symbol ∈ g.drawn node := by
  refine ⟨fun draws => mem_drawn.mpr ⟨edge, reads, draws, rfl⟩, fun drawn => ?_⟩
  obtain ⟨other, there, draws, same⟩ := mem_drawn.mp drawn
  have single := joined.single id
  rw [producers_of_node? found] at single
  rwa [← List.inj_on_of_nodup_map single there reads same]

open Service in
theorem Wired.servicesOf_of_schedule (wired : g.Wired) {capacity : Nat} {factories : List Factory} {plan : Plan}
    (scheduled : g.schedule capacity factories = .ok plan) (found : g.node? id = some node) (first : NodeId) :
    (servicesOf first plan.served id).map (·.1) = plan.draws.getD id [] ∧
      (servicesOf first plan.served id).map (·.1.symbol) = g.drawn node := by
  have safe := Plan.Safe.of_schedule wired scheduled
  have symbols := (Plan.Paced.of_schedule wired scheduled).symbols found
  have units : (servicesOf first plan.served id).map (·.1) = plan.draws.getD id [] := by
    rw [units_servicesOf]
    by_cases listed : id ∈ plan.order
    · exact Plan.units_served safe.nodup listed
    · -- only a factory is not in the plan, and it draws nothing
      have factory : node.isFactory := by
        refine Bool.not_eq_false _ ▸ fun operation => listed (List.count_pos_iff.mp ?_)
        have live := wired.mem_live.mpr ((wired.id_eq found).symm ▸ found)
        rw [Plan.order, ← wired.id_eq found, safe.complete node live operation]
        exact Nat.one_pos
      obtain ⟨_, _, _, none⟩ := wired.of_isFactory found factory
      have blank : plan.draws.getD id [] = [] := by simpa [drawn, none] using symbols
      rw [blank, List.map_eq_nil_iff, List.filter_eq_nil_iff]
      rintro ⟨other, unit⟩ member here
      exact listed (beq_iff_eq.mp here ▸ (Plan.mem_served.mp member).1)
  refine ⟨units, ?_⟩
  rw [← symbols, ← units, List.map_map]
  rfl

end Graph

open Service in
/-- A graph that has the edges and targets of the chains leaves undisturbed who meets no clash. -/
theorem Chaining.Traces.undisturbed_iff {g h : Graph} {c : Chaining} {capacity : Nat} {factories : List Factory}
    {plan : Plan} {node : Node} (traces : Traces g plan.served c) (wired : g.Wired)
    (scheduled : g.schedule capacity factories = .ok plan) (live : node ∈ g.live)
    (targets : ∀ id, h.targetsOf id = c.graph.targetsOf id) (producers : ∀ id, h.producers id = c.graph.producers id)
    (makes : ∀ id, h.isFactory id = c.graph.isFactory id) :
    g.Undisturbed h node (plan.draws.getD node.id []) ↔ clashes node.targets (plan.draws.getD node.id []) = false := by
  have found := wired.mem_live.mp live
  obtain ⟨units, symbols⟩ := wired.servicesOf_of_schedule scheduled found g.nextId
  have once : ((servicesOf g.nextId plan.served node.id).map (·.1.symbol)).Nodup := by
    rw [symbols]
    exact wired.joined.nodup_drawn found
  have drawn : ∀ service ∈ servicesOf g.nextId plan.served node.id, service.1.symbol ∈ node.targets := by
    intro service member
    have listed : service.1.symbol ∈ g.drawn node := symbols ▸ List.mem_map_of_mem member
    obtain ⟨edge, reads, _, same⟩ := Graph.mem_drawn.mp listed
    rw [← same, ← Graph.targetsOf_of_node? found]
    exact wired.joined.reads (Graph.producers_of_node? found ▸ reads)
  have distinct := Graph.targetsOf_of_node? found ▸ wired.joined.distinct node.id
  have iff := Node.nodup_targets_redirectAll distinct once drawn
  rw [units, ← traces.targets node.id node found, ← targets] at iff
  refine ⟨fun kept => iff.mp kept.distinct, fun apart => ⟨iff.mpr apart, ?_⟩⟩
  refine ⟨(servicesOf g.nextId plan.served node.id).map fun service => ⟨service.1.instanceSymbol, service.2⟩,
    ?_, ?_, ?_⟩
  · rw [producers, traces.producers node.id node found,
      Node.producers_redirectAll once drawn (units.symm ▸ apart), symbols]
    refine congrArg (· ++ _) (List.filter_congr fun edge reads => ?_)
    rw [Bool.eq_iff_iff, Bool.not_eq_true', Bool.not_eq_true', ← Bool.not_eq_true, ← Bool.not_eq_true,
      wired.joined.isDraw_iff found reads, List.contains_iff_mem]
  · rw [← units, List.map_map, List.map_map]
    rfl
  · intro edge member
    obtain ⟨service, inside, rfl⟩ := List.mem_map.mp member
    obtain ⟨i, there, producer⟩ := mem_servicesOf inside
    rw [makes, targets, producer]
    exact traces.made i node.id service.1 there

/-- What binding does to the names of a graph that a builder made, whatever they are. A resource called like an
    instance that serves becomes a magic state, and all others keep their kinds. A node is left undisturbed exactly if
    none of the instances that serve it has a name which it still uses. So nothing is captured if no instance that
    serves has the name of a resource. -/
theorem undisturbed_iff_of_bindInstances {b : Builder} {h : Graph} {capacity : Nat} {factories : List Factory}
    {chains : Chains} (reachable : b.Reachable)
    (done : b.graph.bindInstances capacity factories = .ok (chains, h)) :
    (∀ symbol, h.kind? symbol = if symbol ∈ chains.plan.served.map (·.2.instanceSymbol) then some .magicState
      else b.graph.kind? symbol) ∧
    (∀ node ∈ b.graph.live, (chains.plan.draws.getD node.id []).map (·.symbol) = b.graph.drawn node ∧
      (b.graph.Undisturbed h node (chains.plan.draws.getD node.id []) ↔
        Service.clashes node.targets (chains.plan.draws.getD node.id []) = false)) ∧
    (∀ id, b.graph.nextId ≤ id → (h.targetsOf id).Nodup) ∧
    ((∀ service ∈ chains.plan.served, b.graph.kind? service.2.instanceSymbol = none) →
      (∀ symbol, b.graph.kind? symbol ≠ none → h.kind? symbol = b.graph.kind? symbol) ∧
      ∀ node ∈ b.graph.live, b.graph.Undisturbed h node (chains.plan.draws.getD node.id [])) := by
  have wired := reachable.sound.wired
  obtain ⟨plan, c, scheduled, chained, layered, rfl⟩ := Graph.bindInstances_eq_ok done
  have serves := wired.serves_of_schedule scheduled
  have traces : Chaining.Traces b.graph plan.served c := by
    refine (Chaining.traces_start b.graph).bindAll (fun service member => ?_) chained
    obtain ⟨_, node, found, _⟩ := serves.members service.1 service.2 member
    exact Graph.lt_nextId found
  have retires := Graph.Retires.retireAll c.graph c.shared
  have alike := Graph.alike_of_relayer layered
  have targets : ∀ id, h.targetsOf id = c.graph.targetsOf id :=
    fun id => (alike.targetsOf id).trans (retires.targetsOf id)
  have producers : ∀ id, h.producers id = c.graph.producers id :=
    fun id => (alike.producers id).trans (retires.producers id)
  have makes : ∀ id, h.isFactory id = c.graph.isFactory id :=
    fun id => (alike.isFactory id).trans (retires.isFactory id)
  have kinds : ∀ symbol, h.kind? symbol = if symbol ∈ plan.served.map (·.2.instanceSymbol) then some .magicState
      else b.graph.kind? symbol := by
    intro symbol
    rw [alike.kind?, Graph.kind?, Graph.kinds_retireAll]
    exact traces.kinds symbol
  have nodes : ∀ node ∈ b.graph.live, b.graph.Undisturbed h node (plan.draws.getD node.id []) ↔
      Service.clashes node.targets (plan.draws.getD node.id []) = false :=
    fun node live => traces.undisturbed_iff wired scheduled live targets producers makes
  refine ⟨kinds, fun node live => ⟨?_, nodes node live⟩, fun id new => ?_, fun apart => ⟨fun symbol known => ?_, ?_⟩⟩
  · exact (Plan.Paced.of_schedule wired scheduled).symbols (wired.mem_live.mp live)
  · rw [targets]
    exact traces.nodup_of_new new
  · rw [kinds, if_neg]
    intro listed
    obtain ⟨service, member, rfl⟩ := List.mem_map.mp listed
    exact known (apart service member)
  · intro node live
    have found := wired.mem_live.mp live
    refine (nodes node live).mpr (Service.not_clashes fun unit gets named => ?_)
    rw [← Graph.targetsOf_of_node? found] at named
    rw [← (wired.servicesOf_of_schedule scheduled found b.graph.nextId).1] at gets
    obtain ⟨service, inside, rfl⟩ := List.mem_map.mp gets
    obtain ⟨i, there, _⟩ := Service.mem_servicesOf inside
    exact wired.joined.known named (apart (node.id, service.1) (List.mem_of_getElem? there))

/-- One instance serves both gates. It disturbs the gate on its namesake and not the other. -/
theorem undisturbed_iff_of_bindInstances_namesakes :
    ∃ (b : Builder) (chains : Chains) (h : Graph), b.Reachable ∧
      b.graph.bindInstances 1 [⟨"T", 1⟩] = .ok (chains, h) ∧ h.kind? "T#0" = some .magicState ∧
      (∃ node ∈ b.graph.live, node.targets = ["T#0", "T"] ∧ ¬b.graph.Undisturbed h node [⟨"T", 0, 1⟩]) ∧
      ∃ node ∈ b.graph.live, node.targets = ["a", "T"] ∧ b.graph.Undisturbed h node [⟨"T", 0, 1⟩] := by
  have runs : (((Builder.new "namesakes").declareAll ["T#0", "a"]).addGates
      [(.t, ["T#0"]), (.t, ["a"])]).toOption.any fun b =>
      (b.graph.bindInstances 1 [⟨"T", 1⟩]).toOption.any fun result =>
      (result.1.plan.served.map (·.2.instanceSymbol)).contains "T#0"
        && b.graph.live.any (fun node => node.targets == ["T#0", "T"]
          && result.1.plan.draws.getD node.id [] == [⟨"T", 0, 1⟩])
        && b.graph.live.any (fun node => node.targets == ["a", "T"]
          && result.1.plan.draws.getD node.id [] == [⟨"T", 0, 1⟩]) := by decide +kernel
  obtain ⟨b, built, runs⟩ := exists_ok_of_any runs
  obtain ⟨⟨chains, h⟩, bound, runs⟩ := exists_ok_of_any runs
  simp only [Bool.and_eq_true, List.any_eq_true, beq_iff_eq, List.contains_iff_mem] at runs
  obtain ⟨⟨instances, one, live, targets, units⟩, two, live', targets', units'⟩ := runs
  have reachable := (Builder.Reachable.declareAll ["T#0", "a"] (.new "namesakes")).addGates built
  obtain ⟨kinds, nodes, _⟩ := undisturbed_iff_of_bindInstances reachable bound
  have first := (nodes one live).2
  have second := (nodes two live').2
  rw [units, targets] at first
  rw [units', targets'] at second
  refine ⟨b, chains, h, reachable, bound, (kinds "T#0").trans (if_pos instances), ⟨one, live, targets, ?_⟩,
    two, live', targets', second.mpr (by decide +kernel)⟩
  exact fun kept => absurd (first.mp kept) (by decide +kernel)

/-- An exclusive resource called like an instance becomes a magic state, and the gate on it has the name twice. -/
theorem captured_by_instance :
    ∃ (b : Builder) (chains : Chains) (h : Graph), b.Reachable ∧ b.graph.kind? "T#0" = some .exclusive ∧
      b.graph.bindInstances 1 [⟨"T", 1⟩] = .ok (chains, h) ∧ h.kind? "T#0" = some .magicState ∧
      b.graph.targetsOf 2 = ["T#0", "T"] ∧ h.targetsOf 2 = ["T#0", "T#0"] := by
  have runs : (((Builder.new "namesake").declareAll ["T#0"]).addGates [(.t, ["T#0"])]).toOption.any fun b =>
      (b.graph.bindInstances 1 [⟨"T", 1⟩]).toOption.any fun result =>
      b.graph.kind? "T#0" == some .exclusive && result.2.kind? "T#0" == some .magicState
        && b.graph.targetsOf 2 == ["T#0", "T"] && result.2.targetsOf 2 == ["T#0", "T#0"] := by decide +kernel
  obtain ⟨b, built, runs⟩ := exists_ok_of_any runs
  obtain ⟨⟨chains, h⟩, bound, runs⟩ := exists_ok_of_any runs
  simp only [Bool.and_eq_true, beq_iff_eq] at runs
  obtain ⟨⟨⟨before, after⟩, targets⟩, twice⟩ := runs
  have reachable := (Builder.Reachable.declareAll ["T#0"] (.new "namesake")).addGates built
  exact ⟨b, chains, h, reachable, before, bound, after, targets, twice⟩

end LatticeSurgery
