import LatticeSurgery.Proofs.Chains.Retirement

/-! # Chains are linear

Each instance ends up with one chain: a root makes the first unit, its consumer sets off the node that
makes the second, and so on, in the order in which the plan serves the draws. Nothing else acts on the
instance, and operations change in no other respect than where their magic states come from.
-/

namespace LatticeSurgery

open Service

/-! ## Chains in a graph -/

/-- The chain of an instance: nodes that make its units and nodes that take them, in turn. -/
structure Graph.Linear (h : Graph) (unit : Draw) (links : List Link) : Prop where
  alternating : (links.flatMap fun link => [link.producer, link.consumer]).Nodup
  touching : ∀ id, (∃ node ∈ h.live, node.id = id ∧ node.touches unit.instanceSymbol) ↔
    id ∈ links.flatMap fun link => [link.producer, link.consumer]
  producer : ∀ (i : Nat) link, links[i]? = some link → ∃ node ∈ h.live, node.id = link.producer ∧ node.isFactory ∧
    node.cycles = max unit.period 1 ∧ node.consumers = [⟨unit.instanceSymbol, link.consumer⟩] ∧
    (i = 0 → node.operation = .init ∧ node.producers = []) ∧
    ∀ k before, i = k + 1 → links[k]? = some before →
      node.operation = .prep ∧ node.producers = [⟨unit.instanceSymbol, before.consumer⟩]
  consumer : ∀ link ∈ links, ∃ node ∈ h.live, node.id = link.consumer ∧
    node.producers.filter (·.symbol == unit.instanceSymbol) = [⟨unit.instanceSymbol, link.producer⟩]

/-- An operation of `g` that has the same effect as before, with units of instances in place of magic states. -/
structure Graph.Keeps (g : Graph) (units : List Draw) (before after : Node) : Prop where
  id : after.id = before.id
  operation : after.operation = before.operation
  cycles : after.cycles = before.cycles
  isFactory : after.isFactory = before.isFactory
  length : after.targets.length = before.targets.length
  exclusive : ∀ (i : Nat) symbol, before.targets[i]? = some symbol → g.kind? symbol = some .exclusive →
    after.targets[i]? = some symbol
  magic : ∀ (i : Nat) symbol, before.targets[i]? = some symbol → g.isMagic symbol →
    ∃ unit ∈ units, unit.symbol = symbol ∧ after.targets[i]? = some unit.instanceSymbol
  edges : after.producers.filter (g.kind? ·.symbol == some .exclusive)
    = before.producers.filter (g.kind? ·.symbol == some .exclusive)
  unshared : ∀ symbol ∈ after.targets, g.isMagic symbol = false

namespace Graph

theorem mem_live_iff {h : Graph} {node : Node} :
    node ∈ h.live ↔ ∃ id, h.node? id = some node ∧ node.retired = false := by
  simp [live, node?, Array.mem_iff_getElem?]

theorem exists_live_of_stem? {h : Graph} {id : NodeId} {stem : Node} (found : h.stem? id = some stem)
    (live : stem.retired = false) : ∃ node ∈ h.live, h.node? id = some node ∧ node.stem = stem := by
  obtain ⟨node, there, rfl⟩ := Option.map_eq_some_iff.mp found
  exact ⟨node, mem_live_iff.mpr ⟨id, there, live⟩, there, rfl⟩

end Graph

section Chained

variable {g h : Graph} {units : List Draw} {served : List (NodeId × Draw)} {chains : Chains} {unit : Draw}
  {node : Node} {own : Symbol} {link : Link} {id : NodeId}

/-! ### Operations -/

theorem Graph.Serves.exists_unit (serves : g.Serves units served) (member : link ∈ links g.nextId served own) :
    ∃ unit ∈ units, unit.instanceSymbol = own ∧ link.period = unit.period := by
  obtain ⟨i, unit, found, named, _, period⟩ := mem_links.mp member
  exact ⟨unit, (serves.members _ unit (List.mem_of_getElem? found)).1, named, period⟩

theorem Graph.Serves.drew_of_isMagic (serves : g.Serves units served) (wired : g.Wired)
    (found : g.node? id = some node) (operation : node.isFactory = false) {symbol : Symbol}
    (target : symbol ∈ node.targets) (magic : g.isMagic symbol) : drew served id symbol := by
  obtain ⟨source, known⟩ := wired.supplied.mp (beq_iff_eq.mp magic)
  have reads : ⟨symbol, source⟩ ∈ g.producers id := by
    rw [producers_of_node? found, wired.producers_eq found operation]
    apply List.mem_filterMap.mpr
    exact ⟨symbol, target, by simp [origin?, magic, known]⟩
  exact (serves.drew_of_consumer wired known (wired.consumers.mpr reads)).2

theorem Graph.Serves.isMagic_of_drew (serves : g.Serves units served) {symbol : Symbol}
    (drawn : drew served id symbol) : g.isMagic symbol := by
  obtain ⟨unit, member, rfl, _⟩ := exists_of_drew drawn
  obtain ⟨_, node, _, _, draws⟩ := serves.members id unit member
  exact isMagic_of_mem_drawn draws

variable (serves : g.Serves units served) (wired : g.Wired) (plain : g.Plain)

include serves

theorem Graph.Serves.not_drew_of_exclusive {symbol : Symbol} (exclusive : g.kind? symbol = some .exclusive) :
    drew served id symbol = false := by
  refine Bool.eq_false_iff.mpr fun drawn => ?_
  have magic := beq_iff_eq.mp (serves.isMagic_of_drew drawn)
  rw [exclusive] at magic
  cases magic

include wired plain

theorem Graph.Serves.keeps {before after : Node} (found : g.node? id = some before)
    (operation : before.isFactory = false) (stem : after.stem = rebound g.nextId served before.stem) :
    g.Keeps units before after := by
  have targets : after.targets = before.targets.map (nameFor served before.id) := congrArg Node.targets stem
  have producers : after.producers = before.producers.filter (!drew served before.id ·.symbol)
      ++ edgesOf g.nextId served before.id := congrArg Node.producers stem
  obtain rfl := wired.id_eq found
  have renamed : ∀ symbol ∈ before.targets, g.isMagic symbol →
      ∃ unit ∈ units, unit.symbol = symbol ∧ nameFor served before.id symbol = unit.instanceSymbol := by
    intro symbol target magic
    obtain ⟨unit, member, rfl, name⟩ := exists_of_drew (serves.drew_of_isMagic wired found operation target magic)
    exact ⟨unit, (serves.members _ unit member).1, rfl, name⟩
  constructor
  case id => exact (congrArg Node.id stem :)
  case operation => exact (congrArg Node.operation stem :)
  case cycles => exact (congrArg Node.cycles stem :)
  case isFactory => exact (congrArg Node.isFactory stem :)
  case length => rw [targets, List.length_map]
  case exclusive =>
    intro i symbol target exclusive
    rw [targets, List.getElem?_map, target, Option.map_some,
      nameFor_of_drew (serves.not_drew_of_exclusive exclusive)]
  case magic =>
    intro i symbol target magic
    obtain ⟨unit, member, named, name⟩ := renamed symbol (List.mem_of_getElem? target) magic
    exact ⟨unit, member, named, by rw [targets, List.getElem?_map, target, Option.map_some, name]⟩
  case edges =>
    have fresh : (edgesOf g.nextId served before.id).filter (g.kind? ·.symbol == some .exclusive) = [] := by
      refine List.filter_eq_nil_iff.mpr fun edge member exclusive => ?_
      have known : g.kind? edge.symbol ≠ none := by simp [beq_iff_eq.mp exclusive]
      exact plain edge.symbol known (mark_of_mem_edgesOf member)
    rw [producers, List.filter_append, fresh, List.append_nil, List.filter_filter]
    refine List.filter_congr fun edge _ => ?_
    cases exclusive : g.kind? edge.symbol == some .exclusive with
    | false => rfl
    | true =>
        rw [serves.not_drew_of_exclusive (beq_iff_eq.mp exclusive)]
        rfl
  case unshared =>
    intro symbol target
    rw [targets] at target
    obtain ⟨old, member, rfl⟩ := List.mem_map.mp target
    cases kind : g.kind? old with
    | none => exact absurd kind (wired.known (stem?_of_node? found) member)
    | some kind' =>
        cases kind' with
        | exclusive => simp [nameFor_of_drew (serves.not_drew_of_exclusive kind), isMagic, kind]
        | magicState =>
            obtain ⟨unit, _, _, name⟩ := renamed old member (by simp [isMagic, kind])
            rw [name]
            refine Bool.eq_false_iff.mpr fun magic => ?_
            exact plain _ (known_of_isMagic magic) unit.mark_mem_instanceSymbol

omit serves wired plain

/-! ### Nodes of a chain -/

include serves

theorem Graph.Serves.link_bounds (member : link ∈ links g.nextId served own) :
    link.consumer < g.nextId ∧ g.nextId ≤ link.producer := by
  obtain ⟨unit, inside⟩ := consumer_mem member
  obtain ⟨_, node, found, _⟩ := serves.members _ unit inside
  exact ⟨lt_nextId found, (producer_lt member).1⟩

theorem Graph.Serves.nodup_links :
    ((links g.nextId served own).flatMap fun link => [link.producer, link.consumer]).Nodup := by
  have bounds : ∀ link ∈ links g.nextId served own, link.consumer < g.nextId ∧ g.nextId ≤ link.producer :=
    fun _ member => serves.link_bounds member
  refine List.nodup_flatMap.mpr ⟨fun link member => ?_, ?_⟩
  · have := bounds link member
    simp only [List.nodup_cons, List.mem_singleton, List.not_mem_nil, not_false_eq_true, List.nodup_nil, and_true]
    lia
  · refine (pairwise_links serves.distinct).imp_of_mem fun {a b} one two apart => ?_
    have := bounds a one
    have := bounds b two
    intro id first second
    simp only [List.mem_cons, List.not_mem_nil, or_false] at first second
    lia

omit serves

namespace Chained

variable (chained : Chained g served chains h)
include chained

/-- A node that is still there is an operation of the graph before or makes a unit of an instance. -/
theorem live_cases (wired : g.Wired) (numbered : h.Numbered) (live : node ∈ h.live) :
    (∃ old, g.node? node.id = some old ∧ old.isFactory = false ∧ node.stem = rebound g.nextId served old.stem) ∨
      ∃ own, ∃ link ∈ links g.nextId served own, node.id = link.producer := by
  obtain ⟨id, found, alive⟩ := Graph.mem_live_iff.mp live
  obtain rfl := numbered id node found
  rcases Nat.lt_or_ge node.id g.nextId with below | above
  · left
    obtain ⟨old, there⟩ := Graph.lt_nextId_iff.mp below
    cases kind : old.isFactory with
    | true =>
        obtain ⟨symbol, known, _⟩ := wired.of_isFactory there kind
        have retired := (chained.source symbol node.id known).1
        simp [Graph.isRetired, found, alive] at retired
    | false =>
        have stem := chained.operation node.id old.stem (Graph.stem?_of_node? there) kind
        rw [Graph.stem?_of_node? found] at stem
        exact ⟨old, there, kind, Option.some.inj stem⟩
  · right
    have size := chained.size
    have inside := Graph.lt_nextId found
    have entry : node.id - g.nextId < served.length := by lia
    obtain ⟨⟨consumer, unit⟩, entry⟩ : ∃ entry, served[node.id - g.nextId]? = some entry :=
      ⟨_, List.getElem?_eq_getElem entry⟩
    refine ⟨unit.instanceSymbol, ⟨node.id, consumer, unit.period⟩, mem_links.mpr ?_, rfl⟩
    exact ⟨node.id - g.nextId, unit, entry, rfl, by lia, rfl⟩

theorem exists_producer {i : Nat} (found : (links g.nextId served own)[i]? = some link) :
    ∃ node ∈ h.live, node.stem = link.maker own (((links g.nextId served own).take i).getLast?.map (·.consumer)) ∧
      node.consumers = [⟨own, link.consumer⟩] := by
  obtain ⟨made, consumers⟩ := chained.made own i link found
  obtain ⟨node, live, there, stem⟩ := Graph.exists_live_of_stem? made rfl
  refine ⟨node, live, stem, ?_⟩
  simpa [Graph.consumers, there] using consumers

theorem exists_operation (wired : g.Wired) (found : g.node? id = some node) (operation : node.isFactory = false) :
    ∃ after ∈ h.live, after.stem = rebound g.nextId served node.stem := by
  have before := Graph.stem?_of_node? found
  have kept := chained.operation id node.stem before operation
  have alive : node.stem.retired = false := wired.live before
  obtain ⟨after, live, _, stem⟩ := Graph.exists_live_of_stem? kept alive
  exact ⟨after, live, stem⟩

/-- Who is served by an instance has a target of its name, and lives on. -/
theorem exists_reader (serves : g.Serves units served) (wired : g.Wired) (member : link ∈ links g.nextId served own) :
    ∃ old, g.node? link.consumer = some old ∧ old.isFactory = false ∧
      ∃ node ∈ h.live, node.stem = rebound g.nextId served old.stem ∧ node.id = link.consumer ∧ own ∈ node.targets := by
  obtain ⟨i, unit, entry, rfl, _⟩ := mem_links.mp member
  have inside := List.mem_of_getElem? entry
  obtain ⟨_, old, found, operation, draws⟩ := serves.members _ unit inside
  obtain ⟨node, live, stem⟩ := chained.exists_operation wired found operation
  have id := wired.id_eq found
  obtain ⟨edge, reads, named⟩ := List.mem_map.mp draws
  have reads : edge ∈ g.producers link.consumer := by
    rw [Graph.producers_of_node? found]
    exact (List.mem_filter.mp reads).1
  refine ⟨old, found, operation, node, live, stem, ?_, ?_⟩
  · rw [← id]
    exact (congrArg Node.id stem :)
  · have target := (wired.edge_cases reads).1
    rw [Graph.targetsOf_of_node? found, named] at target
    have targets : node.targets = old.targets.map (nameFor served old.id) := congrArg Node.targets stem
    rw [targets, id, ← nameFor_of_mem serves.distinct inside]
    exact List.mem_map_of_mem target

theorem exists_consumer (serves : g.Serves units served) (wired : g.Wired) (plain : g.Plain)
    (member : link ∈ links g.nextId served own) :
    ∃ node ∈ h.live, node.id = link.consumer ∧ own ∈ node.targets ∧
      node.producers.filter (·.symbol == own) = [⟨own, link.producer⟩] := by
  obtain ⟨old, found, _, node, live, stem, here, target⟩ := chained.exists_reader serves wired member
  have id := wired.id_eq found
  refine ⟨node, live, here, target, ?_⟩
  have producers : node.producers = old.producers.filter (!drew served old.id ·.symbol)
      ++ edgesOf g.nextId served old.id := congrArg Node.producers stem
  have older : (old.producers.filter (!drew served old.id ·.symbol)).filter (·.symbol == own) = [] := by
    obtain ⟨_, unit, _, rfl, _⟩ := mem_links.mp member
    refine List.filter_eq_nil_iff.mpr fun edge member same => ?_
    have reads : edge ∈ g.producers link.consumer := by
      rw [Graph.producers_of_node? found]
      exact (List.mem_filter.mp member).1
    have target := (wired.edge_cases reads).1
    rw [Graph.targetsOf_of_node? found] at target
    have known := wired.known (Graph.stem?_of_node? found) target
    exact Draw.instanceSymbol_ne (plain edge.symbol known) (beq_iff_eq.mp same).symm
  rw [producers, List.filter_append, older, id, filter_edgesOf serves.distinct member, List.nil_append]

variable (serves : g.Serves units served) (wired : g.Wired) (plain : g.Plain)
include serves wired plain

theorem touching (numbered : h.Numbered) (unit : Draw) (id : NodeId) :
    (∃ node ∈ h.live, node.id = id ∧ node.touches unit.instanceSymbol) ↔
      id ∈ (links g.nextId served unit.instanceSymbol).flatMap fun link => [link.producer, link.consumer] := by
  simp only [List.mem_flatMap, List.mem_cons, List.not_mem_nil, or_false, Node.touches, List.contains_iff_mem]
  constructor
  · rintro ⟨node, live, rfl, target⟩
    rcases chained.live_cases wired numbered live with ⟨old, found, operation, stem⟩ | ⟨own, link, member, here⟩
    · -- An operation that acts on the instance got the name from a service.
      have targets : node.targets = old.targets.map (nameFor served old.id) := congrArg Node.targets stem
      rw [targets, wired.id_eq found] at target
      obtain ⟨symbol, before, name⟩ := List.mem_map.mp target
      have drawn : drew served node.id symbol := by
        by_contra unserved
        rw [nameFor_of_drew (Bool.eq_false_iff.mpr unserved)] at name
        have known := wired.known (Graph.stem?_of_node? found) before
        exact Draw.instanceSymbol_ne (plain symbol known) name.symm
      obtain ⟨other, served, _, own⟩ := exists_of_drew drawn
      obtain ⟨i, entry⟩ := List.getElem?_of_mem served
      refine ⟨⟨g.nextId + i, node.id, other.period⟩, mem_links.mpr ?_, .inr rfl⟩
      exact ⟨i, other, entry, own.symm.trans name, rfl, rfl⟩
    · obtain ⟨i, found⟩ := List.getElem?_of_mem member
      obtain ⟨maker, there, stem, _⟩ := chained.exists_producer found
      obtain rfl : maker = node := by
        obtain ⟨_, one, _⟩ := Graph.mem_live_iff.mp there
        obtain ⟨_, two, _⟩ := Graph.mem_live_iff.mp live
        have same : maker.id = node.id := by
          rw [here]
          exact (congrArg Node.id stem :)
        rw [← numbered _ _ one, same, numbered _ _ two, two] at one
        exact (Option.some.inj one).symm
      have targets : maker.targets = [own] := congrArg Node.targets stem
      rw [targets, List.mem_singleton] at target
      exact ⟨link, target ▸ member, .inl here⟩
  · rintro ⟨link, member, rfl | rfl⟩
    · obtain ⟨i, found⟩ := List.getElem?_of_mem member
      obtain ⟨node, live, stem, _⟩ := chained.exists_producer found
      have targets : node.targets = [unit.instanceSymbol] := congrArg Node.targets stem
      exact ⟨node, live, congrArg Node.id stem, by simp [targets]⟩
    · obtain ⟨node, live, id, target, _⟩ := chained.exists_consumer serves wired plain member
      exact ⟨node, live, id, target⟩

theorem linear (numbered : h.Numbered)
    (named : ∀ a ∈ units, ∀ b ∈ units, a.instanceSymbol = b.instanceSymbol → a = b) (inside : unit ∈ units) :
    h.Linear unit (links g.nextId served unit.instanceSymbol) where
  alternating := serves.nodup_links
  touching := chained.touching serves wired plain numbered unit
  producer := by
    intro i link found
    obtain ⟨node, live, stem, consumers⟩ := chained.exists_producer found
    obtain ⟨other, member, own, period⟩ := serves.exists_unit (List.mem_of_getElem? found)
    obtain rfl := named other member unit inside own
    have operation := congrArg Node.operation stem
    have producers := congrArg Node.producers stem
    have cycles : node.cycles = max link.period 1 := congrArg Node.cycles stem
    refine ⟨node, live, congrArg Node.id stem, congrArg Node.isFactory stem, period ▸ cycles, consumers, ?_, ?_⟩
    · rintro rfl
      exact ⟨operation, producers⟩
    · rintro k before rfl there
      have last : ((links g.nextId served other.instanceSymbol).take (k + 1)).getLast? = some before := by
        simp [List.getLast?_take, there]
      rw [last] at operation producers
      exact ⟨operation, producers⟩
  consumer := by
    intro link member
    obtain ⟨node, live, id, _, producers⟩ := chained.exists_consumer serves wired plain member
    exact ⟨node, live, id, producers⟩

end Chained

end Chained

/-! ## The whole graph -/

/-- The units of an instance in the order of the plan, if new nodes are numbered from `first` on. -/
def Chains.links (chains : Chains) (first : NodeId) (unit : Draw) : List Link :=
  Service.links first chains.plan.served unit.instanceSymbol

/-- A graph `h` that has one linear chain per instance and apart from that the operations of `g`. -/
structure Rechained (g : Graph) (units : List Draw) (chains : Chains) (h : Graph) : Prop where
  order : ∀ unit ∈ units, (chains.links g.nextId unit).map (·.consumer)
    = (chains.plan.served.filter (·.2 = unit)).map (·.1)
  linear : ∀ unit ∈ units, h.Linear unit (chains.links g.nextId unit)
  operations : ∀ before ∈ g.live, before.isFactory = false → ∃ after ∈ h.live, g.Keeps units before after
  complete : ∀ node ∈ h.live, (∃ before ∈ g.live, before.isFactory = false ∧ before.id = node.id) ∨
    node.id ∈ chains.roots ++ chains.refills
  roots : ∀ id, id ∈ chains.roots ↔
    ∃ unit ∈ units, (chains.links g.nextId unit).head?.map (·.producer) = some id
  refills : ∀ id, id ∈ chains.refills ↔
    ∃ unit ∈ units, id ∈ (chains.links g.nextId unit).tail.map (·.producer)
  distinct : (chains.roots ++ chains.refills).Nodup
  total : chains.roots.length + chains.refills.length = (g.live.flatMap g.drawn).length
  retired : ∀ id, id ∈ chains.retired ↔ ∃ symbol : Symbol, g.sources[symbol]? = some id
  unused : ∀ id ∈ chains.retired, h.isRetired id ∧ h.consumers id = []
  sources : ∀ (symbol : Symbol) id, h.sources[symbol]? = some id ↔
    ∃ unit ∈ units, unit.instanceSymbol = symbol ∧ (chains.links g.nextId unit).head?.map (·.producer) = some id

theorem Chained.rechained {g h : Graph} {units : List Draw} {chains : Chains}
    (chained : Chained g chains.plan.served chains h) (serves : g.Serves units chains.plan.served) (wired : g.Wired)
    (plain : g.Plain) (numbered : h.Numbered)
    (named : ∀ a ∈ units, ∀ b ∈ units, a.instanceSymbol = b.instanceSymbol → a = b) :
    Rechained g units chains h := by
  -- An instance with a link is one of the factories.
  have instances : ∀ {own link}, link ∈ Service.links g.nextId chains.plan.served own →
      ∃ unit ∈ units, unit.instanceSymbol = own := fun member => by
    obtain ⟨unit, inside, named, _⟩ := serves.exists_unit member
    exact ⟨unit, inside, named⟩
  have first : ∀ {own id}, (Service.links g.nextId chains.plan.served own).head?.map (·.producer) = some id →
      ∃ unit ∈ units, unit.instanceSymbol = own := fun head => by
    obtain ⟨link, found, _⟩ := Option.map_eq_some_iff.mp head
    exact instances (List.mem_of_head? found)
  constructor
  case order =>
    intro unit inside
    rw [Chains.links, map_consumer_links]
    refine congrArg _ (List.filter_congr fun entry member => decide_eq_decide.mpr ⟨fun same => ?_, fun same => ?_⟩)
    · exact named _ (serves.members entry.1 entry.2 member).1 unit inside same
    · rw [same]
  case linear => exact fun unit inside => chained.linear serves wired plain numbered named inside
  case operations =>
    intro before live operation
    have found := wired.mem_live.mp live
    obtain ⟨after, there, stem⟩ := chained.exists_operation wired found operation
    exact ⟨after, there, serves.keeps wired plain found operation stem⟩
  case complete =>
    intro node live
    rcases chained.live_cases wired numbered live with ⟨old, found, operation, _⟩ | ⟨own, link, member, here⟩
    · have id := wired.id_eq found
      exact .inl ⟨old, wired.mem_live.mpr (id ▸ found), operation, id⟩
    · obtain ⟨above, below⟩ := producer_lt member
      rw [here, chained.numbers.mem_iff, List.mem_range'_1]
      exact .inr ⟨above, below⟩
  case roots =>
    intro id
    rw [chained.roots]
    constructor
    · rintro ⟨own, head⟩
      obtain ⟨unit, inside, rfl⟩ := first head
      exact ⟨unit, inside, head⟩
    · rintro ⟨unit, _, head⟩
      exact ⟨unit.instanceSymbol, head⟩
  case refills =>
    intro id
    rw [chained.refills]
    constructor
    · rintro ⟨own, later⟩
      obtain ⟨link, member, _⟩ := List.mem_map.mp later
      obtain ⟨unit, inside, rfl⟩ := instances (List.mem_of_mem_tail member)
      exact ⟨unit, inside, later⟩
    · rintro ⟨unit, _, later⟩
      exact ⟨unit.instanceSymbol, later⟩
  case distinct => exact chained.numbers.nodup_iff.mpr List.nodup_range'
  case total =>
    rw [← List.length_append, chained.numbers.length_eq, List.length_range', serves.length_eq wired]
  case retired => exact chained.retired
  case unused =>
    intro id listed
    obtain ⟨symbol, known⟩ := (chained.retired id).mp listed
    exact chained.source symbol id known
  case sources =>
    intro symbol id
    rw [chained.sources]
    constructor
    · intro head
      obtain ⟨unit, inside, rfl⟩ := first head
      exact ⟨unit, inside, rfl, head⟩
    · rintro ⟨unit, _, rfl, head⟩
      exact head

theorem Chained.of_apart {b : Builder} {h : Graph} {capacity : Nat} {factories : List Factory} {chains : Chains}
    (reachable : b.Reachable) (done : b.graph.bindInstances capacity factories = .ok (chains, h))
    (apart : Apart b.graph chains.plan.served) :
    b.graph.Serves (Pool.new factories).units chains.plan.served ∧
      Chained b.graph chains.plan.served chains h := by
  obtain ⟨plan, c, scheduled, chained, layered, rfl⟩ := Graph.bindInstances_eq_ok done
  have wired := reachable.sound.wired
  have serves := wired.serves_of_schedule scheduled
  have bound := Bound.bindAll_of_apart wired apart serves (Bound.start b.graph) chained
  exact ⟨serves, bound.chained_of_apart serves wired apart (fun _ _ => reachable.drawn) layered plan⟩

theorem Chained.of_bindInstances {b : Builder} {h : Graph} {capacity : Nat} {factories : List Factory}
    {chains : Chains} (reachable : b.Reachable) (plain : b.graph.Plain)
    (done : b.graph.bindInstances capacity factories = .ok (chains, h)) :
    b.graph.Serves (Pool.new factories).units chains.plan.served ∧
      Chained b.graph chains.plan.served chains h :=
  of_apart reachable done (.of_plain plain _)

/-- Binding gives every instance its chain and changes nothing else, as long as no name in the graph looks
    like the name of an instance. -/
theorem rechained_of_bindInstances {b : Builder} {h : Graph} {capacity : Nat} {factories : List Factory}
    {chains : Chains} (reachable : b.Reachable) (plain : b.graph.Plain)
    (done : b.graph.bindInstances capacity factories = .ok (chains, h)) :
    b.graph.schedule capacity factories = .ok chains.plan ∧
      Rechained b.graph (Pool.new factories).units chains h := by
  have numbered := (Graph.Produced.bound (.built reachable) done).numbered
  obtain ⟨serves, chained⟩ := Chained.of_bindInstances reachable plain done
  obtain ⟨_, _, scheduled, _, _, rfl⟩ := Graph.bindInstances_eq_ok done
  refine ⟨scheduled, chained.rechained serves reachable.sound.wired plain numbered ?_⟩
  exact fun a one b two => Pool.eq_of_instanceSymbol one two

/-- One factory serves both gates: its second unit is made when the first is gone. -/
theorem rechained_of_bindInstances_pair :
    ∃ (b : Builder) (chains : Chains) (h : Graph), b.Reachable ∧ b.graph.Plain ∧
      b.graph.bindInstances 1 [⟨"T", 2⟩] = .ok (chains, h) ∧
      chains.links b.graph.nextId ⟨"T", 0, 2⟩ = [⟨6, 3, 2⟩, ⟨7, 4, 2⟩] ∧ chains.retired = [2] ∧
      Rechained b.graph (Pool.new [⟨"T", 2⟩]).units chains h := by
  have runs : pairOfGates.toOption.any fun b =>
      (b.graph.bindInstances 1 [⟨"T", 2⟩]).toOption.any fun done =>
        decide b.graph.Plain
          && done.1.links b.graph.nextId ⟨"T", 0, 2⟩ == [⟨6, 3, 2⟩, ⟨7, 4, 2⟩] && done.1.retired == [2] := by
    decide +kernel
  obtain ⟨b, built, runs⟩ := exists_ok_of_any runs
  obtain ⟨⟨chains, h⟩, done, runs⟩ := exists_ok_of_any runs
  simp only [Bool.and_eq_true, beq_iff_eq, decide_eq_true_eq] at runs
  obtain ⟨⟨plain, links⟩, retired⟩ := runs
  have reachable := reachable_pairOfGates built
  exact ⟨b, chains, h, reachable, plain, done, links, retired,
    (rechained_of_bindInstances reachable plain done).2⟩

end LatticeSurgery
