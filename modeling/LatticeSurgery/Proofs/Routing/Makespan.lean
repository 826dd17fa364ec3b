import LatticeSurgery.Proofs.Chains.Capture
import LatticeSurgery.Proofs.Plan.Congestion
import LatticeSurgery.Proofs.Routing.Pipeline
import LatticeSurgery.Proofs.Routing.Standstill

/-! # Routing against the plan

A compiled block respects the plan of its graph in everything but the channel: an operation is placed after its
producers, and an instance needs its period between two services. So its timeline is ahead of the plan by no more
than the congested cycles, and one of them is made up for by the cycle in which the last nodes finish.
-/

namespace LatticeSurgery

open Service

/-! ## Names of instances -/

/-- Nothing ever calls an orphan. -/
theorem Run.stage_of_orphan {g : Graph} {f : Floorplan} {limit : Nat} {r : Run} {id : NodeId} (numbered : g.Numbered)
    (orphan : g.Orphan id) (reached : Reaches (step g limit) (start g f) r) : r.stages[id]? = none := by
  refine Option.eq_none_iff_forall_ne_some.mpr fun stage came => ?_
  rcases named_of_reaches reached ⟨stage, came⟩ with entry | ⟨n, edge, listed, here⟩ | ⟨n, edge, reads, here⟩
  · obtain ⟨node, member, rfl⟩ := List.mem_map.mp entry
    obtain ⟨live, operation⟩ := List.mem_filter.mp member
    have factory := orphan.factory
    rw [Graph.isFactory_of_node? ((Graph.mem_live_of_numbered numbered).mp live).1] at factory
    simp [factory] at operation
  · exact orphan.unlisted n edge listed here
  · exact orphan.unread n edge reads here

/-- A graph can only be routed if no instance is called like a magic state: the source of that state would never be
    called. -/
theorem apart_of_route {b : Builder} {h : Graph} {capacity limit : Nat} {factories : List Factory} {chains : Chains}
    {f left : Floorplan} {t : Timeline} (reachable : b.Reachable)
    (bound : b.graph.bindInstances capacity factories = .ok (chains, h)) (routed : f.route h limit = .ok (t, left)) :
    Apart b.graph chains.plan.served := by
  have wired := reachable.sound.wired
  intro entry member
  refine Bool.eq_false_iff.mpr fun magic => ?_
  obtain ⟨source, known⟩ := wired.supplied.mp (beq_iff_eq.mp magic)
  have orphan := wired.orphan_of_captured bound known member rfl
  obtain ⟨r, reached, finished, _⟩ := Floorplan.reaches_of_route routed
  have never := Run.stage_of_orphan (wired.stocked.of_bindInstances bound).numbered orphan reached
  rw [finished source orphan.alive] at never
  cases never

/-- Without magic states there is nothing to bind. -/
theorem Graph.chained_nil {g : Graph} (free : g.sources.isEmpty) (plan : Plan) :
    Chained g [] { roots := [], refills := [], retired := [], plan } g := by
  have sources : ∀ symbol : Symbol, g.sources[symbol]? = none := by simp [Std.ExtTreeMap.isEmpty_iff.mp free]
  constructor
  case size => rfl
  case operation =>
    intro id node found _
    have names : nameFor [] node.id = fun symbol => symbol := rfl
    simpa [rebound, drew, edgesOf, names] using found
  all_goals simp [links, sources]

/-- A compiled block has the chains that its plan asks for. -/
theorem Settings.chained_of_compile {s : Settings} {b : Builder} {f : Floorplan} {plan : Plan} {block : Block}
    (reachable : b.Reachable) (scheduled : s.schedule b.graph = .ok plan) (compiled : s.compile b.graph f = .ok block) :
    ∃ chains, Chained b.graph plan.served chains block.graph := by
  obtain ⟨_, bound, routed⟩ := compile_eq_ok compiled
  have wired := reachable.sound.wired
  obtain ⟨none, _, same⟩ | ⟨chains, _, done⟩ := bindInstances_eq_ok bound
  · have idle : plan.served = [] := by
      refine List.eq_nil_iff_forall_not_mem.mpr fun entry member => ?_
      obtain ⟨_, node, _, _, drawn⟩ := (wired.serves_of_schedule scheduled).members entry.1 entry.2 member
      rw [wired.drawn_eq_nil none] at drawn
      cases drawn
    rw [idle, same]
    exact ⟨_, Graph.chained_nil none plan⟩
  · have chained := (Chained.of_apart reachable done (apart_of_route reachable done routed)).2
    obtain ⟨_, _, again, _, _, rfl⟩ := Graph.bindInstances_eq_ok done
    obtain rfl := Except.ok.inj (again.symm.trans scheduled)
    exact ⟨_, chained⟩

/-! ## Times of services -/

section Times

variable {g h : Graph} {units : List Draw} {plan : Plan} {served : List (NodeId × Draw)} {chains : Chains}
  {life : NodeId → Life} {link : Link} {own : Symbol} {id : NodeId}
  (chained : Chained g served chains h) (serves : g.Serves units served) (wired : g.Wired)
include chained wired

theorem Chained.mem_liveIds {node : Node} (found : g.node? id = some node) (operation : node.isFactory = false) :
    id ∈ h.liveIds := by
  obtain ⟨after, live, stem⟩ := chained.exists_operation wired found operation
  rw [← wired.id_eq found, ← show after.id = node.id from (congrArg Node.id stem :)]
  exact List.mem_map_of_mem live

include serves

/-- Operations go on reading from each other. -/
theorem Chained.mem_producers {edge : Edge} (reads : edge ∈ g.producers id)
    (operation : g.isFactory edge.node = false) : edge ∈ h.producers id := by
  obtain ⟨_, ⟨_, factory, _⟩ | ⟨exclusive, _⟩⟩ := wired.edge_cases reads
  · rw [operation] at factory
    cases factory
  obtain ⟨node, found⟩ := Graph.exists_node?_of_mem_producers reads
  rw [Graph.producers_of_node? found] at reads
  have reader := wired.not_isFactory_of_mem_producers found reads
  rw [Graph.producers_eq_stem, chained.operation id node.stem (Graph.stem?_of_node? found) reader]
  refine List.mem_append_left _ (List.mem_filter.mpr ⟨reads, ?_⟩)
  refine Bool.not_eq_true' _ ▸ Bool.eq_false_iff.mpr fun drawn => ?_
  rw [serves.isMagic_of_drew drawn] at exclusive
  cases exclusive

/-- Who is served by an instance reads its own unit from it. -/
theorem Chained.takes (numbered : h.Numbered) (member : link ∈ links g.nextId served own) :
    link.consumer ∈ h.liveIds ∧ own ∈ h.targetsOf link.consumer ∧
      ⟨own, link.producer⟩ ∈ h.producers link.consumer := by
  obtain ⟨old, found, operation, node, live, stem, here, target⟩ := chained.exists_reader serves wired member
  have known := ((Graph.mem_live_of_numbered numbered).mp live).1
  rw [here] at known
  refine ⟨here ▸ List.mem_map_of_mem live, Graph.targetsOf_of_node? known ▸ target, ?_⟩
  obtain ⟨i, unit, entry, named, producer, _⟩ := mem_links.mp member
  have producers : node.producers = _ ++ edgesOf g.nextId served old.id := congrArg Node.producers stem
  rw [Graph.producers_of_node? known, producers, wired.id_eq found]
  exact List.mem_append_right _ (mem_edgesOf.mpr ⟨i, unit, entry, named, producer⟩)

variable (numbered : h.Numbered) (paced : h.Paced life)
include numbered paced

/-- A unit is taken when the period since its beginning is over. -/
theorem Chained.period_le (member : link ∈ links g.nextId served own) :
    (life link.producer).start + link.period ≤ (life link.consumer).admitted := by
  obtain ⟨i, found⟩ := List.getElem?_of_mem member
  obtain ⟨node, live, stem, _⟩ := chained.exists_producer found
  obtain ⟨reader, _, reads⟩ := chained.takes serves wired numbered member
  have here : node.id = link.producer := congrArg Node.id stem
  have cycles : node.cycles = max link.period 1 := congrArg Node.cycles stem
  obtain ⟨node', known, lasts, _⟩ := (paced.lives _ (List.mem_map_of_mem live)).lasts
  obtain rfl := Option.some.inj (known.symm.trans ((Graph.mem_live_of_numbered numbered).mp live).1)
  rw [Node.duration, cycles, here] at lasts
  have made := paced.follows _ reader _ reads
  dsimp only at made
  omega

/-- A unit is begun when the one before is taken, so the takers of an instance are a period apart. -/
theorem Chained.pairwise_takers : (links g.nextId served own).Pairwise fun a b =>
    (life a.consumer).admitted + b.period ≤ (life b.consumer).admitted := by
  let before (a b : Link) : Prop := (life a.consumer).admitted + b.period ≤ (life b.consumer).admitted
  have : Trans before before before :=
    ⟨fun first second => Nat.le_trans (Nat.add_le_add_right (Nat.le_of_add_right_le first) _) second⟩
  suffices (links g.nextId served own).IsChain before from List.isChain_iff_pairwise.mp this
  refine List.isChain_iff_getElem.mpr fun i inside => ?_
  have one := List.getElem?_eq_getElem (Nat.lt_of_succ_lt inside)
  have two := List.getElem?_eq_getElem inside
  generalize (links g.nextId served own)[i] = a at one ⊢
  generalize (links g.nextId served own)[i + 1] = b at two ⊢
  have taken := chained.period_le serves wired numbered paced (List.mem_of_getElem? two)
  obtain ⟨reader, target, _⟩ := chained.takes serves wired numbered (List.mem_of_getElem? one)
  obtain ⟨node, live, stem, _⟩ := chained.exists_producer two
  obtain ⟨known, _⟩ := (Graph.mem_live_of_numbered numbered).mp live
  have here : node.id = b.producer := congrArg Node.id stem
  have factory : h.isFactory node.id := Graph.isFactory_of_node? known ▸ congrArg Node.isFactory stem
  have makes : node.targets = [own] := congrArg Node.targets stem
  -- whoever makes the second unit waits for whoever took the first
  have last : ((links g.nextId served own).take (i + 1)).getLast? = some a := by simp [List.getLast?_take, one]
  rw [last] at stem
  have waits : node.producers = [⟨own, a.consumer⟩] := congrArg Node.producers stem
  have begun := paced.after node.id (List.mem_map_of_mem live) factory ⟨own, a.consumer⟩
    (by simp [Graph.producers_of_node? known, waits]) target (by simp [Graph.targetsOf_of_node? known, makes])
  have short := (paced.lives _ reader).short
  rw [here] at begun
  dsimp only [before] at begun ⊢
  omega

/-- The times at which operations are placed respect the plan. -/
theorem Chained.respects (same : served = plan.served) (once : plan.order.Nodup)
    (operations : ∀ id ∈ plan.order, ∃ node ∈ g.live, node.id = id ∧ node.isFactory = false) :
    plan.Respects g fun id => (life id).admitted := by
  subst same
  constructor
  case producers =>
    intro id member edge reads operation
    obtain ⟨node, live, rfl, kind⟩ := operations id member
    have reader := chained.mem_liveIds wired (wired.mem_live.mp live) kind
    obtain ⟨maker, made, produces, _⟩ := wired.exists_operation reads operation
    have producer := chained.mem_liveIds wired made produces
    have kept := chained.mem_producers serves wired reads operation
    exact Nat.lt_of_lt_of_le (paced.lives _ producer).short (paced.follows _ reader edge kept)
  case periods =>
    intro id unit member
    obtain ⟨i, entry⟩ := List.getElem?_of_mem member
    have link : ⟨g.nextId + i, id, unit.period⟩ ∈ links g.nextId plan.served unit.instanceSymbol :=
      mem_links.mpr ⟨i, unit, entry, rfl, rfl, rfl⟩
    exact Nat.le_of_add_left_le (chained.period_le serves wired numbered paced link)
  case services =>
    intro id other unit member taken before
    obtain ⟨i, entry⟩ := List.getElem?_of_mem member
    obtain ⟨j, earlier⟩ := List.getElem?_of_mem taken
    have below := Plan.index_lt_of_cycleOf once earlier entry before
    exact rel_of_lt (chained.pairwise_takers serves wired numbered paced) earlier entry below rfl rfl

end Times

/-! ## The length of a timeline -/

/-- A plan is no longer than the timeline of the compiled block, but for the congested cycles after the first: those
    in which the channel is full and keeps an operation waiting that lacks nothing else. Instances that make more than
    one unit have to keep their places. -/
theorem cycles_le_of_compile {b : Builder} {s : Settings} {f : Floorplan} {plan : Plan} {block : Block}
    (reachable : b.Reachable) (free : ∀ c, f.layout.lockAt c = none) (scheduled : s.schedule b.graph = .ok plan)
    (compiled : s.compile b.graph f = .ok block)
    (stays : ∀ node ∈ block.graph.live, node.isFactory → node.producers ≠ [] → ∀ symbol ∈ node.targets,
      f.Lodges block.graph symbol) :
    plan.cycles ≤ block.timeline.cycles.length + (plan.congestion b.graph s.channelCapacity - 1) := by
  obtain ⟨_, bound, routed⟩ := Settings.compile_eq_ok compiled
  have wired := reachable.sound.wired
  have stocked := ((Settings.yields_of_bindInstances bound).produced reachable).stocked
  have serves := wired.serves_of_schedule scheduled
  have safe := Plan.Safe.of_schedule wired scheduled
  obtain ⟨chains, chained⟩ := Settings.chained_of_compile reachable scheduled compiled
  obtain ⟨r, reached, finished, length⟩ := Floorplan.reaches_of_route_free stocked free routed
  obtain ⟨life, history, lodged⟩ := Run.lodged_of_reaches reached
  have paced := lodged.paced history stocked.numbered finished stays
  have respects := chained.respects serves wired stocked.numbered paced rfl safe.nodup safe.operations
  -- whatever is placed in a cycle finishes in a later one, and the run goes on from there
  have within : ∀ id ∈ plan.order, (life id).admitted < r.cycle - 1 := by
    intro id member
    obtain ⟨node, live, rfl, operation⟩ := safe.operations id member
    have live := chained.mem_liveIds wired (wired.mem_live.mp live) operation
    have short := (paced.lives _ live).short
    have ended := history.resolved _ (finished _ live)
    omega
  have ahead := respects.cycles_le wired scheduled within
  rw [length]
  rcases Nat.eq_zero_or_pos plan.cycles with empty | some
  · omega
  · obtain ⟨id, member, _⟩ := Plan.exists_last wired scheduled some
    have early := within id member
    omega

/-- Three pairs of fresh registers and what is done with them. -/
def threePairs (gates : List (Operation × List Symbol)) : Except Error Builder :=
  (Builder.new "pairs").addGates ([(.init, ["a", "b"]), (.init, ["c", "d"]), (.init, ["e", "f"])] ++ gates)

/-- A row for each pair, with a channel patch between the registers and more patches behind them. -/
def pairRows (more : List PatchKind) (slots : List Coord) : Floorplan where
  layout :=
    { cols := 3 + more.length
      rows := (List.range 3).map fun row => lineOfPatches row ([.register, .route, .register] ++ more) }
  book := [("a", ⟨0, 0⟩), ("b", ⟨0, 2⟩), ("c", ⟨1, 0⟩), ("d", ⟨1, 2⟩), ("e", ⟨2, 0⟩), ("f", ⟨2, 2⟩)].foldl
    (fun book (entry : Symbol × Coord) => book.bind entry.1 entry.2) { slots }

/-- Two gates draw from one factory, and with five operations on pairs the plan is congested in all cycles but the
    last. The timeline is shorter, as it works on several pairs at a time. -/
theorem cycles_le_of_compile_drawing :
    ∃ (b : Builder) (s : Settings) (plan : Plan) (block : Block), b.Reachable ∧ s.channelCapacity = 1 ∧
      s.factories = [⟨"T", 1⟩] ∧ (∀ c, (pairRows [.route, .external] [⟨0, 4⟩]).layout.lockAt c = none) ∧
      s.schedule b.graph = .ok plan ∧ s.compile b.graph (pairRows [.route, .external] [⟨0, 4⟩]) = .ok block ∧
      (∃ node ∈ block.graph.live, node.isFactory ∧ node.producers ≠ [] ∧ node.targets = ["T#0"]) ∧
      (pairRows [.route, .external] [⟨0, 4⟩]).book.bindings["T#0"]? = none ∧
      plan.cycles = 7 ∧ block.timeline.cycles.length = 6 ∧ plan.congestion b.graph 1 = 6 ∧
      plan.cycles ≤ block.timeline.cycles.length + (plan.congestion b.graph 1 - 1) := by
  have runs : (threePairs [(.t, ["b"]), (.t, ["b"]), (.reset, ["c", "d"]), (.reset, ["e", "f"])]).toOption.any fun b =>
      (Settings.schedule { factories := [⟨"T", 1⟩] } b.graph).toOption.any fun plan =>
        (Settings.compile { factories := [⟨"T", 1⟩] } b.graph
            (pairRows [.route, .external] [⟨0, 4⟩])).toOption.any fun block =>
          plan.cycles == 7 && block.timeline.cycles.length == 6 && plan.congestion b.graph 1 == 6
            && (block.graph.live.all fun node => !node.isFactory || node.targets == ["T#0"])
            && (block.graph.live.any fun node => node.isFactory && !node.producers.isEmpty)
            && (block.graph.nodes.all fun node =>
              !(node.operation.releasesSlots && node.targets.contains "T#0")) := by decide +kernel
  obtain ⟨b, built, runs⟩ := exists_ok_of_any runs
  obtain ⟨plan, scheduled, runs⟩ := exists_ok_of_any runs
  obtain ⟨block, compiled, runs⟩ := exists_ok_of_any runs
  simp only [Bool.and_eq_true, beq_iff_eq, List.all_eq_true, List.any_eq_true] at runs
  obtain ⟨⟨⟨⟨⟨long, short⟩, congested⟩, makes⟩, maker, live, factory, waits⟩, kept⟩ := runs
  have targets : ∀ node ∈ block.graph.live, node.isFactory → node.targets = ["T#0"] := by
    intro node live factory
    simpa [factory] using makes node live
  have stays : ∀ node ∈ block.graph.live, node.isFactory → node.producers ≠ [] → ∀ symbol ∈ node.targets,
      (pairRows [.route, .external] [⟨0, 4⟩]).Lodges block.graph symbol := by
    intro node live factory _ symbol target
    rw [targets node live factory, List.mem_singleton] at target
    subst target
    refine .inr fun id other found _ gives target => ?_
    have keeps := Array.all_eq_true'.mp kept other (Array.mem_of_getElem? found)
    simp [gives, target] at keeps
  have free := Layout.lockAt_eq_none (l := (pairRows [.route, .external] [⟨0, 4⟩]).layout) (by decide)
  have reachable := (Builder.Reachable.new "pairs").addGates built
  have bound := cycles_le_of_compile reachable free scheduled compiled stays
  exact ⟨b, _, plan, block, reachable, rfl, rfl, free, scheduled, compiled,
    ⟨maker, live, factory, by simpa using waits, targets maker live factory⟩, by decide, long, short, congested, bound⟩

/-- The plan admits the three pairs one by one, since the channel has room for one, and routing places them all at
    once. -/
theorem routed_before_planned :
    ∃ (b : Builder) (s : Settings) (plan : Plan) (block : Block), b.Reachable ∧ s.channelCapacity = 1 ∧
      s.factories = [] ∧ (∀ c, (pairRows [] []).layout.lockAt c = none) ∧ s.schedule b.graph = .ok plan ∧
      s.compile b.graph (pairRows [] []) = .ok block ∧ plan.cycles = 3 ∧ block.timeline.cycles.length = 2 ∧
      plan.congestion b.graph 1 = 2 := by
  have runs : (threePairs []).toOption.any fun b =>
      (Settings.schedule {} b.graph).toOption.any fun plan =>
        (Settings.compile {} b.graph (pairRows [] [])).toOption.any fun block =>
          plan.cycles == 3 && block.timeline.cycles.length == 2 && plan.congestion b.graph 1 == 2 := by decide +kernel
  obtain ⟨b, built, runs⟩ := exists_ok_of_any runs
  obtain ⟨plan, scheduled, runs⟩ := exists_ok_of_any runs
  obtain ⟨block, compiled, runs⟩ := exists_ok_of_any runs
  simp only [Bool.and_eq_true, beq_iff_eq] at runs
  obtain ⟨⟨long, short⟩, congested⟩ := runs
  have free := Layout.lockAt_eq_none (l := (pairRows [] []).layout) (by decide)
  exact ⟨b, _, plan, block, (Builder.Reachable.new "pairs").addGates built, rfl, rfl, free, scheduled, compiled, long,
    short, congested⟩

end LatticeSurgery
