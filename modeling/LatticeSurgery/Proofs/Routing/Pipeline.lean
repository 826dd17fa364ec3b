import LatticeSurgery.Block
import LatticeSurgery.Proofs.Plan.Outcome
import LatticeSurgery.Proofs.Routing.Lodging
import LatticeSurgery.Proofs.Routing.Readiness

/-! # Instances work in a pipeline

In a compiled block the chain of an instance is worked off strictly in order: a unit is made, taken, and only
then is the next one begun, also where the making of a unit is dated back to before it was placed. The book
sees to that. It knows until when the place of the instance is in use, and nothing is dated back further.
-/

namespace LatticeSurgery

/-! ## Working off a chain -/

/-- The chain of an instance is worked off in order, and making a unit takes the period of the instance. -/
structure Graph.Pipelined (g : Graph) (life : NodeId → Life) (unit : Draw) (links : List Link) : Prop where
  linear : g.Linear unit links
  serial : (links.flatMap fun link => [link.producer, link.consumer]).Pairwise fun a b =>
    (life a).finish ≤ (life b).start
  period : ∀ link ∈ links, (life link.producer).finish = (life link.producer).start + unit.period

section Chain

variable {g : Graph} {life : NodeId → Life} {unit : Draw} {links : List Link} (linear : g.Linear unit links)
  (joined : g.Joined) (paced : g.Paced life)
include linear

theorem Graph.Linear.mem_targetsOf (numbered : g.Numbered) {id : NodeId}
    (member : id ∈ links.flatMap fun link => [link.producer, link.consumer]) :
    unit.instanceSymbol ∈ g.targetsOf id := by
  obtain ⟨node, live, rfl, touches⟩ := (linear.touching id).mpr member
  have found := ((mem_live_of_numbered numbered).mp live).1
  rw [targetsOf_of_node? found]
  exact List.contains_iff_mem.mp touches

theorem Graph.Linear.reads (numbered : g.Numbered) {link : Link} (member : link ∈ links) :
    ⟨unit.instanceSymbol, link.producer⟩ ∈ g.producers link.consumer := by
  obtain ⟨node, live, here, reads⟩ := linear.consumer link member
  have found := ((mem_live_of_numbered numbered).mp live).1
  rw [← here, producers_of_node? found]
  exact List.mem_of_mem_filter (reads ▸ List.mem_singleton_self _)

include joined paced

/-- A unit is taken after it was made. -/
theorem Graph.Linear.taken {link : Link} (member : link ∈ links) :
    (life link.producer).start < (life link.producer).finish ∧
      (life link.producer).finish ≤ (life link.consumer).start ∧
      (life link.consumer).start < (life link.consumer).finish := by
  have reads := linear.reads joined.numbered member
  have live := joined.reader_live reads
  obtain ⟨i, found⟩ := List.getElem?_of_mem member
  obtain ⟨node, inside, here, factory, _⟩ := linear.producer i link found
  have operation := (joined.drawn reads (here ▸ isFactory_of_node?
    ((mem_live_of_numbered joined.numbered).mp inside).1 ▸ factory)).2
  have made : g.Lives link.producer (life link.producer) := paced.lives _ (joined.producer_live reads)
  have took := paced.lives _ live
  have order := paced.follows _ live _ reads
  have begun := made.begun
  have short := made.short
  have begun' := took.begun
  have short' := took.short
  have start := took.start_eq operation
  dsimp only at order
  omega

theorem Graph.Linear.pairwise : links.Pairwise fun a b => (life a.consumer).finish ≤ (life b.producer).start := by
  -- a link that lasts some time carries the order over from one neighbour to the next
  let before (a b : Link) : Prop :=
    (life a.consumer).finish ≤ (life b.producer).start ∧ (life b.producer).start ≤ (life b.consumer).finish
  have : Trans before before before :=
    ⟨fun first second => ⟨Nat.le_trans first.1 (Nat.le_trans first.2 second.1), second.2⟩⟩
  suffices links.IsChain before from (List.isChain_iff_pairwise.mp this).imp And.left
  refine List.isChain_iff_getElem.mpr fun i inside => ?_
  have one : links[i]? = some links[i] := List.getElem?_eq_getElem (by omega)
  have two : links[i + 1]? = some links[i + 1] := List.getElem?_eq_getElem inside
  have lasts := linear.taken joined paced (List.mem_of_getElem? two)
  refine ⟨?_, by omega⟩
  obtain ⟨node, live, here, factory, _, _, _, refill⟩ := linear.producer (i + 1) _ two
  obtain ⟨known, _⟩ := (mem_live_of_numbered joined.numbered).mp live
  obtain ⟨_, producers⟩ := refill i _ rfl one
  rw [← here]
  refine paced.after node.id (List.mem_map_of_mem live) (isFactory_of_node? known ▸ factory)
    ⟨unit.instanceSymbol, links[i].consumer⟩ ?_ ?_ ?_
  · rw [producers_of_node? known, producers]
    exact List.mem_singleton_self _
  · apply linear.mem_targetsOf joined.numbered
    exact List.mem_flatMap.mpr ⟨links[i], List.mem_of_getElem? one, by simp⟩
  · apply linear.mem_targetsOf joined.numbered
    exact List.mem_flatMap.mpr ⟨links[i + 1], List.mem_of_getElem? two, by simp [here]⟩

theorem Graph.Linear.pipelined (long : 1 ≤ unit.period) : g.Pipelined life unit links where
  linear := linear
  serial := by
    have taken : ∀ link ∈ links, _ := fun link member => linear.taken joined paced member
    refine List.pairwise_flatMap.mpr ⟨fun link member => ?_, ?_⟩
    · simpa using (taken link member).2.1
    · refine (linear.pairwise joined paced).imp_of_mem fun {a b} one two order => ?_
      have first := taken a one
      have second := taken b two
      intro x left y right
      simp only [List.mem_cons, List.not_mem_nil, or_false] at left right
      rcases left with rfl | rfl <;> rcases right with rfl | rfl <;> omega
  period := by
    intro link member
    obtain ⟨i, found⟩ := List.getElem?_of_mem member
    obtain ⟨node, inside, here, _, cycles, _⟩ := linear.producer i link found
    obtain ⟨known, _⟩ := (mem_live_of_numbered joined.numbered).mp inside
    obtain ⟨node', known', lasts, _⟩ := (paced.lives _ (List.mem_map_of_mem inside)).lasts
    obtain rfl := Option.some.inj (known.symm.trans known')
    rw [← here, lasts, Node.duration, cycles]
    omega

end Chain

/-! ## Compiled blocks -/

/-- The units of an instance in a compiled block, if new nodes are numbered from `first` on. -/
def Block.links (block : Block) (first : NodeId) (unit : Draw) : List Link :=
  (block.chains.map (·.links first unit)).getD []

theorem Settings.compile_eq_ok {s : Settings} {g : Graph} {f : Floorplan} {block : Block}
    (h : s.compile g f = .ok block) :
    (∀ factory ∈ s.factories, 1 ≤ factory.period) ∧ s.bindInstances g = .ok (block.chains, block.graph) ∧
      f.route block.graph s.router.stallLimit = .ok (block.timeline, block.floor) := by
  obtain ⟨_, valid, h⟩ := bind_eq_ok.mp h
  obtain ⟨⟨chains, graph⟩, bound, h⟩ := bind_eq_ok.mp h
  dsimp only at h
  split at h
  next timeline floor routed =>
      cases h
      refine ⟨fun factory listed => ?_, bound, routed⟩
      unfold validate at valid
      split at valid
      · cases valid
      · split at valid
        · cases valid
        next none => simpa [Nat.one_le_iff_ne_zero] using List.find?_eq_none.mp none factory listed
  · cases h

theorem Pool.exists_factory {factories : List Factory} {unit : Draw} (member : unit ∈ (Pool.new factories).units) :
    ∃ factory ∈ factories, factory.symbol = unit.symbol ∧ factory.period = unit.period := by
  obtain ⟨slot, inside, rfl⟩ := List.mem_map.mp member
  have listed : slot.factory ∈ (Pool.new factories).slots.map (·.factory) := List.mem_map_of_mem inside
  rw [Pool.new, Slot.map_factory_rankAll, List.map_nil, List.nil_append] at listed
  exact ⟨slot.factory, mem_sortBy.mp listed, rfl, rfl⟩

/-- Every draw of an operation of `g` is answered by a node that makes its unit for this operation alone. -/
structure Graph.Supplies (g h : Graph) (units : List Draw) (links : Draw → List Link) : Prop where
  linear : ∀ unit ∈ units, h.Linear unit (links unit)
  served : ∀ node ∈ g.live, ∀ symbol ∈ g.drawn node, ∃ unit ∈ units, unit.symbol = symbol ∧
    ∃ link ∈ links unit, link.consumer = node.id ∧ h.consumers link.producer = [⟨unit.instanceSymbol, node.id⟩]

theorem Graph.Wired.drawn_eq_nil {g : Graph} (wired : g.Wired) (none : g.sources.isEmpty) (node : Node) :
    g.drawn node = [] := by
  refine List.eq_nil_iff_forall_not_mem.mpr fun symbol drawn => ?_
  obtain ⟨edge, _, draws, _⟩ := mem_drawn.mp drawn
  obtain ⟨maker, found, factory⟩ := (Option.any_eq_true _ _).mp (Bool.and_eq_true_iff.mp draws).2
  obtain ⟨own, source, _⟩ := wired.of_isFactory found factory
  rw [Std.ExtTreeMap.isEmpty_iff.mp none] at source
  cases source

/-- In a graph of plain names nothing acts on an instance. -/
theorem Graph.Wired.linear_nil {g : Graph} (wired : g.Wired) (plain : g.Plain) (unit : Draw) : g.Linear unit [] where
  alternating := .nil
  touching id := by
    refine iff_of_false ?_ (by simp)
    rintro ⟨node, live, _, touches⟩
    have known := wired.known (stem?_of_node? (wired.mem_live.mp live)) (List.contains_iff_mem.mp touches)
    exact plain _ known unit.mark_mem_instanceSymbol
  producer := by simp
  consumer := by simp

theorem Chained.supplies {g h : Graph} {units : List Draw} {chains : Chains}
    (chained : Chained g chains.plan.served chains h) (serves : g.Serves units chains.plan.served) (wired : g.Wired)
    (plain : g.Plain) (numbered : h.Numbered)
    (named : ∀ a ∈ units, ∀ b ∈ units, a.instanceSymbol = b.instanceSymbol → a = b) :
    g.Supplies h units (chains.links g.nextId) where
  linear unit inside := chained.linear serves wired plain numbered named inside
  served := by
    intro node live symbol drawn
    obtain ⟨unit, answered, rfl⟩ := serves.complete node live symbol drawn
    obtain ⟨i, entry⟩ := List.getElem?_of_mem answered
    have member : ⟨g.nextId + i, node.id, unit.period⟩ ∈ chains.links g.nextId unit :=
      Service.mem_links.mpr ⟨i, unit, entry, rfl, rfl, rfl⟩
    obtain ⟨k, found⟩ := List.getElem?_of_mem member
    exact ⟨unit, (serves.members node.id unit answered).1, rfl, _, member, rfl, (chained.made _ k _ found).2⟩

theorem Settings.bindInstances_eq_ok {s : Settings} {g h : Graph} {chains : Option Chains}
    (done : s.bindInstances g = .ok (chains, h)) :
    g.sources.isEmpty ∧ chains = none ∧ h = g ∨
      ∃ bound, chains = some bound ∧ g.bindInstances s.channelCapacity s.factories = .ok (bound, h) := by
  unfold bindInstances at done
  split at done
  next none =>
      cases done
      exact .inl ⟨none, rfl, rfl⟩
  · split at done
    next bound _ ok =>
        cases done
        exact .inr ⟨bound, rfl, ok⟩
    · cases done

theorem Settings.yields_of_bindInstances {s : Settings} {b : Builder} {h : Graph} {chains : Option Chains}
    (done : s.bindInstances b.graph = .ok (chains, h)) : b.Yields h := by
  obtain ⟨_, _, rfl⟩ | ⟨_, _, bound⟩ := bindInstances_eq_ok done
  · exact .built
  · exact .bound bound

theorem Settings.supplies_of_bindInstances {s : Settings} {b : Builder} {block : Block} (reachable : b.Reachable)
    (plain : b.graph.Plain) (h : s.bindInstances b.graph = .ok (block.chains, block.graph)) :
    b.Yields block.graph ∧
      b.graph.Supplies block.graph (Pool.new s.factories).units (block.links b.graph.nextId) := by
  have wired := reachable.sound.wired
  have yields := yields_of_bindInstances h
  have numbered := (yields.joined reachable plain).numbered
  refine ⟨yields, ?_⟩
  unfold Block.links
  obtain ⟨none, chains, graph⟩ | ⟨bound, chains, done⟩ := bindInstances_eq_ok h
  · rw [chains, graph]
    refine ⟨fun unit _ => wired.linear_nil plain unit, fun node _ symbol drawn => ?_⟩
    rw [wired.drawn_eq_nil none] at drawn
    cases drawn
  · rw [chains]
    obtain ⟨serves, chained⟩ := Chained.of_bindInstances reachable plain done
    exact chained.supplies serves wired plain numbered fun a one b two => Pool.eq_of_instanceSymbol one two

/-- In a compiled block every instance works off its chain in order, unit by unit and each within its period,
    and every draw is answered by a unit of its own that is finished when the operation is placed. -/
theorem pipelined_of_compile {b : Builder} {s : Settings} {f : Floorplan} {block : Block} (reachable : b.Reachable)
    (plain : b.graph.Plain) (compiled : s.compile b.graph f = .ok block)
    (fixed : ∀ node ∈ block.graph.live, node.isFactory → ∀ symbol ∈ node.targets,
      ∃ c, f.book.bindings[symbol]? = some c) :
    ∃ life : NodeId → Life,
      (∀ id ∈ block.graph.liveIds, block.timeline.Tells id (life id) ∧ block.graph.Lives id (life id)) ∧
      (∀ unit ∈ (Pool.new s.factories).units,
        (∃ factory ∈ s.factories, factory.symbol = unit.symbol ∧ factory.period = unit.period) ∧
        block.graph.Pipelined life unit (block.links b.graph.nextId unit)) ∧
      ∀ node ∈ b.graph.live, ∀ symbol ∈ b.graph.drawn node,
        ∃ unit ∈ (Pool.new s.factories).units, unit.symbol = symbol ∧
          ∃ link ∈ block.links b.graph.nextId unit, link.consumer = node.id ∧
            block.graph.consumers link.producer = [⟨unit.instanceSymbol, node.id⟩] ∧
            (life link.producer).finish ≤ (life node.id).admitted := by
  obtain ⟨long, bound, routed⟩ := Settings.compile_eq_ok compiled
  obtain ⟨yields, supplies⟩ := Settings.supplies_of_bindInstances reachable plain bound
  have joined := yields.joined reachable plain
  obtain ⟨r, reached, finished, same⟩ := Floorplan.reaches_of_route routed
  obtain ⟨life, history, lodged⟩ := Run.lodged_of_reaches reached
  have paced := lodged.paced history joined.numbered finished fun node live factory _ symbol target =>
    .inl (fixed node live factory symbol target)
  refine ⟨life, fun id live => ⟨?_, paced.lives id live⟩, fun unit inside => ?_, fun node live symbol drawn => ?_⟩
  · have recorded := (history.placed id _ (finished id live) (by simp)).1
    have ended := history.resolved id (finished id live)
    rw [← history.timely] at ended
    rw [same]
    exact tells_of_recorded history.dated recorded (paced.lives id live).short ended
  · obtain ⟨factory, listed, symbol, period⟩ := Pool.exists_factory inside
    refine ⟨⟨factory, listed, symbol, period⟩, ?_⟩
    exact (supplies.linear unit inside).pipelined joined paced (period ▸ long factory listed)
  · obtain ⟨unit, inside, named, link, member, here, consumers⟩ := supplies.served node live symbol drawn
    refine ⟨unit, inside, named, link, member, here, consumers, ?_⟩
    have reads := (supplies.linear unit inside).reads joined.numbered member
    rw [← here]
    exact paced.follows _ (joined.reader_live reads) _ reads

/-- One factory serves two gates. Its first unit is placed in cycle 1 and dated back to cycle 0; the second is
    begun when the first gate is done. -/
theorem pipelined_of_compile_pair :
    ∃ (b : Builder) (s : Settings) (block : Block) (life : NodeId → Life), b.Reachable ∧
      b.graph.Plain ∧ s.factories = [⟨"T", 3⟩] ∧
      s.compile b.graph pairFloor = .ok block ∧
      (∀ node ∈ block.graph.live, node.isFactory → ∀ symbol ∈ node.targets,
        ∃ c, pairFloor.book.bindings[symbol]? = some c) ∧
      block.links b.graph.nextId ⟨"T", 0, 3⟩ = [⟨6, 3, 3⟩, ⟨7, 4, 3⟩] ∧
      block.timeline.Tells 6 (life 6) ∧ (life 6).admitted = 1 ∧ (life 6).start = 0 ∧ (life 6).finish = 3 ∧
      (life 6).finish ≤ (life 3).start ∧ (life 3).finish ≤ (life 7).start ∧ (life 7).finish ≤ (life 4).admitted := by
  have runs : pairOfGates.toOption.any fun b =>
      (Settings.compile { factories := [⟨"T", 3⟩] } b.graph pairFloor).toOption.any fun block =>
        decide b.graph.Plain
          && ((block.graph.live.filter (·.isFactory)).flatMap (·.targets)).all
              (pairFloor.book.bindings[·]?.isSome)
          && block.links b.graph.nextId ⟨"T", 0, 3⟩ == [⟨6, 3, 3⟩, ⟨7, 4, 3⟩]
          && block.graph.liveIds == [0, 1, 3, 4, 5, 6, 7]
          && b.graph.live.any (fun node => node.id == 4 && b.graph.drawn node == ["T"])
          && (block.timeline.cycles.filter (·.admitted.contains 6)).map (·.cycle) == [1]
          && (block.timeline.cycles.filter (·.resolved.contains 6)).map (·.cycle) == [3] := by decide +kernel
  obtain ⟨b, built, runs⟩ := exists_ok_of_any runs
  obtain ⟨block, compiled, runs⟩ := exists_ok_of_any runs
  simp only [Bool.and_eq_true, beq_iff_eq, List.all_eq_true, List.any_eq_true, decide_eq_true_eq] at runs
  obtain ⟨⟨⟨⟨⟨⟨plain, places⟩, links⟩, alive⟩, gate, live, here, draws⟩, placed⟩, ended⟩ := runs
  have reachable := reachable_pairOfGates built
  have fixed : ∀ node ∈ block.graph.live, node.isFactory → ∀ symbol ∈ node.targets,
      ∃ c, pairFloor.book.bindings[symbol]? = some c := by
    intro node live factory symbol target
    refine Option.isSome_iff_exists.mp (places symbol ?_)
    exact List.mem_flatMap.mpr ⟨node, List.mem_filter.mpr ⟨live, factory⟩, target⟩
  obtain ⟨life, lives, chains, served⟩ := pipelined_of_compile reachable plain compiled fixed
  obtain ⟨_, pipelined⟩ := chains ⟨"T", 0, 3⟩ (by decide)
  have serial := pipelined.serial
  have period := pipelined.period ⟨6, 3, 3⟩ (by simp [links])
  simp only [links, List.flatMap_cons, List.flatMap_nil, List.append_nil, List.cons_append, List.nil_append,
    List.pairwise_cons, List.mem_cons, List.not_mem_nil, or_false, forall_eq_or_imp, forall_eq] at serial
  have tells := (lives 6 (by simp [alive])).1
  have placed : (life 6).admitted = 1 := List.singleton_inj.mp (tells.admitted.symm.trans placed)
  have ended : (life 6).finish = 3 := List.singleton_inj.mp (tells.resolved.symm.trans ended)
  have taken : (life 7).finish ≤ (life 4).admitted := by
    obtain ⟨unit, inside, _, link, member, consumer, _, order⟩ := served gate live "T" (by simp [draws])
    have units : (Pool.new [⟨"T", 3⟩]).units = [⟨"T", 0, 3⟩] := by decide
    rw [units, List.mem_singleton] at inside
    rw [inside, links] at member
    have same : link = ⟨7, 4, 3⟩ := by
      simp only [List.mem_cons, List.not_mem_nil, or_false] at member
      rcases member with rfl | rfl
      · rw [here] at consumer
        cases consumer
      · rfl
    rwa [same, here] at order
  exact ⟨b, _, block, life, reachable, plain, rfl, compiled, fixed, links, tells, placed, by dsimp only at period; omega,
    ended, serial.1.1, serial.2.1.1, taken⟩

end LatticeSurgery
