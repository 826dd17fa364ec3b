import LatticeSurgery.Proofs.Chains.Rewiring

/-! # Supplies under any names

A resource may be called like an instance that is made later. Binding then puts one name twice into a node, and
the graph is not joined any more. Every graph that comes up keeps this much: a factory makes one thing by itself,
edges lead to nodes of the graph, a node that was taken out is on none of them, and a name that stands twice in a
node is something that a factory hands to it.
-/

namespace LatticeSurgery

namespace Graph

structure Stocked (g : Graph) : Prop where
  numbered : g.Numbered
  makes : ∀ {id node}, g.stem? id = some node → node.isFactory → (∃ symbol, node.targets = [symbol]) ∧ node.ancillae = 0
  waits : ∀ {id edge}, edge ∈ g.producers id → g.isFactory id → g.isFactory edge.node = false
  told : ∀ {symbol id n}, ⟨symbol, id⟩ ∈ g.producers n → ⟨symbol, n⟩ ∈ g.consumers id
  lists : ∀ {id edge}, edge ∈ g.consumers id → edge.node < g.nextId
  sources : ∀ {symbol : Symbol} {id}, g.sources[symbol]? = some id → g.isFactory id ∧ g.producers id = []
  retired : ∀ {id}, g.isRetired id → g.consumers id = [] ∧ g.producers id = []
  twice : ∀ {id symbol}, 2 ≤ (g.targetsOf id).count symbol →
    ∃ maker, g.isFactory maker ∧ symbol ∈ g.targetsOf maker ∧ ⟨symbol, id⟩ ∈ g.consumers maker

/-- An operation that was not taken out. -/
structure Operates (g : Graph) (id : NodeId) : Prop where
  inside : id < g.nextId
  operation : g.isFactory id = false
  alive : g.isRetired id = false

theorem Alike.stocked {g h : Graph} (alike : g.Alike h) (stocked : h.Stocked) : g.Stocked where
  numbered := stocked.numbered.of_alike alike
  makes := by simpa only [alike.stem?] using @stocked.makes
  waits := by simpa only [alike.producers, alike.isFactory] using @stocked.waits
  told := by simpa only [alike.producers, alike.consumers] using @stocked.told
  lists := by simpa only [alike.consumers, alike.size] using @stocked.lists
  sources := by simpa only [alike.sources, alike.isFactory, alike.producers] using @stocked.sources
  retired := by simpa only [alike.isRetired, alike.consumers, alike.producers] using @stocked.retired
  twice := by simpa only [alike.isFactory, alike.targetsOf, alike.consumers] using @stocked.twice

theorem Wired.stocked {g : Graph} (wired : g.Wired) : g.Stocked where
  numbered := wired.joined.numbered
  makes := by
    intro id node found factory
    obtain ⟨symbol, source⟩ := wired.factory found factory
    obtain rfl := Option.some.inj (found.symm.trans (wired.source source))
    exact ⟨⟨symbol, rfl⟩, rfl⟩
  waits := by
    intro id edge member factory
    rw [Bool.eq_false_iff]
    intro other
    rw [(wired.joined.drawn member other).2] at factory
    cases factory
  told := wired.consumers.mpr
  lists := by
    rintro id ⟨symbol, reader⟩ listed
    obtain ⟨node, found⟩ := exists_node?_of_mem_producers (wired.consumers.mp listed)
    exact lt_nextId found
  sources := wired.joined.sources
  retired := wired.joined.retired
  twice := by
    intro id symbol more
    have once := List.nodup_iff_count_le_one.mp (wired.joined.distinct id) symbol
    omega

namespace Stocked

variable {g : Graph} (stocked : g.Stocked) {id : NodeId} {edge : Edge}
include stocked

theorem producer_lt (member : edge ∈ g.producers id) : edge.node < g.nextId := by
  have listed := stocked.told member
  by_contra outside
  have none : g.node? edge.node = none := by simpa [node?, nextId] using outside
  simp [consumers, none] at listed

theorem producer_alive (member : edge ∈ g.producers id) : g.isRetired edge.node = false := by
  have listed := stocked.told member
  rw [Bool.eq_false_iff]
  intro retired
  rw [(stocked.retired retired).1] at listed
  cases listed

/-- Only operations that were not taken out are served. -/
theorem operates_of_served {capacity : Nat} {factories : List Factory} {plan : Plan}
    (scheduled : g.schedule capacity factories = .ok plan) {service : NodeId × Draw} (member : service ∈ plan.served) :
    g.Operates service.1 := by
  obtain ⟨id, unit⟩ := service
  have executed := stocked.numbered.executed_of_schedule scheduled
  obtain ⟨listed, served⟩ := Plan.mem_served.mp member
  have listed := List.mem_reverse.mpr listed
  have inside := executed.present id listed
  obtain ⟨node, found⟩ := lt_nextId_iff.mp inside
  have drawn : unit.symbol ∈ g.drawn node := by
    rw [← (executed.served id listed node found).1]
    exact List.mem_map_of_mem served
  obtain ⟨edge, reads, draws, _⟩ := mem_drawn.mp drawn
  rw [← producers_of_node? found] at reads
  have factory : g.isFactory edge.node := (Bool.and_eq_true_iff.mp draws).2
  refine ⟨inside, Bool.eq_false_iff.mpr fun makes => ?_, Bool.eq_false_iff.mpr fun out => ?_⟩
  · rw [stocked.waits reads makes] at factory
    cases factory
  · rw [(stocked.retired out).2] at reads
    cases reads

end Stocked

end Graph

/-! ## One binding -/

namespace Chaining

variable {c d : Chaining} {consumer source : NodeId} {unit : Draw}

theorem count_redirected {targets : List Symbol} {shared own symbol : Symbol} (other : symbol ≠ own) :
    (targets.map fun target => if target = shared then own else target).count symbol
      = if symbol = shared then 0 else targets.count symbol := by
  induction targets with
  | nil => simp
  | cons target targets ih => grind

namespace Rewires

variable (rewires : c.Rewires consumer source unit d) (consumes : c.graph.Operates consumer)
include rewires

theorem operates {n : NodeId} (operates : c.graph.Operates n) : d.graph.Operates n where
  inside := by
    rw [rewires.size]
    exact Nat.lt_succ_of_lt operates.inside
  operation := by
    rw [rewires.isFactory_of_lt operates.inside]
    exact operates.operation
  alive := by
    rw [rewires.isRetired, if_neg (Nat.ne_of_lt operates.inside)]
    exact operates.alive

include consumes

/-- Factories that were there before are as they were, and lose no other consumer than the one that moves. -/
theorem keeps_factory {n m : NodeId} {symbol : Symbol} (factory : c.graph.isFactory n)
    (listed : ⟨symbol, m⟩ ∈ c.graph.consumers n) (stays : ¬(m = consumer ∧ symbol = unit.symbol)) :
    d.graph.isFactory n ∧ d.graph.targetsOf n = c.graph.targetsOf n ∧ ⟨symbol, m⟩ ∈ d.graph.consumers n := by
  have inside : n ≠ c.graph.nextId := by
    rintro rfl
    rw [Graph.consumers_nextId] at listed
    cases listed
  have other : n ≠ consumer := by
    rintro rfl
    rw [consumes.operation] at factory
    cases factory
  refine ⟨?_, ?_, rewires.consumers.mpr (.inl ⟨listed, ?_⟩)⟩
  · rw [rewires.isFactory, if_neg inside]
    exact factory
  · rw [rewires.targets, if_neg inside, if_neg other]
  · rintro ⟨_, same⟩
    exact stays ⟨congrArg Edge.node same, congrArg Edge.symbol same⟩

theorem twice (stocked : c.graph.Stocked) {id : NodeId} {symbol : Symbol}
    (more : 2 ≤ (d.graph.targetsOf id).count symbol) :
    ∃ maker, d.graph.isFactory maker ∧ symbol ∈ d.graph.targetsOf maker ∧ ⟨symbol, id⟩ ∈ d.graph.consumers maker := by
  have old : 2 ≤ (c.graph.targetsOf id).count symbol → ¬(id = consumer ∧ symbol = unit.symbol) →
      ∃ maker, d.graph.isFactory maker ∧ symbol ∈ d.graph.targetsOf maker ∧ ⟨symbol, id⟩ ∈ d.graph.consumers maker := by
    intro more stays
    obtain ⟨maker, factory, makes, listed⟩ := stocked.twice more
    obtain ⟨factory, same, listed⟩ := rewires.keeps_factory consumes factory listed stays
    exact ⟨maker, factory, same ▸ makes, listed⟩
  rw [rewires.targets] at more
  split at more
  next here =>
      have once := List.count_le_length (a := symbol) (l := [unit.instanceSymbol])
      rw [List.length_singleton] at once
      omega
  · split at more
    next here =>
        subst here
        by_cases own : symbol = unit.instanceSymbol
        · refine ⟨c.graph.nextId, ?_, ?_, rewires.consumers.mpr (.inr (.inr ⟨rfl, by rw [own]⟩))⟩
          · rw [rewires.isFactory, if_pos rfl]
          · rw [rewires.targets, if_pos rfl, own]
            exact List.mem_singleton_self _
        · rw [count_redirected own] at more
          split at more
          · omega
          next stays => exact old more fun moved => stays moved.2
    next other => exact old more fun moved => other moved.1

theorem stocked (stocked : c.graph.Stocked) (numbered : d.graph.Numbered)
    (tail : ∀ {previous}, c.tails[unit.instanceSymbol]? = some previous → c.graph.Operates previous) :
    d.graph.Stocked where
  numbered := numbered
  makes := by
    intro id node found factory
    rw [rewires.stem?] at found
    split at found
    · cases found
      refine ⟨⟨unit.instanceSymbol, rfl⟩, ?_⟩
      cases c.tails[unit.instanceSymbol]? <;> rfl
    · split at found
      next here =>
          obtain ⟨old, known, rfl⟩ := Option.map_eq_some_iff.mp found
          have operation := consumes.operation
          rw [Graph.isFactory_eq_stem, ← here, known] at operation
          rw [show (old.redirect _ _ _).isFactory = old.isFactory from rfl] at factory
          rw [Option.any_some, factory] at operation
          cases operation
      · exact stocked.makes found factory
  waits := by
    intro id edge member factory
    rw [rewires.producers] at member
    split at member
    · obtain ⟨previous, found, rfl⟩ := List.mem_map.mp member
      have operates := tail (Option.mem_toList.mp found)
      rw [rewires.isFactory_of_lt operates.inside]
      exact operates.operation
    next inside =>
        rw [rewires.isFactory, if_neg inside] at factory
        split at member
        next here =>
            rw [here, consumes.operation] at factory
            cases factory
        · rw [rewires.isFactory_of_lt (stocked.producer_lt member)]
          exact stocked.waits member factory
  told := by
    intro symbol id n member
    rw [rewires.producers] at member
    rw [rewires.consumers]
    split at member
    next here =>
        obtain ⟨previous, found, same⟩ := List.mem_map.mp member
        cases same
        have found := Option.mem_toList.mp found
        exact .inr (.inl ⟨found, Nat.le_of_lt (tail found).inside, by rw [here]⟩)
    · split at member
      next here =>
          rcases List.mem_append.mp member with member | member
          · obtain ⟨member, stays⟩ := List.mem_filter.mp member
            refine .inl ⟨stocked.told member, ?_⟩
            rintro ⟨_, same⟩
            cases same
            simp at stays
          · cases List.mem_singleton.mp member
            exact .inr (.inr ⟨rfl, by rw [here]⟩)
      next other =>
          refine .inl ⟨stocked.told member, ?_⟩
          rintro ⟨_, same⟩
          exact other (congrArg Edge.node same)
  lists := by
    intro id edge listed
    rw [rewires.size]
    rcases rewires.consumers.mp listed with ⟨listed, _⟩ | ⟨_, _, rfl⟩ | ⟨_, rfl⟩
    · exact Nat.lt_succ_of_lt (stocked.lists listed)
    · exact Nat.lt_succ_self _
    · exact Nat.lt_succ_of_lt consumes.inside
  sources := rewires.keeps_sources consumes.operation stocked.sources
  retired := rewires.keeps_retired consumes.alive (fun found => (tail found).alive) stocked.retired
  twice := rewires.twice consumes stocked

end Rewires

/-! ## All bindings of a plan -/

/-- Chains under construction in such a graph: every instance went last to an operation of it. -/
structure Supplying (c : Chaining) : Prop where
  graph : c.graph.Stocked
  tails : ∀ {own : Symbol} {previous}, c.tails[own]? = some previous → c.graph.Operates previous

theorem Supplying.bind (supplying : c.Supplying) (consumes : c.graph.Operates consumer)
    (h : c.bind consumer unit = .ok d) : d.Supplying ∧ ∀ n, c.graph.Operates n → d.graph.Operates n := by
  obtain ⟨source, _, rewires⟩ := rewires_of_bind h
  refine ⟨⟨?_, ?_⟩, fun n => rewires.operates⟩
  · exact rewires.stocked consumes supplying.graph (numbered_bind supplying.graph.numbered h) supplying.tails
  · intro own previous found
    rw [rewires.tails, Std.ExtTreeMap.getElem?_insert] at found
    split at found
    · cases found
      exact rewires.operates consumes
    · exact rewires.operates (supplying.tails found)

theorem Supplying.bindAll {draws : List (NodeId × Draw)} (supplying : c.Supplying)
    (consume : ∀ service ∈ draws, c.graph.Operates service.1) :
    (∀ d, c.bindAll draws = .ok d → d.graph.Stocked) ∧ ∀ left, c.bindAll draws = .error left → left.state.Stocked := by
  induction draws generalizing c with
  | nil =>
      constructor
      · intro d h
        cases h
        exact supplying.graph
      · intro left h
        cases h
  | cons service draws ih =>
      obtain ⟨consumer, unit⟩ := service
      have onward : ∀ {next}, c.bind consumer unit = .ok next →
          (∀ d, next.bindAll draws = .ok d → d.graph.Stocked) ∧
            ∀ left, next.bindAll draws = .error left → left.state.Stocked := by
        intro next first
        obtain ⟨supplying, keeps⟩ := supplying.bind (consume _ List.mem_cons_self) first
        exact ih supplying fun service member => keeps _ (consume service (List.mem_cons_of_mem _ member))
      constructor
      · intro d h
        obtain ⟨next, first, h⟩ := bind_eq_ok.mp h
        exact (onward first).1 d h
      · intro left h
        rcases LatticeSurgery.bind_eq_error.mp h with failed | ⟨next, first, h⟩
        · rw [bind_eq_error failed]
          exact supplying.graph
        · exact (onward first).2 left h

end Chaining

/-! ## Every graph -/

namespace Graph

variable {g h : Graph} {symbols : List Symbol} {retired : List NodeId}

theorem Retires.stocked (retires : g.Retires symbols retired h) (stocked : g.Stocked) (numbered : h.Numbered) :
    h.Stocked where
  numbered := numbered
  makes := by
    intro id node found factory
    rw [retires.stem?] at found
    obtain ⟨old, known, rfl⟩ := Option.map_eq_some_iff.mp found
    have made := stocked.makes known factory
    exact made
  waits := by simpa only [retires.producers, retires.isFactory] using @stocked.waits
  told := by simpa only [retires.producers, retires.consumers] using @stocked.told
  lists := by simpa only [retires.consumers, retires.size] using @stocked.lists
  sources := by
    intro symbol id source
    rw [retires.sources] at source
    split at source
    · cases source
    · rw [retires.isFactory, retires.producers]
      exact stocked.sources source
  retired := by
    intro id out
    rw [retires.consumers, retires.producers]
    rcases retires.of_isRetired out with old | ⟨symbol, spent⟩
    · exact stocked.retired old
    · obtain ⟨source, unused⟩ := Bool.and_eq_true_iff.mp spent
      exact ⟨List.isEmpty_iff.mp unused, (stocked.sources (beq_iff_eq.mp source)).2⟩
  twice := by simpa only [retires.targetsOf, retires.isFactory, retires.consumers] using @stocked.twice

theorem Stocked.retireAll (stocked : g.Stocked) (symbols : List Symbol) : (g.retireAll symbols).2.Stocked :=
  (Retires.retireAll g symbols).stocked stocked (stocked.numbered.retireAll symbols)

theorem Stocked.of_bindInstances {capacity : Nat} {factories : List Factory} {chains : Chains} (stocked : g.Stocked)
    (done : g.bindInstances capacity factories = .ok (chains, h)) : h.Stocked := by
  obtain ⟨plan, c, scheduled, chained, layered, _⟩ := bindInstances_eq_ok done
  have supplying : ({ graph := g } : Chaining).Supplying := ⟨stocked, by simp⟩
  have bound := (supplying.bindAll fun _ => stocked.operates_of_served scheduled).1 c chained
  exact (alike_of_relayer layered).stocked (bound.retireAll c.shared)

theorem Stocked.of_bindInstances_error {capacity : Nat} {factories : List Factory} {left : Failure Graph}
    (stocked : g.Stocked) (failed : g.bindInstances capacity factories = .error left) : left.state.Stocked := by
  unfold bindInstances at failed
  split at failed
  · cases failed
    exact stocked
  next plan scheduled =>
      have supplying : ({ graph := g } : Chaining).Supplying := ⟨stocked, by simp⟩
      obtain ⟨bound, unbound⟩ := supplying.bindAll fun _ => stocked.operates_of_served scheduled
      rcases bind_eq_error.mp failed with failed | ⟨c, chained, failed⟩
      · exact unbound left failed
      · rcases bind_eq_error.mp failed with failed | ⟨final, _, failed⟩
        · exact (alike_of_relayer_error failed).stocked ((bound c chained).retireAll c.shared)
        · cases failed

theorem Produced.stocked (produced : g.Produced) : g.Stocked := by
  induction produced with
  | built reachable => exact reachable.sound.wired.stocked
  | layered _ done ih => exact (alike_of_relayer done).stocked ih
  | layeringFailed _ failed ih => exact (alike_of_relayer_error failed).stocked ih
  | bound _ done ih => exact ih.of_bindInstances done
  | bindingFailed _ failed ih => exact ih.of_bindInstances_error failed

end Graph

end LatticeSurgery
