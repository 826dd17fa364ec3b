import LatticeSurgery.Proofs.Chains.Retirement

/-! # Binding and retiring, look-up by look-up

What one binding does to the edges, targets and kinds of a graph, stated for graphs of any kind, and why
a joined graph stays joined.
-/

namespace LatticeSurgery

namespace Chaining

variable {c d : Chaining} {consumer source : NodeId} {unit : Draw}

/-! ## Consumers and kinds -/

/-- The chains with a consumer taken off its source. -/
def free (c : Chaining) (consumer source : NodeId) (unit : Draw) : Chaining :=
  { c with
    graph := c.graph.modify source fun node =>
      { node with consumers := node.consumers.filter (· != ⟨unit.symbol, consumer⟩) }
    shared := appendNew c.shared [unit.symbol] }

theorem graph_bind (edge : (c.graph.node? consumer).bind (·.producer? unit.symbol) = some source)
    (h : c.bind consumer unit = .ok d) :
    d.graph = (((c.free consumer source unit).produce unit).2.graph.modify consumer
        (·.redirect unit.symbol unit.instanceSymbol c.graph.nextId)).modify c.graph.nextId
        (·.addConsumer ⟨unit.instanceSymbol, consumer⟩) := by
  unfold bind at h
  rw [edge] at h
  have made : ((c.free consumer source unit).produce unit).1 = c.graph.nextId := by
    rw [produce_fst, free, Graph.nextId_modify]
  rw [← made]
  exact (congrArg Chaining.graph (Except.ok.inj h)).symm

theorem mem_consumers_produce (c : Chaining) (unit : Draw) {n : NodeId} {e : Edge} :
    e ∈ (c.produce unit).2.graph.consumers n ↔ e ∈ c.graph.consumers n ∨
      c.tails[unit.instanceSymbol]? = some n ∧ n ≤ c.graph.nextId ∧ e = ⟨unit.instanceSymbol, c.graph.nextId⟩ := by
  have pushed : ∀ (g : Graph) (node : Node), node.consumers = [] → (g.push node).consumers n = g.consumers n := by
    intro g node none
    rw [Graph.consumers_push]
    split
    next here => rw [none, here, Graph.consumers_nextId]
    · rfl
  unfold produce
  dsimp only
  split
  next fresh =>
      rw [pushed _ _ rfl, fresh]
      simp only [reduceCtorEq, false_and, or_false]
      rfl
  next previous found =>
      rw [Graph.mem_consumers_addConsumer, pushed _ _ rfl, Graph.nextId_push, found]
      simp only [Option.some.injEq, eq_comm (a := n), Nat.lt_succ_iff]

theorem nodup_consumers_produce (unit : Draw) {n : NodeId} (distinct : (c.graph.consumers n).Nodup) :
    ((c.produce unit).2.graph.consumers n).Nodup := by
  have pushed : ∀ (g : Graph) (node : Node), node.consumers = [] → (g.consumers n).Nodup →
      ((g.push node).consumers n).Nodup := by
    intro g node none distinct
    rw [Graph.consumers_push]
    split
    · rw [none]; exact .nil
    · exact distinct
  unfold produce
  dsimp only
  split
  · apply pushed _ _ rfl
    exact distinct
  · apply Graph.nodup_consumers_addConsumer
    exact pushed _ _ rfl distinct

theorem kind?_produce (c : Chaining) (unit : Draw) (symbol : Symbol) :
    (c.produce unit).2.graph.kind? symbol
      = if c.tails[unit.instanceSymbol]? = none ∧ symbol = unit.instanceSymbol then some .magicState
        else c.graph.kind? symbol := by
  unfold produce
  dsimp only
  split
  next fresh =>
      refine (Graph.kind?_register c.graph unit.instanceSymbol symbol .magicState).trans ?_
      simp only [fresh, true_and]
  next previous found =>
      rw [if_neg (by simp [found])]
      rfl

/-! ## One binding -/

/-- What binding one draw does to every look-up. -/
structure Rewires (c : Chaining) (consumer source : NodeId) (unit : Draw) (d : Chaining) : Prop where
  size : d.graph.nextId = c.graph.nextId + 1
  stem? : ∀ n, d.graph.stem? n = if n = c.graph.nextId
      then some (Link.maker unit.instanceSymbol c.tails[unit.instanceSymbol]? ⟨c.graph.nextId, consumer, unit.period⟩)
    else if n = consumer then (c.graph.stem? n).map (·.redirect unit.symbol unit.instanceSymbol c.graph.nextId)
    else c.graph.stem? n
  targets : ∀ n, d.graph.targetsOf n = if n = c.graph.nextId then [unit.instanceSymbol]
    else if n = consumer then (c.graph.targetsOf n).map fun target =>
      if target = unit.symbol then unit.instanceSymbol else target
    else c.graph.targetsOf n
  producers : ∀ n, d.graph.producers n = if n = c.graph.nextId
      then c.tails[unit.instanceSymbol]?.toList.map (⟨unit.instanceSymbol, ·⟩)
    else if n = consumer then (c.graph.producers n).filter (·.symbol != unit.symbol)
      ++ [⟨unit.instanceSymbol, c.graph.nextId⟩]
    else c.graph.producers n
  isFactory : ∀ n, d.graph.isFactory n = if n = c.graph.nextId then true else c.graph.isFactory n
  isRetired : ∀ n, d.graph.isRetired n = if n = c.graph.nextId then false else c.graph.isRetired n
  consumers : ∀ {n e}, e ∈ d.graph.consumers n ↔
    e ∈ c.graph.consumers n ∧ ¬ (n = source ∧ e = ⟨unit.symbol, consumer⟩) ∨
      c.tails[unit.instanceSymbol]? = some n ∧ n ≤ c.graph.nextId ∧ e = ⟨unit.instanceSymbol, c.graph.nextId⟩ ∨
      n = c.graph.nextId ∧ e = ⟨unit.instanceSymbol, consumer⟩
  nodup : ∀ {n}, (c.graph.consumers n).Nodup → (d.graph.consumers n).Nodup
  kinds : ∀ symbol, d.graph.kind? symbol
    = if c.tails[unit.instanceSymbol]? = none ∧ symbol = unit.instanceSymbol then some .magicState
      else c.graph.kind? symbol
  sources : ∀ symbol : Symbol, d.graph.sources[symbol]? =
    if c.tails[unit.instanceSymbol]? = none ∧ symbol = unit.instanceSymbol then some c.graph.nextId
    else c.graph.sources[symbol]?
  tails : d.tails = c.tails.insert unit.instanceSymbol consumer

theorem Binds.stem?_eq (binds : c.Binds consumer source unit d) (n : NodeId) :
    d.graph.stem? n = if n = c.graph.nextId
        then some (Link.maker unit.instanceSymbol c.tails[unit.instanceSymbol]?
          ⟨c.graph.nextId, consumer, unit.period⟩)
      else if n = consumer then (c.graph.stem? n).map (·.redirect unit.symbol unit.instanceSymbol c.graph.nextId)
      else c.graph.stem? n := by
  split
  next here => rw [here, binds.made]
  next old =>
      split
      next here => rw [here, binds.redirected]
      next other => exact binds.stem? n old other

theorem rewires_of_bind (h : c.bind consumer unit = .ok d) :
    ∃ source, (c.graph.node? consumer).bind (·.producer? unit.symbol) = some source ∧
      c.Rewires consumer source unit d := by
  obtain ⟨source, binds⟩ := binds_of_bind h
  have graph := graph_bind binds.edge h
  have next : (c.free consumer source unit).graph.nextId = c.graph.nextId := Graph.nextId_modify _ _ _
  have freed : ∀ n, (c.free consumer source unit).graph.consumers n
      = if n = source then (c.graph.consumers n).filter (· != ⟨unit.symbol, consumer⟩) else c.graph.consumers n :=
    fun n => Graph.consumers_modify_filter c.graph source n _
  have quiet : ∀ node : Node, (node.redirect unit.symbol unit.instanceSymbol c.graph.nextId).consumers
      = node.consumers := fun _ => rfl
  refine ⟨source, binds.edge, ?_⟩
  constructor
  case size => exact binds.size
  case stem? => exact binds.stem?_eq
  case targets =>
    intro n
    rw [Graph.targetsOf_eq_stem, binds.stem?_eq, Graph.targetsOf_eq_stem]
    split
    · rfl
    · split
      · cases c.graph.stem? n <;> rfl
      · rfl
  case producers =>
    intro n
    rw [Graph.producers_eq_stem, binds.stem?_eq]
    split
    · rfl
    · split
      next here =>
          obtain ⟨node, found, _⟩ := Option.bind_eq_some_iff.mp binds.edge
          rw [here, Graph.producers_of_node? found, Graph.stem?_of_node? found]
          rfl
      · rw [← Graph.producers_eq_stem]
  case isFactory =>
    intro n
    rw [Graph.isFactory_eq_stem, binds.stem?_eq, Graph.isFactory_eq_stem]
    split
    · rfl
    · split
      · cases c.graph.stem? n <;> rfl
      · rfl
  case isRetired =>
    intro n
    rw [Graph.isRetired_eq_stem, binds.stem?_eq, Graph.isRetired_eq_stem]
    split
    · rfl
    · split
      · cases c.graph.stem? n <;> rfl
      · rfl
  case consumers =>
    intro n e
    have inside : c.graph.nextId < ((c.free consumer source unit).produce unit).2.graph.nextId := by
      rw [(produces_produce _ _).size, next]
      exact Nat.lt_succ_self _
    rw [graph, Graph.mem_consumers_addConsumer, Graph.nextId_modify, Graph.consumers_modify_of_eq quiet,
      mem_consumers_produce, freed, next]
    have kept : e ∈ (if n = source then (c.graph.consumers n).filter (· != ⟨unit.symbol, consumer⟩)
        else c.graph.consumers n) ↔ e ∈ c.graph.consumers n ∧ ¬ (n = source ∧ e = ⟨unit.symbol, consumer⟩) := by
      split
      next here => simp [here]
      next other => simp [other]
    rw [kept, or_assoc]
    apply or_congr_right
    apply or_congr_right
    constructor
    · rintro ⟨here, _, same⟩
      exact ⟨here, same⟩
    · rintro ⟨here, same⟩
      exact ⟨here, here ▸ inside, same⟩
  case nodup =>
    intro n distinct
    rw [graph]
    apply Graph.nodup_consumers_addConsumer
    rw [Graph.consumers_modify_of_eq quiet]
    apply nodup_consumers_produce
    rw [freed]
    split
    · exact distinct.filter _
    · exact distinct
  case kinds =>
    intro symbol
    rw [graph]
    exact kind?_produce (c.free consumer source unit) unit symbol
  case sources => exact binds.sources
  case tails => exact binds.tails

/-! ## Edges and targets after a binding -/

/-- A service whose draw is in place and whose instance is either new or has a chain. -/
structure Bindable (c : Chaining) (consumer source : NodeId) (unit : Draw) : Prop where
  edge : ⟨unit.symbol, source⟩ ∈ c.graph.producers consumer
  factory : c.graph.isFactory source
  absent : unit.instanceSymbol ∉ c.graph.targetsOf consumer
  fresh : c.tails[unit.instanceSymbol]? = none → c.graph.kind? unit.instanceSymbol = none
  tail : ∀ {previous}, c.tails[unit.instanceSymbol]? = some previous →
    ∃ maker, ⟨unit.instanceSymbol, maker⟩ ∈ c.graph.producers previous ∧ c.graph.isFactory maker

namespace Bindable

variable (bindable : c.Bindable consumer source unit) (joined : c.graph.Joined)
include bindable

theorem consumer_lt : consumer < c.graph.nextId := by
  obtain ⟨node, found⟩ := Graph.exists_node?_of_mem_producers bindable.edge
  exact Graph.lt_nextId found

theorem bind_edge (joined : c.graph.Joined) :
    (c.graph.node? consumer).bind (·.producer? unit.symbol) = some source := by
  obtain ⟨node, found⟩ := Graph.exists_node?_of_mem_producers bindable.edge
  have inside := bindable.edge
  rw [Graph.producers_of_node? found] at inside
  rw [found, Option.bind_some, Node.producer?]
  cases first : node.producers.find? (·.symbol == unit.symbol) with
  | none => exact absurd (beq_self_eq_true _) (List.find?_eq_none.mp first _ inside)
  | some edge =>
      have named : edge.symbol = unit.symbol := by simpa using List.find?_some first
      have member := List.mem_of_find?_eq_some first
      rw [← Graph.producers_of_node? found] at member
      have member : ⟨unit.symbol, edge.node⟩ ∈ c.graph.producers consumer := named ▸ member
      exact congrArg some (joined.producer_unique member bindable.edge)

include joined

theorem operation : c.graph.isFactory consumer = false := (joined.drawn bindable.edge bindable.factory).2

theorem magic : c.graph.isMagic unit.symbol := (joined.drawn bindable.edge bindable.factory).1

theorem previous_operation {previous : NodeId} (found : c.tails[unit.instanceSymbol]? = some previous) :
    c.graph.isFactory previous = false ∧ previous ∈ c.graph.liveIds ∧ previous ≠ consumer := by
  obtain ⟨maker, edge, factory⟩ := bindable.tail found
  refine ⟨(joined.drawn edge factory).2, joined.reader_live edge, ?_⟩
  rintro rfl
  exact bindable.absent (joined.reads edge)

end Bindable

namespace Rewires

variable (rewires : c.Rewires consumer source unit d) (bindable : c.Bindable consumer source unit)
include rewires

theorem isFactory_of_lt {n : NodeId} (inside : n < c.graph.nextId) : d.graph.isFactory n = c.graph.isFactory n := by
  rw [rewires.isFactory, if_neg (Nat.ne_of_lt inside)]

theorem isFactory_of_live (joined : c.graph.Joined) {n : NodeId} (alive : n ∈ c.graph.liveIds) :
    d.graph.isFactory n = c.graph.isFactory n :=
  rewires.isFactory_of_lt ((Graph.mem_liveIds joined.numbered).mp alive).1

theorem keeps_sources (operation : c.graph.isFactory consumer = false)
    (sources : ∀ {symbol : Symbol} {id}, c.graph.sources[symbol]? = some id →
      c.graph.isFactory id ∧ c.graph.producers id = [])
    {symbol : Symbol} {id : NodeId} (source : d.graph.sources[symbol]? = some id) :
    d.graph.isFactory id ∧ d.graph.producers id = [] := by
  rw [rewires.sources] at source
  split at source
  next new =>
      cases source
      rw [rewires.isFactory, rewires.producers, if_pos rfl, if_pos rfl, new.1]
      exact ⟨rfl, rfl⟩
  · obtain ⟨factory, none⟩ := sources source
    have inside : id ≠ c.graph.nextId := by
      rintro rfl
      simp [Graph.isFactory, Graph.node?_nextId] at factory
    have other : id ≠ consumer := by
      rintro rfl
      rw [operation] at factory
      cases factory
    rw [rewires.isFactory, rewires.producers, if_neg inside, if_neg inside, if_neg other]
    exact ⟨factory, none⟩

theorem keeps_retired (alive : c.graph.isRetired consumer = false)
    (tail : ∀ {previous}, c.tails[unit.instanceSymbol]? = some previous → c.graph.isRetired previous = false)
    (retired : ∀ {id}, c.graph.isRetired id → c.graph.consumers id = [] ∧ c.graph.producers id = []) {id : NodeId}
    (out : d.graph.isRetired id) : d.graph.consumers id = [] ∧ d.graph.producers id = [] := by
  rw [rewires.isRetired] at out
  split at out
  · cases out
  next inside =>
      have idle : ∀ {n}, c.graph.isRetired n = false → id ≠ n := by
        rintro n alive rfl
        rw [alive] at out
        cases out
      obtain ⟨consumers, producers⟩ := retired out
      constructor
      · apply List.eq_nil_iff_forall_not_mem.mpr
        intro edge member
        rcases rewires.consumers.mp member with ⟨old, _⟩ | ⟨found, _⟩ | ⟨here, _⟩
        · rw [consumers] at old
          cases old
        · exact idle (tail found) rfl
        · exact inside here
      · rw [rewires.producers, if_neg inside, if_neg (idle alive)]
        exact producers

include bindable

theorem mem_producers {n : NodeId} {edge : Edge} :
    edge ∈ d.graph.producers n ↔
      edge ∈ c.graph.producers n ∧ ¬ (n = consumer ∧ edge.symbol = unit.symbol) ∨
        n = consumer ∧ edge = ⟨unit.instanceSymbol, c.graph.nextId⟩ ∨
        n = c.graph.nextId ∧ edge.symbol = unit.instanceSymbol ∧
          c.tails[unit.instanceSymbol]? = some edge.node := by
  have old : c.graph.producers c.graph.nextId = [] := by simp [Graph.producers, Graph.node?_nextId]
  have apart : c.graph.nextId ≠ consumer := Nat.ne_of_gt bindable.consumer_lt
  rw [rewires.producers]
  split
  next here =>
      cases edge
      simp only [here, old, apart, List.not_mem_nil, false_and, false_or, true_and, List.mem_map, Option.mem_toList,
        Edge.mk.injEq]
      constructor
      · rintro ⟨_, found, rfl, rfl⟩
        exact ⟨rfl, found⟩
      · rintro ⟨rfl, found⟩
        exact ⟨_, found, rfl, rfl⟩
  next elsewhere =>
      split
      next here => simp [here, apart.symm]
      next other => simp [elsewhere, other]

theorem mem_targets (joined : c.graph.Joined) {n : NodeId} {symbol : Symbol} :
    symbol ∈ d.graph.targetsOf n ↔
      symbol ∈ c.graph.targetsOf n ∧ ¬ (n = consumer ∧ symbol = unit.symbol) ∨
        (n = consumer ∨ n = c.graph.nextId) ∧ symbol = unit.instanceSymbol := by
  have old : c.graph.targetsOf c.graph.nextId = [] := by simp [Graph.targetsOf, Graph.node?_nextId]
  have apart : c.graph.nextId ≠ consumer := Nat.ne_of_gt bindable.consumer_lt
  have drawn := joined.reads bindable.edge
  rw [rewires.targets]
  split
  next here => simp [here, old, apart]
  next elsewhere =>
      split
      next here =>
          subst here
          simp only [List.mem_map, elsewhere, or_false, true_and]
          constructor
          · rintro ⟨target, member, rfl⟩
            split
            · exact .inr rfl
            next other => exact .inl ⟨member, other⟩
          · rintro (⟨member, other⟩ | rfl)
            · exact ⟨symbol, member, if_neg other⟩
            · exact ⟨unit.symbol, drawn, if_pos rfl⟩
      next other => simp [elsewhere, other]

theorem kind?_of_known {symbol : Symbol} (known : c.graph.kind? symbol ≠ none) :
    d.graph.kind? symbol = c.graph.kind? symbol := by
  rw [rewires.kinds, if_neg]
  rintro ⟨new, rfl⟩
  exact known (bindable.fresh new)

theorem isMagic_of_known {symbol : Symbol} (known : c.graph.kind? symbol ≠ none) :
    d.graph.isMagic symbol = c.graph.isMagic symbol := by
  rw [Graph.isMagic, rewires.kind?_of_known bindable known, Graph.isMagic]

theorem isMagic_own (joined : c.graph.Joined) : d.graph.isMagic unit.instanceSymbol := by
  cases found : c.tails[unit.instanceSymbol]? with
  | none => simp [Graph.isMagic, rewires.kinds, found]
  | some previous =>
      obtain ⟨maker, edge, factory⟩ := bindable.tail found
      have magic := (joined.drawn edge factory).1
      rw [rewires.isMagic_of_known bindable (Graph.known_of_isMagic magic)]
      exact magic

/-! ## Joined graphs stay joined -/

theorem distinct (joined : c.graph.Joined) (n : NodeId) : (d.graph.targetsOf n).Nodup := by
  rw [rewires.targets]
  split
  · exact List.pairwise_singleton _ _
  · split
    next here =>
        subst here
        apply List.Nodup.map_on _ (joined.distinct n)
        intro a first b second same
        have absent := bindable.absent
        grind
    · exact joined.distinct n

theorem single (joined : c.graph.Joined) (n : NodeId) : ((d.graph.producers n).map (·.symbol)).Nodup := by
  rw [rewires.producers]
  split
  · cases c.tails[unit.instanceSymbol]? with
    | none => exact .nil
    | some previous => exact List.pairwise_singleton _ _
  · split
    next here =>
        subst here
        rw [List.map_append, List.nodup_append]
        refine ⟨(joined.single n).sublist (List.filter_sublist.map _), List.pairwise_singleton _ _, ?_⟩
        intro symbol first own last same
        obtain ⟨edge, member, rfl⟩ := List.mem_map.mp first
        have reads := joined.reads (List.mem_of_mem_filter member)
        rw [same, List.mem_singleton.mp last] at reads
        exact bindable.absent reads
    · exact joined.single n

theorem mirrored (joined : c.graph.Joined) {symbol : Symbol} {id n : NodeId} :
    ⟨symbol, n⟩ ∈ d.graph.consumers id ↔ ⟨symbol, id⟩ ∈ d.graph.producers n := by
  have once : ∀ {id}, ⟨unit.symbol, id⟩ ∈ c.graph.producers consumer → id = source :=
    fun member => joined.producer_unique member bindable.edge
  have inside : ∀ {id}, c.tails[unit.instanceSymbol]? = some id → id ≤ c.graph.nextId := by
    intro id found
    have alive := (bindable.previous_operation joined found).2.1
    exact Nat.le_of_lt ((Graph.mem_liveIds joined.numbered).mp alive).1
  rw [rewires.consumers, rewires.mem_producers bindable, joined.mirrored]
  simp only [Edge.mk.injEq]
  constructor
  · rintro (⟨old, kept⟩ | ⟨found, _, rfl, rfl⟩ | ⟨rfl, rfl, rfl⟩)
    · refine .inl ⟨old, ?_⟩
      rintro ⟨rfl, rfl⟩
      exact kept ⟨once old, rfl, rfl⟩
    · exact .inr (.inr ⟨rfl, rfl, found⟩)
    · exact .inr (.inl ⟨rfl, rfl, rfl⟩)
  · rintro (⟨old, kept⟩ | ⟨rfl, rfl, rfl⟩ | ⟨rfl, rfl, found⟩)
    · refine .inl ⟨old, ?_⟩
      rintro ⟨_, rfl, rfl⟩
      exact kept ⟨rfl, rfl⟩
    · exact .inr (.inr ⟨rfl, rfl, rfl⟩)
    · exact .inr (.inl ⟨found, inside found, rfl, rfl⟩)

theorem joined (joined : c.graph.Joined) (numbered : d.graph.Numbered) : d.graph.Joined where
  numbered := numbered
  distinct := rewires.distinct bindable joined
  known := by
    intro id symbol member
    rcases (rewires.mem_targets bindable joined).mp member with ⟨old, _⟩ | ⟨_, rfl⟩
    · rw [rewires.kind?_of_known bindable (joined.known old)]
      exact joined.known old
    · exact Graph.known_of_isMagic (rewires.isMagic_own bindable joined)
  mirrored := rewires.mirrored bindable joined
  consumersNodup := fun n => rewires.nodup (joined.consumersNodup n)
  single := rewires.single bindable joined
  reads := by
    intro id edge member
    apply (rewires.mem_targets bindable joined).mpr
    rcases (rewires.mem_producers bindable).mp member with ⟨old, kept⟩ | ⟨rfl, rfl⟩ | ⟨rfl, own, _⟩
    · exact .inl ⟨joined.reads old, kept⟩
    · exact .inr ⟨.inl rfl, rfl⟩
    · exact .inr ⟨.inr rfl, own⟩
  drawn := by
    intro id edge member factory
    rcases (rewires.mem_producers bindable).mp member with ⟨old, _⟩ | ⟨rfl, rfl⟩ | ⟨rfl, _, found⟩
    · rw [rewires.isFactory_of_live joined (joined.producer_live old)] at factory
      obtain ⟨magic, operation⟩ := joined.drawn old factory
      rw [rewires.isMagic_of_known bindable (Graph.known_of_isMagic magic),
        rewires.isFactory_of_live joined (joined.reader_live old)]
      exact ⟨magic, operation⟩
    · rw [rewires.isFactory_of_live joined (joined.reader_live bindable.edge)]
      exact ⟨rewires.isMagic_own bindable joined, bindable.operation joined⟩
    · -- a refill waits for an operation
      obtain ⟨operation, alive, _⟩ := bindable.previous_operation joined found
      rw [rewires.isFactory_of_live joined alive, operation] at factory
      cases factory
  makes := by
    intro id symbol factory member
    rcases (rewires.mem_targets bindable joined).mp member with ⟨old, _⟩ | ⟨_, rfl⟩
    · rw [rewires.isMagic_of_known bindable (joined.known old)]
      obtain ⟨node, found⟩ := Graph.exists_node?_of_mem_targetsOf old
      rw [rewires.isFactory, if_neg (Nat.ne_of_lt (Graph.lt_nextId found))] at factory
      exact joined.makes factory old
    · exact rewires.isMagic_own bindable joined
  serial := by
    intro symbol older id below first second exclusive
    have other : symbol ≠ unit.instanceSymbol := by
      rintro rfl
      rw [rewires.isMagic_own bindable joined] at exclusive
      cases exclusive
    have shared : symbol ≠ unit.symbol := by
      rintro rfl
      have magic := bindable.magic joined
      rw [rewires.isMagic_of_known bindable (Graph.known_of_isMagic magic), magic] at exclusive
      cases exclusive
    have same : ∀ n, symbol ∈ d.graph.targetsOf n ↔ symbol ∈ c.graph.targetsOf n := by
      intro n
      rw [rewires.mem_targets bindable joined]
      simp [other, shared]
    rw [same] at first second
    rw [rewires.isMagic_of_known bindable (joined.known first)] at exclusive
    obtain ⟨writer, edge, between, before, acts⟩ := joined.serial below first second exclusive
    refine ⟨writer, (rewires.mem_producers bindable).mpr (.inl ⟨edge, ?_⟩), between, before, (same writer).mpr acts⟩
    exact fun here => shared here.2
  sources := rewires.keeps_sources (bindable.operation joined) joined.sources
  retired := by
    intro id
    have alive : ∀ {n}, n ∈ c.graph.liveIds → c.graph.isRetired n = false :=
      fun member => ((Graph.mem_liveIds joined.numbered).mp member).2
    have tail : ∀ {previous}, c.tails[unit.instanceSymbol]? = some previous → c.graph.isRetired previous = false :=
      fun found => alive (bindable.previous_operation joined found).2.1
    exact rewires.keeps_retired (alive (joined.reader_live bindable.edge)) tail joined.retired

end Rewires

end Chaining

/-! ## Retiring sources -/

namespace Graph

theorem kinds_retireSource (acc : List NodeId × Graph) (symbol : Symbol) :
    (retireSource acc symbol).2.kinds = acc.2.kinds := by
  unfold retireSource
  split
  · rfl
  · dsimp only
    split <;> rfl

theorem kinds_retireAll (g : Graph) (symbols : List Symbol) : (g.retireAll symbols).2.kinds = g.kinds := by
  unfold retireAll
  generalize sortBy _ symbols = sorted
  suffices ∀ acc : List NodeId × Graph, (sorted.foldl retireSource acc).2.kinds = acc.2.kinds from this ([], g)
  induction sorted with
  | nil => exact fun _ => rfl
  | cons symbol sorted ih => exact fun acc => (ih _).trans (kinds_retireSource acc symbol)

namespace Retires

variable {g h : Graph} {symbols : List Symbol} {retired : List NodeId} (retires : g.Retires symbols retired h)
include retires

theorem targetsOf (n : NodeId) : h.targetsOf n = g.targetsOf n := by
  rw [targetsOf_eq_stem, retires.stem?, targetsOf_eq_stem]
  cases g.stem? n <;> rfl

theorem producers (n : NodeId) : h.producers n = g.producers n := by
  rw [producers_eq_stem, retires.stem?, producers_eq_stem]
  cases g.stem? n <;> rfl

theorem isFactory (n : NodeId) : h.isFactory n = g.isFactory n := by
  rw [isFactory_eq_stem, retires.stem?, isFactory_eq_stem]
  cases g.stem? n <;> rfl

theorem of_isRetired {n : NodeId} (out : h.isRetired n) : g.isRetired n ∨ ∃ symbol, g.spent n symbol := by
  rw [isRetired_eq_stem, retires.stem?] at out
  rw [isRetired_eq_stem]
  cases found : g.stem? n with
  | none => simp [found] at out
  | some node =>
      simp only [found, Option.map_some, Option.any_some, Bool.or_eq_true, List.any_eq_true] at out
      rcases out with old | ⟨symbol, _, spent⟩
      · exact .inl old
      · exact .inr ⟨symbol, spent⟩

theorem joined (joined : g.Joined) (numbered : h.Numbered) (kinds : h.kinds = g.kinds) : h.Joined := by
  have magic : ∀ symbol, h.isMagic symbol = g.isMagic symbol := fun symbol => by rw [isMagic, kind?, kinds]; rfl
  have known : ∀ symbol, h.kind? symbol = g.kind? symbol := fun symbol => by rw [kind?, kinds]; rfl
  constructor
  case numbered => exact numbered
  case distinct => simpa only [retires.targetsOf] using joined.distinct
  case known => simpa only [retires.targetsOf, known] using @joined.known
  case mirrored => simpa only [retires.consumers, retires.producers] using @joined.mirrored
  case consumersNodup => simpa only [retires.consumers] using joined.consumersNodup
  case single => simpa only [retires.producers] using joined.single
  case reads => simpa only [retires.producers, retires.targetsOf] using @joined.reads
  case drawn => simpa only [retires.producers, retires.isFactory, magic] using @joined.drawn
  case makes => simpa only [retires.targetsOf, retires.isFactory, magic] using @joined.makes
  case serial => simpa only [retires.producers, retires.targetsOf, magic] using @joined.serial
  case sources =>
    intro symbol id source
    rw [retires.sources] at source
    split at source
    · cases source
    · rw [retires.isFactory, retires.producers]
      exact joined.sources source
  case retired =>
    intro id out
    rw [retires.consumers, retires.producers]
    rcases retires.of_isRetired out with old | ⟨symbol, spent⟩
    · exact joined.retired old
    · simp only [Graph.spent, Bool.and_eq_true, beq_iff_eq, List.isEmpty_iff] at spent
      exact ⟨spent.2, (joined.sources spent.1).2⟩

end Retires

end Graph

end LatticeSurgery
