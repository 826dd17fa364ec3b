import LatticeSurgery.Proofs.Chains.Bound
import LatticeSurgery.Proofs.Graph.Produced

/-! # Retiring the shared sources

When all draws of a graph are bound, no shared source has a consumer left, and all of them are taken out.
What remains is described by the services and the graph before, up to layers and urgencies.
-/

namespace LatticeSurgery

open Service

namespace Graph

/-- Whether the source of a state is a node from which nothing is drawn. -/
def spent (g : Graph) (n : NodeId) (symbol : Symbol) : Bool :=
  g.sources[symbol]? == some n && (g.consumers n).isEmpty

/-- The effect of taking out the sources of some states. -/
structure Retires (g : Graph) (symbols : List Symbol) (retired : List NodeId) (h : Graph) : Prop where
  size : h.nextId = g.nextId
  stem? : ∀ n, h.stem? n = (g.stem? n).map fun node => { node with retired := node.retired || symbols.any (g.spent n) }
  consumers : ∀ n, h.consumers n = g.consumers n
  sources : ∀ symbol : Symbol, h.sources[symbol]? = if symbol ∈ symbols then none else g.sources[symbol]?
  listed : ∀ n, n ∈ retired ↔ symbols.any (g.spent n)

theorem retires_retireSource (ids : List NodeId) (g : Graph) (symbol : Symbol) :
    ∃ more, (retireSource (ids, g) symbol).1 = ids ++ more ∧
      g.Retires [symbol] more (retireSource (ids, g) symbol).2 := by
  unfold retireSource
  dsimp only
  split
  next none =>
      have spent : ∀ n, g.spent n symbol = false := by simp [Graph.spent, none]
      refine ⟨[], by simp, rfl, fun n => ?_, fun _ => rfl, fun other => ?_, by simp [spent]⟩
      · cases g.stem? n <;> simp [spent]
      · by_cases same : other = symbol <;> simp [same, none]
  next source some =>
      have erased : ∀ other : Symbol, (g.sources.erase symbol)[other]?
          = if other ∈ [symbol] then none else g.sources[other]? := by
        intro other
        rw [Std.ExtTreeMap.getElem?_erase]
        simp only [Std.compare_eq_iff_eq, List.mem_singleton, @eq_comm _ symbol]
      have same : ∀ n, ({ g with sources := g.sources.erase symbol } : Graph).consumers n = g.consumers n :=
        fun _ => rfl
      rw [same]
      split
      next empty =>
          have spent : ∀ n, g.spent n symbol = decide (n = source) := by
            intro n
            by_cases here : n = source
            · simp [Graph.spent, some, here, List.isEmpty_iff.mp empty]
            · simp [Graph.spent, some, here, Ne.symm here]
          refine ⟨[source], rfl, nextId_modify _ _ _, fun n => ?_, fun n => ?_, erased, by simp [spent]⟩
          · rw [stem?_modify_map (f := fun node => { node with retired := true }) (fun _ => rfl)]
            by_cases here : n = source
            · simp [here, spent]
              rfl
            · simp [here, spent]
              rfl
          · exact consumers_modify_of_eq (f := fun node => { node with retired := true }) (fun _ => rfl)
              ({ g with sources := g.sources.erase symbol }) source n
      next busy =>
          have spent : ∀ n, g.spent n symbol = false := by
            intro n
            by_cases here : n = source
            · simpa [Graph.spent, some, here] using busy
            · simp [Graph.spent, some, Ne.symm here]
          refine ⟨[], by simp, rfl, fun n => ?_, fun _ => rfl, erased, by simp [spent]⟩
          simp [spent]
          rfl

namespace Retires

variable {f g h : Graph} {symbol : Symbol} {symbols : List Symbol} {ids more retired : List NodeId}

theorem refl (g : Graph) : g.Retires [] [] g where
  size := rfl
  stem? n := by cases g.stem? n <;> simp
  consumers _ := rfl
  sources _ := by simp
  listed := by simp

/-- A state whose source is out is not looked at again. -/
theorem any_spent (first : f.Retires [symbol] ids g) (symbols : List Symbol) (n : NodeId) :
    (f.spent n symbol || symbols.any (g.spent n)) = (symbol :: symbols).any (f.spent n) := by
  have spent : ∀ other, g.spent n other = if other = symbol then false else f.spent n other := by
    intro other
    rw [Graph.spent, first.sources, first.consumers]
    by_cases same : other = symbol <;> simp [Graph.spent, same]
  rw [List.any_cons]
  cases here : f.spent n symbol with
  | true => rfl
  | false =>
      rw [Bool.false_or, Bool.false_or]
      refine congrArg symbols.any (funext fun other => ?_)
      rw [spent]
      split
      next same => rw [same, here]
      · rfl

theorem trans (first : f.Retires [symbol] ids g) (second : g.Retires symbols more h) :
    f.Retires (symbol :: symbols) (ids ++ more) h where
  size := second.size.trans first.size
  stem? n := by
    rw [second.stem?, first.stem?, Option.map_map]
    refine congrArg (Option.map · (f.stem? n)) (funext fun node => ?_)
    simp only [Function.comp_apply, List.any_cons, List.any_nil, Bool.or_false, Bool.or_assoc, first.any_spent]
  consumers n := (second.consumers n).trans (first.consumers n)
  sources other := by
    rw [second.sources, first.sources]
    by_cases same : other = symbol <;> simp [same]
  listed n := by
    rw [List.mem_append, first.listed, second.listed, ← first.any_spent symbols, List.any_cons, List.any_nil,
      Bool.or_false, Bool.or_eq_true]

theorem foldl (ids : List NodeId) (g : Graph) (symbols : List Symbol) :
    ∃ more, (symbols.foldl retireSource (ids, g)).1 = ids ++ more ∧
      g.Retires symbols more (symbols.foldl retireSource (ids, g)).2 := by
  induction symbols generalizing ids g with
  | nil => exact ⟨[], (List.append_nil ids).symm, .refl g⟩
  | cons symbol symbols ih =>
      obtain ⟨first, listed, one⟩ := retires_retireSource ids g symbol
      obtain ⟨more, rest, all⟩ := ih (retireSource (ids, g) symbol).1 (retireSource (ids, g) symbol).2
      refine ⟨first ++ more, ?_, one.trans all⟩
      rw [← List.append_assoc, ← listed]
      exact rest

theorem retireAll (g : Graph) (symbols : List Symbol) :
    g.Retires (sortBy (fun a b => (compare a b).isLE) symbols) (g.retireAll symbols).1 (g.retireAll symbols).2 := by
  obtain ⟨more, listed, all⟩ := foldl [] g (sortBy (fun a b => (compare a b).isLE) symbols)
  rw [List.nil_append] at listed
  rw [Graph.retireAll, listed]
  exact all

end Retires

end Graph

/-! ## What is left -/

/-- A graph `g` in which services have been bound and from which the shared sources are gone. -/
structure Chained (g : Graph) (served : List (NodeId × Draw)) (chains : Chains) (h : Graph) : Prop where
  size : h.nextId = g.nextId + served.length
  operation : ∀ id node, g.stem? id = some node → node.isFactory = false →
    h.stem? id = some (rebound g.nextId served node)
  source : ∀ (symbol : Symbol) id, g.sources[symbol]? = some id → h.isRetired id ∧ h.consumers id = []
  made : ∀ own (i : Nat) link, (links g.nextId served own)[i]? = some link →
    h.stem? link.producer
        = some (link.maker own (((links g.nextId served own).take i).getLast?.map (·.consumer))) ∧
      h.consumers link.producer = [⟨own, link.consumer⟩]
  sources : ∀ symbol : Symbol, h.sources[symbol]? = (links g.nextId served symbol).head?.map (·.producer)
  roots : ∀ id, id ∈ chains.roots ↔ ∃ own, (links g.nextId served own).head?.map (·.producer) = some id
  refills : ∀ id, id ∈ chains.refills ↔ ∃ own, id ∈ (links g.nextId served own).tail.map (·.producer)
  numbers : (chains.roots ++ chains.refills).Perm (List.range' g.nextId served.length)
  retired : ∀ id, id ∈ chains.retired ↔ ∃ symbol : Symbol, g.sources[symbol]? = some id

section Sources

variable {g : Graph} {units : List Draw} {served : List (NodeId × Draw)} {c : Chaining} {symbol : Symbol}
  {source id : NodeId}

/-- Whatever is read from a shared source has been served. -/
theorem Graph.Serves.drew_of_consumer (serves : g.Serves units served) (wired : g.Wired)
    (known : g.sources[symbol]? = some source) {edge : Edge} (reads : edge ∈ g.consumers source) :
    edge.symbol = symbol ∧ drew served edge.node edge.symbol := by
  obtain ⟨state, consumer⟩ := edge
  have member : ⟨state, source⟩ ∈ g.producers consumer := wired.consumers.mp reads
  obtain ⟨node, found⟩ := Graph.exists_node?_of_mem_producers member
  have inside := Graph.producers_of_node? found ▸ member
  have origin := wired.source known
  have factory : g.isFactory source := by
    rw [Graph.isFactory_eq_stem, origin]
    rfl
  obtain ⟨_, ⟨_, _, same⟩ | ⟨_, operation, _⟩⟩ := wired.edge_cases member
  · have states := wired.source same
    rw [origin] at states
    have draws : state ∈ g.drawn node := by
      refine List.mem_map.mpr ⟨⟨state, source⟩, List.mem_filter.mpr ⟨inside, ?_⟩, rfl⟩
      rw [wired.joined.isDraw_eq member]
      exact factory
    obtain rfl := wired.id_eq found
    obtain ⟨unit, served, named⟩ := serves.complete node (wired.mem_live.mpr found) state draws
    refine ⟨?_, List.any_eq_true.mpr ⟨_, served, by simp [named]⟩⟩
    simpa [Graph.sourceNode, eq_comm] using states
  · rw [factory] at operation
    cases operation

section

variable (bound : Bound g served c) (serves : g.Serves units served) (wired : g.Wired) (apart : Apart g served)
include bound wired apart

theorem Bound.sources_of_source (known : g.sources[symbol]? = some source) :
    c.graph.sources[symbol]? = some source := by
  rw [bound.sources, links_eq_nil (apart.ne (wired.isMagic_of_source known).1), known]
  rfl

include serves

omit apart in
theorem Bound.consumers_of_source (known : g.sources[symbol]? = some source) : c.graph.consumers source = [] := by
  rw [bound.freed symbol source known]
  refine List.filter_eq_nil_iff.mpr fun edge reads => ?_
  simp [(serves.drew_of_consumer wired known reads).2]

variable (fed : ∀ (symbol : Symbol) id, g.sources[symbol]? = some id → g.consumers id ≠ [])
include fed

omit apart in
theorem Bound.mem_shared : symbol ∈ c.shared ↔ ∃ source, g.sources[symbol]? = some source := by
  rw [bound.shared]
  constructor
  · rintro ⟨⟨id, unit⟩, member, rfl⟩
    obtain ⟨_, node, _, _, draws⟩ := serves.members id unit member
    exact wired.supplied.mp (beq_iff_eq.mp (Graph.isMagic_of_mem_drawn draws))
  · rintro ⟨source, known⟩
    obtain ⟨edge, reads⟩ := List.exists_mem_of_ne_nil _ (fed symbol source known)
    obtain ⟨rfl, drew⟩ := serves.drew_of_consumer wired known reads
    obtain ⟨unit, member, named, _⟩ := exists_of_drew drew
    exact ⟨_, member, named⟩

/-- The sources that fall out are the shared ones. -/
theorem Bound.any_spent : (sortBy (fun a b => (compare a b).isLE) c.shared).any (c.graph.spent id) ↔
    ∃ symbol : Symbol, g.sources[symbol]? = some id := by
  simp only [List.any_eq_true, mem_sortBy, bound.mem_shared serves wired fed]
  constructor
  · rintro ⟨symbol, ⟨source, known⟩, spent⟩
    rw [Graph.spent, bound.sources_of_source wired apart known] at spent
    have here : source = id := Option.some.inj (beq_iff_eq.mp (Bool.and_eq_true _ _ ▸ spent).1)
    exact ⟨symbol, here ▸ known⟩
  · rintro ⟨symbol, known⟩
    refine ⟨symbol, ⟨id, known⟩, ?_⟩
    rw [Graph.spent, bound.sources_of_source wired apart known,
      bound.consumers_of_source serves wired known]
    simp

theorem Bound.chained_of_apart {h : Graph} (layered : (c.graph.retireAll c.shared).2.relayer = .ok h) (plan : Plan) :
    Chained g served
      { roots := c.roots, refills := c.refills, retired := (c.graph.retireAll c.shared).1, plan } h := by
  have alike := Graph.alike_of_relayer layered
  have retires := Graph.Retires.retireAll c.graph c.shared
  have spent : ∀ id, _ ↔ ∃ symbol : Symbol, g.sources[symbol]? = some id :=
    fun _ => bound.any_spent serves wired apart fed
  have kept : ∀ id, (∀ symbol : Symbol, g.sources[symbol]? ≠ some id) → h.stem? id = c.graph.stem? id := by
    intro id other
    have busy := Bool.eq_false_iff.mpr fun out =>
      have ⟨symbol, known⟩ := (spent id).mp out
      other symbol known
    rw [alike.stem?, retires.stem?, busy]
    cases c.graph.stem? id <;> simp
  have consumers : ∀ id, h.consumers id = c.graph.consumers id := fun id => by
    rw [alike.consumers, retires.consumers]
  constructor
  case size => rw [alike.size, retires.size, bound.size]
  case operation =>
    intro id node found operation
    rw [kept, bound.original id node found]
    intro symbol known
    rw [wired.source known] at found
    cases found
    cases operation
  case source =>
    intro symbol id known
    constructor
    · have origin := bound.original id _ (wired.source known)
      have now := alike.stem? id
      rw [retires.stem?, (spent id).mpr ⟨symbol, known⟩, origin] at now
      obtain ⟨node, found, stem⟩ := Option.map_eq_some_iff.mp now
      have retired : node.retired := by
        change node.stem.retired
        rw [stem]
        simp
      simp [Graph.isRetired, found, retired]
    · rw [consumers, bound.consumers_of_source serves wired known]
  case made =>
    intro own i link found
    obtain ⟨stem, reader⟩ := bound.made own i link found
    rw [consumers, reader, kept, stem]
    · exact ⟨rfl, rfl⟩
    · intro symbol known
      obtain ⟨_, there, _⟩ := Option.map_eq_some_iff.mp (wired.source known)
      have below := Graph.lt_nextId there
      have above := (producer_lt (List.mem_of_getElem? found)).1
      lia
  case sources =>
    intro symbol
    have retired := retires.sources symbol
    rw [← alike.sources] at retired
    rw [retired, bound.sources]
    have shared : symbol ∈ sortBy (fun a b => (compare a b).isLE) c.shared ↔
        ∃ source, g.sources[symbol]? = some source :=
      mem_sortBy.trans (bound.mem_shared serves wired fed)
    cases known : g.sources[symbol]? with
    | none =>
        have unshared : symbol ∉ sortBy (fun a b => (compare a b).isLE) c.shared := by
          rw [shared, known]
          simp
        rw [if_neg unshared, Option.or_none]
    | some source =>
        rw [if_pos (shared.mpr ⟨source, known⟩), links_eq_nil (apart.ne (wired.isMagic_of_source known).1)]
        rfl
  case roots => exact bound.roots
  case refills => exact bound.refills
  case numbers => exact bound.numbers
  case retired => exact fun id => (retires.listed id).trans (spent id)

end

end Sources

end LatticeSurgery
