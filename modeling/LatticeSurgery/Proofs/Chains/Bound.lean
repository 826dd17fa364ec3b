import LatticeSurgery.Proofs.Chains.Binding

/-! # Bound graphs

The graph in which a list of services has been bound, described by the list and the graph before. Every
service bound adds one link to one instance, and the description follows along.
-/

namespace LatticeSurgery

open Service

/-- A graph `g` in which services have been bound. -/
structure Bound (g : Graph) (served : List (NodeId × Draw)) (c : Chaining) : Prop where
  size : c.graph.nextId = g.nextId + served.length
  original : ∀ id node, g.stem? id = some node → c.graph.stem? id = some (rebound g.nextId served node)
  made : ∀ own (i : Nat) link, (links g.nextId served own)[i]? = some link →
    c.graph.stem? link.producer
        = some (link.maker own (((links g.nextId served own).take i).getLast?.map (·.consumer))) ∧
      c.graph.consumers link.producer = [⟨own, link.consumer⟩]
  freed : ∀ (symbol : Symbol) source, g.sources[symbol]? = some source →
    c.graph.consumers source = (g.consumers source).filter fun edge => !drew served edge.node edge.symbol
  sources : ∀ symbol : Symbol, c.graph.sources[symbol]?
    = ((links g.nextId served symbol).head?.map (·.producer)).or g.sources[symbol]?
  tails : ∀ own : Symbol, c.tails[own]? = (links g.nextId served own).getLast?.map (·.consumer)
  shared : ∀ symbol, symbol ∈ c.shared ↔ ∃ entry ∈ served, entry.2.symbol = symbol
  roots : ∀ id, id ∈ c.roots ↔ ∃ own, (links g.nextId served own).head?.map (·.producer) = some id
  refills : ∀ id, id ∈ c.refills ↔ ∃ own, id ∈ (links g.nextId served own).tail.map (·.producer)
  numbers : (c.roots ++ c.refills).Perm (List.range' g.nextId served.length)

namespace Bound

variable {g : Graph} {served : List (NodeId × Draw)} {c d : Chaining} {consumer source : NodeId} {unit : Draw}

theorem start (g : Graph) : Bound g [] { graph := g } := by
  have names : ∀ id, nameFor [] id = fun symbol => symbol := fun id => rfl
  constructor
  case original =>
    intro id node found
    rw [found]
    simp [rebound, names, drew, edgesOf]
  case freed => simp [drew]
  all_goals simp [links]

/-! ## One more link -/

/-- The source that loses a consumer is the shared source of the state. -/
theorem source_eq (bound : Bound g served c) (wired : g.Wired) (apart : Apart g served)
    (magic : g.isMagic unit.symbol) {node : Node} (known : g.node? consumer = some node)
    (read : (c.graph.node? consumer).bind (·.producer? unit.symbol) = some source) :
    g.sources[unit.symbol]? = some source := by
  obtain ⟨now, found, read⟩ := Option.bind_eq_some_iff.mp read
  obtain ⟨edge, first, rfl⟩ := Option.map_eq_some_iff.mp read
  have named : edge.symbol = unit.symbol := by simpa using List.find?_some first
  have member : edge ∈ now.stem.producers := List.mem_of_find?_eq_some first
  have same := bound.original consumer node.stem (Graph.stem?_of_node? known)
  rw [Graph.stem?_of_node? found] at same
  rw [Option.some.inj same] at member
  rcases List.mem_append.mp member with old | new
  · have inside : edge ∈ g.producers consumer := by
      rw [Graph.producers_of_node? known]
      exact (List.mem_filter.mp old).1
    obtain ⟨_, ⟨_, _, source⟩ | ⟨exclusive, _⟩⟩ := wired.edge_cases inside
    · exact named ▸ source
    · rw [named, magic] at exclusive
      cases exclusive
  · obtain ⟨entry, inside, same⟩ := instance_of_mem_edgesOf new
    exact absurd (same.trans named) (apart.ne magic entry inside)

section Step

variable (bound : Bound g served c)
  (operations : ∀ id unit, (id, unit) ∈ served → ∃ node, g.node? id = some node ∧ node.isFactory = false)
include bound operations

theorem tail_cases {own : Symbol} {previous : NodeId} (h : c.tails[own]? = some previous) :
    ∃ node, g.node? previous = some node ∧ node.isFactory = false := by
  rw [bound.tails] at h
  obtain ⟨link, last, rfl⟩ := Option.map_eq_some_iff.mp h
  obtain ⟨unit, member⟩ := consumer_mem (List.mem_of_getLast? last)
  exact operations link.consumer unit member

theorem made_bind {node : Node} (known : g.node? consumer = some node) (binds : c.Binds consumer source unit d)
    (shared : g.sources[unit.symbol]? = some source) (wired : g.Wired) {own : Symbol} {i : Nat} {link : Link}
    (found : (links g.nextId (served ++ [(consumer, unit)]) own)[i]? = some link) :
    d.graph.stem? link.producer
        = some (link.maker own
          (((links g.nextId (served ++ [(consumer, unit)]) own).take i).getLast?.map (·.consumer))) ∧
      d.graph.consumers link.producer = [⟨own, link.consumer⟩] := by
  have below : ∀ {id : NodeId}, c.tails[unit.instanceSymbol]? = some id → id < g.nextId := fun h => by
    obtain ⟨node, known, _⟩ := bound.tail_cases operations h
    exact Graph.lt_nextId known
  have size := bound.size
  rw [links_append] at found ⊢
  rcases Nat.lt_or_ge i (links g.nextId served own).length with old | new
  · rw [List.getElem?_append_left old] at found
    rw [List.take_append_of_le_length (Nat.le_of_lt old)]
    obtain ⟨above, upper⟩ := producer_lt (List.mem_of_getElem? found)
    obtain ⟨stem, consumers⟩ := bound.made own i link found
    have consumerBelow := Graph.lt_nextId known
    have sourceBelow : source < g.nextId := by
      obtain ⟨origin, there, _⟩ := Option.map_eq_some_iff.mp (wired.source shared)
      exact Graph.lt_nextId there
    constructor
    · rw [binds.stem? _ (by lia) (by lia), stem]
    · rw [binds.consumers _ (by lia) (fun tail => by have := below tail; lia), if_neg (by lia), consumers]
  · rw [List.getElem?_append_right new] at found
    split at found
    next named =>
        subst named
        have last : i = (links g.nextId served unit.instanceSymbol).length := by
          have inside := (List.getElem?_eq_some_iff.mp found).1
          simp at inside
          omega
        subst last
        simp only [Nat.sub_self, List.getElem?_cons_zero, Option.some.injEq] at found
        subst found
        rw [if_pos rfl, List.take_left, ← bound.tails, ← size]
        refine ⟨binds.made, binds.feeds fun tail => ?_⟩
        have := below tail
        lia
    · simp at found

theorem freed_bind (binds : c.Binds consumer source unit d) (wired : g.Wired)
    (shared : g.sources[unit.symbol]? = some source) {symbol : Symbol} {other : NodeId}
    (origin : g.sources[symbol]? = some other) :
    d.graph.consumers other
      = (g.consumers other).filter fun edge => !drew (served ++ [(consumer, unit)]) edge.node edge.symbol := by
  obtain ⟨node, known, _⟩ := Option.map_eq_some_iff.mp (wired.source origin)
  have size := bound.size
  have inside := Graph.lt_nextId known
  have untouched : c.tails[unit.instanceSymbol]? ≠ some other := by
    intro tail
    obtain ⟨node', known', operation⟩ := bound.tail_cases operations tail
    rw [known] at known'
    obtain rfl := Option.some.inj known'
    rw [(wired.isFactory_of_magic origin known).1] at operation
    cases operation
  rw [binds.consumers other (by lia) untouched, bound.freed symbol other origin]
  simp only [drew_append, Bool.not_or]
  split
  · rw [List.filter_filter]
    apply List.filter_congr
    rintro ⟨name, reader⟩ _
    have same : ((⟨name, reader⟩ : Edge) != ⟨unit.symbol, consumer⟩)
        = !(consumer == reader && unit.symbol == name) := by grind
    rw [same, Bool.and_comm]
  next elsewhere =>
      apply List.filter_congr
      rintro ⟨name, reader⟩ member
      have apart : (consumer == reader && unit.symbol == name) = false := by
        by_contra same
        simp only [Bool.not_eq_false, Bool.and_eq_true, beq_iff_eq] at same
        obtain ⟨rfl, rfl⟩ := same
        have inside := wired.consumers.mp member
        obtain ⟨_, ⟨_, _, there⟩ | ⟨exclusive, _⟩⟩ := wired.edge_cases inside
        · exact elsewhere (Option.some.inj (there.symm.trans shared))
        · rw [(wired.isMagic_of_source shared).1] at exclusive
          cases exclusive
      simp [apart]

end Step

/-- Where the first links of the instances, and the later ones, are listed. -/
theorem listed_bind (bound : Bound g served c) (binds : c.Binds consumer source unit d) :
    (∀ id, id ∈ d.roots ↔
      ∃ own, (links g.nextId (served ++ [(consumer, unit)]) own).head?.map (·.producer) = some id) ∧
    (∀ id, id ∈ d.refills ↔
      ∃ own, id ∈ (links g.nextId (served ++ [(consumer, unit)]) own).tail.map (·.producer)) ∧
    (d.roots ++ d.refills).Perm (List.range' g.nextId (served.length + 1)) := by
  have size := bound.size
  have numbers := bound.numbers
  have range : List.range' g.nextId (served.length + 1)
      = List.range' g.nextId served.length ++ [c.graph.nextId] := by
    rw [List.range'_concat, Nat.one_mul, size]
  rcases binds.listed with ⟨none, roots, refills⟩ | ⟨⟨previous, some⟩, roots, refills⟩
  · -- the first link of its instance
    have empty : links g.nextId served unit.instanceSymbol = [] := by
      rw [bound.tails, Option.map_eq_none_iff] at none
      exact List.getLast?_eq_none_iff.mp none
    refine ⟨fun id => ?_, fun id => ?_, ?_⟩
    · rw [exists_head_append, roots, List.mem_append, List.mem_singleton, bound.roots, size]
      simp [empty]
    · rw [exists_tail_append, refills, bound.refills]
      simp [empty]
    · rw [roots, refills, range, List.append_assoc]
      exact ((List.perm_append_comm).append_left c.roots).trans
        (by rw [← List.append_assoc]; exact numbers.append_right _)
  · -- a later link
    have filled : links g.nextId served unit.instanceSymbol ≠ [] := by
      intro empty
      rw [bound.tails, empty] at some
      cases some
    refine ⟨fun id => ?_, fun id => ?_, ?_⟩
    · rw [exists_head_append, roots, bound.roots]
      simp [filled]
    · rw [exists_tail_append, refills, List.mem_append, List.mem_singleton, bound.refills, size]
      simp [filled]
    · rw [roots, refills, range, ← List.append_assoc]
      exact numbers.append_right _

theorem bind (bound : Bound g served c) (wired : g.Wired)
    (operations : ∀ id unit, (id, unit) ∈ served → ∃ node, g.node? id = some node ∧ node.isFactory = false)
    {node : Node} (known : g.node? consumer = some node) (drawn : unit.symbol ∈ g.drawn node)
    (fresh : drew served consumer unit.symbol = false) (apart : Apart g served)
    (h : c.bind consumer unit = .ok d) : Bound g (served ++ [(consumer, unit)]) d := by
  obtain ⟨source, binds⟩ := Chaining.binds_of_bind h
  have magic := Graph.isMagic_of_mem_drawn drawn
  have shared := bound.source_eq wired apart magic known binds.edge
  have size := bound.size
  obtain ⟨roots, refills, numbers⟩ := bound.listed_bind binds
  constructor
  case size => rw [binds.size, size, List.length_append, Nat.add_assoc]; rfl
  case original =>
    intro id node found
    have named := wired.numbered found
    obtain ⟨now, known, _⟩ := Option.map_eq_some_iff.mp found
    have inside := Graph.lt_nextId known
    have before := bound.original id node found
    by_cases here : consumer = id
    · subst here
      rw [binds.redirected, before, rebound_append_of_eq named.symm (apart.ne magic) fresh, size]
      rfl
    · rw [binds.stem? id (by lia) (Ne.symm here), before, rebound_append_of_ne (by rwa [named])]
  case made => exact fun own i link => bound.made_bind operations known binds shared wired
  case freed => exact fun symbol other => bound.freed_bind operations binds wired shared
  case sources =>
    intro symbol
    rw [binds.sources, bound.sources, bound.tails, links_append]
    by_cases same : unit.instanceSymbol = symbol
    · subst same
      cases links g.nextId served unit.instanceSymbol with
      | nil => simp [size]
      | cons head rest => simp
    · rw [if_neg (fun both => same both.2.symm), if_neg same, List.append_nil]
  case tails =>
    intro own
    rw [binds.tails, Std.ExtTreeMap.getElem?_insert, links_append]
    simp only [Std.compare_eq_iff_eq]
    split
    · simp
    · rw [bound.tails, List.append_nil]
  case shared =>
    intro symbol
    rw [binds.shared, mem_appendNew, bound.shared]
    simp [or_and_right, exists_or, eq_comm]
  case roots => exact roots
  case refills => exact refills
  case numbers => rw [List.length_append]; exact numbers

theorem bindAll_of_apart {rest : List (NodeId × Draw)} {units : List Draw} (wired : g.Wired)
    (apart : Apart g (served ++ rest)) (serves : g.Serves units (served ++ rest))
    (bound : Bound g served c) (h : c.bindAll rest = .ok d) : Bound g (served ++ rest) d := by
  induction rest generalizing served c with
  | nil =>
      cases h
      rwa [List.append_nil]
  | cons entry rest ih =>
      obtain ⟨consumer, unit⟩ := entry
      obtain ⟨next, first, h⟩ := bind_eq_ok.mp h
      have member : (consumer, unit) ∈ served ++ (consumer, unit) :: rest := by simp
      obtain ⟨_, node, known, _, drawn⟩ := serves.members consumer unit member
      have operations : ∀ id unit, (id, unit) ∈ served → ∃ node, g.node? id = some node ∧ node.isFactory = false := by
        intro id unit member
        obtain ⟨_, node, known, operation, _⟩ := serves.members id unit (List.mem_append_left _ member)
        exact ⟨node, known, operation⟩
      have fresh : drew served consumer unit.symbol = false := by
        have distinct := serves.distinct
        rw [List.map_append] at distinct
        obtain ⟨_, _, apart⟩ := List.nodup_append.mp distinct
        refine List.any_eq_false.mpr fun other member same => ?_
        simp only [Bool.and_eq_true, beq_iff_eq] at same
        exact apart _ (List.mem_map_of_mem member) (consumer, unit.symbol) (by simp) (Prod.ext same.1 same.2)
      have earlier : Apart g served := fun entry member => apart entry (List.mem_append_left _ member)
      have bound := bound.bind wired operations known drawn fresh earlier first
      rw [← List.singleton_append, ← List.append_assoc] at serves apart ⊢
      exact ih apart serves bound h

end Bound

end LatticeSurgery
