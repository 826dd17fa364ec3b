import LatticeSurgery.Proofs.Chains.Links

/-! # Binding one draw

What binding a draw does to the chains under construction: it adds the node that makes the unit, makes
the consumer read from there, and takes the consumer off the shared source.
-/

namespace LatticeSurgery

namespace Graph

theorem stem?_modify_map {f : Node → Node} (keeps : ∀ node, (f node).stem = f node.stem) (g : Graph)
    (id n : NodeId) : (g.modify id f).stem? n = if n = id then (g.stem? n).map f else g.stem? n := by
  simp only [stem?, node?_modify]
  split
  · cases g.node? n <;> simp [keeps]
  · rfl

theorem consumers_nextId (g : Graph) : g.consumers g.nextId = [] := by
  simp [consumers, node?_nextId]

theorem consumers_addConsumer {g : Graph} {id : NodeId} {edge : Edge} (inside : id < g.nextId)
    (none : g.consumers id = []) : (g.modify id (·.addConsumer edge)).consumers id = [edge] := by
  obtain ⟨node, found⟩ := lt_nextId_iff.mp inside
  have empty : node.consumers = [] := by simpa [consumers, found] using none
  simp [consumers_modify, found, Node.addConsumer, empty]

theorem consumers_modify_filter (g : Graph) (id n : NodeId) (keep : Edge → Bool) :
    (g.modify id fun node => { node with consumers := node.consumers.filter keep }).consumers n
      = if n = id then (g.consumers n).filter keep else g.consumers n := by
  rw [consumers_modify]
  split
  · cases found : g.node? n <;> simp [consumers, found]
  · rfl

end Graph

namespace Chaining

variable {c d : Chaining} {consumer source : NodeId} {unit : Draw}

/-! ## What binding one service does -/

/-- The effect of adding the producer of a unit. -/
structure Produces (c : Chaining) (unit : Draw) (d : Chaining) : Prop where
  size : d.graph.nextId = c.graph.nextId + 1
  stem? : ∀ n, d.graph.stem? n = if n = c.graph.nextId
    then some (Link.maker unit.instanceSymbol c.tails[unit.instanceSymbol]? ⟨c.graph.nextId, n, unit.period⟩)
    else c.graph.stem? n
  consumers : ∀ n, c.tails[unit.instanceSymbol]? ≠ some n → d.graph.consumers n = c.graph.consumers n
  sources : ∀ symbol : Symbol, d.graph.sources[symbol]? =
    if c.tails[unit.instanceSymbol]? = none ∧ symbol = unit.instanceSymbol then some c.graph.nextId
    else c.graph.sources[symbol]?
  tails : d.tails = c.tails
  shared : d.shared = c.shared
  listed : c.tails[unit.instanceSymbol]? = none ∧ d.roots = c.roots ++ [c.graph.nextId] ∧ d.refills = c.refills ∨
    (∃ previous, c.tails[unit.instanceSymbol]? = some previous) ∧ d.roots = c.roots ∧
      d.refills = c.refills ++ [c.graph.nextId]

theorem produce_fst (c : Chaining) (unit : Draw) : (c.produce unit).1 = c.graph.nextId := by
  unfold produce
  dsimp only
  split <;> rfl

theorem produces_produce (c : Chaining) (unit : Draw) : c.Produces unit (c.produce unit).2 := by
  unfold produce
  dsimp only
  split
  next fresh =>
      constructor
      case size => exact Graph.nextId_push _ _
      case stem? =>
        intro n
        rw [Graph.stem?_push, fresh]
        rfl
      case consumers =>
        intro n _
        rw [Graph.consumers_push]
        split
        next here =>
            rw [here]
            exact (Graph.consumers_nextId c.graph).symm
        · rfl
      case sources =>
        intro symbol
        refine (Std.ExtTreeMap.getElem?_insert ..).trans ?_
        simp only [Std.compare_eq_iff_eq, fresh, true_and, @eq_comm _ unit.instanceSymbol]
      case tails => rfl
      case shared => rfl
      case listed => exact .inl ⟨fresh, rfl, rfl⟩
  next previous found =>
      constructor
      case size =>
        rw [Graph.nextId_modify]
        exact Graph.nextId_push _ _
      case stem? =>
        intro n
        rw [Graph.stem?_modify (by intro node; rfl), Graph.stem?_push, found]
        rfl
      case consumers =>
        intro n differs
        rw [Graph.consumers_modify, if_neg (fun here => differs (by rw [found, here])), Graph.consumers_push]
        split
        next here =>
            rw [here]
            exact (Graph.consumers_nextId c.graph).symm
        · rfl
      case sources =>
        intro symbol
        rw [if_neg (by simp [found])]
        rfl
      case tails => rfl
      case shared => rfl
      case listed => exact .inr ⟨⟨previous, found⟩, rfl, rfl⟩

/-- The effect of moving one draw of a consumer from a shared source to an instance. -/
structure Binds (c : Chaining) (consumer source : NodeId) (unit : Draw) (d : Chaining) : Prop where
  edge : (c.graph.node? consumer).bind (·.producer? unit.symbol) = some source
  size : d.graph.nextId = c.graph.nextId + 1
  made : d.graph.stem? c.graph.nextId
    = some (Link.maker unit.instanceSymbol c.tails[unit.instanceSymbol]? ⟨c.graph.nextId, consumer, unit.period⟩)
  feeds : c.tails[unit.instanceSymbol]? ≠ some c.graph.nextId →
    d.graph.consumers c.graph.nextId = [⟨unit.instanceSymbol, consumer⟩]
  redirected : d.graph.stem? consumer
    = (c.graph.stem? consumer).map (·.redirect unit.symbol unit.instanceSymbol c.graph.nextId)
  stem? : ∀ n, n ≠ c.graph.nextId → n ≠ consumer → d.graph.stem? n = c.graph.stem? n
  consumers : ∀ n, n ≠ c.graph.nextId → c.tails[unit.instanceSymbol]? ≠ some n → d.graph.consumers n =
    if n = source then (c.graph.consumers n).filter (· != ⟨unit.symbol, consumer⟩) else c.graph.consumers n
  sources : ∀ symbol : Symbol, d.graph.sources[symbol]? =
    if c.tails[unit.instanceSymbol]? = none ∧ symbol = unit.instanceSymbol then some c.graph.nextId
    else c.graph.sources[symbol]?
  tails : d.tails = c.tails.insert unit.instanceSymbol consumer
  shared : d.shared = appendNew c.shared [unit.symbol]
  listed : c.tails[unit.instanceSymbol]? = none ∧ d.roots = c.roots ++ [c.graph.nextId] ∧ d.refills = c.refills ∨
    (∃ previous, c.tails[unit.instanceSymbol]? = some previous) ∧ d.roots = c.roots ∧
      d.refills = c.refills ++ [c.graph.nextId]

theorem binds_of_bind (h : c.bind consumer unit = .ok d) : ∃ source, c.Binds consumer source unit d := by
  unfold bind at h
  split at h
  · cases h
  next source edge =>
      refine ⟨source, ?_⟩
      dsimp only at h
      obtain rfl := Except.ok.inj h
      rw [produce_fst]
      have inside : consumer < c.graph.nextId := by
        obtain ⟨node, found, _⟩ := Option.bind_eq_some_iff.mp edge
        exact Graph.lt_nextId found
      have produced := produces_produce { c with
        graph := c.graph.modify source fun node =>
          { node with consumers := node.consumers.filter (· != ⟨unit.symbol, consumer⟩) }
        shared := appendNew c.shared [unit.symbol] } unit
      have next := Graph.nextId_modify c.graph source fun node =>
        { node with consumers := node.consumers.filter (· != ⟨unit.symbol, consumer⟩) }
      have freed := Graph.stem?_modify (f := fun node =>
        { node with consumers := node.consumers.filter (· != ⟨unit.symbol, consumer⟩) }) (fun _ => rfl)
        c.graph source
      generalize (produce _ unit).2 = e at produced ⊢
      obtain ⟨size, stems, consumers, sources, tails, shared, listed⟩ := produced
      dsimp only at size stems consumers sources tails shared listed ⊢
      rw [next] at size stems sources listed ⊢
      simp only [freed] at stems
      have fed : ∀ node : Node, (node.addConsumer ⟨unit.instanceSymbol, consumer⟩).stem = node.stem := fun _ => rfl
      have turned : ∀ node : Node, (node.redirect unit.symbol unit.instanceSymbol c.graph.nextId).stem
          = node.stem.redirect unit.symbol unit.instanceSymbol c.graph.nextId := fun _ => rfl
      have quiet : ∀ node : Node, (node.redirect unit.symbol unit.instanceSymbol c.graph.nextId).consumers
          = node.consumers := fun _ => rfl
      have apart : c.graph.nextId ≠ consumer := Nat.ne_of_gt inside
      constructor
      case edge => exact edge
      case size => rw [Graph.nextId_modify, Graph.nextId_modify, size]
      case made =>
        rw [Graph.stem?_modify fed, Graph.stem?_modify_map turned, if_neg apart, stems, if_pos rfl]
        rfl
      case feeds =>
        intro unserved
        refine Graph.consumers_addConsumer ?_ ?_
        · rw [Graph.nextId_modify, size]
          exact Nat.lt_succ_self _
        · rw [Graph.consumers_modify_of_eq quiet, consumers _ unserved, ← next]
          exact Graph.consumers_nextId _
      case redirected =>
        rw [Graph.stem?_modify fed, Graph.stem?_modify_map turned, if_pos rfl, stems, if_neg apart.symm]
      case stem? =>
        intro n fresh differs
        rw [Graph.stem?_modify fed, Graph.stem?_modify_map turned, if_neg differs, stems, if_neg fresh]
      case consumers =>
        intro n fresh unserved
        rw [Graph.consumers_modify, if_neg fresh, Graph.consumers_modify_of_eq quiet,
          consumers n unserved]
        exact Graph.consumers_modify_filter _ _ _ _
      case sources => exact sources
      case tails => rw [tails]
      case shared => exact shared
      case listed => exact listed

end Chaining

end LatticeSurgery
