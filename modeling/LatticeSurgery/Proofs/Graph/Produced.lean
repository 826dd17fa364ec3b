import LatticeSurgery.Chains
import LatticeSurgery.Proofs.Graph.Construction
import LatticeSurgery.Proofs.Graph.Numbered

/-! # Graphs that the library produces

A graph comes from a builder and may then be layered again and have its magic states bound, in any
order and any number of times; a call that fails leaves a graph behind as well. All these graphs number
their nodes by position.
-/

namespace LatticeSurgery

namespace Graph

inductive Produced : Graph → Prop where
  | built {b : Builder} : b.Reachable → Produced b.graph
  | layered {g h : Graph} : Produced g → g.relayer = .ok h → Produced h
  | layeringFailed {g : Graph} {left : Failure Graph} :
      Produced g → g.relayer = .error left → Produced left.state
  | bound {g h : Graph} {capacity : Nat} {factories : List Factory} {chains : Chains} :
      Produced g → g.bindInstances capacity factories = .ok (chains, h) → Produced h
  | bindingFailed {g : Graph} {capacity : Nat} {factories : List Factory} {left : Failure Graph} :
      Produced g → g.bindInstances capacity factories = .error left → Produced left.state

/-- One call that layers or binds a graph, and the graph that it leaves behind. -/
inductive Rewrites (g : Graph) : Graph → Prop where
  | layered {h : Graph} : g.relayer = .ok h → Rewrites g h
  | layeringFailed {left : Failure Graph} : g.relayer = .error left → Rewrites g left.state
  | bound {h : Graph} {capacity : Nat} {factories : List Factory} {chains : Chains} :
      g.bindInstances capacity factories = .ok (chains, h) → Rewrites g h
  | bindingFailed {capacity : Nat} {factories : List Factory} {left : Failure Graph} :
      g.bindInstances capacity factories = .error left → Rewrites g left.state

namespace Numbered

theorem retireSource {acc : List NodeId × Graph} (numbered : acc.2.Numbered) (symbol : Symbol) :
    (Graph.retireSource acc symbol).2.Numbered := by
  unfold Graph.retireSource
  split
  · exact numbered
  next source _ =>
      have erased : ({ acc.2 with sources := acc.2.sources.erase symbol } : Graph).Numbered := numbered
      dsimp only
      split
      · exact modify erased (by intro node; rfl) source
      · exact erased

end Numbered

end Graph

namespace Chaining

theorem numbered_produce {c : Chaining} (numbered : c.graph.Numbered) (draw : Draw) :
    (c.produce draw).2.graph.Numbered := by
  unfold produce
  dsimp only
  split
  · have registered : (c.graph.registerSource draw.instanceSymbol c.graph.nextId).Numbered := numbered
    exact registered.push rfl
  · exact (Graph.Numbered.push numbered rfl).modify (by intro node; rfl) _

theorem numbered_bind {c d : Chaining} {consumer : NodeId} {draw : Draw} (numbered : c.graph.Numbered)
    (h : c.bind consumer draw = .ok d) : d.graph.Numbered := by
  unfold bind at h
  split at h
  · cases h
  next source _ =>
      cases h
      refine Graph.Numbered.modify (Graph.Numbered.modify ?_ ?_ _) ?_ _
      · exact numbered_produce (numbered.modify (by intro node; rfl) source) draw
      · intro node; rfl
      · intro node; rfl

theorem bind_eq_error {c : Chaining} {consumer : NodeId} {draw : Draw} {left : Failure Graph}
    (h : c.bind consumer draw = .error left) : left.state = c.graph := by
  unfold bind at h
  split at h
  · cases h; rfl
  · cases h

theorem numbered_bindAll {c d : Chaining} {draws : List (NodeId × Draw)} (numbered : c.graph.Numbered)
    (h : c.bindAll draws = .ok d) : d.graph.Numbered := by
  induction draws generalizing c with
  | nil => cases h; exact numbered
  | cons head rest ih =>
      obtain ⟨next, first, h⟩ := bind_eq_ok.mp h
      exact ih (numbered_bind numbered first) h

theorem numbered_bindAll_error {c : Chaining} {draws : List (NodeId × Draw)} {left : Failure Graph}
    (numbered : c.graph.Numbered) (h : c.bindAll draws = .error left) : left.state.Numbered := by
  induction draws generalizing c with
  | nil => cases h
  | cons head rest ih =>
      obtain first | ⟨next, first, h⟩ := LatticeSurgery.bind_eq_error.mp h
      · rw [bind_eq_error first]
        exact numbered
      · exact ih (numbered_bind numbered first) h

end Chaining

namespace Graph

/-- The graph and the sources taken out, after every magic state of a list lost its source. -/
def retireAll (g : Graph) (symbols : List Symbol) : List NodeId × Graph :=
  (sortBy (fun a b => (compare a b).isLE) symbols).foldl retireSource ([], g)

theorem Numbered.retireAll {g : Graph} (numbered : g.Numbered) (symbols : List Symbol) :
    (g.retireAll symbols).2.Numbered := by
  unfold Graph.retireAll
  generalize sortBy _ symbols = sorted
  suffices ∀ acc : List NodeId × Graph, acc.2.Numbered →
      (sorted.foldl Graph.retireSource acc).2.Numbered from this ([], g) numbered
  induction sorted with
  | nil => exact fun acc numbered => numbered
  | cons symbol sorted ih => exact fun acc numbered => ih _ (numbered.retireSource symbol)

theorem bindInstances_eq_ok {g h : Graph} {capacity : Nat} {factories : List Factory} {chains : Chains}
    (done : g.bindInstances capacity factories = .ok (chains, h)) :
    ∃ plan c, g.schedule capacity factories = .ok plan ∧
      Chaining.bindAll { graph := g } plan.served = .ok c ∧ (c.graph.retireAll c.shared).2.relayer = .ok h ∧
      chains = { roots := c.roots, refills := c.refills, retired := (c.graph.retireAll c.shared).1, plan } := by
  unfold bindInstances at done
  split at done
  · cases done
  next plan scheduled =>
      obtain ⟨c, chained, done⟩ := bind_eq_ok.mp done
      obtain ⟨final, layered, done⟩ := bind_eq_ok.mp done
      cases done
      exact ⟨plan, c, scheduled, chained, layered, rfl⟩

theorem Numbered.of_bindInstances {g h : Graph} {capacity : Nat} {factories : List Factory}
    {chains : Chains} (numbered : g.Numbered)
    (done : g.bindInstances capacity factories = .ok (chains, h)) : h.Numbered := by
  obtain ⟨plan, c, _, chained, layered, _⟩ := bindInstances_eq_ok done
  have bound := Chaining.numbered_bindAll (c := { graph := g }) numbered chained
  exact (bound.retireAll c.shared).of_alike (alike_of_relayer layered)

theorem Numbered.of_bindInstances_error {g : Graph} {capacity : Nat} {factories : List Factory}
    {left : Failure Graph} (numbered : g.Numbered)
    (failed : g.bindInstances capacity factories = .error left) : left.state.Numbered := by
  unfold bindInstances at failed
  split at failed
  · cases failed; exact numbered
  next plan _ =>
      obtain failed | ⟨c, chained, failed⟩ := LatticeSurgery.bind_eq_error.mp failed
      · exact Chaining.numbered_bindAll_error (c := { graph := g }) numbered failed
      · have bound := Chaining.numbered_bindAll (c := { graph := g }) numbered chained
        obtain failed | ⟨final, _, failed⟩ := LatticeSurgery.bind_eq_error.mp failed
        · exact (bound.retireAll c.shared).of_alike (alike_of_relayer_error failed)
        · cases failed

theorem Produced.numbered {g : Graph} (produced : g.Produced) : g.Numbered := by
  induction produced with
  | built reachable =>
      intro id node found
      have stem := reachable.sound.wired.numbered (stem?_of_node? found)
      exact stem
  | layered _ done ih => exact ih.of_alike (alike_of_relayer done)
  | layeringFailed _ failed ih => exact ih.of_alike (alike_of_relayer_error failed)
  | bound _ done ih => exact ih.of_bindInstances done
  | bindingFailed _ failed ih => exact ih.of_bindInstances_error failed

end Graph

end LatticeSurgery
