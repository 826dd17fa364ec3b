import LatticeSurgery.Graph.Layering

/-! # What bookkeeping leaves alone

Adding a node changes older nodes in three places only: it may extend their consumers, and it may
raise their urgency; layering also writes their layer. The stem of a node is what remains. Two graphs
are alike if they agree in everything but layers and urgencies, so that whatever is said about edges,
targets and kinds of resources in one holds in the other.
-/

namespace LatticeSurgery

/-- A node without its consumers, its layer and its urgency. -/
def Node.stem (node : Node) : Node := { node with layer := 0, urgency := .idle, consumers := [] }

namespace Graph

def stem? (g : Graph) (id : NodeId) : Option Node := (g.node? id).map Node.stem

theorem stem?_of_node? {g : Graph} {id : NodeId} {node : Node} (h : g.node? id = some node) :
    g.stem? id = some node.stem := by
  simp [stem?, h]

/-- Agreement in everything but layers and urgencies. -/
structure Alike (g h : Graph) : Prop where
  size : g.nextId = h.nextId
  stem? : ∀ id, g.stem? id = h.stem? id
  consumers : ∀ id, g.consumers id = h.consumers id
  kinds : g.kinds = h.kinds
  sources : g.sources = h.sources

namespace Alike

theorem refl (g : Graph) : g.Alike g := ⟨rfl, fun _ => rfl, fun _ => rfl, rfl, rfl⟩

theorem trans {f g h : Graph} (first : f.Alike g) (second : g.Alike h) : f.Alike h :=
  ⟨first.size.trans second.size, fun id => (first.stem? id).trans (second.stem? id),
    fun id => (first.consumers id).trans (second.consumers id),
    first.kinds.trans second.kinds, first.sources.trans second.sources⟩

theorem foldl {step : Graph → α → Graph} (keeps : ∀ g a, (step g a).Alike g) (as : List α)
    (g : Graph) : (as.foldl step g).Alike g := by
  induction as generalizing g with
  | nil => exact .refl g
  | cons a as ih => exact (ih (step g a)).trans (keeps g a)

end Alike

/-! ## Looking up after a change -/

theorem lt_nextId_iff {g : Graph} {id : NodeId} : id < g.nextId ↔ ∃ node, g.node? id = some node := by
  simp only [node?, nextId, Array.getElem?_eq_some_iff]
  constructor
  · intro inside
    exact ⟨_, inside, rfl⟩
  · rintro ⟨_, inside, _⟩
    exact inside

theorem lt_nextId {g : Graph} {id : NodeId} {node : Node} (h : g.node? id = some node) :
    id < g.nextId :=
  lt_nextId_iff.mpr ⟨node, h⟩

theorem node?_nextId (g : Graph) : g.node? g.nextId = none := by
  simp [node?, nextId]

@[simp] theorem nextId_modify (g : Graph) (id : NodeId) (f : Node → Node) :
    (g.modify id f).nextId = g.nextId := by
  simp [nextId, modify]

@[simp] theorem nextId_push (g : Graph) (node : Node) : (g.push node).nextId = g.nextId + 1 := by
  simp [nextId, push, place]

theorem stem?_modify {f : Node → Node} (keeps : ∀ node, (f node).stem = node.stem) (g : Graph)
    (id n : NodeId) : (g.modify id f).stem? n = g.stem? n := by
  simp only [stem?, node?_modify]
  split
  · cases g.node? n <;> simp [keeps]
  · rfl

theorem consumers_modify (g : Graph) (id n : NodeId) (f : Node → Node) :
    (g.modify id f).consumers n
      = if n = id then ((g.node? n).map fun node => (f node).consumers).getD [] else g.consumers n := by
  simp only [consumers, node?_modify]
  split
  · cases g.node? n <;> rfl
  · rfl

theorem consumers_modify_of_eq {f : Node → Node} (keeps : ∀ node, (f node).consumers = node.consumers)
    (g : Graph) (id n : NodeId) : (g.modify id f).consumers n = g.consumers n := by
  rw [consumers_modify]
  split
  · simp only [keeps, consumers]
  · rfl

theorem stem?_push (g : Graph) (node : Node) (n : NodeId) :
    (g.push node).stem? n = if n = g.nextId then some node.stem else g.stem? n := by
  simp only [stem?, node?_push]
  split <;> rfl

theorem consumers_push (g : Graph) (node : Node) (n : NodeId) :
    (g.push node).consumers n = if n = g.nextId then node.consumers else g.consumers n := by
  simp only [consumers, node?_push]
  split <;> rfl

theorem alike_modify {f : Node → Node} (stem : ∀ node, (f node).stem = node.stem)
    (consumers : ∀ node, (f node).consumers = node.consumers) (g : Graph) (id : NodeId) :
    (g.modify id f).Alike g where
  size := nextId_modify g id f
  stem? := stem?_modify stem g id
  consumers := consumers_modify_of_eq consumers g id
  kinds := rfl
  sources := rfl

theorem alike_raiseProducers (g : Graph) (id : NodeId) : (g.raiseProducers id).Alike g := by
  unfold raiseProducers
  apply Alike.foldl
  intro acc edge
  apply alike_modify <;> intro node <;> rfl

end Graph

/-! ## Layering -/

namespace Settling

theorem graph_foldl_satisfy (edges : List Edge) (s : Settling) :
    (edges.foldl (fun acc edge => acc.satisfy edge.node) s).graph = s.graph := by
  induction edges generalizing s with
  | nil => rfl
  | cons edge edges ih =>
      rw [List.foldl_cons, ih]
      unfold satisfy
      split <;> rfl

theorem alike_settle (s : Settling) (id : NodeId) : (s.settle id).graph.Alike s.graph := by
  simp only [settle, graph_foldl_satisfy]
  apply Graph.alike_modify <;> intro node <;> rfl

theorem alike_step {s t : Settling} (h : s.step = .again t) : t.graph.Alike s.graph := by
  unfold step at h
  split at h
  · cases h
  · cases h
    exact alike_settle _ _

theorem alike_of_iterate {bound : Nat} {s t : Settling} (h : iterate step bound s = some t) :
    t.graph.Alike s.graph := by
  obtain ⟨u, reach, last⟩ := reaches_of_iterate h
  have same : u = t := by
    unfold step at last
    split at last
    · cases last
      rfl
    · cases last
  subst same
  apply reach.invariant (P := fun u => u.graph.Alike s.graph)
  · intro u v alike next
    exact (alike_step next).trans alike
  · exact .refl _

end Settling

namespace Graph

theorem alike_regroup (g : Graph) (ids : List NodeId) : (g.regroup ids).Alike g := by
  have raised := Alike.foldl (fun g id => alike_raiseProducers g id) (sortBy (fun a b => a ≤ b) ids) g
  exact ⟨raised.size, raised.stem?, raised.consumers, raised.kinds, raised.sources⟩

/-- Layering writes layers, groups and urgencies only. -/
theorem alike_of_relayer {g h : Graph} (done : g.relayer = .ok h) : h.Alike g := by
  unfold relayer at done
  split at done
  · cases done
  next s settled =>
      split at done
      · cases done
        exact (alike_regroup _ _).trans (Settling.alike_of_iterate settled)
      · cases done

theorem alike_of_relayer_error {g : Graph} {failure : Failure Graph}
    (failed : g.relayer = .error failure) : failure.state.Alike g := by
  unfold relayer at failed
  split at failed
  · cases failed
    exact .refl g
  next s settled =>
      split at failed
      · cases failed
      · cases failed
        exact Settling.alike_of_iterate settled

end Graph

end LatticeSurgery
