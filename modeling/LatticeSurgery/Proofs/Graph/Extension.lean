import LatticeSurgery.Graph.Builder
import LatticeSurgery.Proofs.Graph.Wiring

/-! # One more node

A builder only ever adds a node at the end of a graph: the source of a magic state or an operation. What
is needed for the graph to stay wired is the same for both, and most of it concerns the new node alone.
-/

namespace LatticeSurgery

/-! ## Consumers -/

namespace Node

theorem mem_addConsumer {node : Node} {edge e : Edge} :
    e ∈ (node.addConsumer edge).consumers ↔ e ∈ node.consumers ∨ e = edge := by
  simp only [addConsumer]
  split <;> grind

theorem nodup_addConsumer {node : Node} {edge : Edge} (h : node.consumers.Nodup) :
    (node.addConsumer edge).consumers.Nodup := by
  simp only [addConsumer]
  split
  · exact h
  · rw [List.nodup_append]
    grind

end Node

namespace Graph

/-- Tells the far ends of some edges about a new consumer. -/
def link (g : Graph) (id : NodeId) (edges : List Edge) : Graph :=
  edges.foldl (fun acc edge => acc.modify edge.node (·.addConsumer ⟨edge.symbol, id⟩)) g

@[simp] theorem nextId_link (g : Graph) (id : NodeId) (edges : List Edge) :
    (g.link id edges).nextId = g.nextId := by
  induction edges generalizing g with
  | nil => rfl
  | cons edge edges ih => exact (ih _).trans (nextId_modify g _ _)

@[simp] theorem stem?_link (g : Graph) (id n : NodeId) (edges : List Edge) :
    (g.link id edges).stem? n = g.stem? n := by
  induction edges generalizing g with
  | nil => rfl
  | cons edge edges ih =>
      refine (ih _).trans (stem?_modify ?_ g edge.node n)
      intro node
      rfl

@[simp] theorem kinds_link (g : Graph) (id : NodeId) (edges : List Edge) :
    (g.link id edges).kinds = g.kinds := by
  induction edges generalizing g with
  | nil => rfl
  | cons edge edges ih => exact ih _

@[simp] theorem sources_link (g : Graph) (id : NodeId) (edges : List Edge) :
    (g.link id edges).sources = g.sources := by
  induction edges generalizing g with
  | nil => rfl
  | cons edge edges ih => exact ih _

theorem mem_consumers_addConsumer {g : Graph} {id n : NodeId} {edge e : Edge} :
    e ∈ (g.modify id (·.addConsumer edge)).consumers n
      ↔ e ∈ g.consumers n ∨ n = id ∧ n < g.nextId ∧ e = edge := by
  rw [consumers_modify]
  split
  next here =>
      cases found : g.node? n with
      | none =>
          have outside : ¬ n < g.nextId := fun inside => by
            obtain ⟨node, h⟩ := lt_nextId_iff.mp inside
            rw [found] at h
            cases h
          simp [consumers, found, outside]
      | some node =>
          have inside := lt_nextId found
          simp only [consumers, found, Option.map_some, Option.getD_some, Node.mem_addConsumer]
          simp only [here, true_and] at inside ⊢
          simp only [inside, true_and]
  next elsewhere => simp [elsewhere]

theorem nodup_consumers_addConsumer {g : Graph} {id n : NodeId} {edge : Edge}
    (h : (g.consumers n).Nodup) : ((g.modify id (·.addConsumer edge)).consumers n).Nodup := by
  rw [consumers_modify]
  split
  · cases found : g.node? n with
    | none => exact .nil
    | some node =>
        rw [consumers, found] at h
        exact Node.nodup_addConsumer h
  · exact h

theorem mem_consumers_link {g : Graph} {id n : NodeId} {edges : List Edge} {e : Edge} :
    e ∈ (g.link id edges).consumers n
      ↔ e ∈ g.consumers n ∨ n < g.nextId ∧ e.node = id ∧ ⟨e.symbol, n⟩ ∈ edges := by
  induction edges generalizing g with
  | nil => simp [link]
  | cons edge edges ih =>
      refine (ih (g := g.modify edge.node (·.addConsumer ⟨edge.symbol, id⟩))).trans ?_
      rw [mem_consumers_addConsumer, nextId_modify]
      cases e
      cases edge
      simp only [List.mem_cons, Edge.mk.injEq]
      grind

theorem nodup_consumers_link {g : Graph} {id n : NodeId} {edges : List Edge}
    (h : (g.consumers n).Nodup) : ((g.link id edges).consumers n).Nodup := by
  induction edges generalizing g with
  | nil => exact h
  | cons edge edges ih => exact ih (nodup_consumers_addConsumer h)

/-! ## Kinds -/

/-- Makes some resources known as exclusive ones. -/
def registerAll (g : Graph) (symbols : List Symbol) : Graph :=
  symbols.foldl (·.register · .exclusive) g

theorem registerAll_eq (g : Graph) (symbols : List Symbol) :
    g.registerAll symbols = { g with kinds := (g.registerAll symbols).kinds } := by
  induction symbols generalizing g with
  | nil => rfl
  | cons symbol symbols ih => exact ih (g.register symbol .exclusive)

@[simp] theorem nextId_registerAll (g : Graph) (symbols : List Symbol) :
    (g.registerAll symbols).nextId = g.nextId := by
  rw [registerAll_eq]
  rfl

@[simp] theorem stem?_registerAll (g : Graph) (symbols : List Symbol) (n : NodeId) :
    (g.registerAll symbols).stem? n = g.stem? n := by
  rw [registerAll_eq]
  rfl

@[simp] theorem consumers_registerAll (g : Graph) (symbols : List Symbol) (n : NodeId) :
    (g.registerAll symbols).consumers n = g.consumers n := by
  rw [registerAll_eq]
  rfl

@[simp] theorem sources_registerAll (g : Graph) (symbols : List Symbol) :
    (g.registerAll symbols).sources = g.sources := by
  rw [registerAll_eq]

theorem kind?_register (g : Graph) (symbol s : Symbol) (kind : ResourceKind) :
    (g.register symbol kind).kind? s = if s = symbol then some kind else g.kind? s := by
  simp only [kind?, register, Std.ExtTreeMap.getElem?_insert, Std.compare_eq_iff_eq]
  simp only [eq_comm]

theorem kind?_registerAll (g : Graph) (symbols : List Symbol) (s : Symbol) :
    (g.registerAll symbols).kind? s = if s ∈ symbols then some .exclusive else g.kind? s := by
  induction symbols generalizing g with
  | nil => simp [registerAll]
  | cons symbol symbols ih =>
      refine (ih (g.register symbol .exclusive)).trans ?_
      rw [kind?_register]
      grind

end Graph

/-! ## Extensions -/

namespace Graph

/-- A graph `h` that has one more node than `g`, which is all that its new sources and edges belong to. -/
structure Extends (g : Graph) (node : Node) (h : Graph) : Prop where
  stem? : ∀ n, h.stem? n = if n = g.nextId then some node else g.stem? n
  kinds : ∀ {symbol}, g.kind? symbol ≠ none → h.kind? symbol = g.kind? symbol
  sources : ∀ {symbol : Symbol} {id}, h.sources[symbol]? = some id ↔
    g.sources[symbol]? = some id ∨ id = g.nextId ∧ node = sourceNode id symbol
  consumers : ∀ {edge n}, edge ∈ h.consumers n ↔
    edge ∈ g.consumers n ∨ edge.node = g.nextId ∧ ⟨edge.symbol, n⟩ ∈ node.producers
  nodup : ∀ {n}, (g.consumers n).Nodup → (h.consumers n).Nodup

/-- A node that can be added to a wired graph `g` so that `h` is wired. -/
structure Attachable (g : Graph) (node : Node) (h : Graph) : Prop where
  numbered : node.id = g.nextId
  live : node.retired = false
  distinct : node.targets.Nodup
  known : ∀ symbol ∈ node.targets, h.kind? symbol ≠ none
  factory : node.isFactory → ∃ symbol, node = sourceNode g.nextId symbol
  producers : node.isFactory = false → node.producers = node.targets.filterMap (h.origin? g.nextId)
  older : ∀ edge ∈ node.producers, edge.node < g.nextId

namespace Extends

variable {g h : Graph} {node : Node} (extended : g.Extends node h)
include extended

theorem targetsOf (n : NodeId) : h.targetsOf n = if n = g.nextId then node.targets else g.targetsOf n := by
  rw [targetsOf_eq_stem, extended.stem?, targetsOf_eq_stem]
  split <;> rfl

theorem producers (n : NodeId) : h.producers n = if n = g.nextId then node.producers else g.producers n := by
  rw [producers_eq_stem, extended.stem?, producers_eq_stem]
  split <;> rfl

theorem targetsOf_below {bound : Nat} (upto : bound ≤ g.nextId) : ∀ n < bound, h.targetsOf n = g.targetsOf n := by
  intro n below
  rw [extended.targetsOf, if_neg]
  exact Nat.ne_of_lt (Nat.lt_of_lt_of_le below upto)

theorem writerBefore?_succ (symbol : Symbol) :
    h.writerBefore? symbol (g.nextId + 1)
      = if symbol ∈ node.targets then some g.nextId else g.writerBefore? symbol g.nextId := by
  rw [writerBefore?, extended.targetsOf, if_pos rfl,
    writerBefore?_congr (extended.targetsOf_below (Nat.le_refl _))]

/-- What holds of the new node and of every old one holds of all. -/
theorem forall_stem? {P : NodeId → Node → Prop} (new : P g.nextId node)
    (old : ∀ n other, g.stem? n = some other → P n other) {n : NodeId} {other : Node}
    (found : h.stem? n = some other) : P n other := by
  rw [extended.stem?] at found
  split at found
  next here =>
      obtain rfl := Option.some.inj found
      rw [here]
      exact new
  · exact old n other found

theorem stem?_of_old {n : NodeId} {other : Node} (found : g.stem? n = some other) : h.stem? n = some other := by
  obtain ⟨_, inside, _⟩ := Option.map_eq_some_iff.mp found
  rw [extended.stem?, if_neg (Nat.ne_of_lt (lt_nextId inside)), found]

/-- Old nodes read what they read before. -/
theorem origin?_of_known (wired : g.Wired) {symbol : Symbol} (known : g.kind? symbol ≠ none) {id : Nat}
    (upto : id ≤ g.nextId) : h.origin? id symbol = g.origin? id symbol := by
  have magic : h.isMagic symbol = g.isMagic symbol := by
    rw [isMagic, extended.kinds known, isMagic]
  cases kind : g.isMagic symbol with
  | true =>
      obtain ⟨source, found⟩ := wired.supplied.mp (beq_iff_eq.mp kind)
      simp [origin?, magic, kind, found, extended.sources.mpr (.inl found)]
  | false =>
      simp [origin?, magic, kind, writerBefore?_congr (extended.targetsOf_below upto)]

theorem wired (wired : g.Wired) (fits : g.Attachable node h)
    (supplied : ∀ symbol : Symbol, h.kind? symbol = some .magicState ↔ ∃ id, h.sources[symbol]? = some id) :
    h.Wired where
  numbered := extended.forall_stem? fits.numbered fun _ _ => wired.numbered
  live := extended.forall_stem? fits.live fun _ _ => wired.live
  distinct := extended.forall_stem? fits.distinct fun _ _ => wired.distinct
  known := by
    intro id other symbol found
    refine extended.forall_stem? (P := fun _ other => symbol ∈ other.targets → h.kind? symbol ≠ none)
      (fits.known symbol) (fun n old found member => ?_) found
    rw [extended.kinds (wired.known found member)]
    exact wired.known found member
  supplied := supplied _
  source := by
    intro symbol id found
    rcases extended.sources.mp found with old | ⟨rfl, new⟩
    · exact extended.stem?_of_old (wired.source old)
    · rw [extended.stem?, if_pos rfl, new]
  factory := by
    intro id other found
    refine extended.forall_stem? (P := fun n other => other.isFactory → ∃ symbol : Symbol, h.sources[symbol]? = some n)
      (fun factory => ?_) (fun n old found factory => ?_) found
    · obtain ⟨symbol, same⟩ := fits.factory factory
      exact ⟨symbol, extended.sources.mpr (.inr ⟨rfl, same⟩)⟩
    · obtain ⟨symbol, source⟩ := wired.factory found factory
      exact ⟨symbol, extended.sources.mpr (.inl source)⟩
  producers := by
    intro id other found
    refine extended.forall_stem? (P := fun n other => other.isFactory = false →
      other.producers = other.targets.filterMap (h.origin? n)) fits.producers (fun n old found operation => ?_) found
    obtain ⟨_, inside, _⟩ := Option.map_eq_some_iff.mp found
    rw [wired.producers found operation]
    apply List.filterMap_congr
    intro symbol member
    exact (extended.origin?_of_known wired (wired.known found member) (Nat.le_of_lt (lt_nextId inside))).symm
  older := by
    intro id edge member
    rw [extended.producers] at member
    split at member
    next here => exact here ▸ fits.older edge member
    · exact wired.older member
  consumers := by
    intro symbol id n
    rw [extended.consumers, extended.producers, wired.consumers]
    split
    next here =>
        have none : g.producers g.nextId = [] := by simp [Graph.producers, node?_nextId]
        simp [here, none]
    next elsewhere => simp [elsewhere]
  consumersNodup := extended.nodup wired.consumersNodup

end Extends

end Graph

end LatticeSurgery
