import Mathlib.Data.List.Basic
import LatticeSurgery.Proofs.Graph.Stem

/-! # Wired graphs

In a wired graph every edge can be recovered from the targets alone. An operation reads each
exclusive target from the latest older node that acts on it, and each magic state from its one source;
consumers mirror producers. `Wired` says so, and the lemmas after it are what scheduling and binding
need to know about single edges.
-/

namespace LatticeSurgery

namespace Graph

def targetsOf (g : Graph) (id : NodeId) : List Symbol := ((g.node? id).map (·.targets)).getD []

/-- The latest node below a bound that acts on a resource. -/
def writerBefore? (g : Graph) (symbol : Symbol) : Nat → Option NodeId
  | 0 => none
  | n + 1 => if symbol ∈ g.targetsOf n then some n else g.writerBefore? symbol n

/-- Where a node of the given position reads a resource from. -/
def origin? (g : Graph) (id : NodeId) (symbol : Symbol) : Option Edge :=
  if g.isMagic symbol then g.sources[symbol]?.map (⟨symbol, ·⟩)
  else (g.writerBefore? symbol id).map (⟨symbol, ·⟩)

/-- The shared source of a magic state, apart from its consumers. -/
def sourceNode (id : NodeId) (symbol : Symbol) : Node :=
  { id, operation := .init, targets := [symbol], isFactory := true }

structure Wired (g : Graph) : Prop where
  numbered : ∀ {id node}, g.stem? id = some node → node.id = id
  live : ∀ {id node}, g.stem? id = some node → node.retired = false
  distinct : ∀ {id node}, g.stem? id = some node → node.targets.Nodup
  known : ∀ {id node symbol}, g.stem? id = some node → symbol ∈ node.targets → g.kind? symbol ≠ none
  supplied : ∀ {symbol : Symbol}, g.kind? symbol = some .magicState ↔ ∃ id, g.sources[symbol]? = some id
  source : ∀ {symbol : Symbol} {id}, g.sources[symbol]? = some id → g.stem? id = some (sourceNode id symbol)
  factory : ∀ {id node}, g.stem? id = some node → node.isFactory →
    ∃ symbol : Symbol, g.sources[symbol]? = some id
  producers : ∀ {id node}, g.stem? id = some node → node.isFactory = false →
    node.producers = node.targets.filterMap (g.origin? id)
  older : ∀ {id edge}, edge ∈ g.producers id → edge.node < id
  consumers : ∀ {symbol id n}, ⟨symbol, n⟩ ∈ g.consumers id ↔ ⟨symbol, id⟩ ∈ g.producers n
  consumersNodup : ∀ {id}, (g.consumers id).Nodup

/-! ## Reading a graph through its stems -/

theorem producers_eq_stem (g : Graph) (id : NodeId) :
    g.producers id = ((g.stem? id).map (·.producers)).getD [] := by
  simp only [producers, stem?]
  cases g.node? id <;> rfl

theorem targetsOf_eq_stem (g : Graph) (id : NodeId) :
    g.targetsOf id = ((g.stem? id).map (·.targets)).getD [] := by
  simp only [targetsOf, stem?]
  cases g.node? id <;> rfl

theorem isFactory_eq_stem (g : Graph) (id : NodeId) :
    g.isFactory id = (g.stem? id).any (·.isFactory) := by
  simp only [isFactory, stem?]
  cases g.node? id <;> rfl

theorem writerBefore?_congr {g h : Graph} {symbol : Symbol} {bound : Nat}
    (same : ∀ id < bound, g.targetsOf id = h.targetsOf id) :
    g.writerBefore? symbol bound = h.writerBefore? symbol bound := by
  induction bound with
  | zero => rfl
  | succ n ih =>
      simp only [writerBefore?, same n (Nat.lt_succ_self n)]
      rw [ih fun id below => same id (Nat.lt_succ_of_lt below)]

theorem writerBefore?_eq_some {g : Graph} {symbol : Symbol} {bound id : Nat}
    (h : g.writerBefore? symbol bound = some id) :
    id < bound ∧ symbol ∈ g.targetsOf id ∧ ∀ n, id < n → n < bound → symbol ∉ g.targetsOf n := by
  induction bound with
  | zero => cases h
  | succ m ih =>
      rw [writerBefore?] at h
      split at h
      next here =>
          obtain rfl := Option.some.inj h
          exact ⟨Nat.lt_succ_self m, here, fun n above below => by omega⟩
      next elsewhere =>
          obtain ⟨below, acts, latest⟩ := ih h
          refine ⟨Nat.lt_succ_of_lt below, acts, fun n above upto => ?_⟩
          rcases Nat.lt_succ_iff_lt_or_eq.mp upto with upto | rfl
          · exact latest n above upto
          · exact elsewhere

theorem writerBefore?_eq_none {g : Graph} {symbol : Symbol} {bound : Nat}
    (h : ∀ id < bound, symbol ∉ g.targetsOf id) : g.writerBefore? symbol bound = none := by
  induction bound with
  | zero => rfl
  | succ n ih =>
      rw [writerBefore?, if_neg (h n (Nat.lt_succ_self n))]
      exact ih fun id below => h id (Nat.lt_succ_of_lt below)

theorem exists_writerBefore? {g : Graph} {symbol : Symbol} {bound id : Nat}
    (below : id < bound) (acts : symbol ∈ g.targetsOf id) :
    ∃ writer, g.writerBefore? symbol bound = some writer := by
  induction bound with
  | zero => omega
  | succ n ih =>
      rw [writerBefore?]
      split
      · exact ⟨n, rfl⟩
      next elsewhere =>
          have : id ≠ n := fun same => elsewhere (same ▸ acts)
          exact ih (by omega)

theorem origin?_congr {g h : Graph} {id : Nat} {symbol : Symbol}
    (magic : g.isMagic symbol = h.isMagic symbol) (source : g.sources[symbol]? = h.sources[symbol]?)
    (targets : ∀ n < id, g.targetsOf n = h.targetsOf n) : g.origin? id symbol = h.origin? id symbol := by
  simp only [origin?, magic, source, writerBefore?_congr targets]

theorem origin?_eq_some {g : Graph} {id : NodeId} {symbol : Symbol} {edge : Edge}
    (h : g.origin? id symbol = some edge) :
    edge.symbol = symbol ∧
      (g.isMagic symbol ∧ g.sources[symbol]? = some edge.node ∨
        g.isMagic symbol = false ∧ g.writerBefore? symbol id = some edge.node) := by
  unfold origin? at h
  split at h
  next magic =>
      obtain ⟨source, found, rfl⟩ := Option.map_eq_some_iff.mp h
      exact ⟨rfl, .inl ⟨magic, found⟩⟩
  next exclusive =>
      obtain ⟨writer, found, rfl⟩ := Option.map_eq_some_iff.mp h
      exact ⟨rfl, .inr ⟨Bool.eq_false_iff.mpr exclusive, found⟩⟩

namespace Alike

variable {g h : Graph} (alike : g.Alike h)
include alike

theorem producers (id : NodeId) : g.producers id = h.producers id := by
  rw [producers_eq_stem, producers_eq_stem, alike.stem?]

theorem targetsOf (id : NodeId) : g.targetsOf id = h.targetsOf id := by
  rw [targetsOf_eq_stem, targetsOf_eq_stem, alike.stem?]

theorem kind? (symbol : Symbol) : g.kind? symbol = h.kind? symbol := by
  rw [Graph.kind?, alike.kinds, Graph.kind?]

theorem isMagic (symbol : Symbol) : g.isMagic symbol = h.isMagic symbol := by
  rw [Graph.isMagic, alike.kind?, Graph.isMagic]

theorem writerBefore? (symbol : Symbol) (bound : Nat) :
    g.writerBefore? symbol bound = h.writerBefore? symbol bound :=
  writerBefore?_congr fun id _ => alike.targetsOf id

theorem wired (wired : h.Wired) : g.Wired where
  numbered found := wired.numbered (alike.stem? _ ▸ found)
  live found := wired.live (alike.stem? _ ▸ found)
  distinct found := wired.distinct (alike.stem? _ ▸ found)
  known found member := alike.kind? _ ▸ wired.known (alike.stem? _ ▸ found) member
  supplied := by
    intro symbol
    rw [alike.kind?, alike.sources]
    exact wired.supplied
  source := by
    intro symbol id found
    rw [alike.sources] at found
    rw [alike.stem?]
    exact wired.source found
  factory := by
    intro id node found factory
    rw [alike.sources]
    exact wired.factory (alike.stem? _ ▸ found) factory
  producers := by
    intro id node found operation
    rw [wired.producers (alike.stem? _ ▸ found) operation]
    apply List.filterMap_congr
    intro symbol _
    exact (origin?_congr (alike.isMagic symbol) (by rw [alike.sources]) fun n _ => alike.targetsOf n).symm
  older member := wired.older (alike.producers _ ▸ member)
  consumers := by
    intro symbol id n
    rw [alike.consumers, alike.producers]
    exact wired.consumers
  consumersNodup := by
    intro id
    rw [alike.consumers]
    exact wired.consumersNodup

end Alike

end Graph

end LatticeSurgery
