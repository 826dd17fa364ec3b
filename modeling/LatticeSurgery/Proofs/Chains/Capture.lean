import LatticeSurgery.Proofs.Chains.Supply

/-! # Captured names

An instance may be called like a magic state of the graph. Its root then takes the place of the source of that state,
and the source stays behind when its last draw is bound: nobody takes it out, and nothing leads to it any more.
-/

namespace LatticeSurgery

open Service

/-- A live factory that no node reads and no node lists as a consumer. -/
structure Graph.Orphan (g : Graph) (id : NodeId) : Prop where
  alive : id ∈ g.liveIds
  factory : g.isFactory id
  unread : ∀ n, ∀ edge ∈ g.producers n, edge.node ≠ id
  unlisted : ∀ n, ∀ edge ∈ g.consumers n, edge.node ≠ id

namespace Chaining

variable {g : Graph} {state : Symbol} {source : NodeId} {served : List (NodeId × Draw)} {c d : Chaining}
  {consumer : NodeId} {unit : Draw}

/-- What is left of the source of a magic state when some services are bound: it is read by nodes that are not
    served yet, and it is the source of the state until an instance of that name is made. -/
structure Leaves (g : Graph) (state : Symbol) (source : NodeId) (served : List (NodeId × Draw)) (c : Chaining) :
    Prop where
  inside : source < c.graph.nextId
  factory : c.graph.isFactory source
  alive : c.graph.isRetired source = false
  unlisted : ∀ n, ∀ edge ∈ c.graph.consumers n, edge.node ≠ source
  reads : ∀ n, ∀ edge ∈ c.graph.producers n, edge.node = source →
    edge ∈ g.producers n ∧ drew served n edge.symbol = false
  sources : ∀ symbol : Symbol, c.graph.sources[symbol]? = some source → symbol = state ∧ c.tails[state]? = none
  tails : ∀ entry ∈ served, c.tails[entry.2.instanceSymbol]? ≠ none

theorem leaves_start (wired : g.Wired) (known : g.sources[state]? = some source) :
    Leaves g state source [] { graph := g } := by
  have origin := wired.source known
  obtain ⟨factory, free⟩ := wired.joined.sources known
  constructor
  case inside =>
    obtain ⟨node, found, _⟩ := Option.map_eq_some_iff.mp origin
    exact Graph.lt_nextId found
  case factory => exact factory
  case alive => exact wired.isRetired_eq_false source
  case unlisted =>
    rintro n ⟨symbol, _⟩ listed rfl
    have reads := wired.consumers.mp listed
    rw [free] at reads
    cases reads
  case reads => exact fun n edge reads _ => ⟨reads, rfl⟩
  case sources =>
    intro symbol same
    have states := wired.source same
    rw [origin] at states
    exact ⟨by simpa [Graph.sourceNode, eq_comm] using states, by simp⟩
  case tails => simp

theorem Leaves.bind (leaves : Leaves g state source served c) (supplying : c.Supplying)
    (consumes : c.graph.Operates consumer) (h : c.bind consumer unit = .ok d) :
    Leaves g state source (served ++ [(consumer, unit)]) d := by
  obtain ⟨_, _, rewires⟩ := rewires_of_bind h
  have old : source ≠ c.graph.nextId := Nat.ne_of_lt leaves.inside
  have operation : ∀ {n}, c.graph.Operates n → n ≠ source := by
    rintro n operates rfl
    have factory := leaves.factory
    rw [operates.operation] at factory
    cases factory
  constructor
  case inside =>
    rw [rewires.size]
    exact Nat.lt_succ_of_lt leaves.inside
  case factory =>
    rw [rewires.isFactory, if_neg old]
    exact leaves.factory
  case alive =>
    rw [rewires.isRetired, if_neg old]
    exact leaves.alive
  case unlisted =>
    intro n edge listed
    rcases rewires.consumers.mp listed with ⟨listed, _⟩ | ⟨_, _, rfl⟩ | ⟨_, rfl⟩
    · exact leaves.unlisted n edge listed
    · exact old.symm
    · exact operation consumes
  case reads =>
    intro n edge reads here
    rw [rewires.producers] at reads
    rw [drew_append]
    split at reads
    · -- a refill waits for an operation
      obtain ⟨previous, found, rfl⟩ := List.mem_map.mp reads
      exact absurd here (operation (supplying.tails (Option.mem_toList.mp found)))
    · split at reads
      next same =>
          rcases List.mem_append.mp reads with kept | new
          · obtain ⟨before, other⟩ := List.mem_filter.mp kept
            obtain ⟨first, unserved⟩ := leaves.reads n edge before here
            have apart : (unit.symbol == edge.symbol) = false := beq_eq_false_iff_ne.mpr (bne_iff_ne.mp other).symm
            exact ⟨first, by rw [unserved, apart, Bool.and_false, Bool.or_false]⟩
          · rw [List.mem_singleton.mp new] at here
            exact absurd here.symm old
      next differs =>
          obtain ⟨first, unserved⟩ := leaves.reads n edge reads here
          exact ⟨first, by simp [unserved, Ne.symm differs]⟩
  case sources =>
    intro symbol same
    rw [rewires.sources] at same
    split at same
    · exact absurd (Option.some.inj same).symm old
    next kept =>
        obtain ⟨rfl, unmade⟩ := leaves.sources symbol same
        refine ⟨rfl, ?_⟩
        rw [rewires.tails, Std.ExtTreeMap.getElem?_insert, if_neg, unmade]
        intro made
        rw [Std.compare_eq_iff_eq] at made
        exact kept ⟨made ▸ unmade, made.symm⟩
  case tails =>
    intro entry member
    rw [rewires.tails, Std.ExtTreeMap.getElem?_insert]
    split
    · simp
    next other =>
        rcases List.mem_append.mp member with earlier | last
        · exact leaves.tails entry earlier
        · rw [List.mem_singleton.mp last] at other
          simp at other

theorem Leaves.bindAll {rest : List (NodeId × Draw)} (leaves : Leaves g state source served c) (supplying : c.Supplying)
    (consume : ∀ service ∈ rest, c.graph.Operates service.1) (h : c.bindAll rest = .ok d) :
    Leaves g state source (served ++ rest) d := by
  induction rest generalizing served c with
  | nil =>
      cases h
      rwa [List.append_nil]
  | cons service rest ih =>
      obtain ⟨consumer, unit⟩ := service
      obtain ⟨next, first, h⟩ := bind_eq_ok.mp h
      have consumes := consume _ List.mem_cons_self
      obtain ⟨onward, keeps⟩ := supplying.bind consumes first
      rw [← List.singleton_append, ← List.append_assoc]
      exact ih (leaves.bind supplying consumes first) onward
        (fun service member => keeps _ (consume service (List.mem_cons_of_mem _ member))) h

end Chaining

/-- A source whose name an instance takes is an orphan in the end. -/
theorem Graph.Wired.orphan_of_captured {g h : Graph} (wired : g.Wired) {capacity : Nat} {factories : List Factory}
    {chains : Chains} (done : g.bindInstances capacity factories = .ok (chains, h)) {state : Symbol} {source : NodeId}
    (known : g.sources[state]? = some source) {entry : NodeId × Draw} (served : entry ∈ chains.plan.served)
    (named : entry.2.instanceSymbol = state) : h.Orphan source := by
  have numbered := (wired.stocked.of_bindInstances done).numbered
  obtain ⟨plan, c, scheduled, chained, layered, rfl⟩ := bindInstances_eq_ok done
  have supplying : ({ graph := g } : Chaining).Supplying := ⟨wired.stocked, by simp⟩
  have serves := wired.serves_of_schedule scheduled
  have leaves := (Chaining.leaves_start wired known).bindAll supplying
    (fun _ => wired.stocked.operates_of_served scheduled) chained
  rw [List.nil_append] at leaves
  have retires := Retires.retireAll c.graph c.shared
  have alike := alike_of_relayer layered
  constructor
  case alive =>
    refine (mem_liveIds numbered).mpr ⟨?_, Bool.eq_false_iff.mpr fun out => ?_⟩
    · rw [alike.size, retires.size]
      exact leaves.inside
    · -- only a node that is still the source of a state is taken out
      rw [alike.isRetired] at out
      rcases retires.of_isRetired out with before | ⟨symbol, spent⟩
      · rw [leaves.alive] at before
        cases before
      · have same := beq_iff_eq.mp (Bool.and_eq_true_iff.mp spent).1
        exact leaves.tails entry served (named ▸ (leaves.sources symbol same).2)
  case factory =>
    rw [alike.isFactory, retires.isFactory]
    exact leaves.factory
  case unread =>
    intro n edge reads here
    rw [alike.producers, retires.producers] at reads
    obtain ⟨first, unserved⟩ := leaves.reads n edge reads here
    subst here
    have drawn := (serves.drew_of_consumer wired known (wired.consumers.mpr first)).2
    rw [unserved] at drawn
    cases drawn
  case unlisted =>
    intro n edge listed
    rw [alike.consumers, retires.consumers] at listed
    exact leaves.unlisted n edge listed

end LatticeSurgery
