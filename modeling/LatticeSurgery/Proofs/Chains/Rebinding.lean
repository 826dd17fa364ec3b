import LatticeSurgery.Proofs.Chains.Rewiring
import LatticeSurgery.Proofs.Graph.Tiers

/-! # Binding never fails half-way

Every binding wraps the names of the states it binds once more, so that the names of its instances are
new. In a graph whose draws all lie at one level of nesting, and whose edges can be ranked, a plan can be
carried out to the end: each service finds the edge it moves, and the order of the plan, with each new
producer right before its consumer, ranks the result. So the graph can be layered, and bound again.
-/

namespace LatticeSurgery

/-- How many instances a name is wrapped in. -/
def Symbol.nesting (symbol : Symbol) : Nat := symbol.toList.count '#'

theorem Draw.nesting_instanceSymbol (unit : Draw) :
    Symbol.nesting unit.instanceSymbol = Symbol.nesting unit.symbol + 1 := by
  have digits := List.count_eq_zero.mpr (mark_not_mem_toString unit.rank)
  rw [Symbol.nesting, toList_instanceSymbol, List.count_append, List.count_cons_self, digits]
  rfl

namespace Graph

/-- A joined graph without cycles whose names are nested up to a level, that of its draws. -/
structure Formed (g : Graph) (level : Nat) : Prop where
  joined : g.Joined
  acyclic : ∃ rank, g.Ranks rank
  shallow : ∀ {symbol}, g.kind? symbol ≠ none → Symbol.nesting symbol ≤ level
  draws : ∀ {id edge}, edge ∈ g.producers id → g.isFactory edge.node → Symbol.nesting edge.symbol = level

theorem Alike.formed {g h : Graph} {level : Nat} (alike : g.Alike h) (formed : h.Formed level) : g.Formed level where
  joined := alike.joined formed.joined
  acyclic := formed.acyclic.imp fun _ => alike.ranks
  shallow := by simpa only [alike.kind?] using @formed.shallow
  draws := by simpa only [alike.producers, alike.isFactory] using @formed.draws

theorem Wired.formed {g : Graph} (wired : g.Wired) (plain : g.Plain) : g.Formed 0 where
  joined := wired.joined
  acyclic := ⟨_, wired.ranks⟩
  shallow known := Nat.le_of_eq (List.count_eq_zero.mpr (plain _ known))
  draws := by
    intro id edge member _
    exact List.count_eq_zero.mpr (plain _ (wired.joined.known (wired.joined.reads member)))

end Graph

/-! ## Carrying out a plan -/

namespace Chaining

/-- Chains in which the services `rest` are still to be bound. Only the draws among them may lead
    downwards in `rank`. -/
structure Rebinding (level : Nat) (rank : NodeId → Nat) (rest : List (NodeId × Draw)) (c : Chaining) : Prop where
  joined : c.graph.Joined
  shallow : ∀ {symbol}, c.graph.kind? symbol ≠ none → Symbol.nesting symbol ≤ level + 1
  waiting : ∀ {id unit}, (id, unit) ∈ rest → Symbol.nesting unit.symbol = level ∧
    unit.instanceSymbol ∉ c.graph.targetsOf id ∧
    ∃ source, ⟨unit.symbol, source⟩ ∈ c.graph.producers id ∧ c.graph.isFactory source
  distinct : (rest.map fun entry => (entry.1, entry.2.symbol)).Nodup
  bound : ∀ {id edge}, edge ∈ c.graph.producers id → c.graph.isFactory edge.node →
    Symbol.nesting edge.symbol = level + 1 ∨ ∃ unit, (id, unit) ∈ rest ∧ unit.symbol = edge.symbol
  ranked : ∀ {id edge}, edge ∈ c.graph.producers id → rank edge.node < rank id ∨
    c.graph.isFactory edge.node ∧ Symbol.nesting edge.symbol = level
  above : ∀ entry ∈ rest, 0 < rank entry.1
  spaced : rest.Pairwise fun a b => a.1 = b.1 ∨ rank a.1 + 1 < rank b.1
  tails : ∀ {own tail}, c.tails[own]? = some tail → Symbol.nesting own = level + 1 ∧
    (∃ maker, ⟨own, maker⟩ ∈ c.graph.producers tail ∧ c.graph.isFactory maker) ∧
    ∀ entry ∈ rest, tail = entry.1 ∨ rank tail + 1 < rank entry.1
  named : ∀ {own}, Symbol.nesting own = level + 1 → c.graph.kind? own ≠ none → ∃ tail, c.tails[own]? = some tail

variable {level : Nat} {rank : NodeId → Nat} {rest : List (NodeId × Draw)} {c d : Chaining}
  {consumer source : NodeId} {unit : Draw}

theorem Rebinding.bindable (binding : Rebinding level rank ((consumer, unit) :: rest) c) :
    ∃ source, c.Bindable consumer source unit := by
  obtain ⟨nested, absent, source, edge, factory⟩ := binding.waiting List.mem_cons_self
  refine ⟨source, edge, factory, absent, fun none => ?_, fun found => (binding.tails found).2.1⟩
  by_contra known
  obtain ⟨tail, found⟩ := binding.named (by rw [unit.nesting_instanceSymbol, nested]) known
  rw [none] at found
  cases found

/-- The ranking in which a new producer stands right before its consumer. -/
def rankBefore (rank : NodeId → Nat) (new consumer : NodeId) : NodeId → Nat :=
  fun id => if id = new then rank consumer - 1 else rank id

theorem Rebinding.ranked_bind (binding : Rebinding level rank ((consumer, unit) :: rest) c)
    (bindable : c.Bindable consumer source unit) (rewires : c.Rewires consumer source unit d) {id : NodeId}
    {edge : Edge} (member : edge ∈ d.graph.producers id) :
    rankBefore rank c.graph.nextId consumer edge.node < rankBefore rank c.graph.nextId consumer id ∨
      d.graph.isFactory edge.node ∧ Symbol.nesting edge.symbol = level := by
  have joined := binding.joined
  have old : ∀ {n}, n ∈ c.graph.liveIds → rankBefore rank c.graph.nextId consumer n = rank n := by
    intro n alive
    rw [rankBefore, if_neg (Nat.ne_of_lt ((Graph.mem_liveIds joined.numbered).mp alive).1)]
  have new : rankBefore rank c.graph.nextId consumer c.graph.nextId = rank consumer - 1 := by
    rw [rankBefore, if_pos rfl]
  have above : 0 < rank consumer := binding.above (consumer, unit) List.mem_cons_self
  rcases (rewires.mem_producers bindable).mp member with ⟨kept, _⟩ | ⟨rfl, rfl⟩ | ⟨rfl, _, found⟩
  · rw [old (joined.producer_live kept), old (joined.reader_live kept),
      rewires.isFactory_of_live joined (joined.producer_live kept)]
    exact binding.ranked kept
  · left
    rw [new, old (joined.reader_live bindable.edge)]
    omega
  · left
    obtain ⟨_, alive, other⟩ := bindable.previous_operation joined found
    have below := ((binding.tails found).2.2 (consumer, unit) List.mem_cons_self).resolve_left other
    rw [new, old alive]
    dsimp only at below
    omega

theorem Rebinding.bound_bind (binding : Rebinding level rank ((consumer, unit) :: rest) c)
    (bindable : c.Bindable consumer source unit) (rewires : c.Rewires consumer source unit d) {id : NodeId}
    {edge : Edge} (member : edge ∈ d.graph.producers id) (factory : d.graph.isFactory edge.node) :
    Symbol.nesting edge.symbol = level + 1 ∨ ∃ unit, (id, unit) ∈ rest ∧ unit.symbol = edge.symbol := by
  have joined := binding.joined
  rcases (rewires.mem_producers bindable).mp member with ⟨kept, moved⟩ | ⟨rfl, rfl⟩ | ⟨rfl, _, found⟩
  · rw [rewires.isFactory_of_live joined (joined.producer_live kept)] at factory
    rcases binding.bound kept factory with nested | ⟨other, listed, same⟩
    · exact .inl nested
    · rcases List.mem_cons.mp listed with here | listed
      · cases here
        exact absurd ⟨rfl, same.symm⟩ moved
      · exact .inr ⟨other, listed, same⟩
  · left
    rw [unit.nesting_instanceSymbol, (binding.waiting List.mem_cons_self).1]
  · obtain ⟨operation, alive, _⟩ := bindable.previous_operation joined found
    rw [rewires.isFactory_of_live joined alive, operation] at factory
    cases factory

theorem Rebinding.waiting_bind (binding : Rebinding level rank ((consumer, unit) :: rest) c)
    (bindable : c.Bindable consumer source unit) (rewires : c.Rewires consumer source unit d) {id : NodeId}
    {other : Draw} (listed : (id, other) ∈ rest) : Symbol.nesting other.symbol = level ∧
      other.instanceSymbol ∉ d.graph.targetsOf id ∧
      ∃ source, ⟨other.symbol, source⟩ ∈ d.graph.producers id ∧ d.graph.isFactory source := by
  have joined := binding.joined
  obtain ⟨nested, absent, source, edge, factory⟩ := binding.waiting (List.mem_cons_of_mem _ listed)
  have apart : ¬ (id = consumer ∧ other.symbol = unit.symbol) := by
    rintro ⟨rfl, same⟩
    apply (List.nodup_cons.mp binding.distinct).1
    exact List.mem_map.mpr ⟨(id, other), listed, by rw [same]⟩
  refine ⟨nested, fun member => ?_, source, (rewires.mem_producers bindable).mpr (.inl ⟨edge, apart⟩), ?_⟩
  · rcases (rewires.mem_targets bindable joined).mp member with ⟨old, _⟩ | ⟨rfl | rfl, same⟩
    · exact absent old
    · exact apart ⟨rfl, (Draw.instanceSymbol_eq_iff.mp same).1⟩
    · simp [Graph.producers, Graph.node?_nextId] at edge
  · rw [rewires.isFactory_of_live joined (joined.producer_live edge)]
    exact factory

theorem Rebinding.tails_bind (binding : Rebinding level rank ((consumer, unit) :: rest) c)
    (bindable : c.Bindable consumer source unit) (rewires : c.Rewires consumer source unit d) {own : Symbol}
    {tail : NodeId} (found : d.tails[own]? = some tail) : Symbol.nesting own = level + 1 ∧
      (∃ maker, ⟨own, maker⟩ ∈ d.graph.producers tail ∧ d.graph.isFactory maker) ∧
      ∀ entry ∈ rest, tail = entry.1 ∨ rank tail + 1 < rank entry.1 := by
  have joined := binding.joined
  have nested := (binding.waiting List.mem_cons_self).1
  rw [rewires.tails, Std.ExtTreeMap.getElem?_insert] at found
  split at found
  next here =>
      obtain rfl := Std.compare_eq_iff_eq.mp here
      cases found
      refine ⟨by rw [unit.nesting_instanceSymbol, nested], ⟨c.graph.nextId, ?_, ?_⟩, ?_⟩
      · exact (rewires.mem_producers bindable).mpr (.inr (.inl ⟨rfl, rfl⟩))
      · rw [rewires.isFactory, if_pos rfl]
      · exact (List.pairwise_cons.mp binding.spaced).1
  next other =>
      obtain ⟨deep, ⟨maker, edge, factory⟩, spaced⟩ := binding.tails found
      have kept : ¬ (tail = consumer ∧ own = unit.symbol) := by
        rintro ⟨_, rfl⟩
        omega
      refine ⟨deep, ⟨maker, (rewires.mem_producers bindable).mpr (.inl ⟨edge, kept⟩), ?_⟩, ?_⟩
      · rw [rewires.isFactory_of_live joined (joined.producer_live edge)]
        exact factory
      · exact fun entry member => spaced entry (List.mem_cons_of_mem _ member)

theorem Rebinding.bind (binding : Rebinding level rank ((consumer, unit) :: rest) c) :
    ∃ d, c.bind consumer unit = .ok d ∧ Rebinding level (rankBefore rank c.graph.nextId consumer) rest d := by
  have joined := binding.joined
  obtain ⟨source, bindable⟩ := binding.bindable
  have edge := bindable.bind_edge joined
  cases bound : c.bind consumer unit with
  | error failure => simp [Chaining.bind, edge] at bound
  | ok d =>
      refine ⟨d, rfl, ?_⟩
      obtain ⟨same, found, rewires⟩ := rewires_of_bind bound
      obtain rfl : same = source := Option.some.inj (found.symm.trans edge)
      have rewired := rewires.joined bindable joined (numbered_bind joined.numbered bound)
      have nested := (binding.waiting List.mem_cons_self).1
      have listed : ∀ entry ∈ rest, entry.1 ∈ c.graph.liveIds := by
        rintro ⟨id, other⟩ member
        obtain ⟨_, _, _, edge, _⟩ := binding.waiting (List.mem_cons_of_mem _ member)
        exact joined.reader_live edge
      have old : ∀ {n}, n ∈ c.graph.liveIds → rankBefore rank c.graph.nextId consumer n = rank n := by
        intro n alive
        rw [rankBefore, if_neg (Nat.ne_of_lt ((Graph.mem_liveIds joined.numbered).mp alive).1)]
      constructor
      case joined => exact rewired
      case shallow =>
        intro symbol known
        rw [rewires.kinds] at known
        split at known
        next new =>
            apply Nat.le_of_eq
            rw [new.2, unit.nesting_instanceSymbol, nested]
        · exact binding.shallow known
      case waiting => exact binding.waiting_bind bindable rewires
      case distinct => exact (List.nodup_cons.mp binding.distinct).2
      case bound => exact binding.bound_bind bindable rewires
      case ranked => exact binding.ranked_bind bindable rewires
      case above =>
        intro entry member
        rw [old (listed entry member)]
        exact binding.above entry (List.mem_cons_of_mem _ member)
      case spaced =>
        refine (List.pairwise_cons.mp binding.spaced).2.imp_of_mem ?_
        intro a b first second spaced
        rw [old (listed a first), old (listed b second)]
        exact spaced
      case tails =>
        intro own tail found
        obtain ⟨deep, ⟨maker, edge, factory⟩, spaced⟩ := binding.tails_bind bindable rewires found
        refine ⟨deep, ⟨maker, edge, factory⟩, fun entry member => ?_⟩
        have inside : tail ≠ c.graph.nextId := by
          rintro rfl
          have operation := (rewired.drawn edge factory).2
          rw [rewires.isFactory, if_pos rfl] at operation
          cases operation
        rw [old (listed entry member), rankBefore, if_neg inside]
        exact spaced entry member
      case named =>
        intro own deep known
        rw [rewires.tails, Std.ExtTreeMap.getElem?_insert]
        split
        · exact ⟨consumer, rfl⟩
        next other =>
            rw [rewires.kinds, if_neg] at known
            · exact binding.named deep known
            · rintro ⟨_, rfl⟩
              exact other (Std.compare_eq_iff_eq.mpr rfl)

theorem Rebinding.bindAll (binding : Rebinding level rank rest c) :
    ∃ d rank, c.bindAll rest = .ok d ∧ Rebinding level rank [] d := by
  induction rest generalizing c rank with
  | nil => exact ⟨c, rank, rfl, binding⟩
  | cons head rest ih =>
      obtain ⟨next, first, binding⟩ := binding.bind
      obtain ⟨d, last, later, binding⟩ := ih binding
      exact ⟨d, last, bind_eq_ok.mpr ⟨next, first, later⟩, binding⟩

theorem Rebinding.formed (binding : Rebinding level rank [] c) : c.graph.Formed (level + 1) where
  joined := binding.joined
  acyclic := by
    refine ⟨rank, fun id edge member => ?_⟩
    rcases binding.ranked member with upwards | ⟨factory, nested⟩
    · exact upwards
    · rcases binding.bound member factory with deep | ⟨_, listed, _⟩
      · omega
      · cases listed
  shallow := binding.shallow
  draws member factory := (binding.bound member factory).resolve_right (by simp)

end Chaining

/-! ## Whole calls -/

theorem Plan.pairwise_served {plan : Plan} (distinct : plan.order.Nodup) :
    plan.served.Pairwise fun a b => a.1 = b.1 ∨ plan.order.idxOf a.1 < plan.order.idxOf b.1 := by
  have positions : plan.order.Pairwise fun a b => plan.order.idxOf a < plan.order.idxOf b := by
    refine List.pairwise_iff_getElem.mpr fun i j first second below => ?_
    rw [distinct.idxOf_getElem i first, distinct.idxOf_getElem j second]
    exact below
  refine List.pairwise_flatMap.mpr ⟨fun id _ => ?_, positions.imp fun below => ?_⟩
  · refine List.pairwise_map.mpr (List.pairwise_of_forall ?_)
    exact fun _ _ => .inl rfl
  · intro first one second two
    obtain ⟨_, _, rfl⟩ := List.mem_map.mp one
    obtain ⟨_, _, rfl⟩ := List.mem_map.mp two
    exact .inr below

namespace Graph

variable {g h : Graph} {level capacity : Nat} {factories : List Factory} {plan : Plan}

theorem Formed.rebinding (formed : g.Formed level) (scheduled : g.schedule capacity factories = .ok plan) :
    Chaining.Rebinding level (fun id => 2 * plan.order.idxOf id + 1) plan.served { graph := g } := by
  have joined := formed.joined
  obtain ⟨rank, ranks⟩ := formed.acyclic
  have executed := joined.numbered.executed_of_schedule scheduled
  have serves := joined.serves_of_schedule ranks scheduled
  have drawn : ∀ {id unit}, (id, unit) ∈ plan.served →
      ∃ source, ⟨unit.symbol, source⟩ ∈ g.producers id ∧ g.isFactory source := by
    intro id unit member
    obtain ⟨_, node, found, _, drawn⟩ := serves.members id unit member
    obtain ⟨⟨symbol, source⟩, inside, draws, rfl⟩ := mem_drawn.mp drawn
    rw [← producers_of_node? found] at inside
    rw [joined.isDraw_eq inside] at draws
    exact ⟨source, inside, draws⟩
  constructor
  case joined => exact joined
  case shallow => exact fun known => Nat.le_succ_of_le (formed.shallow known)
  case waiting =>
    intro id unit member
    obtain ⟨source, edge, factory⟩ := drawn member
    have nested := formed.draws edge factory
    refine ⟨nested, fun acts => ?_, source, edge, factory⟩
    have bounded := formed.shallow (joined.known acts)
    rw [unit.nesting_instanceSymbol, nested] at bounded
    omega
  case distinct => exact serves.distinct
  case bound =>
    intro id edge member factory
    right
    obtain ⟨node, live, rfl⟩ := List.mem_map.mp (joined.reader_live member)
    have found := ((mem_live_of_numbered joined.numbered).mp live).1
    rw [producers_of_node? found] at member
    apply serves.complete node live
    refine mem_drawn.mpr ⟨edge, member, ?_, rfl⟩
    rw [joined.isDraw_eq (producers_of_node? found ▸ member)]
    exact factory
  case ranked =>
    intro id edge member
    cases factory : g.isFactory edge.node with
    | true => exact .inr ⟨rfl, formed.draws member factory⟩
    | false =>
        left
        have listed := joined.mem_order_of_schedule ranks scheduled (joined.reader_live member)
          (.inr (List.ne_nil_of_mem member))
        have before := executed.sequenced.idxOf_lt (List.mem_reverse.mpr listed) member
          ((joined.isDraw_eq member).trans factory)
        rw [List.reverse_reverse] at before
        omega
  case above => exact fun _ _ => Nat.succ_pos _
  case spaced =>
    refine (Plan.pairwise_served (List.nodup_reverse.mp executed.sequenced.nodup)).imp fun later => ?_
    rcases later with same | later
    · exact .inl same
    · right
      omega
  case tails => simp
  case named =>
    intro own deep known
    have bounded := formed.shallow known
    omega

theorem Formed.exists_bindAll (formed : g.Formed level) (scheduled : g.schedule capacity factories = .ok plan) :
    ∃ c, Chaining.bindAll { graph := g } plan.served = .ok c ∧ (c.graph.retireAll c.shared).2.Formed (level + 1) := by
  obtain ⟨c, rank, bound, binding⟩ := (formed.rebinding scheduled).bindAll
  have chained := binding.formed
  have retires := Retires.retireAll c.graph c.shared
  have kinds := kinds_retireAll c.graph c.shared
  refine ⟨c, bound, retires.joined chained.joined (chained.joined.numbered.retireAll c.shared) kinds, ?_, ?_, ?_⟩
  · exact chained.acyclic.imp fun _ ranks => by simpa only [Ranks, retires.producers] using ranks
  · simpa only [kind?, kinds] using @chained.shallow
  · simpa only [retires.producers, retires.isFactory] using @chained.draws

/-- A plan can always be carried out, and what comes out can be planned and bound again. -/
theorem Formed.bindInstances_of_schedule (formed : g.Formed level)
    (scheduled : g.schedule capacity factories = .ok plan) :
    ∃ chains h, g.bindInstances capacity factories = .ok (chains, h) ∧ chains.plan = plan ∧
      h.Formed (level + 1) ∧ h.Tiered := by
  obtain ⟨c, bound, retired⟩ := formed.exists_bindAll scheduled
  obtain ⟨rank, ranks⟩ := retired.acyclic
  obtain ⟨h, layered, alike, tiered⟩ := retired.joined.tiered_of_relayer ranks
  refine ⟨{ roots := c.roots, refills := c.refills, retired := (c.graph.retireAll c.shared).1, plan }, h, ?_, rfl,
    alike.formed retired, tiered⟩
  unfold bindInstances
  rw [scheduled]
  refine bind_eq_ok.mpr ⟨c, bound, bind_eq_ok.mpr ⟨h, layered, rfl⟩⟩

theorem bindInstances_of_schedule_error {e : Error} (failed : g.schedule capacity factories = .error e) :
    g.bindInstances capacity factories = .error ⟨e, g⟩ := by
  rw [bindInstances, failed]

/-- A call on a graph of this kind either leaves it alone or ends with layering one of the same kind. -/
theorem Formed.rewrites_cases (formed : g.Formed level) (rewrites : g.Rewrites h) :
    h = g ∨ ∃ level, ∃ k : Graph, k.Formed level ∧ k.relayer = .ok h := by
  cases rewrites with
  | layered done => exact .inr ⟨level, g, formed, done⟩
  | layeringFailed failed =>
      obtain ⟨rank, ranks⟩ := formed.acyclic
      obtain ⟨k, layered, -⟩ := formed.joined.tiered_of_relayer ranks
      cases failed.symm.trans layered
  | @bound _ capacity factories chains done =>
      obtain ⟨plan, c, scheduled, chained, layered, _⟩ := bindInstances_eq_ok done
      obtain ⟨d, again, retired⟩ := formed.exists_bindAll scheduled
      obtain rfl := Except.ok.inj (chained.symm.trans again)
      exact .inr ⟨level + 1, _, retired, layered⟩
  | @bindingFailed capacity factories left failed =>
      cases scheduled : g.schedule capacity factories with
      | ok plan =>
          obtain ⟨_, _, done, _⟩ := formed.bindInstances_of_schedule scheduled
          cases failed.symm.trans done
      | error e =>
          cases failed.symm.trans (bindInstances_of_schedule_error scheduled)
          exact .inl rfl

/-- No call on a graph of this kind spoils it, whether it succeeds or not. -/
theorem Formed.of_rewrites (formed : g.Formed level) (tiered : g.Tiered) (rewrites : g.Rewrites h) :
    ∃ level, h.Formed level ∧ h.Tiered := by
  obtain rfl | ⟨level, k, formed, layered⟩ := formed.rewrites_cases rewrites
  · exact ⟨level, formed, tiered⟩
  · obtain ⟨rank, ranks⟩ := formed.acyclic
    obtain ⟨l, again, alike, tidy⟩ := formed.joined.tiered_of_relayer ranks
    obtain rfl := Except.ok.inj (layered.symm.trans again)
    exact ⟨level, alike.formed formed, tidy⟩

theorem formed_of_rewritten {b : Builder} (reachable : b.Reachable) (plain : b.graph.Plain)
    (rewritten : Relation.ReflTransGen Rewrites b.graph g) : ∃ level, g.Formed level ∧ g.Tiered := by
  induction rewritten with
  | refl => exact ⟨0, reachable.sound.wired.formed plain, reachable.tiered⟩
  | tail _ rewrites ih =>
      obtain ⟨level, formed, tiered⟩ := ih
      exact formed.of_rewrites tiered rewrites

end Graph

/-- Binding fails exactly where scheduling does, with the same error and before anything is changed. -/
theorem bindInstances_outcome {b : Builder} {g : Graph} (reachable : b.Reachable) (plain : b.graph.Plain)
    (rewritten : Relation.ReflTransGen Graph.Rewrites b.graph g) (capacity : Nat) (factories : List Factory) :
    (∀ plan, g.schedule capacity factories = .ok plan ↔
      ∃ chains h, g.bindInstances capacity factories = .ok (chains, h) ∧ chains.plan = plan) ∧
    (∀ failure, g.bindInstances capacity factories = .error failure ↔
      g.schedule capacity factories = .error failure.error ∧ failure.state = g) ∧
    ∀ failure, g.bindInstances capacity factories = .error failure →
      (∀ id symbol, failure.error ≠ .inconsistent (.lostEdge id symbol)) ∧
      ∀ count name, failure.error ≠ .invalidGraph (.cycle count name) := by
  obtain ⟨level, formed, _⟩ := Graph.formed_of_rewritten reachable plain rewritten
  have fails : ∀ failure, g.bindInstances capacity factories = .error failure ↔
      g.schedule capacity factories = .error failure.error ∧ failure.state = g := by
    intro failure
    cases scheduled : g.schedule capacity factories with
    | ok plan =>
        obtain ⟨_, _, done, _⟩ := formed.bindInstances_of_schedule scheduled
        simp [done]
    | error e =>
        rw [Graph.bindInstances_of_schedule_error scheduled]
        cases failure
        simp only [Except.error.injEq, Failure.mk.injEq]
        rw [eq_comm (a := g)]
  refine ⟨fun plan => ⟨fun scheduled => ?_, ?_⟩, fails, fun failure failed => ?_⟩
  · obtain ⟨chains, h, done, same, _⟩ := formed.bindInstances_of_schedule scheduled
    exact ⟨chains, h, done, same⟩
  · rintro ⟨chains, h, done, rfl⟩
    obtain ⟨plan, c, scheduled, _, _, rfl⟩ := Graph.bindInstances_eq_ok done
    exact scheduled
  · have failed := ((fails failure).mp failed).1
    rcases Scheduling.schedule_eq_error failed with ⟨_, same | same⟩ | ⟨_, _, same⟩ | same <;> simp [same]

/-- A factory that needs no time serves both gates in one cycle, and still its second unit waits for the
    first; with nothing to serve them the graph stays as it is. -/
theorem bindInstances_outcome_pair :
    ∃ (b : Builder) (chains : Chains) (h : Graph), b.Reachable ∧ b.graph.Plain ∧
      b.graph.schedule 2 [⟨"T", 0⟩] = .ok chains.plan ∧ chains.plan.layers = [[0, 1], [3, 4], [5]] ∧
      b.graph.bindInstances 2 [⟨"T", 0⟩] = .ok (chains, h) ∧ chains.roots = [6] ∧ chains.refills = [7] ∧
      b.graph.bindInstances 2 [] = .error ⟨.missingFactory "T", b.graph⟩ := by
  have runs : pairOfGates.toOption.any fun b =>
      (b.graph.bindInstances 2 [⟨"T", 0⟩]).toOption.any fun done =>
        decide b.graph.Plain
          && done.1.plan.layers == [[0, 1], [3, 4], [5]] && done.1.roots == [6] && done.1.refills == [7]
          && b.graph.undersupplied? (Pool.new []).produces == some "T" := by decide +kernel
  obtain ⟨b, built, runs⟩ := exists_ok_of_any runs
  obtain ⟨⟨chains, h⟩, done, runs⟩ := exists_ok_of_any runs
  simp only [Bool.and_eq_true, beq_iff_eq, decide_eq_true_eq] at runs
  obtain ⟨⟨⟨⟨plain, layers⟩, roots⟩, refills⟩, missing⟩ := runs
  have reachable := reachable_pairOfGates built
  have unsupplied : b.graph.schedule 2 [] = .error (.missingFactory "T") := by
    rw [Graph.schedule, missing]
  obtain ⟨succeeds, _⟩ := bindInstances_outcome reachable plain .refl 2 [⟨"T", 0⟩]
  obtain ⟨_, fails, _⟩ := bindInstances_outcome reachable plain .refl 2 []
  exact ⟨b, chains, h, reachable, plain, (succeeds chains.plan).mpr ⟨chains, h, done, rfl⟩, layers, done, roots, refills,
    (fails ⟨.missingFactory "T", b.graph⟩).mpr ⟨unsupplied, rfl⟩⟩

end LatticeSurgery
