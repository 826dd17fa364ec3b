import LatticeSurgery.Proofs.Chains.Linear
import LatticeSurgery.Proofs.Chains.Rebinding
import LatticeSurgery.Proofs.Routing.Lifecycle

/-! # No wake-up is lost

Nodes are woken by the producers that finish, and nobody looks at the whole graph again. This is enough:
after the first part of every cycle a node is in play exactly if all its producers are finished, and a
factory that waits for nothing exactly if something that draws from it could be next. So nothing is left
over when the queue and the patches are empty.
-/

namespace LatticeSurgery

/-! ## Graphs to be routed -/

/-- A graph as a builder leaves it, or with its magic states bound to instances. -/
inductive Builder.Yields (b : Builder) : Graph → Prop where
  | built : b.Yields b.graph
  | bound {capacity : Nat} {factories : List Factory} {chains : Chains} {h : Graph} :
      b.graph.bindInstances capacity factories = .ok (chains, h) → b.Yields h

/-- Every factory that is still there delivers to somebody. -/
def Graph.Fed (g : Graph) : Prop := ∀ id ∈ g.liveIds, g.isFactory id → g.consumers id ≠ []

theorem Builder.Yields.produced {b : Builder} {g : Graph} (yields : b.Yields g) (reachable : b.Reachable) :
    g.Produced := by
  cases yields with
  | built => exact .built reachable
  | bound done => exact .bound (.built reachable) done

namespace Builder.Yields

variable {b : Builder} {g : Graph} (yields : b.Yields g) (reachable : b.Reachable) (plain : b.graph.Plain)
include yields reachable plain

theorem formed : ∃ level, g.Formed level := by
  have rewritten : Relation.ReflTransGen Graph.Rewrites b.graph g := by
    cases yields with
    | built => exact .refl
    | bound done => exact .tail .refl (.bound done)
  obtain ⟨level, formed, _⟩ := Graph.formed_of_rewritten reachable plain rewritten
  exact ⟨level, formed⟩

theorem joined : g.Joined := by
  obtain ⟨_, formed⟩ := yields.formed reachable plain
  exact formed.joined

theorem fed : g.Fed := by
  have joined := yields.joined reachable plain
  have wired := reachable.sound.wired
  intro id alive factory
  obtain ⟨node, live, rfl⟩ := List.mem_map.mp alive
  have found := ((Graph.mem_live_of_numbered joined.numbered).mp live).1
  rw [Graph.isFactory_of_node? found] at factory
  cases yields with
  | built =>
      obtain ⟨symbol, source, _⟩ := wired.of_isFactory found factory
      exact reachable.drawn source
  | bound done =>
      obtain ⟨_, chained⟩ := Chained.of_bindInstances reachable plain done
      rcases chained.live_cases wired joined.numbered live with ⟨old, _, operation, stem⟩ | ⟨own, link, member, here⟩
      · have same : node.isFactory = old.isFactory := (congrArg Node.isFactory stem :)
        rw [same, operation] at factory
        cases factory
      · obtain ⟨i, found⟩ := List.getElem?_of_mem member
        rw [here, (chained.made own i link found).2]
        simp

end Builder.Yields

namespace Run

variable {g : Graph} {r s : Run} {id : NodeId} {callers : List NodeId}

/-! ## Whom waking queues -/

/-- Whatever came up has finished producers. -/
def Ready (g : Graph) (r : Run) : Prop :=
  ∀ id stage, r.stages[id]? = some stage → ∀ edge ∈ g.producers id, r.stages[edge.node]? = some .resolved

/-- A node that did not come up yet and waits for nothing is called: it is a caller itself, or a factory
    that a caller draws from. -/
structure Called (g : Graph) (r : Run) (callers : List NodeId) (id : NodeId) : Prop where
  fresh : r.stages[id]? = none
  ready : ∀ edge ∈ g.producers id, r.stages[edge.node]? = some .resolved
  caller : ∃ caller ∈ callers, g.isRetired caller = false ∧
    (id = caller ∨ g.isFactory id ∧ ∃ edge ∈ g.producers caller, edge.node = id)

/-- A factory among the far ends of some edges that can be queued. -/
structure Requested (g : Graph) (r : Run) (edges : List Edge) (id : NodeId) : Prop where
  fresh : r.stages[id]? = none
  ready : ∀ edge ∈ g.producers id, r.stages[edge.node]? = some .resolved
  factory : g.isFactory id
  listed : ∃ edge ∈ edges, edge.node = id

theorem contains_stages_eq_false : r.stages.contains id = false ↔ r.stages[id]? = none := by
  rw [Std.ExtTreeMap.contains_eq_isSome_getElem?, Option.isSome_eq_false_iff, Option.isNone_iff_eq_none]

theorem request_eq_true_iff {edge : Edge} :
    (g.isFactory edge.node && !r.stages.contains edge.node && (g.producers edge.node).all (r.isResolved ·.node)) = true
      ↔ r.Requested g [edge] edge.node := by
  simp only [Bool.and_eq_true, Bool.not_eq_true', contains_stages_eq_false, List.all_eq_true, isResolved, beq_iff_eq]
  constructor
  · rintro ⟨⟨factory, fresh⟩, ready⟩
    exact ⟨fresh, ready, factory, edge, List.mem_singleton_self edge, rfl⟩
  · rintro ⟨fresh, ready, factory, _⟩
    exact ⟨⟨factory, fresh⟩, ready⟩

theorem stage_request (g : Graph) (r : Run) (edge : Edge) (id : NodeId) :
    (r.request g edge.node).stages[id]? = some .waiting ∧ r.Requested g [edge] id ∨
      (r.request g edge.node).stages[id]? = r.stages[id]? ∧ ¬r.Requested g [edge] id := by
  have here : ∀ {id}, r.Requested g [edge] id → edge.node = id := by
    rintro id ⟨_, _, _, other, member, named⟩
    exact List.mem_singleton.mp member ▸ named
  unfold request
  split
  next asked =>
      rw [request_eq_true_iff] at asked
      rw [getElem?_stages_enqueue]
      split
      next same => exact .inl ⟨rfl, same ▸ asked⟩
      next differs => exact .inr ⟨rfl, fun other => differs (here other).symm⟩
  next refused =>
      rw [request_eq_true_iff] at refused
      refine .inr ⟨rfl, fun asked => refused ?_⟩
      rw [here asked]
      exact asked

/-- If one action queues the nodes of `A` and the next those of `B`, both queue the nodes of either. -/
theorem stage_append {t u : Run} {A B AB : Prop}
    (first : t.stages[id]? = some .waiting ∧ A ∨ t.stages[id]? = r.stages[id]? ∧ ¬A)
    (second : u.stages[id]? = some .waiting ∧ B ∨ u.stages[id]? = t.stages[id]? ∧ ¬B)
    (fresh : B → t.stages[id]? = none) (left : A → AB) (right : ¬A → t.stages[id]? = r.stages[id]? → (B ↔ AB)) :
    u.stages[id]? = some .waiting ∧ AB ∨ u.stages[id]? = r.stages[id]? ∧ ¬AB := by
  rcases first with ⟨queued, a⟩ | ⟨kept, a⟩
  · rcases second with ⟨_, b⟩ | ⟨same, _⟩
    · rw [fresh b] at queued
      cases queued
    · exact .inl ⟨same.trans queued, left a⟩
  · rcases second with ⟨queued, b⟩ | ⟨same, b⟩
    · exact .inl ⟨queued, (right a kept).mp b⟩
    · exact .inr ⟨same.trans kept, mt (right a kept).mpr b⟩

theorem stage_requestAll (g : Graph) (r : Run) (edges : List Edge) (id : NodeId) :
    (edges.foldl (fun r edge => r.request g edge.node) r).stages[id]? = some .waiting ∧ r.Requested g edges id ∨
      (edges.foldl (fun r edge => r.request g edge.node) r).stages[id]? = r.stages[id]? ∧
        ¬r.Requested g edges id := by
  induction edges generalizing r with
  | nil =>
      right
      exact ⟨rfl, fun asked => by simpa using asked.listed⟩
  | cons edge edges ih =>
      have one := stage_request g r edge
      have resolved : ∀ n : NodeId, (r.request g edge.node).stages[n]? = some .resolved ↔
          r.stages[n]? = some .resolved := by
        intro n
        rcases one n with ⟨queued, asked⟩ | ⟨kept, _⟩
        · simp [queued, asked.fresh]
        · rw [kept]
      refine stage_append (one id) (ih (r.request g edge.node)) (·.fresh) ?_ ?_
      · rintro ⟨fresh, ready, factory, other, member, named⟩
        exact ⟨fresh, ready, factory, edge, List.mem_cons_self, List.mem_singleton.mp member ▸ named⟩
      · intro refused kept
        constructor
        · rintro ⟨fresh, ready, factory, other, member, named⟩
          exact ⟨kept ▸ fresh, fun p inside => (resolved p.node).mp (ready p inside), factory, other,
            List.mem_cons_of_mem _ member, named⟩
        · rintro ⟨fresh, ready, factory, other, member, named⟩
          rcases List.mem_cons.mp member with rfl | member
          · exact absurd ⟨fresh, ready, factory, other, List.mem_singleton_self other, named⟩ refused
          · exact ⟨kept.trans fresh, fun p inside => (resolved p.node).mpr (ready p inside), factory, other, member, named⟩

theorem stage_wake (ready : r.Ready g) (caller id : NodeId) :
    (r.wake g caller).stages[id]? = some .waiting ∧ r.Called g [caller] id ∨
      (r.wake g caller).stages[id]? = r.stages[id]? ∧ ¬r.Called g [caller] id := by
  -- with finished producers, a caller has nothing to call but itself
  have self : (∀ edge ∈ g.producers caller, r.stages[edge.node]? = some .resolved) → r.Called g [caller] id →
      id = caller := by
    rintro finished ⟨fresh, _, other, member, _, same | ⟨_, edge, inside, rfl⟩⟩
    · exact same.trans (List.mem_singleton.mp member)
    · rw [List.mem_singleton.mp member] at inside
      rw [finished edge inside] at fresh
      cases fresh
  unfold wake
  split
  next passed =>
      refine .inr ⟨rfl, fun called => ?_⟩
      rcases Bool.or_eq_true_iff.mp passed with came | retired
      · rw [Std.ExtTreeMap.contains_eq_isSome_getElem?] at came
        obtain ⟨stage, came⟩ := Option.isSome_iff_exists.mp came
        obtain rfl := self (ready caller stage came) called
        rw [called.fresh] at came
        cases came
      · obtain ⟨other, member, alive, _⟩ := called.caller
        rw [List.mem_singleton.mp member, retired] at alive
        cases alive
  next passed =>
      simp only [Bool.or_eq_true, not_or, Bool.not_eq_true, contains_stages_eq_false] at passed
      obtain ⟨fresh, alive⟩ := passed
      dsimp only
      split
      next none =>
          have finished : ∀ edge ∈ g.producers caller, r.stages[edge.node]? = some .resolved := by
            intro edge inside
            simpa [isResolved] using List.filter_eq_nil_iff.mp (List.isEmpty_iff.mp none) edge inside
          rw [getElem?_stages_enqueue]
          split
          next here =>
              subst here
              exact .inl ⟨rfl, fresh, finished, id, List.mem_singleton_self id, alive, .inl rfl⟩
          next differs => exact .inr ⟨rfl, fun called => differs (self finished called)⟩
      next waits =>
          have same : r.Requested g ((g.producers caller).filter (!r.isResolved ·.node)) id ↔
              r.Called g [caller] id := by
            constructor
            · rintro ⟨fresh, ready, factory, edge, member, named⟩
              exact ⟨fresh, ready, caller, List.mem_singleton_self caller, alive,
                .inr ⟨factory, edge, List.mem_of_mem_filter member, named⟩⟩
            · rintro ⟨fresh, ready, other, member, _, called⟩
              rw [List.mem_singleton.mp member] at called
              rcases called with rfl | ⟨factory, edge, inside, rfl⟩
              · refine absurd (List.isEmpty_iff.mpr (List.filter_eq_nil_iff.mpr fun edge inside => ?_)) waits
                simp [isResolved, ready edge inside]
              · exact ⟨fresh, ready, factory, edge, List.mem_filter.mpr ⟨inside, by simp [isResolved, fresh]⟩, rfl⟩
          rw [← same]
          exact stage_requestAll g r _ id

theorem resolved_wake (ready : r.Ready g) (caller id : NodeId) :
    (r.wake g caller).stages[id]? = some .resolved ↔ r.stages[id]? = some .resolved := by
  rcases stage_wake ready caller id with ⟨queued, called⟩ | ⟨kept, _⟩
  · simp [queued, called.fresh]
  · rw [kept]

theorem ready_wake (ready : r.Ready g) (caller : NodeId) : (r.wake g caller).Ready g := by
  intro n stage found edge inside
  rw [resolved_wake ready]
  rcases stage_wake ready caller n with ⟨_, called⟩ | ⟨kept, _⟩
  · exact called.ready edge inside
  · exact ready n stage (kept ▸ found) edge inside

/-- Waking queues the nodes that are called and changes nothing else. -/
theorem stage_wakeAll (ready : r.Ready g) (callers : List NodeId) (id : NodeId) :
    (callers.foldl (·.wake g ·) r).stages[id]? = some .waiting ∧ r.Called g callers id ∨
      (callers.foldl (·.wake g ·) r).stages[id]? = r.stages[id]? ∧ ¬r.Called g callers id := by
  induction callers generalizing r with
  | nil =>
      right
      exact ⟨rfl, fun called => by simpa using called.caller⟩
  | cons caller callers ih =>
      have resolved := resolved_wake ready caller
      refine stage_append (stage_wake ready caller id) (ih (ready_wake ready caller)) (·.fresh) ?_ ?_
      · rintro ⟨fresh, ready, other, member, called⟩
        exact ⟨fresh, ready, caller, List.mem_cons_self, List.mem_singleton.mp member ▸ called⟩
      · intro refused kept
        constructor
        · rintro ⟨fresh, ready, other, member, called⟩
          exact ⟨kept ▸ fresh, fun p inside => (resolved p.node).mp (ready p inside), other,
            List.mem_cons_of_mem _ member, called⟩
        · rintro ⟨fresh, ready, other, member, called⟩
          rcases List.mem_cons.mp member with rfl | member
          · exact absurd ⟨fresh, ready, other, List.mem_singleton_self other, called⟩ refused
          · exact ⟨kept.trans fresh, fun p inside => (resolved p.node).mpr (ready p inside), other, member, called⟩

theorem resolved_wakeAll (ready : r.Ready g) (callers : List NodeId) (id : NodeId) :
    (callers.foldl (·.wake g ·) r).stages[id]? = some .resolved ↔ r.stages[id]? = some .resolved := by
  rcases stage_wakeAll ready callers id with ⟨queued, called⟩ | ⟨kept, _⟩
  · simp [queued, called.fresh]
  · rw [kept]

/-- Who is in play after waking: who was before, and who is called. -/
theorem exists_stage_wakeAll (ready : r.Ready g) (callers : List NodeId) (id : NodeId) :
    (∃ stage, (callers.foldl (·.wake g ·) r).stages[id]? = some stage) ↔
      (∃ stage, r.stages[id]? = some stage) ∨ r.Called g callers id := by
  rcases stage_wakeAll ready callers id with ⟨queued, called⟩ | ⟨kept, refused⟩
  · simp [queued, called]
  · simp [kept, refused]

/-! ## Who is in play -/

/-- Something that draws from a factory waits for no operation, or has seen a producer finish. -/
def Wanted (g : Graph) (r : Run) (id : NodeId) : Prop :=
  ∃ edge ∈ g.consumers id, edge.node ∈ g.entries ∨
    ∃ other ∈ g.producers edge.node, r.stages[other.node]? = some .resolved

/-- Nobody who could be in play was forgotten, and no factory came up too early. -/
structure Armed (g : Graph) (r : Run) : Prop where
  woken : ∀ id ∈ g.liveIds, g.isFactory id = false ∨ g.producers id ≠ [] →
    (∀ edge ∈ g.producers id, r.stages[edge.node]? = some .resolved) → ∃ stage, r.stages[id]? = some stage
  asked : ∀ id, g.isFactory id → g.producers id = [] → ((∃ stage, r.stages[id]? = some stage) ↔ r.Wanted g id)

theorem Armed.congr (armed : r.Armed g)
    (played : ∀ id : NodeId, (∃ stage, s.stages[id]? = some stage) ↔ ∃ stage, r.stages[id]? = some stage)
    (resolved : ∀ id : NodeId, s.stages[id]? = some .resolved ↔ r.stages[id]? = some .resolved) : s.Armed g where
  woken id alive fit finished :=
    (played id).mpr (armed.woken id alive fit fun edge inside => (resolved edge.node).mp (finished edge inside))
  asked id factory free := by
    rw [played, armed.asked id factory free]
    simp only [Wanted, resolved]

theorem armed_start (joined : g.Joined) (floor : Floorplan) : (start g floor).Armed g := by
  have ready : ({ floor } : Run).Ready g := by simp [Ready]
  have played := exists_stage_wakeAll ready g.entries
  have resolved := resolved_wakeAll ready g.entries
  have alive : ∀ {id}, id ∈ g.entries → g.isRetired id = false ∧ g.isFactory id = false := by
    intro id entry
    obtain ⟨node, member, rfl⟩ := List.mem_map.mp entry
    obtain ⟨live, operation⟩ := List.mem_filter.mp member
    obtain ⟨found, alive⟩ := (Graph.mem_live_of_numbered joined.numbered).mp live
    rw [Graph.isRetired_of_node? found, Graph.isFactory_of_node? found]
    exact ⟨alive, by simpa using (Bool.and_eq_true_iff.mp operation).1⟩
  constructor
  case woken =>
    intro id live fit finished
    have free : g.producers id = [] := by
      refine List.eq_nil_iff_forall_not_mem.mpr fun edge inside => ?_
      simpa using (resolved edge.node).mp (finished edge inside)
    have entry := joined.mem_entries live (fit.resolve_right (not_not_intro free)) (by simp [free])
    exact (played id).mpr (.inr ⟨by simp, by simp [free], id, entry, (alive entry).1, .inl rfl⟩)
  case asked =>
    intro id factory free
    simp only [start, played, Wanted, resolved]
    constructor
    · rintro (⟨stage, came⟩ | ⟨_, _, caller, entry, _, rfl | ⟨_, ⟨symbol, _⟩, inside, rfl⟩⟩)
      · simp at came
      · rw [(alive entry).2] at factory
        cases factory
      · exact ⟨⟨symbol, caller⟩, joined.mirrored.mpr inside, .inl entry⟩
    · rintro ⟨⟨symbol, caller⟩, inside, entry | ⟨other, _, impossible⟩⟩
      · have reads := joined.mirrored.mp inside
        exact .inr ⟨by simp, by simp [free], caller, entry, (alive entry).1, .inr ⟨factory, _, reads, rfl⟩⟩
      · simp at impossible

/-- A node that is finished after the counters are lowered was finished before, or its time is up. -/
theorem Progress.resolved_countDown_iff {life : NodeId → Life} {lag : Nat} {new gone : List NodeId}
    (progress : r.Progress g lag new gone life) (id : NodeId) :
    r.countDown.stages[id]? = some .resolved ↔ r.stages[id]? = some .resolved ∨ id ∈ r.expiring := by
  rw [mem_expiring]
  rcases progress.stage_countDown id with ⟨n, stage, active, counter, counted⟩ | ⟨idle, _, same⟩
  · rw [counted, stage, counter]
    by_cases last : n ≤ 1 <;> simp [active, last]
  · simp [same, idle]

theorem Progress.exists_stage_countDown {life : NodeId → Life} {lag : Nat} {new gone : List NodeId}
    (progress : r.Progress g lag new gone life) (id : NodeId) :
    (∃ stage, r.countDown.stages[id]? = some stage) ↔ ∃ stage, r.stages[id]? = some stage := by
  rcases progress.stage_countDown id with ⟨n, stage, _, _, counted⟩ | ⟨_, _, same⟩
  · simp [counted, stage]
  · rw [same]

section Turnover

variable {life : NodeId → Life} (history : r.History g 1 [] [] life)
include history

theorem resolved_turnover (id : NodeId) :
    (r.turnover g).stages[id]? = some .resolved ↔ r.stages[id]? = some .resolved ∨ id ∈ r.expiring := by
  obtain ⟨floor, released⟩ := releaseAll_eq g r.countDown r.expiring
  have ready : ({ r.countDown with floor } : Run).Ready g := history.countDown.ready
  rw [turnover_eq, released, resolved_wakeAll ready]
  exact history.resolved_countDown_iff id

/-- The callers of a cycle are the readers of the nodes that finish in it. -/
theorem exists_stage_turnover (joined : g.Joined) (id : NodeId) :
    (∃ stage, (r.turnover g).stages[id]? = some stage) ↔ (∃ stage, r.stages[id]? = some stage) ∨
      r.stages[id]? = none ∧ (∀ edge ∈ g.producers id, (r.turnover g).stages[edge.node]? = some .resolved) ∧
      ∃ caller, (∃ edge ∈ g.producers caller, edge.node ∈ r.expiring) ∧
        (id = caller ∨ g.isFactory id ∧ ∃ edge ∈ g.producers caller, edge.node = id) := by
  have callers : ∀ {id}, id ∈ (r.expiring.flatMap g.consumers).map (·.node) ↔
      ∃ edge ∈ g.producers id, edge.node ∈ r.expiring := by
    intro id
    simp only [List.mem_map, List.mem_flatMap]
    constructor
    · rintro ⟨⟨symbol, _⟩, ⟨producer, expires, listed⟩, rfl⟩
      exact ⟨⟨symbol, producer⟩, joined.mirrored.mp listed, expires⟩
    · rintro ⟨⟨symbol, producer⟩, inside, expires⟩
      exact ⟨⟨symbol, id⟩, ⟨producer, expires, joined.mirrored.mpr inside⟩, rfl⟩
  have came : ∀ {id : NodeId}, r.countDown.stages[id]? = none ↔ r.stages[id]? = none := by
    intro id
    have same := not_congr (history.exists_stage_countDown id)
    simpa [Option.eq_none_iff_forall_ne_some] using same
  have finished : ∀ {id : NodeId}, r.countDown.stages[id]? = some .resolved ↔
      (r.turnover g).stages[id]? = some .resolved :=
    (history.resolved_countDown_iff _).trans (resolved_turnover history _).symm
  obtain ⟨floor, released⟩ := releaseAll_eq g r.countDown r.expiring
  have ready : ({ r.countDown with floor } : Run).Ready g := history.countDown.ready
  have played := exists_stage_wakeAll ready ((r.expiring.flatMap g.consumers).map (·.node)) id
  rw [← released, ← turnover_eq, released] at played
  refine played.trans (or_congr (history.exists_stage_countDown id) ⟨?_, ?_⟩)
  · rintro ⟨fresh, ready, caller, member, _, called⟩
    exact ⟨came.mp fresh, fun edge inside => finished.mp (ready edge inside), caller, callers.mp member, called⟩
  · rintro ⟨fresh, ready, caller, ⟨edge, inside, expires⟩, called⟩
    have alive := ((Graph.mem_liveIds joined.numbered).mp (joined.reader_live inside)).2
    exact ⟨came.mpr fresh, fun edge inside => finished.mpr (ready edge inside), caller,
      callers.mpr ⟨edge, inside, expires⟩, alive, called⟩

/-- Whoever gets ready in a cycle waited for a node that finishes in it, and is woken by that node. -/
theorem armed_turnover (joined : g.Joined) (armed : r.Armed g) : (r.turnover g).Armed g := by
  have played := exists_stage_turnover history joined
  have resolved := resolved_turnover (g := g) history
  constructor
  case woken =>
    intro id live fit done
    rw [played]
    by_cases came : ∃ stage, r.stages[id]? = some stage
    · exact .inl came
    · -- some producer was not finished before, or the node would have come up before
      have late : ∃ edge ∈ g.producers id, r.stages[edge.node]? ≠ some .resolved := by
        by_contra early
        simp only [not_exists, not_and, not_not] at early
        exact came (armed.woken id live fit early)
      obtain ⟨edge, inside, late⟩ := late
      have expires := ((resolved edge.node).mp (done edge inside)).resolve_left late
      refine .inr ⟨?_, done, id, ⟨edge, inside, expires⟩, .inl rfl⟩
      exact Option.eq_none_iff_forall_ne_some.mpr fun stage found => came ⟨stage, found⟩
  case asked =>
    intro id factory free
    have old := armed.asked id factory free
    rw [played]
    constructor
    · rintro (came | ⟨_, _, caller, ⟨producer, waits, expires⟩, rfl | ⟨_, ⟨symbol, _⟩, inside, rfl⟩⟩)
      · obtain ⟨edge, reads, entry | ⟨producer, inside, done⟩⟩ := old.mp came
        · exact ⟨edge, reads, .inl entry⟩
        · exact ⟨edge, reads, .inr ⟨producer, inside, (resolved producer.node).mpr (.inl done)⟩⟩
      · rw [free] at waits
        cases waits
      · exact ⟨⟨symbol, caller⟩, joined.mirrored.mpr inside,
          .inr ⟨producer, waits, (resolved producer.node).mpr (.inr expires)⟩⟩
    · rintro ⟨⟨symbol, caller⟩, reads, reason⟩
      by_cases came : ∃ stage, r.stages[id]? = some stage
      · exact .inl came
      · have unwanted := mt old.mpr came
        rcases reason with entry | ⟨producer, waits, done⟩
        · exact absurd ⟨_, reads, .inl entry⟩ unwanted
        · rcases (resolved producer.node).mp done with early | expires
          · exact absurd ⟨_, reads, .inr ⟨producer, waits, early⟩⟩ unwanted
          · refine .inr ⟨?_, by simp [free], caller, ⟨producer, waits, expires⟩,
              .inr ⟨factory, _, joined.mirrored.mp reads, rfl⟩⟩
            exact Option.eq_none_iff_forall_ne_some.mpr fun stage found => came ⟨stage, found⟩

end Turnover

/-! ## Every cycle -/

/-- Taking turns moves waiting nodes on and touches nobody else. -/
theorem stage_admission (queued : r.Queued) (h : r.admission g = .ok s) (id : NodeId) :
    s.stages[id]? = r.stages[id]? ∨ r.stages[id]? = some .waiting ∧ ∃ n, s.stages[id]? = some (.active n) := by
  refine admission_induction (P := fun t => ∀ id : NodeId, t.stages[id]? = r.stages[id]? ∨
    r.stages[id]? = some .waiting ∧ ∃ n, t.stages[id]? = some (.active n)) queued ?_ ?_ ?_ h id
  · exact fun _ => .inl rfl
  · exact fun _ _ holds => holds
  · intro t placed node patches asked floor holds waits _ other
    rw [getElem?_stages_settle]
    split
    next here =>
        subst here
        rcases holds other with same | ⟨_, n, moved⟩
        · exact .inr ⟨same ▸ waits, _, rfl⟩
        · rw [waits] at moved
          cases moved
    · exact holds other

theorem armed_step {limit : Nat} {life : NodeId → Life} (joined : g.Joined) (history : r.History g 1 [] [] life)
    (armed : r.Armed g) (h : r.step g limit = .again s) : s.Armed g := by
  obtain ⟨t, admitted, last⟩ := step_eq_again h
  have stages := stage_admission history.queued_turnover admitted
  have closed : s.stages = t.stages := by
    obtain ⟨idle, rfl⟩ := close_eq_again last
    rfl
  refine (armed_turnover history joined armed).congr (fun id => ?_) (fun id => ?_)
  all_goals
    rw [closed]
    rcases stages id with same | ⟨waits, n, moved⟩
    · rw [same]
    · simp [waits, moved]

theorem armed_of_reaches {f : Floorplan} {limit : Nat} (joined : g.Joined)
    (reached : Reaches (step g limit) (start g f) r) : r.Armed g := by
  induction reached with
  | refl => exact armed_start joined f
  | tail reached next ih =>
      obtain ⟨life, history⟩ := history_of_reaches reached
      exact armed_step joined history ih next

/-- Only entries come up, nodes that another one lists as a consumer, and nodes that another one reads. -/
theorem named_of_reaches {f : Floorplan} {limit : Nat} (reached : Reaches (step g limit) (start g f) r)
    (came : ∃ stage, r.stages[id]? = some stage) :
    id ∈ g.entries ∨ (∃ n, ∃ edge ∈ g.consumers n, edge.node = id) ∨ ∃ n, ∃ edge ∈ g.producers n, edge.node = id := by
  induction reached generalizing id with
  | refl =>
      have ready : ({ floor := f } : Run).Ready g := by simp [Ready]
      rcases (exists_stage_wakeAll ready g.entries id).mp came with ⟨stage, found⟩ | called
      · simp at found
      · obtain ⟨caller, entry, _, rfl | ⟨_, edge, inside, rfl⟩⟩ := called.caller
        · exact .inl entry
        · exact .inr (.inr ⟨caller, edge, inside, rfl⟩)
  | @tail before after reached next ih =>
      obtain ⟨life, history⟩ := history_of_reaches reached
      obtain ⟨t, admitted, last⟩ := step_eq_again next
      obtain ⟨idle, rfl⟩ := close_eq_again last
      have turned : ∃ stage, (before.turnover g).stages[id]? = some stage := by
        rcases stage_admission history.queued_turnover admitted id with same | ⟨waits, _⟩
        · exact same ▸ came
        · exact ⟨_, waits⟩
      obtain ⟨floor, released⟩ := releaseAll_eq g before.countDown before.expiring
      have ready : ({ before.countDown with floor } : Run).Ready g := history.countDown.ready
      rw [turnover_eq, released] at turned
      rcases (exists_stage_wakeAll ready _ id).mp turned with earlier | called
      · exact ih ((history.exists_stage_countDown id).mp earlier)
      · obtain ⟨caller, member, _, rfl | ⟨_, edge, inside, rfl⟩⟩ := called.caller
        · obtain ⟨edge, listed, rfl⟩ := List.mem_map.mp member
          obtain ⟨producer, _, listed⟩ := List.mem_flatMap.mp listed
          exact .inr (.inl ⟨producer, edge, listed, rfl⟩)
        · exact .inr (.inr ⟨caller, edge, inside, rfl⟩)

/-- In a joined graph all of them are live. -/
theorem live_of_reaches {f : Floorplan} {limit : Nat} (joined : g.Joined)
    (reached : Reaches (step g limit) (start g f) r) (came : ∃ stage, r.stages[id]? = some stage) : id ∈ g.liveIds := by
  rcases named_of_reaches reached came with entry | ⟨n, ⟨symbol, _⟩, listed, rfl⟩ | ⟨n, edge, reads, rfl⟩
  · obtain ⟨node, member, rfl⟩ := List.mem_map.mp entry
    exact List.mem_map_of_mem (List.mem_of_mem_filter member)
  · exact joined.reader_live (joined.mirrored.mp listed)
  · exact joined.producer_live reads

/-- The queue misses no waiting node. -/
def Lossless (r : Run) : Prop := ∀ id, r.stages[id]? = some .waiting → id ∈ r.waiting

theorem Lossless.enqueue (lossless : r.Lossless) (id : NodeId) : (r.enqueue id).Lossless := by
  intro other waits
  rw [getElem?_stages_enqueue] at waits
  split at waits
  next here => exact List.mem_append_right _ (List.mem_singleton.mpr here)
  · exact List.mem_append_left _ (lossless other waits)

theorem Lossless.countDown {life : NodeId → Life} (lossless : r.Lossless) (history : r.History g 1 [] [] life) :
    r.countDown.Lossless := by
  intro id waits
  rcases history.stage_countDown id with ⟨n, _, _, _, counted⟩ | ⟨_, _, same⟩
  · rw [counted] at waits
    split at waits <;> cases waits
  · exact lossless id (same ▸ waits)

theorem Lossless.turnover {life : NodeId → Life} (lossless : r.Lossless) (history : r.History g 1 [] [] life) :
    (r.turnover g).Lossless :=
  turnover_induction (lossless.countDown history) (fun _ _ _ lossless _ _ => lossless)
    (fun _ id lossless _ => lossless.enqueue id)

theorem Lossless.settle {node : Node} {patches : List Coord} {start : Nat} {floor : Floorplan}
    (lossless : r.Lossless) (id : NodeId) : (r.settle id node patches start floor).Lossless := by
  intro other waits
  rw [getElem?_stages_settle] at waits
  split at waits
  · cases waits
  · exact lossless other waits

/-- A node that is placed is taken from the queue, and only such a node. -/
theorem Lossless.close {limit : Nat} {gone : List NodeId} {life : NodeId → Life} (lossless : r.Lossless)
    (history : r.History g 0 r.admitted gone life) (h : r.close limit gone = .again s) : s.Lossless := by
  obtain ⟨idle, rfl⟩ := close_eq_again h
  intro id waits
  have unplaced := history.not_mem_new (.inr waits)
  exact List.mem_filter.mpr ⟨lossless id waits, by simpa using unplaced⟩

theorem Lossless.step {limit : Nat} {life : NodeId → Life} (lossless : r.Lossless)
    (history : r.History g 1 [] [] life) (h : r.step g limit = .again s) : s.Lossless := by
  refine step_induction h (P := Lossless) (Q := fun t => t.Lossless ∧ t.History g 0 [] r.expiring life)
    (R := fun t => t.Lossless ∧ ∃ life, t.History g 0 t.admitted r.expiring life) ?_ ?_ ?_ ?_ ?_ ?_ ?_ ?_
  · exact ⟨lossless.countDown history, history.countDown⟩
  · exact fun t id node holds _ _ => ⟨holds.1, holds.2.floor _⟩
  · exact fun t id holds wakes => ⟨holds.1.enqueue id, holds.2.enqueue wakes⟩
  · exact fun t holds => ⟨holds.2.distinct.2.1, fun id member => holds.2.queued id member List.not_mem_nil⟩
  · exact fun t holds => ⟨fun id waits => mem_sortBy.mpr (holds.1 id waits), life, holds.2.opened⟩
  · rintro t pending ⟨lossless, life, history⟩
    exact ⟨lossless, life, history.floor _⟩
  · rintro t id node patches asked floor ⟨lossless, life, history⟩ waits admits
    exact ⟨lossless.settle id, _, history.admits waits admits⟩
  · rintro t u ⟨lossless, life, history⟩ closed
    exact lossless.close history closed

theorem lossless_of_reaches {f : Floorplan} {limit : Nat} (reached : Reaches (step g limit) (start g f) r) :
    r.Lossless := by
  induction reached with
  | refl =>
      exact wakeAll_induction (P := Lossless) (fun _ id lossless _ => lossless.enqueue id) (by simp [Lossless]) g.entries
  | tail reached next ih =>
      obtain ⟨life, history⟩ := history_of_reaches reached
      exact ih.step history next

/-! ## The end of a run -/

section Exit

variable {f : Floorplan} {limit : Nat} (reached : Reaches (step g limit) (start g f) r)
  (drained : r.waiting = []) (idle : r.active = [])
include reached drained idle

/-- With nobody waiting and nobody active, whoever came up is finished. -/
theorem resolved_of_stage {stage : Stage} (found : r.stages[id]? = some stage) : r.stages[id]? = some .resolved := by
  obtain ⟨life, history⟩ := history_of_reaches reached
  cases stage with
  | waiting =>
      have queued := lossless_of_reaches reached id found
      rw [drained] at queued
      cases queued
  | active n =>
      have active := (history.counted id).mpr ⟨n, found⟩
      rw [idle] at active
      cases active
  | resolved => exact found

variable (joined : g.Joined) {rank : NodeId → Nat} (ranks : g.Ranks rank)
include joined ranks

/-- Operations and refills are finished, by induction on what they wait for. -/
theorem resolved_of_rank (live : id ∈ g.liveIds)
    (fit : g.isFactory id = false ∨ g.producers id ≠ []) : r.stages[id]? = some .resolved := by
  have armed := armed_of_reaches joined reached
  induction level : rank id using Nat.strongRecOn generalizing id with
  | ind level ih =>
      subst level
      have earlier : ∀ edge ∈ g.producers id, g.isFactory edge.node = false ∨ g.producers edge.node ≠ [] →
          r.stages[edge.node]? = some .resolved :=
        fun edge inside fit => ih _ (ranks id edge inside) (joined.producer_live inside) fit rfl
      obtain ⟨stage, found⟩ : ∃ stage, r.stages[id]? = some stage := by
        refine armed.woken id live fit fun edge inside => ?_
        by_cases free : g.isFactory edge.node ∧ g.producers edge.node = []
        · -- a factory that waits for nothing is wanted by this node
          obtain ⟨factory, free⟩ := free
          have operation := (joined.drawn inside factory).2
          have wanted : r.Wanted g edge.node := by
            refine ⟨⟨edge.symbol, id⟩, joined.mirrored.mpr inside, ?_⟩
            by_cases fed : ∀ edge ∈ g.producers id, g.isFactory edge.node
            · exact .inl (joined.mem_entries live operation fed)
            · simp only [not_forall, Bool.not_eq_true] at fed
              obtain ⟨other, reads, produced⟩ := fed
              exact .inr ⟨other, reads, earlier other reads (.inl produced)⟩
          obtain ⟨stage, found⟩ := (armed.asked edge.node factory free).mpr wanted
          exact resolved_of_stage reached drained idle found
        · refine earlier edge inside ?_
          by_cases factory : g.isFactory edge.node
          · exact .inr fun none => free ⟨factory, none⟩
          · exact .inl (Bool.eq_false_iff.mpr factory)
      exact resolved_of_stage reached drained idle found

theorem resolved_of_drained (fed : g.Fed) (live : id ∈ g.liveIds) :
    r.stages[id]? = some .resolved := by
  by_cases free : g.isFactory id ∧ g.producers id = []
  · -- what draws from the factory is finished, so the factory was before
    obtain ⟨factory, _⟩ := free
    obtain ⟨⟨symbol, reader⟩, listed⟩ := List.exists_mem_of_ne_nil _ (fed id live factory)
    have inside := joined.mirrored.mp listed
    have operation := (joined.drawn inside factory).2
    have found := resolved_of_rank reached drained idle joined ranks (joined.reader_live inside) (.inl operation)
    obtain ⟨life, history⟩ := history_of_reaches reached
    exact history.ready reader _ found _ inside
  · refine resolved_of_rank reached drained idle joined ranks live ?_
    by_cases factory : g.isFactory id
    · exact .inr fun none => free ⟨factory, none⟩
    · exact .inl (Bool.eq_false_iff.mpr factory)

theorem finish_of_drained (fed : g.Fed) :
    r.finish g = .ok ({ cycles := r.records.toList.filter (!·.isIdle), routes := r.routes }, r.floor) := by
  have none : g.liveIds.filter (!r.isResolved ·) = [] := by
    refine List.filter_eq_nil_iff.mpr fun id live => ?_
    simp [isResolved, resolved_of_drained reached drained idle joined ranks fed live]
  simp [finish, none]

end Exit

end Run

/-- After the first part of every cycle exactly those are in play who can be: operations and refills whose
    producers are all finished, and other factories that somebody is about to draw from. The queue holds the
    waiting nodes, each once. So a run whose queue and patches are empty has finished every live node. -/
theorem ready_of_reaches {b : Builder} {g : Graph} (reachable : b.Reachable) (plain : b.graph.Plain)
    (yields : b.Yields g) {f : Floorplan} {limit : Nat} {r : Run} (reached : Reaches (Run.step g limit) (Run.start g f) r) :
    (∀ id ∈ g.liveIds, g.isFactory id = false ∨ g.producers id ≠ [] →
      (id ∈ (r.turnover g).stages ↔ ∀ edge ∈ g.producers id, (r.turnover g).isResolved edge.node)) ∧
    (∀ id ∈ g.liveIds, g.isFactory id → g.producers id = [] →
      (id ∈ (r.turnover g).stages ↔ ∃ edge ∈ g.consumers id, edge.node ∈ g.entries ∨
        ∃ other ∈ g.producers edge.node, (r.turnover g).isResolved other.node)) ∧
    (r.turnover g).waiting.Nodup ∧
    (∀ id, id ∈ (r.turnover g).waiting ↔ (r.turnover g).stages[id]? = some .waiting) ∧
    (r.waiting = [] → r.active = [] → (∀ id ∈ g.liveIds, r.isResolved id) ∧
      r.step g limit
        = .done (.ok ({ cycles := r.records.toList.filter (!·.isIdle), routes := r.routes }, r.floor))) := by
  have joined := yields.joined reachable plain
  obtain ⟨_, formed⟩ := yields.formed reachable plain
  obtain ⟨rank, ranks⟩ := formed.acyclic
  obtain ⟨life, history⟩ := Run.history_of_reaches reached
  have turned := history.turnover (g := g)
  have armed := Run.armed_turnover history joined (Run.armed_of_reaches joined reached)
  have lossless := (Run.lossless_of_reaches reached).turnover history
  simp only [Run.isResolved, beq_iff_eq, Std.ExtTreeMap.mem_iff_isSome_getElem?, Option.isSome_iff_exists]
  refine ⟨fun id live fit => ⟨?_, armed.woken id live fit⟩, fun id _ => armed.asked id, turned.distinct.2.1, ?_, ?_⟩
  · rintro ⟨stage, found⟩
    exact turned.ready id stage found
  · exact fun id => ⟨fun member => turned.queued id member List.not_mem_nil, lossless id⟩
  · intro drained idle
    refine ⟨fun id => Run.resolved_of_drained reached drained idle joined ranks (yields.fed reachable plain), ?_⟩
    rw [Run.step, if_pos (by simp [drained, idle]),
      Run.finish_of_drained reached drained idle joined ranks (yields.fed reachable plain)]

/-- In the second cycle the factory comes up for the gate that drew first, and its refill does not yet,
    although the other gate wants it; in the end all are finished. -/
theorem ready_of_reaches_pair :
    ∃ (b : Builder) (chains : Chains) (g : Graph) (early late : Run), b.Reachable ∧ b.graph.Plain ∧
      b.graph.bindInstances 1 [⟨"T", 3⟩] = .ok (chains, g) ∧
      Reaches (Run.step g 3) (Run.start g pairFloor) early ∧ early.cycle = 1 ∧ 6 ∈ (early.turnover g).stages ∧
      7 ∉ (early.turnover g).stages ∧ 6 ∈ (early.turnover g).waiting ∧
      Reaches (Run.step g 3) (Run.start g pairFloor) late ∧ late.waiting = [] ∧ late.active = [] ∧
      (∀ id ∈ g.liveIds, late.isResolved id) ∧ ∃ result, late.step g 3 = .done (.ok result) := by
  have runs : pairOfGates.toOption.any fun b =>
      (b.graph.bindInstances 1 [⟨"T", 3⟩]).toOption.any fun bound =>
        (advance (Run.step bound.2 3) 1 (Run.start bound.2 pairFloor)).any fun early =>
          (advance (Run.step bound.2 3) 12 (Run.start bound.2 pairFloor)).any fun late =>
            decide b.graph.Plain
              && bound.2.liveIds == [0, 1, 3, 4, 5, 6, 7] && bound.2.isFactory 6 && bound.2.producers 6 == []
              && bound.2.consumers 6 == [⟨"T#0", 3⟩] && bound.2.producers 3 == [⟨"a", 0⟩, ⟨"T#0", 6⟩]
              && bound.2.producers 7 == [⟨"T#0", 3⟩] && early.cycle == 1
              && (early.turnover bound.2).isResolved 0 && !(early.turnover bound.2).isResolved 3
              && (early.turnover bound.2).stages[6]? == some .waiting
              && late.waiting == [] && late.active == [] := by decide +kernel
  obtain ⟨b, built, runs⟩ := exists_ok_of_any runs
  obtain ⟨⟨chains, g⟩, bound, runs⟩ := exists_ok_of_any runs
  obtain ⟨early, first, runs⟩ := (Option.any_eq_true _ _).mp runs
  obtain ⟨late, last, runs⟩ := (Option.any_eq_true _ _).mp runs
  simp only [Bool.and_eq_true, beq_iff_eq, Bool.not_eq_true', decide_eq_true_eq] at runs
  obtain ⟨⟨⟨⟨⟨⟨⟨⟨⟨⟨⟨⟨plain, live⟩, factory⟩, free⟩, reader⟩, reads⟩, refill⟩, cycle⟩, finished⟩, running⟩, waits⟩,
    drained⟩, idle⟩ := runs
  have reachable := reachable_pairOfGates built
  have before := reaches_of_advance first
  have after := reaches_of_advance last
  obtain ⟨ready, asked, _, queue, _⟩ := ready_of_reaches reachable plain (.bound bound) before
  obtain ⟨_, _, _, _, ends⟩ := ready_of_reaches reachable plain (.bound bound) after
  obtain ⟨all, done⟩ := ends drained idle
  refine ⟨b, chains, g, early, late, reachable, plain, bound, before, cycle, ?_, ?_, (queue 6).mpr waits, after,
    drained, idle, all, _, done⟩
  · refine (asked 6 (by simp [live]) factory free).mpr ⟨⟨"T#0", 3⟩, by simp [reader], .inr ⟨⟨"a", 0⟩, ?_, finished⟩⟩
    simp [reads]
  · intro early
    have done := (ready 7 (by simp [live]) (.inr (by simp [refill]))).mp early ⟨"T#0", 3⟩ (by simp [refill])
    rw [running] at done
    cases done

end LatticeSurgery
