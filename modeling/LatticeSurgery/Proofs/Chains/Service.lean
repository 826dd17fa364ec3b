import Std.Data.String.ToNat
import Mathlib.Data.List.Basic
import Mathlib.Data.List.Nodup
import LatticeSurgery.Chains
import LatticeSurgery.Proofs.Plan.Order

/-! # Who is served by which factory

A plan says which factory instance serves each draw. An instance is known by its name: two instances of
different states or ranks have different names, and a name with the mark `#` is never the name of a
resource without it. A plan serves every draw of a graph once.
-/

namespace LatticeSurgery

/-! ## Names of instances -/

theorem mark_not_mem_toString (n : Nat) : '#' ∉ (toString n).toList := by
  intro member
  have digit := Nat.isDigit_of_mem_toDigits (b := 10) (by decide) (by decide) (Nat.toList_repr ▸ member)
  cases digit

/-- No resource of the graph has the mark in its name. -/
def Graph.Plain (g : Graph) : Prop := ∀ symbol, g.kind? symbol ≠ none → '#' ∉ symbol.toList

theorem Graph.plain_iff {g : Graph} : g.Plain ↔ g.kinds.keys.all fun symbol => !symbol.toList.contains '#' := by
  have known : ∀ symbol : Symbol, symbol ∈ g.kinds.keys ↔ g.kind? symbol ≠ none := by
    intro symbol
    rw [Std.ExtTreeMap.mem_keys, Std.ExtTreeMap.mem_iff_isSome_getElem?, Option.isSome_iff_ne_none, kind?]
  simp [Plain, known]

instance (g : Graph) : Decidable g.Plain := decidable_of_iff _ Graph.plain_iff.symm

namespace Draw

theorem toList_instanceSymbol (unit : Draw) :
    unit.instanceSymbol.toList = unit.symbol.toList ++ '#' :: (toString unit.rank).toList := by
  simp [instanceSymbol, String.toList_append]

theorem mark_mem_instanceSymbol (unit : Draw) : '#' ∈ unit.instanceSymbol.toList := by
  simp [toList_instanceSymbol]

theorem instanceSymbol_ne {unit : Draw} {symbol : Symbol} (plain : '#' ∉ symbol.toList) :
    unit.instanceSymbol ≠ symbol := by
  rintro rfl
  exact plain unit.mark_mem_instanceSymbol

/-- The last mark in the name of an instance separates the state from the rank. -/
theorem instanceSymbol_eq_iff {a b : Draw} :
    a.instanceSymbol = b.instanceSymbol ↔ a.symbol = b.symbol ∧ a.rank = b.rank := by
  constructor
  · intro same
    have lists : a.instanceSymbol.toList = b.instanceSymbol.toList := by rw [same]
    rw [toList_instanceSymbol, toList_instanceSymbol] at lists
    obtain ⟨symbols, ranks⟩ :=
      append_cons_inj_of_not_mem (mark_not_mem_toString a.rank) (mark_not_mem_toString b.rank) lists
    have ranks := String.toList_inj.mp ranks
    exact ⟨String.toList_inj.mp symbols, Nat.repr_inj.mp ranks⟩
  · rintro ⟨symbols, ranks⟩
    rw [instanceSymbol, instanceSymbol, symbols, ranks]

end Draw

/-- Factories of one state have different ranks, so each instance has one factory. -/
theorem Pool.eq_of_instanceSymbol {factories : List Factory} {a b : Draw} (first : a ∈ (new factories).units)
    (second : b ∈ (new factories).units) (same : a.instanceSymbol = b.instanceSymbol) : a = b := by
  have apart : (new factories).units.Pairwise fun a b => a.instanceSymbol ≠ b.instanceSymbol := by
    refine (ranked_new factories).imp fun ranked same => ?_
    obtain ⟨symbols, ranks⟩ := Draw.instanceSymbol_eq_iff.mp same
    exact Nat.ne_of_lt (ranked symbols) ranks
  exact List.inj_on_of_nodup_map (List.pairwise_map.mpr apart) first second same

/-! ## Every draw is served once -/

/-- A list of services, each given by the consumer and the unit it got, that covers the draws of a graph. -/
structure Graph.Serves (g : Graph) (units : List Draw) (served : List (NodeId × Draw)) : Prop where
  members : ∀ id unit, (id, unit) ∈ served → unit ∈ units ∧
    ∃ node, g.node? id = some node ∧ node.isFactory = false ∧ unit.symbol ∈ g.drawn node
  distinct : (served.map fun entry => (entry.1, entry.2.symbol)).Nodup
  complete : ∀ node ∈ g.live, ∀ symbol ∈ g.drawn node, ∃ unit, (node.id, unit) ∈ served ∧ unit.symbol = symbol

theorem Plan.mem_served {plan : Plan} {id : NodeId} {unit : Draw} :
    (id, unit) ∈ plan.served ↔ id ∈ plan.order ∧ unit ∈ plan.draws.getD id [] := by
  simp only [served, List.mem_flatMap, List.mem_map, Prod.mk.injEq]
  constructor
  · rintro ⟨_, member, _, inside, rfl, rfl⟩
    exact ⟨member, inside⟩
  · rintro ⟨member, inside⟩
    exact ⟨id, member, unit, inside, rfl, rfl⟩

theorem Graph.Joined.serves_of_schedule {g : Graph} {capacity : Nat} {factories : List Factory} {plan : Plan}
    (joined : g.Joined) {rank : NodeId → Nat} (ranks : g.Ranks rank) (h : g.schedule capacity factories = .ok plan) :
    g.Serves (Pool.new factories).units plan.served := by
  have executed := joined.numbered.executed_of_schedule h
  have admitted : ∀ id ∈ plan.order, ∃ node, g.node? id = some node ∧
      (plan.draws.getD id []).map (·.symbol) = g.drawn node ∧
      ∀ unit ∈ plan.draws.getD id [], unit ∈ (Pool.new factories).units := by
    intro id listed
    have listed := List.mem_reverse.mpr listed
    obtain ⟨node, found⟩ := Graph.lt_nextId_iff.mp (executed.present id listed)
    exact ⟨node, found, executed.served id listed node found⟩
  constructor
  case members =>
    intro id unit member
    obtain ⟨listed, inside⟩ := Plan.mem_served.mp member
    obtain ⟨node, found, symbols, units⟩ := admitted id listed
    have drawn : unit.symbol ∈ g.drawn node := symbols ▸ List.mem_map_of_mem inside
    exact ⟨units unit inside, node, found, joined.not_isFactory_of_mem_drawn found drawn, drawn⟩
  case distinct =>
    have once := List.nodup_reverse.mp executed.sequenced.nodup
    rw [Plan.served, List.map_flatMap]
    refine List.nodup_flatMap.mpr ⟨fun id listed => ?_, once.imp fun differs => ?_⟩
    · obtain ⟨node, found, symbols, _⟩ := admitted id listed
      have drawn := joined.nodup_drawn found
      rw [← symbols] at drawn
      rw [List.map_map]
      refine List.Nodup.of_map Prod.snd ?_
      rw [List.map_map]
      exact drawn
    · intro entry first second
      simp only [List.mem_map] at first second
      obtain ⟨_, ⟨_, _, rfl⟩, rfl⟩ := first
      obtain ⟨_, ⟨_, _, rfl⟩, same⟩ := second
      exact differs (congrArg Prod.fst same).symm
  case complete =>
    intro node live symbol drawn
    have found := ((Graph.mem_live_of_numbered joined.numbered).mp live).1
    have operation := joined.not_isFactory_of_mem_drawn found drawn
    have listed := joined.mem_order_of_schedule ranks h (List.mem_map_of_mem live)
      (.inl (Graph.isFactory_of_node? found ▸ operation))
    obtain ⟨node', found', symbols, _⟩ := admitted node.id listed
    obtain rfl := Option.some.inj (found.symm.trans found')
    rw [← symbols] at drawn
    obtain ⟨unit, inside, rfl⟩ := List.mem_map.mp drawn
    exact ⟨unit, Plan.mem_served.mpr ⟨listed, inside⟩, rfl⟩

theorem Graph.Wired.serves_of_schedule {g : Graph} {capacity : Nat} {factories : List Factory} {plan : Plan}
    (wired : g.Wired) (h : g.schedule capacity factories = .ok plan) :
    g.Serves (Pool.new factories).units plan.served :=
  wired.joined.serves_of_schedule wired.ranks h

/-- There are as many services as draws. -/
theorem Graph.Serves.length_eq {g : Graph} {units : List Draw} {served : List (NodeId × Draw)}
    (serves : g.Serves units served) (wired : g.Wired) :
    served.length = (g.live.flatMap g.drawn).length := by
  have distinct : (g.live.flatMap fun node => (g.drawn node).map fun symbol => (node.id, symbol)).Nodup := by
    refine List.nodup_flatMap.mpr ⟨fun node live => ?_, (Graph.pairwise_live wired.isNumbered).imp fun below => ?_⟩
    · exact (wired.joined.nodup_drawn (wired.mem_live.mp live)).map fun a b same => congrArg Prod.snd same
    · intro entry first second
      obtain ⟨_, _, rfl⟩ := List.mem_map.mp first
      obtain ⟨_, _, same⟩ := List.mem_map.mp second
      exact absurd (congrArg Prod.fst same).symm (Nat.ne_of_lt below)
  have same : (served.map fun entry => (entry.1, entry.2.symbol)).Perm
      (g.live.flatMap fun node => (g.drawn node).map fun symbol => (node.id, symbol)) := by
    refine (List.perm_ext_iff_of_nodup serves.distinct distinct).mpr fun entry => ?_
    simp only [List.mem_map, List.mem_flatMap]
    constructor
    · rintro ⟨⟨id, unit⟩, member, rfl⟩
      obtain ⟨_, node, found, _, drawn⟩ := serves.members id unit member
      obtain rfl := wired.id_eq found
      exact ⟨node, wired.mem_live.mpr found, unit.symbol, drawn, rfl⟩
    · rintro ⟨node, live, symbol, drawn, rfl⟩
      obtain ⟨unit, member, rfl⟩ := serves.complete node live symbol drawn
      exact ⟨(node.id, unit), member, rfl⟩
  have lengths := same.length_eq
  simpa [List.length_flatMap] using lengths

end LatticeSurgery
