import LatticeSurgery.Proofs.Chains.Service
import LatticeSurgery.Proofs.Graph.LastWriter

/-! # Operations that draw their state

An operation that is added as a magic-state operation draws its state from the source of that state, unless it acts on
an exclusive resource of the same name. Whatever is built after it, it is not admitted without a unit of the state, and
every plan serves it one. If it does act on such a resource it draws nothing, and is planned without any factory.
-/

namespace LatticeSurgery

namespace Graph

/-- A node draws a state: it reads the source of the state, needs a unit to be admitted, and gets one in every plan. -/
structure Draws (g : Graph) (id : NodeId) (state : Symbol) : Prop where
  edge : ∃ source, g.sources[state]? = some source ∧ ⟨state, source⟩ ∈ g.producers id
  drawn : ∃ node, g.node? id = some node ∧ state ∈ g.drawn node
  held : ∀ node, g.node? id = some node → ∀ (capacity : Nat) (s : Sweep), s.admits g capacity node →
    0 < s.pool.inventory state
  served : ∀ (capacity : Nat) (factories : List Factory) (plan : Plan), g.schedule capacity factories = .ok plan →
    ∃ unit ∈ (Pool.new factories).units, (id, unit) ∈ plan.served ∧ unit.symbol = state

/-- A node leaves a state alone: the state is no magic state, so there is nothing to draw. -/
structure Spares (g : Graph) (id : NodeId) (state : Symbol) : Prop where
  exclusive : g.kind? state = some .exclusive
  sourceless : g.sources[state]? = none
  undrawn : ∀ node, g.node? id = some node → state ∉ g.drawn node
  unserved : ∀ (capacity : Nat) (factories : List Factory) (plan : Plan), g.schedule capacity factories = .ok plan →
    ∀ unit, (id, unit) ∈ plan.served → unit.symbol ≠ state

variable {g : Graph} {id : NodeId} {node : Node} {state : Symbol}

theorem inventory_of_admits {s : Sweep} {capacity : Nat} (admitted : s.admits g capacity node)
    (drawn : state ∈ g.drawn node) : 0 < s.pool.inventory state := by
  obtain ⟨edge, member, draws, rfl⟩ := mem_drawn.mp drawn
  simp only [Sweep.admits, Bool.and_eq_true, List.all_eq_true] at admitted
  simpa [Sweep.meets, draws] using admitted.2 edge member

theorem Wired.draws (wired : g.Wired) (magic : g.kind? state = some .magicState) (found : g.node? id = some node)
    (operation : node.isFactory = false) (target : state ∈ node.targets) : g.Draws id state := by
  obtain ⟨source, supplied⟩ := wired.supplied.mp magic
  obtain ⟨isMagic, factory⟩ := wired.isMagic_of_source supplied
  have edge : ⟨state, source⟩ ∈ node.producers := by
    rw [wired.producers_eq found operation]
    exact List.mem_filterMap.mpr ⟨state, target, by simp [origin?, isMagic, supplied]⟩
  have drawn : state ∈ g.drawn node := mem_drawn.mpr ⟨_, edge, by simp [isDraw, isMagic, factory], rfl⟩
  refine ⟨⟨source, supplied, producers_of_node? found ▸ edge⟩, ⟨node, found, drawn⟩, ?_, ?_⟩
  · intro other there capacity s admitted
    obtain rfl := Option.some.inj (found.symm.trans there)
    exact inventory_of_admits admitted drawn
  · intro capacity factories plan scheduled
    have serves := wired.serves_of_schedule scheduled
    obtain rfl := wired.id_eq found
    obtain ⟨unit, served, same⟩ := serves.complete node (wired.mem_live.mpr found) state drawn
    exact ⟨unit, (serves.members _ _ served).1, served, same⟩

theorem Wired.spares (wired : g.Wired) (exclusive : g.kind? state = some .exclusive) (id : NodeId) :
    g.Spares id state := by
  have plain : ¬ g.isMagic state := by simp [isMagic, exclusive]
  refine ⟨exclusive, ?_, fun node _ drawn => plain (isMagic_of_mem_drawn drawn), ?_⟩
  · cases source : g.sources[state]? with
    | none => rfl
    | some source => exact absurd (wired.isMagic_of_source ‹_›).1 plain
  · rintro capacity factories plan scheduled unit served rfl
    obtain ⟨_, node, _, _, drawn⟩ := (wired.serves_of_schedule scheduled).members id unit served
    exact plain (isMagic_of_mem_drawn drawn)

end Graph

namespace Builder

variable {b c : Builder} {op : Operation} {targets : List Symbol} {cycles : Nat} {id : NodeId}

/-- The calls that add a magic-state operation. -/
inductive AddsMagic (b : Builder) (op : Operation) (targets : List Symbol) (id : NodeId) (c : Builder) : Prop where
  | lasting (cycles : Nat) : b.addLasting op targets true cycles = .ok (id, c) → AddsMagic b op targets id c
  | usual : b.add op targets true = .ok (id, c) → AddsMagic b op targets id c
  | gate : op.magicState.isSome → b.addGate op targets = .ok (id, c) → AddsMagic b op targets id c

theorem AddsMagic.exists_addLasting (adds : b.AddsMagic op targets id c) :
    ∃ cycles, b.addLasting op targets true cycles = .ok (id, c) := by
  cases adds with
  | lasting cycles added => exact ⟨cycles, added⟩
  | usual added => exact ⟨op.cycles, added⟩
  | gate consumes added =>
      rw [addGate, consumes] at added
      exact ⟨op.cycles, added⟩

theorem stem?_of_attach {base : Builder} {acting : List Symbol} {producers : List Edge}
    (attached : base.attach op acting producers cycles = (id, c)) :
    c.graph.stem? id = some (operationNode id op acting producers cycles) := by
  obtain rfl : (base.attach op acting producers cycles).2 = c := congrArg Prod.snd attached
  obtain rfl : base.graph.nextId = id := (attach_fst ..).symm.trans (congrArg Prod.fst attached)
  rw [stem?_attach, if_pos rfl]

theorem kind?_of_attach {base : Builder} {acting : List Symbol} {producers : List Edge}
    (attached : base.attach op acting producers cycles = (id, c)) (symbol : Symbol) :
    c.graph.kind? symbol = (base.graph.kind? symbol).or (if symbol ∈ acting then some .exclusive else none) := by
  obtain rfl : (base.attach op acting producers cycles).2 = c := congrArg Prod.snd attached
  exact kind?_attach base op acting producers cycles symbol

/-- The new operation acts on its state. The state is a magic state unless a target of the same name was not. -/
theorem Sound.acts_on_state (sound : b.Sound) (added : b.addLasting op targets true cycles = .ok (id, c)) :
    (∃ node, c.graph.stem? id = some node ∧ node.isFactory = false ∧ op.stateSymbol ∈ node.targets) ∧
    c.graph.kind? op.stateSymbol = if op.stateSymbol ∉ targets ∨ b.graph.kind? op.stateSymbol = some .magicState
      then some .magicState else some .exclusive := by
  obtain ⟨-, ⟨target, attached⟩ | ⟨absent, base, -, magic, -, attached⟩⟩ := addLasting_cases sound added
  · have target := target rfl
    refine ⟨⟨_, stem?_of_attach attached, rfl, target⟩, ?_⟩
    rw [kind?_of_attach attached, if_pos target]
    rcases b.graph.kind? op.stateSymbol with _ | _ | _ <;> simp [target]
  · refine ⟨⟨_, stem?_of_attach attached, rfl, List.mem_append_right _ (List.mem_singleton_self _)⟩, ?_⟩
    rw [kind?_of_attach attached, magic]
    simp [absent]

end Builder

/-- A magic-state operation draws its state in everything that is built from then on, unless it acts on a resource of
    that name which is not a magic state. -/
theorem draws_of_addsMagic {b c : Builder} {op : Operation} {targets : List Symbol} {id : NodeId}
    (reachable : b.Reachable) (adds : b.AddsMagic op targets id c) (calls : List Builder.Call) :
    (op.stateSymbol ∉ targets ∨ b.graph.kind? op.stateSymbol = some .magicState →
      (c.performAll calls).graph.Draws id op.stateSymbol) ∧
    (op.stateSymbol ∈ targets → b.graph.kind? op.stateSymbol ≠ some .magicState →
      (c.performAll calls).graph.Spares id op.stateSymbol) := by
  obtain ⟨cycles, added⟩ := adds.exists_addLasting
  obtain ⟨⟨stem, there, operation, target⟩, kind⟩ := reachable.sound.acts_on_state added
  obtain ⟨keeps, later⟩ := Builder.keeps_performAll (reachable.addLasting added) calls
  have wired := later.sound.wired
  constructor
  · intro draws
    rw [if_pos draws] at kind
    obtain ⟨node, found, rfl⟩ := Option.map_eq_some_iff.mp (keeps.nodes id stem there)
    exact wired.draws (keeps.kinds _ _ kind) found operation target
  · intro target exclusive
    rw [if_neg (not_or.mpr ⟨not_not.mpr target, exclusive⟩)] at kind
    exact wired.spares (keeps.kinds _ _ kind) id

/-- A state that is drawn by name, as a target, from a source that an earlier gate brought in. -/
theorem draws_of_addsMagic_named :
    ∃ (b c : Builder) (id : NodeId), b.Reachable ∧ b.graph.kind? "T" = some .magicState ∧
      b.addGate .t ["b", "T"] = .ok (id, c) ∧ (c.performAll [.add .cnot ["a", "b"] false 3]).graph.Draws id "T" := by
  have runs : (((Builder.new "named").declareAll ["a", "b"]).addGates [(.t, ["a"])]).toOption.any fun b =>
      b.graph.kind? "T" == some .magicState && (b.addGate .t ["b", "T"]).toOption.any fun _ => true := by
    decide +kernel
  obtain ⟨b, built, runs⟩ := exists_ok_of_any runs
  obtain ⟨magic, runs⟩ := Bool.and_eq_true_iff.mp runs
  obtain ⟨⟨id, c⟩, added, -⟩ := exists_ok_of_any runs
  have reachable := (Builder.Reachable.declareAll ["a", "b"] (.new "named")).addGates built
  have magic := beq_iff_eq.mp magic
  exact ⟨b, c, id, reachable, magic, added, (draws_of_addsMagic reachable (.gate rfl added) _).1 (.inr magic)⟩

/-- A gate on an input that is named like its state draws nothing, and is planned without a factory. -/
theorem undrawn_of_namesake :
    ∃ (b c : Builder) (id : NodeId) (node : Node) (plan : Plan), b.Reachable ∧ b.AddsMagic .t ["T"] id c ∧
      c.graph.node? id = some node ∧ node.producers = [⟨"T", 0⟩] ∧ c.graph.sources[Operation.t.stateSymbol]? = none ∧
      c.graph.drawn node = [] ∧ c.graph.schedule 1 [] = .ok plan ∧ id ∈ plan.order := by
  have runs : (((Builder.new "namesake").declareAll ["T"]).addGate .t ["T"]).toOption.any fun added =>
      (added.2.graph.node? added.1).any (fun node =>
        node.producers == [⟨"T", 0⟩] && added.2.graph.drawn node == [])
      && added.2.graph.sources[Operation.t.stateSymbol]? == none
      && (added.2.graph.schedule 1 []).toOption.any fun plan => plan.order.contains added.1 := by decide +kernel
  obtain ⟨⟨id, c⟩, added, runs⟩ := exists_ok_of_any runs
  simp only [Bool.and_eq_true, beq_iff_eq] at runs
  obtain ⟨⟨node, sourceless⟩, plan⟩ := runs
  obtain ⟨node, found, reads⟩ := (Option.any_eq_true _ _).mp node
  simp only [Bool.and_eq_true, beq_iff_eq] at reads
  obtain ⟨plan, scheduled, listed⟩ := exists_ok_of_any plan
  exact ⟨_, c, id, node, plan, .declareAll ["T"] (.new "namesake"), .gate rfl added, found, reads.1, sourceless, reads.2,
    scheduled, by simpa using listed⟩

end LatticeSurgery
