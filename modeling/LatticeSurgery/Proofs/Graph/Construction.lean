import LatticeSurgery.Proofs.Graph.Extension

/-! # Graphs under construction

What a sequence of builder calls can lead to. Every call either fails, and then there is no new
builder, or attaches nodes at the end of the graph; attaching keeps the graph wired and the table of
last writers true.
-/

namespace LatticeSurgery

theorem nodup_of_firstRepeated? [DecidableEq α] {seen xs : List α}
    (h : firstRepeated? seen xs = none) : xs.Nodup ∧ ∀ x ∈ xs, x ∉ seen := by
  induction xs generalizing seen with
  | nil => simp
  | cons x xs ih =>
      rw [firstRepeated?] at h
      split at h
      · cases h
      next fresh =>
          obtain ⟨nodup, apart⟩ := ih h
          refine ⟨List.nodup_cons.mpr ⟨fun again => ?_, nodup⟩, fun y hy => ?_⟩
          · exact apart x again (by simp)
          · rcases List.mem_cons.mp hy with rfl | hy
            · exact fresh
            · exact fun old => apart y hy (List.mem_append_left _ old)

/-! ## Attaching a node -/

namespace Builder

/-- An operation apart from its consumers. -/
def operationNode (id : NodeId) (op : Operation) (targets : List Symbol) (producers : List Edge)
    (cycles : Nat) : Node :=
  { id, operation := op, targets, cycles := max cycles 1, producers }

variable (b : Builder) (op : Operation) (targets : List Symbol) (producers : List Edge) (cycles : Nat)

theorem alike_attach : ∃ layer, (b.attach op targets producers cycles).2.graph.Alike
    (((b.graph.registerAll (targets.filter fun target => (b.graph.kind? target).isNone)).link
      b.graph.nextId producers).push
      { operationNode b.graph.nextId op targets producers cycles with layer }) := by
  rw [← Graph.nextId_registerAll b.graph (targets.filter fun target => (b.graph.kind? target).isNone)]
  exact ⟨_, Graph.alike_raiseProducers _ _⟩

theorem attach_fst : (b.attach op targets producers cycles).1 = b.graph.nextId :=
  Graph.nextId_registerAll b.graph _

theorem nextId_attach :
    (b.attach op targets producers cycles).2.graph.nextId = b.graph.nextId + 1 := by
  obtain ⟨layer, alike⟩ := alike_attach b op targets producers cycles
  simp [alike.size]

theorem stem?_attach (n : NodeId) :
    (b.attach op targets producers cycles).2.graph.stem? n
      = if n = b.graph.nextId then some (operationNode b.graph.nextId op targets producers cycles)
        else b.graph.stem? n := by
  obtain ⟨layer, alike⟩ := alike_attach b op targets producers cycles
  simp only [alike.stem?, Graph.stem?_push, Graph.nextId_link, Graph.stem?_link,
    Graph.nextId_registerAll, Graph.stem?_registerAll]
  rfl

theorem sources_attach :
    (b.attach op targets producers cycles).2.graph.sources = b.graph.sources := by
  obtain ⟨layer, alike⟩ := alike_attach b op targets producers cycles
  simp [alike.sources, Graph.push, Graph.place]

theorem kinds_attach :
    (b.attach op targets producers cycles).2.graph.kinds
      = (b.graph.registerAll (targets.filter fun target => (b.graph.kind? target).isNone)).kinds := by
  obtain ⟨layer, alike⟩ := alike_attach b op targets producers cycles
  simp [alike.kinds, Graph.push, Graph.place]

/-- Attaching makes the unknown targets known, as exclusive resources. -/
theorem kind?_attach (symbol : Symbol) :
    (b.attach op targets producers cycles).2.graph.kind? symbol
      = (b.graph.kind? symbol).or (if symbol ∈ targets then some .exclusive else none) := by
  rw [Graph.kind?, kinds_attach, ← Graph.kind?, Graph.kind?_registerAll]
  cases known : b.graph.kind? symbol <;> simp [known]

theorem nodup_consumers_attach {n : NodeId} (h : (b.graph.consumers n).Nodup) :
    ((b.attach op targets producers cycles).2.graph.consumers n).Nodup := by
  obtain ⟨layer, alike⟩ := alike_attach b op targets producers cycles
  rw [alike.consumers, Graph.consumers_push]
  split
  · exact .nil
  · exact Graph.nodup_consumers_link (by simpa using h)

variable {b producers} in
theorem mem_consumers_attach {n : NodeId} {e : Edge}
    (inside : ∀ edge ∈ producers, edge.node < b.graph.nextId) :
    e ∈ (b.attach op targets producers cycles).2.graph.consumers n
      ↔ e ∈ b.graph.consumers n ∨ e.node = b.graph.nextId ∧ ⟨e.symbol, n⟩ ∈ producers := by
  obtain ⟨layer, alike⟩ := alike_attach b op targets producers cycles
  rw [alike.consumers, Graph.consumers_push, Graph.nextId_link, Graph.nextId_registerAll]
  split
  next here =>
      have none : b.graph.consumers n = [] := by simp [Graph.consumers, here, Graph.node?_nextId]
      have outside : ⟨e.symbol, n⟩ ∉ producers := fun member =>
        Nat.ne_of_lt (inside _ member) here
      simp [operationNode, none, outside]
  next elsewhere =>
      rw [Graph.mem_consumers_link, Graph.consumers_registerAll, Graph.nextId_registerAll]
      refine or_congr_right ⟨fun h => h.2, fun h => ⟨inside _ h.2, h⟩⟩

theorem lastWriter_attach (symbol : Symbol) :
    (b.attach op targets producers cycles).2.lastWriter[symbol]?
      = if symbol ∈ targets ∧
            (b.attach op targets producers cycles).2.graph.kind? symbol = some .exclusive
        then some b.graph.nextId else b.lastWriter[symbol]? := by
  have table : (b.attach op targets producers cycles).2.lastWriter
      = (targets.filter fun target =>
          (b.attach op targets producers cycles).2.graph.kind? target == some .exclusive).foldl
          (fun acc target => acc.insert target b.graph.nextId) b.lastWriter := by
    simp only [Graph.kind?, kinds_attach]
    rw [← Graph.nextId_registerAll b.graph (targets.filter fun target => (b.graph.kind? target).isNone)]
    rfl
  rw [table, getElem?_foldl_insert]
  simp [List.mem_filter]

end Builder

/-! ## Wiring is kept -/

namespace Graph.Wired

variable {g : Graph} (wired : g.Wired)
include wired

/-- Whatever a new node reads is older. -/
theorem lt_of_mem_origins {targets : List Symbol} {edge : Edge}
    (member : edge ∈ targets.filterMap (g.origin? g.nextId)) : edge.node < g.nextId := by
  obtain ⟨symbol, _, found⟩ := List.mem_filterMap.mp member
  obtain ⟨_, ⟨_, source⟩ | ⟨_, writer⟩⟩ := origin?_eq_some found
  · obtain ⟨node, found, _⟩ := Option.map_eq_some_iff.mp (wired.source source)
    exact lt_nextId found
  · exact (writerBefore?_eq_some writer).1

theorem untouched {symbol : Symbol} (unknown : g.kind? symbol = none) (id : NodeId) :
    symbol ∉ g.targetsOf id := by
  intro member
  rw [targetsOf_eq_stem] at member
  cases found : g.stem? id with
  | none => simp [found] at member
  | some node =>
      simp only [found, Option.map_some, Option.getD_some] at member
      exact wired.known found member unknown

end Graph.Wired

namespace Builder

variable {b : Builder} {op : Operation} {targets : List Symbol} {producers : List Edge} {cycles : Nat}

theorem isMagic_attach (symbol : Symbol) :
    (b.attach op targets producers cycles).2.graph.isMagic symbol = b.graph.isMagic symbol := by
  simp only [Graph.isMagic, kind?_attach]
  cases b.graph.kind? symbol with
  | none => split <;> rfl
  | some kind => rfl

variable (op targets cycles) in
theorem extends_attach (inside : ∀ edge ∈ producers, edge.node < b.graph.nextId) :
    b.graph.Extends (operationNode b.graph.nextId op targets producers cycles)
      (b.attach op targets producers cycles).2.graph where
  stem? := stem?_attach b op targets producers cycles
  kinds := by
    intro symbol known
    rw [kind?_attach]
    cases kind : b.graph.kind? symbol with
    | none => exact absurd kind known
    | some kind => rfl
  sources := by
    intro symbol id
    rw [sources_attach]
    simp [operationNode, Graph.sourceNode]
  consumers := mem_consumers_attach op targets cycles inside
  nodup := nodup_consumers_attach b op targets producers cycles

theorem wired_attach (wired : b.graph.Wired) (distinct : targets.Nodup)
    (origins : producers = targets.filterMap (b.graph.origin? b.graph.nextId)) :
    (b.attach op targets producers cycles).2.graph.Wired := by
  have inside : ∀ edge ∈ producers, edge.node < b.graph.nextId := by
    intro edge member
    rw [origins] at member
    exact wired.lt_of_mem_origins member
  have extended := extends_attach op targets cycles inside
  apply extended.wired wired
  · constructor
    case numbered => rfl
    case live => rfl
    case distinct => exact distinct
    case known =>
      intro symbol member
      have member : symbol ∈ targets := member
      rw [kind?_attach, if_pos member]
      cases b.graph.kind? symbol <;> simp
    case factory => intro factory; cases factory
    case producers =>
      intro _
      refine origins.trans (List.filterMap_congr fun symbol _ => ?_)
      exact (Graph.origin?_congr (isMagic_attach symbol) (by rw [sources_attach])
        (extended.targetsOf_below (Nat.le_refl _))).symm
    case older => exact inside
  · intro symbol
    rw [sources_attach, ← wired.supplied, kind?_attach]
    cases b.graph.kind? symbol with
    | none => split <;> simp
    | some kind => rfl

end Builder

namespace Graph

/-- A graph with the source of a new magic state. -/
def withSource (g : Graph) (symbol : Symbol) : Graph :=
  (g.registerSource symbol g.nextId).push (sourceNode g.nextId symbol)

@[simp] theorem nextId_withSource (g : Graph) (symbol : Symbol) :
    (g.withSource symbol).nextId = g.nextId + 1 := nextId_push _ _

theorem stem?_withSource (g : Graph) (symbol : Symbol) (n : NodeId) :
    (g.withSource symbol).stem? n
      = if n = g.nextId then some (sourceNode g.nextId symbol) else g.stem? n :=
  stem?_push _ _ n

theorem consumers_withSource (g : Graph) (symbol : Symbol) (n : NodeId) :
    (g.withSource symbol).consumers n = g.consumers n := by
  refine (consumers_push _ _ n).trans ?_
  split
  next here =>
      have here : n = g.nextId := here
      simp [sourceNode, consumers, here, node?_nextId]
  · rfl

theorem kind?_withSource (g : Graph) (symbol s : Symbol) :
    (g.withSource symbol).kind? s = if s = symbol then some .magicState else g.kind? s :=
  kind?_register g symbol s .magicState

theorem sources_withSource (g : Graph) (symbol s : Symbol) :
    (g.withSource symbol).sources[s]? = if s = symbol then some g.nextId else g.sources[s]? := by
  have table : (g.withSource symbol).sources = g.sources.insert symbol g.nextId := rfl
  rw [table, Std.ExtTreeMap.getElem?_insert]
  simp only [Std.compare_eq_iff_eq]
  simp only [eq_comm]

theorem extends_withSource {g : Graph} {symbol : Symbol} (wired : g.Wired) (unknown : g.kind? symbol = none) :
    g.Extends (sourceNode g.nextId symbol) (g.withSource symbol) where
  stem? := stem?_withSource g symbol
  kinds := by
    intro s known
    rw [kind?_withSource, if_neg]
    rintro rfl
    exact known unknown
  sources := by
    intro s id
    rw [sources_withSource]
    split
    next here =>
        have none : g.sources[s]? = none := by
          refine Option.eq_none_iff_forall_ne_some.mpr fun source found => ?_
          have magic := wired.supplied.mpr ⟨source, found⟩
          rw [here, unknown] at magic
          cases magic
        rw [none]
        simp only [sourceNode, here, Option.some.injEq, reduceCtorEq, false_or, eq_comm]
        grind
    next other => simp [sourceNode, Ne.symm other]
  consumers := by simp [consumers_withSource, sourceNode]
  nodup := by
    intro n nodup
    rwa [consumers_withSource]

theorem origin?_withSource {g : Graph} {symbol s : Symbol} (wired : g.Wired) (unknown : g.kind? symbol = none)
    (other : s ≠ symbol) : (g.withSource symbol).origin? (g.nextId + 1) s = g.origin? g.nextId s := by
  have magic : (g.withSource symbol).isMagic s = g.isMagic s := by
    simp only [isMagic, kind?_withSource, if_neg other]
  have untouched : s ∉ (sourceNode g.nextId symbol).targets := by simpa [sourceNode] using other
  rw [origin?, magic, sources_withSource, if_neg other, (extends_withSource wired unknown).writerBefore?_succ s,
    if_neg untouched, origin?]

theorem wired_withSource {g : Graph} {symbol : Symbol} (wired : g.Wired)
    (unknown : g.kind? symbol = none) : (g.withSource symbol).Wired := by
  apply (extends_withSource wired unknown).wired wired
  · constructor
    case numbered => rfl
    case live => rfl
    case distinct => exact List.pairwise_singleton (· ≠ ·) symbol
    case known =>
      intro s member
      rw [kind?_withSource, if_pos (List.mem_singleton.mp member)]
      exact Option.some_ne_none _
    case factory => exact fun _ => ⟨symbol, rfl⟩
    case producers => intro operation; cases operation
    case older => intro edge member; cases member
  · intro s
    rw [kind?_withSource, sources_withSource]
    split
    · simp
    · exact wired.supplied

end Graph

/-! ## What calls lead to -/

namespace Builder

/-- Builders that a sequence of calls leads to. Adding with the duration of the kind, or as a gate, is
    adding with a given duration. -/
inductive Reachable : Builder → Prop where
  | new (name : String) : Reachable (.new name)
  | declareAll (symbols : List Symbol) : Reachable b → Reachable (b.declareAll symbols)
  | addLasting {id : NodeId} :
      Reachable b → b.addLasting op targets magic cycles = .ok (id, c) → Reachable c

/-- Adds operations one after the other. -/
def addGates (b : Builder) : List (Operation × List Symbol) → Except Error Builder
  | [] => .ok b
  | gate :: gates => do
      let added ← b.addGate gate.1 gate.2
      added.2.addGates gates

theorem Reachable.addGates {b c : Builder} {gates : List (Operation × List Symbol)} (reachable : b.Reachable)
    (h : b.addGates gates = .ok c) : c.Reachable := by
  induction gates generalizing b with
  | nil =>
      cases h
      exact reachable
  | cons gate gates ih =>
      obtain ⟨⟨_, d⟩, first, h⟩ := bind_eq_ok.mp h
      rw [Builder.addGate, Builder.add] at first
      exact ih (reachable.addLasting first) h

/-- The graph is wired and the table of last writers agrees with it. -/
structure Sound (b : Builder) : Prop where
  wired : b.graph.Wired
  written : ∀ {symbol}, b.graph.kind? symbol = some .exclusive →
    ∃ writer, b.lastWriter[symbol]? = some writer ∧
      b.graph.writerBefore? symbol b.graph.nextId = some writer

theorem sound_new (name : String) : (new name).Sound := by
  have empty : ∀ id, (new name).graph.node? id = none := fun id => by simp [new, Graph.node?]
  have unknown : ∀ symbol, (new name).graph.kind? symbol = none := fun symbol => by
    simp [new, Graph.kind?]
  refine ⟨?_, fun exclusive => by rw [unknown] at exclusive; cases exclusive⟩
  constructor <;> intros <;> simp_all [Graph.stem?, Graph.producers, Graph.consumers, new]

theorem sound_attach {b : Builder} {op : Operation} {targets : List Symbol} {producers : List Edge}
    {cycles : Nat} (sound : b.Sound) (distinct : targets.Nodup)
    (origins : producers = targets.filterMap (b.graph.origin? b.graph.nextId)) :
    (b.attach op targets producers cycles).2.Sound := by
  refine ⟨wired_attach sound.wired distinct origins, fun {symbol} exclusive => ?_⟩
  have inside : ∀ edge ∈ producers, edge.node < b.graph.nextId := by
    intro edge member
    rw [origins] at member
    exact sound.wired.lt_of_mem_origins member
  rw [lastWriter_attach, nextId_attach, (extends_attach op targets cycles inside).writerBefore?_succ, operationNode]
  by_cases target : symbol ∈ targets
  · rw [if_pos ⟨target, exclusive⟩, if_pos target]
    exact ⟨_, rfl, rfl⟩
  · rw [if_neg fun h => target h.1, if_neg target]
    rw [kind?_attach, if_neg target, Option.or_none] at exclusive
    exact sound.written exclusive

theorem sound_withSource {b : Builder} {symbol : Symbol} (sound : b.Sound)
    (unknown : b.graph.kind? symbol = none) :
    ({ b with graph := b.graph.withSource symbol } : Builder).Sound := by
  refine ⟨Graph.wired_withSource sound.wired unknown, fun {s} exclusive => ?_⟩
  have other : s ≠ symbol := by
    rintro rfl
    simp [Graph.kind?_withSource] at exclusive
  simp only [Graph.kind?_withSource, if_neg other] at exclusive
  rw [Graph.nextId_withSource, (Graph.extends_withSource sound.wired unknown).writerBefore?_succ, if_neg]
  · exact sound.written exclusive
  · simpa [Graph.sourceNode] using other

/-- Declaring an input attaches an initialisation that reads nothing. -/
theorem declare_eq {b : Builder} {symbol : Symbol} (unknown : b.graph.kind? symbol = none) :
    b.declare symbol = (({ b with graph := { b.graph with inputs := b.graph.inputs ++ [symbol] } } :
      Builder).attach .init [symbol] [] 1).2 := by
  have fresh : ({ b.graph with inputs := b.graph.inputs ++ [symbol] } : Graph).kind? symbol = none := unknown
  have exclusive : (({ b.graph with inputs := b.graph.inputs ++ [symbol] } : Graph).register symbol
      .exclusive).kind? symbol = some .exclusive := by
    rw [Graph.kind?_register, if_pos rfl]
  simp only [declare, unknown, Option.isSome_none, Bool.false_eq_true, if_false, attach, fresh,
    Option.isNone_none, List.filter_cons_of_pos, List.filter_nil, List.foldl_cons, List.foldl_nil,
    Std.le_refl, Nat.max_eq_right, exclusive, BEq.rfl, mk.injEq]
  exact ⟨rfl, rfl⟩

theorem declare_cases {b : Builder} (sound : b.Sound) (symbol : Symbol) :
    b.declare symbol = b ∨ ∃ base : Builder, base.Sound ∧ base.graph.Alike b.graph ∧
      b.declare symbol = (base.attach .init [symbol]
        ([symbol].filterMap (base.graph.origin? base.graph.nextId)) 1).2 := by
  cases known : b.graph.kind? symbol with
  | some kind => exact .inl (by simp [declare, known])
  | none =>
      let noted : Builder := { b with graph := { b.graph with inputs := b.graph.inputs ++ [symbol] } }
      have alike : noted.graph.Alike b.graph := ⟨rfl, fun _ => rfl, fun _ => rfl, rfl, rfl⟩
      have before : noted.Sound := by
        refine ⟨alike.wired sound.wired, fun {s} exclusive => ?_⟩
        rw [alike.writerBefore?]
        exact sound.written exclusive
      have magic : noted.graph.isMagic symbol = false := by
        rw [alike.isMagic, Graph.isMagic, known]
        rfl
      have unwritten : noted.graph.writerBefore? symbol noted.graph.nextId = none :=
        Graph.writerBefore?_eq_none fun id _ => before.wired.untouched known id
      have unread : [symbol].filterMap (noted.graph.origin? noted.graph.nextId) = [] := by
        simp [Graph.origin?, magic, unwritten]
      exact .inr ⟨noted, before, alike, by rw [declare_eq known, unread]⟩

theorem sound_declare {b : Builder} (sound : b.Sound) (symbol : Symbol) : (b.declare symbol).Sound := by
  obtain same | ⟨base, before, _, h⟩ := declare_cases sound symbol
  · rwa [same]
  · rw [h]
    exact sound_attach before (List.pairwise_singleton _ _) rfl

theorem sound_declareAll {b : Builder} (sound : b.Sound) (symbols : List Symbol) :
    (b.declareAll symbols).Sound := by
  induction symbols generalizing b with
  | nil => exact sound
  | cons symbol symbols ih => exact ih (sound_declare sound symbol)

theorem origin_eq {b : Builder} {op : Operation} {target : Symbol} {edge? : Option Edge}
    (sound : b.Sound) (h : b.origin op target = .ok edge?) :
    edge? = b.graph.origin? b.graph.nextId target := by
  unfold origin at h
  unfold Graph.origin? Graph.isMagic
  split at h
  next magic =>
      split at h
      next source found => cases h; simp [magic, found]
      · cases h
  next exclusive =>
      split at h
      next writer found =>
          cases h
          obtain ⟨same, recorded, latest⟩ := sound.written exclusive
          rw [found] at recorded
          cases recorded
          simp [exclusive, latest]
      · cases h
  next unknown =>
      split at h
      · cases h
        have unwritten : b.graph.writerBefore? target b.graph.nextId = none :=
          Graph.writerBefore?_eq_none fun id _ => sound.wired.untouched unknown id
        simp [unknown, unwritten]
      · cases h

theorem origins_eq {b : Builder} {op : Operation} {targets : List Symbol} {edges : List Edge}
    (sound : b.Sound) (h : b.origins op targets = .ok edges) :
    edges = targets.filterMap (b.graph.origin? b.graph.nextId) := by
  induction targets generalizing edges with
  | nil => cases h; rfl
  | cons target rest ih =>
      obtain ⟨edge?, first, h⟩ := bind_eq_ok.mp h
      obtain ⟨others, second, h⟩ := bind_eq_ok.mp h
      cases h
      rw [ih second, List.filterMap_cons, ← origin_eq sound first]
      cases edge? <;> rfl

/-- Asking for the source of a state adds it if the state is not known. Either way the state is then
    read from its source, and every other resource from where it was read before. -/
theorem sourceOf_spec {b : Builder} {state : Symbol} (sound : b.Sound)
    (shared : b.graph.kind? state ≠ some .exclusive) :
    ∃ base : Builder, base = { b with graph := (b.graph.sourceOf state).2 } ∧ base.Sound ∧
      (base = b ∨ b.graph.kind? state = none ∧ base = { b with graph := b.graph.withSource state }) ∧
      base.graph.kind? state = some .magicState ∧
      base.graph.origin? base.graph.nextId state = some ⟨state, (b.graph.sourceOf state).1⟩ ∧
      ∀ s ≠ state, base.graph.origin? base.graph.nextId s = b.graph.origin? b.graph.nextId s := by
  refine ⟨_, rfl, ?_⟩
  unfold Graph.sourceOf
  cases source : b.graph.sources[state]? with
  | some id =>
      have magic := sound.wired.supplied.mpr ⟨id, source⟩
      refine ⟨sound, .inl rfl, magic, ?_, fun s _ => rfl⟩
      simp [Graph.origin?, Graph.isMagic, magic, source]
  | none =>
      have unknown : b.graph.kind? state = none := by
        cases known : b.graph.kind? state with
        | none => rfl
        | some kind =>
            cases kind with
            | exclusive => exact absurd known shared
            | magicState =>
                obtain ⟨id, found⟩ := sound.wired.supplied.mp known
                rw [source] at found
                cases found
      have magic : (b.graph.withSource state).kind? state = some .magicState := by
        rw [Graph.kind?_withSource, if_pos rfl]
      refine ⟨sound_withSource sound unknown, .inr ⟨unknown, rfl⟩, magic, ?_, fun s other => ?_⟩
      · have found : (b.graph.withSource state).sources[state]? = some b.graph.nextId := by
          rw [Graph.sources_withSource, if_pos rfl]
        change (b.graph.withSource state).origin? _ state = _
        simp [Graph.origin?, Graph.isMagic, magic, found]
      · change (b.graph.withSource state).origin? (b.graph.withSource state).nextId s = _
        rw [Graph.nextId_withSource, Graph.origin?_withSource sound.wired unknown other]

/-- A successful call attaches one operation whose edges follow from its targets. One that draws a state which is not
    among the targets acts on the state too, and makes sure before that the state has a source. -/
theorem addLasting_cases {b c : Builder} {op : Operation} {targets : List Symbol} {magic : Bool}
    {cycles : Nat} {id : NodeId} (sound : b.Sound)
    (h : b.addLasting op targets magic cycles = .ok (id, c)) :
    targets.Nodup ∧
      ((magic = true → op.stateSymbol ∈ targets) ∧
        b.attach op targets (targets.filterMap (b.graph.origin? b.graph.nextId)) cycles = (id, c) ∨
      op.stateSymbol ∉ targets ∧ ∃ base : Builder, base.Sound ∧ base.graph.kind? op.stateSymbol = some .magicState ∧
        (base = b ∨ b.graph.kind? op.stateSymbol = none ∧
          base = { b with graph := b.graph.withSource op.stateSymbol }) ∧
        base.attach op (targets ++ [op.stateSymbol])
          ((targets ++ [op.stateSymbol]).filterMap (base.graph.origin? base.graph.nextId)) cycles = (id, c)) := by
  unfold addLasting at h
  split at h
  · cases h
  next distinct =>
      refine ⟨(nodup_of_firstRepeated? distinct).1, ?_⟩
      obtain ⟨edges, found, h⟩ := bind_eq_ok.mp h
      obtain rfl := origins_eq sound found
      dsimp only at h
      split at h
      next draws =>
          have absent : op.stateSymbol ∉ targets := by simpa using (Bool.and_eq_true_iff.mp draws).2
          split at h
          · cases h
          next shared =>
              obtain ⟨base, rfl, sound, added, kind, state, others⟩ := sourceOf_spec sound shared
              refine .inr ⟨absent, _, sound, kind, added, ?_⟩
              have edges := List.filterMap_congr fun s (member : s ∈ targets) =>
                others s fun same => absent (same ▸ member)
              rw [List.filterMap_append, List.filterMap_cons, state, List.filterMap_nil, edges]
              exact Except.ok.inj h
      next plain =>
          refine .inl ⟨fun set => ?_, Except.ok.inj h⟩
          simpa [set] using plain

/-- A successful call attaches one operation. Before that it may add the source of a magic state that was not
    known. -/
theorem addLasting_eq_ok {b c : Builder} {op : Operation} {targets : List Symbol} {magic : Bool}
    {cycles : Nat} {id : NodeId} (sound : b.Sound)
    (h : b.addLasting op targets magic cycles = .ok (id, c)) :
    ∃ base acting, base.Sound ∧ acting.Nodup ∧
      (base = b ∨ ∃ state ∈ acting, b.graph.kind? state = none ∧
        base = { b with graph := b.graph.withSource state }) ∧
      id = base.graph.nextId ∧
      c = (base.attach op acting (acting.filterMap (base.graph.origin? base.graph.nextId)) cycles).2 := by
  obtain ⟨distinct, ⟨-, attached⟩ | ⟨absent, base, sound, -, added, attached⟩⟩ := addLasting_cases sound h
  · have fresh := (congrArg Prod.fst attached).symm.trans (attach_fst ..)
    exact ⟨b, targets, sound, distinct, .inl rfl, fresh, (congrArg Prod.snd attached).symm⟩
  · have fresh := (congrArg Prod.fst attached).symm.trans (attach_fst ..)
    refine ⟨base, targets ++ [op.stateSymbol], sound, ?_, ?_, fresh, (congrArg Prod.snd attached).symm⟩
    · rw [List.nodup_append]
      grind
    · rcases added with same | ⟨unknown, same⟩
      · exact .inl same
      · exact .inr ⟨op.stateSymbol, by simp, unknown, same⟩

theorem Reachable.sound {b : Builder} (h : b.Reachable) : b.Sound := by
  induction h with
  | new name => exact sound_new name
  | declareAll symbols _ ih => exact sound_declareAll ih symbols
  | addLasting _ added ih =>
      obtain ⟨base, acting, sound, distinct, _, _, rfl⟩ := addLasting_eq_ok ih added
      exact sound_attach sound distinct rfl

section

variable {P : Graph → Prop} (noted : ∀ {g : Graph}, P g → ∀ inputs, P { g with inputs })
  (attached : ∀ {b : Builder} {op : Operation} {targets : List Symbol} {producers : List Edge} {cycles : Nat},
    b.graph.Wired → (∀ edge ∈ producers, edge.node < b.graph.nextId) → P b.graph →
    P (b.attach op targets producers cycles).2.graph)
include noted attached

theorem declareAll_induction {b : Builder} (sound : b.Sound) (holds : P b.graph) (symbols : List Symbol) :
    P (b.declareAll symbols).graph := by
  induction symbols generalizing b with
  | nil => exact holds
  | cons symbol symbols ih =>
      refine ih (sound_declare sound symbol) ?_
      cases known : b.graph.kind? symbol with
      | some kind => simpa [declare, known] using holds
      | none =>
          rw [declare_eq known]
          refine attached (Graph.Alike.wired ?_ sound.wired) (by simp) (noted holds _)
          exact ⟨rfl, fun _ => rfl, fun _ => rfl, rfl, rfl⟩

/-- What holds of an empty graph, and is kept when an input is noted, a source is added or an operation is attached,
    holds of every graph under construction. -/
theorem Reachable.graph_induction (empty : ∀ name, P (Builder.new name).graph)
    (sourced : ∀ {g : Graph} {symbol : Symbol}, g.Wired → P g → P (g.withSource symbol)) {b : Builder}
    (h : b.Reachable) : P b.graph := by
  induction h with
  | new name => exact empty name
  | declareAll symbols before ih => exact declareAll_induction noted attached before.sound ih symbols
  | addLasting before added ih =>
      obtain ⟨base, acting, sound, _, origin, _, rfl⟩ := addLasting_eq_ok before.sound added
      refine attached sound.wired (fun edge member => sound.wired.lt_of_mem_origins member) ?_
      obtain rfl | ⟨state, _, _, rfl⟩ := origin
      · exact ih
      · exact sourced before.sound.wired ih

end

theorem consumers_attach_ne_nil {b : Builder} {op : Operation} {targets : List Symbol} {cycles : Nat}
    {symbol : Symbol} {id : NodeId} (wired : b.graph.Wired) (source : b.graph.sources[symbol]? = some id)
    (drawn : b.graph.consumers id ≠ [] ∨ symbol ∈ targets) :
    (b.attach op targets (targets.filterMap (b.graph.origin? b.graph.nextId)) cycles).2.graph.consumers id
      ≠ [] := by
  have inside : ∀ edge ∈ targets.filterMap (b.graph.origin? b.graph.nextId), edge.node < b.graph.nextId :=
    fun _ member => wired.lt_of_mem_origins member
  rcases drawn with drawn | target
  · obtain ⟨edge, member⟩ := List.exists_mem_of_ne_nil _ drawn
    exact List.ne_nil_of_mem ((mem_consumers_attach op targets cycles inside).mpr (.inl member))
  · have magic : b.graph.isMagic symbol := by
      simp [Graph.isMagic, wired.supplied.mpr ⟨id, source⟩]
    have edge : (⟨symbol, id⟩ : Edge) ∈ targets.filterMap (b.graph.origin? b.graph.nextId) :=
      List.mem_filterMap.mpr ⟨symbol, target, by simp [Graph.origin?, magic, source]⟩
    exact List.ne_nil_of_mem ((mem_consumers_attach (e := ⟨symbol, b.graph.nextId⟩) op targets cycles
      inside).mpr (.inr ⟨rfl, edge⟩))

theorem drawn_declareAll {b : Builder} (sound : b.Sound) (symbols : List Symbol)
    (drawn : ∀ {symbol : Symbol} {id}, b.graph.sources[symbol]? = some id → b.graph.consumers id ≠ [])
    {symbol : Symbol} {id : NodeId} (source : (b.declareAll symbols).graph.sources[symbol]? = some id) :
    (b.declareAll symbols).graph.consumers id ≠ [] := by
  induction symbols generalizing b with
  | nil => exact drawn source
  | cons input inputs ih =>
      refine ih (sound_declare sound input) (fun {s n} source => ?_) source
      obtain same | ⟨base, before, alike, h⟩ := declare_cases sound input
      · rw [same] at source ⊢
        exact drawn source
      · rw [h, sources_attach] at source
        rw [h]
        apply consumers_attach_ne_nil before.wired source
        rw [alike.consumers]
        exact .inl (drawn (alike.sources ▸ source))

/-- Every source is drawn from: it was added for an operation that draws. -/
theorem Reachable.drawn {b : Builder} (h : b.Reachable) {symbol : Symbol} {id : NodeId}
    (source : b.graph.sources[symbol]? = some id) : b.graph.consumers id ≠ [] := by
  induction h generalizing symbol id with
  | new name => cases source
  | declareAll symbols before ih => exact drawn_declareAll before.sound symbols ih source
  | @addLasting b op targets magic cycles c _ before added ih =>
      obtain ⟨base, acting, sound, _, origin, _, rfl⟩ := addLasting_eq_ok before.sound added
      rw [sources_attach] at source
      apply consumers_attach_ne_nil sound.wired source
      rcases origin with rfl | ⟨state, target, unknown, rfl⟩
      · exact .inl (ih source)
      · rw [Graph.sources_withSource] at source
        split at source
        next same => exact .inr (same ▸ target)
        · exact .inl (by simpa [Graph.consumers_withSource] using ih source)

end Builder

end LatticeSurgery
