import Mathlib.Data.List.Perm.Subperm
import LatticeSurgery.Proofs.Plan.Schedule

/-! # What becomes of a schedule

Scheduling fails for two reasons only: a magic state that nobody makes, or a channel without room in
front of a node that needs it. In every other case it ends with a plan. Between two admissions the
factories fill up; once they are full, the oldest operation that is left can always be admitted.
-/

namespace LatticeSurgery

namespace Graph

/-- Every magic state that a live node draws has a factory. -/
def Supplied (g : Graph) (factories : List Factory) : Prop :=
  ∀ node ∈ g.live, ∀ symbol ∈ g.drawn node, ∃ factory ∈ factories, factory.symbol = symbol

/-- The first draw of a state without a factory, in the order of the nodes and then of their
    producers. -/
def FirstUnsupplied (g : Graph) (factories : List Factory) (symbol : Symbol) : Prop :=
  ∃ node ∈ g.live, ∃ (i : Nat) (edge : Edge), node.producers[i]? = some edge ∧ g.isDraw edge ∧
    edge.symbol = symbol ∧ (∀ factory ∈ factories, factory.symbol ≠ symbol) ∧
    ∀ other ∈ g.live, ∀ (j : Nat) (earlier : Edge), other.producers[j]? = some earlier → g.isDraw earlier →
      (other.id < node.id ∨ other.id = node.id ∧ j < i) →
      ∃ factory ∈ factories, factory.symbol = earlier.symbol

end Graph

/-! ## The first state without a factory -/

theorem Slot.map_factory_rankAll (slots : List Slot) (factories : List Factory) :
    (rankAll slots factories).map (·.factory) = slots.map (·.factory) ++ factories := by
  induction factories generalizing slots with
  | nil => simp [rankAll]
  | cons factory rest ih =>
      rw [rankAll, ih]
      simp

theorem Pool.produces_new {factories : List Factory} {symbol : Symbol} :
    (Pool.new factories).produces symbol ↔ ∃ factory ∈ factories, factory.symbol = symbol := by
  have lines : (Pool.new factories).slots.map (·.factory) = fastestFirst factories :=
    Slot.map_factory_rankAll [] _
  have made : (Pool.new factories).produces symbol
      ↔ ∃ factory ∈ (Pool.new factories).slots.map (·.factory), factory.symbol = symbol := by
    simp [Pool.produces]
  rw [made, lines]
  simp only [fastestFirst, mem_sortBy]

namespace Graph

variable {g : Graph} {factories : List Factory} {symbol : Symbol}

/-- The search through the draws of a node stops at the first edge that has no factory. -/
theorem find?_drawn {node : Node} {supplied : Symbol → Bool}
    (h : (g.drawn node).find? (!supplied ·) = some symbol) :
    ∃ (i : Nat) (edge : Edge), node.producers[i]? = some edge ∧ g.isDraw edge ∧ edge.symbol = symbol ∧
      supplied symbol = false ∧
      ∀ (j : Nat) (earlier : Edge), node.producers[j]? = some earlier → g.isDraw earlier → j < i →
        supplied earlier.symbol := by
  rw [drawn, List.find?_map, List.find?_filter] at h
  obtain ⟨edge, found, rfl⟩ := Option.map_eq_some_iff.mp h
  obtain ⟨unsupplied, i, inside, rfl, before⟩ := List.find?_eq_some_iff_getElem.mp found
  simp only [Function.comp_apply, Bool.not_eq_true', Bool.decide_and, Bool.decide_eq_true, Bool.and_eq_true,
    decide_eq_true_eq] at unsupplied
  refine ⟨i, _, List.getElem?_eq_getElem inside, unsupplied.1, rfl, unsupplied.2, ?_⟩
  intro j earlier there draws below
  obtain ⟨_, rfl⟩ := List.getElem?_eq_some_iff.mp there
  simpa [draws] using before j below

theorem Wired.firstUnsupplied (wired : g.Wired)
    (h : g.undersupplied? (Pool.new factories).produces = some symbol) : g.FirstUnsupplied factories symbol := by
  unfold undersupplied? at h
  rw [List.find?_flatMap] at h
  obtain ⟨before, node, after, split, found, none⟩ := List.findSome?_eq_some_iff.mp h
  obtain ⟨i, edge, inside, draws, rfl, unsupplied, first⟩ := find?_drawn found
  refine ⟨node, by simp [split], i, edge, inside, draws, rfl, ?_, ?_⟩
  · intro factory made same
    rw [Pool.produces_new.mpr ⟨factory, made, same⟩] at unsupplied
    cases unsupplied
  · intro other live j earlier there drawn order
    apply Pool.produces_new.mp
    rcases order with below | ⟨same, below⟩
    · have sorted := Graph.pairwise_live wired.isNumbered
      rw [split] at live sorted
      obtain ⟨_, later, _⟩ := List.pairwise_append.mp sorted
      rcases List.mem_append.mp live with earlier' | here
      · have all := List.find?_eq_none.mp (none other earlier')
        simpa using all earlier.symbol (mem_drawn.mpr ⟨earlier, List.mem_of_getElem? there, drawn, rfl⟩)
      · rcases List.mem_cons.mp here with rfl | here
        · exact absurd below (Nat.lt_irrefl _)
        · exact absurd (List.rel_of_pairwise_cons later here) (Nat.lt_asymm below)
    · have member : node ∈ g.live := by simp [split]
      have there' := wired.mem_live.mp live
      rw [same, wired.mem_live.mp member] at there'
      obtain rfl := Option.some.inj there'
      exact first j earlier there drawn below

theorem supplied_iff :
    g.Supplied factories ↔ g.undersupplied? (Pool.new factories).produces = none := by
  simp only [Supplied, undersupplied?, List.find?_eq_none, List.mem_flatMap, Bool.not_eq_true',
    Bool.not_eq_false, Pool.produces_new]
  exact ⟨fun supplied symbol ⟨node, live, drawn⟩ => supplied node live symbol drawn,
    fun supplied node live symbol drawn => supplied symbol ⟨node, live, drawn⟩⟩

theorem FirstUnsupplied.not_supplied (first : g.FirstUnsupplied factories symbol) : ¬g.Supplied factories := by
  intro supplied
  obtain ⟨node, live, i, edge, inside, draws, rfl, missing, _⟩ := first
  obtain ⟨factory, made, same⟩ := supplied node live edge.symbol
    (mem_drawn.mpr ⟨edge, List.mem_of_getElem? inside, draws, rfl⟩)
  exact missing factory made same

/-- Two first draws of states without a factory are the same draw. -/
theorem Wired.firstUnsupplied_unique (wired : g.Wired) {other : Symbol}
    (one : g.FirstUnsupplied factories symbol) (two : g.FirstUnsupplied factories other) : symbol = other := by
  obtain ⟨node, live, i, edge, inside, draws, rfl, missing, first⟩ := one
  obtain ⟨node', live', i', edge', inside', draws', rfl, missing', first'⟩ := two
  have notAfter : ¬(node'.id < node.id ∨ node'.id = node.id ∧ i' < i) := fun order => by
    obtain ⟨factory, made, same⟩ := first node' live' i' edge' inside' draws' order
    exact missing' factory made same
  have notBefore : ¬(node.id < node'.id ∨ node.id = node'.id ∧ i < i') := fun order => by
    obtain ⟨factory, made, same⟩ := first' node live i edge inside draws order
    exact missing factory made same
  have same : node.id = node'.id := by lia
  obtain rfl : i = i' := by lia
  have here := wired.mem_live.mp live
  rw [same, wired.mem_live.mp live'] at here
  obtain rfl := Option.some.inj here
  rw [inside] at inside'
  rw [Option.some.inj inside']

theorem Wired.firstUnsupplied_iff (wired : g.Wired) :
    g.FirstUnsupplied factories symbol ↔ g.undersupplied? (Pool.new factories).produces = some symbol := by
  refine ⟨fun first => ?_, wired.firstUnsupplied⟩
  cases found : g.undersupplied? (Pool.new factories).produces with
  | some other => rw [wired.firstUnsupplied_unique first (wired.firstUnsupplied found)]
  | none => exact absurd (supplied_iff.mpr found) first.not_supplied

end Graph

namespace Scheduling

variable {g : Graph} {capacity : Nat} {s : Scheduling} {factories : List Factory}

/-! ## Every run ends -/

theorem Orderly.length_le (orderly : Orderly g capacity s) : s.resolved.length ≤ g.nodes.size := by
  have inside : s.resolved ⊆ List.range g.nodes.size := by
    intro id member
    obtain ⟨node, found, _⟩ := orderly.operations id (.inl member)
    exact List.mem_range.mpr (Graph.lt_nextId found)
  have bound := (orderly.distinct.subperm inside).length_le
  rwa [List.length_range] at bound

/-- What is left to do: nodes to admit first, then cycles until the factories are full. -/
def workLeft (g : Graph) (s : Scheduling) : Nat :=
  (g.nodes.size - s.resolved.length) * (s.pool.slowest + 1) + s.pool.deficit

theorem workLeft_lt (wired : g.Wired) {units : List Draw} {u : Scheduling} (orderly : Orderly g capacity s)
    (stocked : Stocked g units s) (h : s.cycle g capacity = .again u) : workLeft g u < workLeft g s := by
  have more : s.candidates ≠ [] := by
    intro none
    simp [cycle, none] at h
  obtain ⟨t, done, fair, served, members⟩ := turns_eq_ok wired orderly stocked
  rw [cycle_of_turns more done] at h
  split at h
  · cases h
  next goesOn =>
      cases h
      have size : t.resolved.length = t.admitted.length + s.resolved.length := by
        rw [fair.resolved, List.length_append, List.length_reverse]
        rfl
      have slowest : t.pool.advance.slowest = s.pool.slowest := by
        rw [Pool.slowest_eq, Pool.units_advance, served.units, Pool.slowest_eq]
        rfl
      have upper := (orderly_next wired orderly fair members).length_le
      simp only [workLeft, next, slowest] at upper ⊢
      cases admitted : t.admitted with
      | nil =>
          obtain ⟨rfl, _⟩ := Sweep.turns_idle wired done admitted
          have waits : s.pool.saturated = false := by simpa [opening] using goesOn
          have lower := Pool.deficit_advance_lt waits
          simp only [opening] at lower ⊢
          omega
      | cons id rest =>
          have fewer : g.nodes.size - t.resolved.length + 1 ≤ g.nodes.size - s.resolved.length := by
            rw [admitted, List.length_cons] at size
            omega
          have filled := Pool.deficit_le_slowest t.pool.advance
          rw [slowest] at filled
          have product := Nat.mul_le_mul_right (s.pool.slowest + 1) fewer
          rw [Nat.add_mul, Nat.one_mul] at product
          omega

theorem exists_result (wired : g.Wired) (capacity : Nat) (factories : List Factory) :
    ∃ s result, Reaches (cycle g capacity) { candidates := g.entries, pool := Pool.new factories } s ∧
      s.cycle g capacity = .done result ∧
      iterate (cycle g capacity) (g.scheduleBound (Pool.new factories))
        { candidates := g.entries, pool := Pool.new factories } = some result := by
  have start : Orderly g capacity { candidates := g.entries, pool := Pool.new factories } :=
    orderly_start wired capacity _
  have enough : workLeft g { candidates := g.entries, pool := Pool.new factories }
      < g.scheduleBound (Pool.new factories) := by
    have filled := Pool.deficit_le_slowest (Pool.new factories)
    simp only [workLeft, Graph.scheduleBound, List.length_nil, Nat.sub_zero, Nat.add_mul, Nat.one_mul]
    omega
  have ends := isSome_iterate (P := fun s => Orderly g capacity s ∧ Stocked g (Pool.new factories).units s)
    (workLeft g)
    (fun s u holds next => ⟨orderly_cycle wired holds.1 holds.2 next, workLeft_lt wired holds.1 holds.2 next⟩)
    ⟨start, stocked_start g (Pool.within_new factories)⟩ enough
  obtain ⟨result, run⟩ := Option.isSome_iff_exists.mp ends
  obtain ⟨s, reached, last⟩ := reaches_of_iterate run
  exact ⟨s, result, reached, last, run⟩

/-! ## Full factories admit somebody -/

/-- With full factories, room in the channel and nothing claimed, an operation whose older operations
    are all admitted can be admitted. -/
theorem admits_opening (wired : g.Wired) (stocked : Stocked g (Pool.new factories).units s)
    (full : s.pool.saturated) (supplied : g.Supplied factories) {id : Nat} {node : Node}
    (found : g.node? id = some node) (fresh : id ∉ s.resolved) (room : node.nonLocal → 0 < capacity)
    (older : ∀ other < id, ∀ node, g.node? other = some node → node.isFactory = false → other ∈ s.resolved) :
    s.opening.admits g capacity node := by
  have named := wired.id_eq found
  simp only [Sweep.admits, opening, Bool.and_eq_true, Bool.not_eq_true', Bool.or_eq_true, List.all_eq_true,
    named]
  refine ⟨⟨by simpa using fresh, ?_⟩, fun edge member => ?_⟩
  · cases far : node.nonLocal with
    | false => exact .inl rfl
    | true => exact .inr (decide_eq_true (room far))
  · have inside : edge ∈ g.producers id := Graph.producers_of_node? found ▸ member
    cases draws : g.isDraw edge with
    | true =>
        have live : node ∈ g.live := wired.mem_live.mpr (named ▸ found)
        have made := Pool.produces_new.mpr
          (supplied node live edge.symbol (Graph.mem_drawn.mpr ⟨edge, member, draws, rfl⟩))
        rw [Pool.produces_iff, ← stocked.lines, ← Pool.produces_iff] at made
        simpa [Sweep.meets, draws] using Pool.inventory_pos_of_saturated full made
    | false =>
        have operation := (wired.joined.isDraw_eq inside).symm.trans draws
        obtain ⟨producer, there, produced, below⟩ := wired.exists_operation inside operation
        simpa [Sweep.meets, draws] using older edge.node below producer there produced

theorem not_stalled (wired : g.Wired) (orderly : Orderly g capacity s)
    (stocked : Stocked g (Pool.new factories).units s) (supplied : g.Supplied factories)
    (room : ∀ node ∈ g.live, node.nonLocal → 0 < capacity) {t : Sweep} (more : s.candidates ≠ [])
    (done : s.opening.turns g capacity (g.prioritise s.candidates) = .ok t) :
    ¬(t.admitted.isEmpty && t.pool.saturated) := by
  intro stalls
  obtain ⟨idle, full⟩ := Bool.and_eq_true_iff.mp stalls
  obtain ⟨rfl, refused⟩ := Sweep.turns_idle wired done (List.isEmpty_iff.mp idle)
  -- by induction on the numbers, every operation has been admitted already
  have all : ∀ (id : Nat) (node : Node), g.node? id = some node → node.isFactory = false → id ∈ s.resolved := by
    intro id
    induction id using Nat.strongRecOn with
    | ind id ih =>
        intro node found operation
        refine (orderly.awake wired found operation ih).elim (fun done => done) fun candidate => ?_
        have named := wired.id_eq found
        have admits := admits_opening wired stocked full supplied found (orderly.pending id candidate)
          (room node (wired.mem_live.mpr (named ▸ found))) ih
        rw [refused id (mem_sortBy.mpr candidate) node found] at admits
        cases admits
  obtain ⟨id, candidate⟩ := List.exists_mem_of_ne_nil _ more
  obtain ⟨node, found, operation⟩ := orderly.operations id (.inr candidate)
  exact orderly.pending id candidate (all id node found operation)

/-! ## The outcome -/

theorem done_cases (wired : g.Wired) {units : List Draw} {result : Except Error Plan}
    (orderly : Orderly g capacity s) (stocked : Stocked g units s) (last : s.cycle g capacity = .done result) :
    s.candidates = [] ∧ result = .ok { cycles := s.layers.size, layers := s.layers.toList, draws := s.draws } ∨
      s.candidates ≠ [] ∧ ∃ t pending,
        s.opening.turns g capacity (g.prioritise s.candidates) = .ok t ∧
        (t.admitted.isEmpty && t.pool.saturated) = true ∧ result = .error (.stalled s.layers.size pending) := by
  by_cases none : s.candidates = []
  · rw [cycle, if_pos (by simp [none])] at last
    cases last
    exact .inl ⟨none, rfl⟩
  · obtain ⟨t, done, _⟩ := turns_eq_ok wired orderly stocked
    rw [cycle_of_turns none done] at last
    split at last
    next stalls =>
        cases last
        exact .inr ⟨none, t, _, done, stalls, rfl⟩
    · cases last

/-- A channel without room admits no node that acts on several resources. -/
theorem room_of_safe (wired : g.Wired) {plan : Plan} (safe : plan.Safe g capacity) {node : Node}
    (live : node ∈ g.live) (far : node.nonLocal) : 0 < capacity := by
  have found := wired.mem_live.mp live
  have operation : node.isFactory = false := by
    refine Bool.eq_false_iff.mpr fun factory => ?_
    obtain ⟨symbol, _, targets, _⟩ := wired.of_isFactory found factory
    simp [Node.nonLocal, targets] at far
  have listed : 0 < plan.layers.flatten.count node.id := by
    rw [safe.complete node live operation]
    exact Nat.one_pos
  obtain ⟨layer, planned, member⟩ := List.mem_flatten.mp (List.count_pos_iff.mp listed)
  have used : 0 < layer.countP g.isNonLocal :=
    List.countP_pos_iff.mpr ⟨node.id, member, by simp [Graph.isNonLocal, found, far]⟩
  exact Nat.lt_of_lt_of_le used (safe.room layer planned)

theorem schedule_of_supplied (wired : g.Wired) (capacity : Nat) (supplied : g.Supplied factories) :
    (∃ plan, g.schedule capacity factories = .ok plan ∧ ∀ node ∈ g.live, node.nonLocal → 0 < capacity) ∨
      ∃ cycle pending, g.schedule capacity factories = .error (.stalled cycle pending) ∧
        ¬∀ node ∈ g.live, node.nonLocal → 0 < capacity := by
  obtain ⟨s, result, reached, last, run⟩ := exists_result wired capacity factories
  have scheduled : g.schedule capacity factories = result := by
    unfold Graph.schedule
    simp only [Graph.supplied_iff.mp supplied, run]
    rfl
  rw [scheduled]
  obtain ⟨orderly, stocked⟩ := orderly_of_reaches wired reached
  obtain ⟨none, rfl⟩ | ⟨more, t, pending, done, stalls, rfl⟩ := done_cases wired orderly stocked last
  · have safe : Plan.Safe g capacity { cycles := s.layers.size, layers := s.layers.toList, draws := s.draws } :=
      safe_of_orderly orderly wired none rfl
    exact .inl ⟨_, rfl, fun node live far => room_of_safe wired safe live far⟩
  · exact .inr ⟨_, pending, rfl, fun room => not_stalled wired orderly stocked supplied room more done stalls⟩

theorem schedule_of_unsupplied {symbol : Symbol} (wired : g.Wired) (capacity : Nat)
    (first : g.FirstUnsupplied factories symbol) :
    g.schedule capacity factories = .error (.missingFactory symbol) := by
  unfold Graph.schedule
  simp only [wired.firstUnsupplied_iff.mp first]

end Scheduling

theorem Graph.Wired.firstUnsupplied_or_supplied {g : Graph} (wired : g.Wired) (factories : List Factory) :
    (∃ symbol, g.FirstUnsupplied factories symbol) ∨ g.Supplied factories := by
  cases found : g.undersupplied? (Pool.new factories).produces with
  | some symbol => exact .inl ⟨symbol, wired.firstUnsupplied found⟩
  | none => exact .inr (supplied_iff.mpr found)

theorem progress_lt_wordLimit {g : Graph} (wired : g.Wired) {capacity : Nat} {factories : List Factory}
    (short : ∀ factory ∈ factories, factory.period < wordLimit - 1) {s : Scheduling} {t : Sweep}
    (reached : Reaches (Scheduling.cycle g capacity) { candidates := g.entries, pool := Pool.new factories } s)
    (done : s.opening.turns g capacity (g.prioritise s.candidates) = .ok t) :
    ∀ slot ∈ t.pool.slots, slot.progress + 1 < wordLimit := by
  intro slot inside
  obtain ⟨orderly, stocked⟩ := Scheduling.orderly_of_reaches wired reached
  obtain ⟨_, same, _, served, _⟩ := Scheduling.turns_eq_ok wired orderly stocked
  rw [done] at same
  cases same
  have line : slot.draw ∈ (Pool.new factories).units := by
    rw [← stocked.lines]
    exact served.units ▸ List.mem_map_of_mem inside
  obtain ⟨first, member, same⟩ := List.mem_map.mp line
  have listed : first.factory ∈ factories := by
    have mapped : first.factory ∈ (Pool.new factories).slots.map (·.factory) := List.mem_map_of_mem member
    rw [Pool.new, Slot.map_factory_rankAll, List.map_nil, List.nil_append] at mapped
    exact mem_sortBy.mp mapped
  have period : first.factory.period = slot.factory.period := congrArg Draw.period same
  have bound := short first.factory listed
  have within := served.within slot inside
  omega

/-- The outcome of scheduling is determined by the factories and the room in the channel. No counter
    of a factory overflows on the way. -/
theorem schedule_outcome {b : Builder} (reachable : b.Reachable) (capacity : Nat) {factories : List Factory}
    (short : ∀ factory ∈ factories, factory.period < wordLimit - 1) :
    (∀ symbol, b.graph.schedule capacity factories = .error (.missingFactory symbol) ↔
      b.graph.FirstUnsupplied factories symbol) ∧
    ((∃ symbol, b.graph.FirstUnsupplied factories symbol) ↔ ¬b.graph.Supplied factories) ∧
    (b.graph.Supplied factories → capacity = 0 → (∃ node ∈ b.graph.live, node.nonLocal) →
      ∃ cycle pending, b.graph.schedule capacity factories = .error (.stalled cycle pending)) ∧
    (b.graph.Supplied factories → ¬(capacity = 0 ∧ ∃ node ∈ b.graph.live, node.nonLocal) →
      ∃ plan, b.graph.schedule capacity factories = .ok plan) ∧
    (1 ≤ capacity → ∀ cycle pending, b.graph.schedule capacity factories ≠ .error (.stalled cycle pending)) ∧
    (∀ e, b.graph.schedule capacity factories = .error e →
      e.isFatal = false ∧ ∀ symbol, e ≠ .inconsistent (.noInventory symbol)) ∧
    ∀ s t, Reaches (Scheduling.cycle b.graph capacity)
        { candidates := b.graph.entries, pool := Pool.new factories } s →
      s.opening.turns b.graph capacity (b.graph.prioritise s.candidates) = .ok t →
      ∀ slot ∈ t.pool.slots, slot.progress + 1 < wordLimit := by
  have wired := reachable.sound.wired
  rcases wired.firstUnsupplied_or_supplied factories with ⟨symbol, first⟩ | supplied
  · have failed := Scheduling.schedule_of_unsupplied wired capacity first
    have missing := first.not_supplied
    refine ⟨fun other => ⟨fun failed' => ?_, Scheduling.schedule_of_unsupplied wired capacity⟩,
      iff_of_true ⟨symbol, first⟩ missing, fun supplied => absurd supplied missing,
      fun supplied => absurd supplied missing, fun _ cycle pending stalled => ?_, fun e failed' => ?_,
      fun _ _ => progress_lt_wordLimit wired short⟩
    · rw [failed] at failed'
      cases failed'
      exact first
    · rw [failed] at stalled
      cases stalled
    · rw [failed] at failed'
      cases failed'
      exact ⟨rfl, by simp⟩
  · have made : ∀ symbol, ¬b.graph.FirstUnsupplied factories symbol :=
      fun symbol first => first.not_supplied supplied
    have none : ¬∃ symbol, b.graph.FirstUnsupplied factories symbol := fun ⟨symbol, first⟩ => made symbol first
    rcases Scheduling.schedule_of_supplied wired capacity supplied with
      ⟨plan, planned, room⟩ | ⟨cycle, pending, stalled, full⟩
    · refine ⟨fun other => iff_of_false (by simp [planned]) (made other),
        iff_of_false none (not_not_intro supplied), fun _ closed far => ?_, fun _ _ => ⟨plan, planned⟩,
        by simp [planned], by simp [planned],
        fun _ _ => progress_lt_wordLimit wired short⟩
      obtain ⟨node, live, far⟩ := far
      have used := room node live far
      omega
    · refine ⟨fun other => iff_of_false (by simp [stalled]) (made other),
        iff_of_false none (not_not_intro supplied), fun _ _ _ => ⟨cycle, pending, stalled⟩,
        fun _ free => absurd (fun node live far => ?_) full, fun more => absurd (fun _ _ _ => more) full,
        fun e failed => ?_,
        fun _ _ => progress_lt_wordLimit wired short⟩
      · exact Nat.pos_of_ne_zero fun closed => free ⟨closed, node, live, far⟩
      · rw [stalled] at failed
        cases failed
        exact ⟨rfl, by simp⟩

/-- Without room in the channel the gates wait for ever; with room for one at a time they are served. -/
theorem schedule_outcome_pair :
    ∃ b : Builder, b.Reachable ∧ b.graph.Supplied [⟨"T", 2⟩] ∧
      (∃ cycle pending, b.graph.schedule 0 [⟨"T", 2⟩] = .error (.stalled cycle pending)) ∧
      (∃ plan, b.graph.schedule 1 [⟨"T", 2⟩] = .ok plan) ∧
      b.graph.schedule 1 [⟨"CCZ", 2⟩] = .error (.missingFactory "T") := by
  have checks : pairOfGates.toOption.any fun b =>
      (b.graph.undersupplied? (Pool.new [⟨"T", 2⟩]).produces).isNone
        && b.graph.undersupplied? (Pool.new [⟨"CCZ", 2⟩]).produces == some "T"
        && b.graph.live.any (·.nonLocal) := by decide +kernel
  obtain ⟨b, built, checks⟩ := exists_ok_of_any checks
  simp only [Bool.and_eq_true, beq_iff_eq, Option.isNone_iff_eq_none, List.any_eq_true] at checks
  obtain ⟨⟨made, missing⟩, far⟩ := checks
  have reachable := reachable_pairOfGates built
  have supplied := Graph.supplied_iff.mpr made
  have short : ∀ symbol : Symbol, ∀ factory ∈ [(⟨symbol, 2⟩ : Factory)], factory.period < wordLimit - 1 := by
    simp [wordLimit]
  obtain ⟨_, _, stalls, _⟩ := schedule_outcome reachable 0 (short "T")
  obtain ⟨_, _, _, plans, _⟩ := schedule_outcome reachable 1 (short "T")
  obtain ⟨fails, _⟩ := schedule_outcome reachable 1 (short "CCZ")
  exact ⟨b, reachable, supplied, stalls supplied rfl far, plans supplied (by simp),
    (fails "T").mpr (reachable.sound.wired.firstUnsupplied missing)⟩

end LatticeSurgery
