import LatticeSurgery.Plan.Scheduler
import LatticeSurgery.Proofs.Graph.Joined
import LatticeSurgery.Proofs.Plan.Pool

/-! # One cycle of scheduling

In a wired graph the turns of a cycle never fail: a node that is admitted finds a unit for every magic
state it draws. Nodes admitted in one cycle depend on nodes of earlier cycles only and share no
exclusive resource, although a turn already sees what was admitted before it in the same cycle. The
claims on resources see to that, since a producer admitted in this cycle has claimed what it passes on.
-/

namespace LatticeSurgery

def Graph.isNonLocal (g : Graph) (id : NodeId) : Bool := (g.node? id).any (·.nonLocal)

namespace Sweep

variable {g : Graph} {capacity : Nat} {s t : Sweep} {id : NodeId} {node : Node}

/-! ## One turn -/

/-- Drawing takes one unit of each state from the pool and notes the units in order. -/
theorem draw_eq_ok {symbols : List Symbol} (h : s.draw id symbols = .ok t) :
    ∃ units pool draws, t = { s with pool, draws } ∧ s.pool.Yields units pool ∧ (symbols = [] → draws = s.draws) ∧
      pool.units = s.pool.units ∧ (s.pool.Within → pool.Within) ∧
      (∀ slot ∈ pool.slots, slot ∈ s.pool.slots ∨ slot.draw ∈ units) ∧
      units.map (·.symbol) = symbols ∧ (∀ unit ∈ units, unit ∈ s.pool.units) ∧
      draws.getD id [] = s.draws.getD id [] ++ units ∧ ∀ other, other ≠ id → draws[other]? = s.draws[other]? := by
  induction symbols generalizing s with
  | nil =>
      obtain rfl := Except.ok.inj h
      exact ⟨[], _, _, rfl, .nil, fun _ => rfl, rfl, fun within => within, fun _ => .inl, by simp⟩
  | cons symbol rest ih =>
      rw [draw] at h
      split at h
      next unit pool taken =>
          obtain ⟨inside, named⟩ := Pool.unit_consume taken
          have same := Pool.units_consume taken
          obtain ⟨units, last, draws, rfl, yields, _, kept, within, slots, symbols, members, here, others⟩ := ih h
          refine ⟨unit :: units, last, draws, rfl, .cons (named ▸ taken) yields, ?_, kept.trans same, ?_, ?_, ?_, ?_,
            ?_, ?_⟩
          · exact fun none => absurd none (List.cons_ne_nil symbol rest)
          · exact fun bounded => within (Pool.within_consume bounded taken)
          · intro slot member
            rcases slots slot member with before | drawn
            · exact (Pool.mem_slots_consume taken before).imp_right fun same => List.mem_cons.mpr (.inl same)
            · exact .inr (List.mem_cons_of_mem _ drawn)
          · rw [List.map_cons, named, symbols]
          · intro found member
            rcases List.mem_cons.mp member with rfl | member
            · exact inside
            · rw [← same]
              exact members found member
          · rw [here]
            simp
          · intro other differs
            rw [others other differs, Std.ExtTreeMap.getElem?_insert, if_neg]
            simpa using differs.symm
      · cases h

theorem exists_draw (id : NodeId) {symbols : List Symbol} (distinct : symbols.Nodup)
    (stock : ∀ symbol ∈ symbols, 0 < s.pool.inventory symbol) : ∃ t, s.draw id symbols = .ok t := by
  induction symbols generalizing s with
  | nil => exact ⟨s, rfl⟩
  | cons symbol rest ih =>
      obtain ⟨unit, pool, taken⟩ := Pool.exists_consume (stock symbol List.mem_cons_self)
      obtain ⟨fresh, distinct⟩ := List.nodup_cons.mp distinct
      have stock : ∀ other ∈ rest, 0 < pool.inventory other := by
        intro other member
        rw [Pool.inventory_consume_other taken fun here => fresh (here ▸ member)]
        exact stock other (List.mem_cons_of_mem _ member)
      obtain ⟨t, done⟩ :=
        ih (s := { s with pool, draws := s.draws.insert id (s.draws.getD id [] ++ [unit]) }) distinct stock
      refine ⟨t, ?_⟩
      rw [draw, taken]
      exact done

theorem draw_eq_error {symbols : List Symbol} {e : Error} (h : s.draw id symbols = .error e) :
    ∃ symbol, e = .inconsistent (.noInventory symbol) := by
  induction symbols generalizing s with
  | nil => cases h
  | cons symbol rest ih =>
      rw [draw] at h
      split at h
      · exact ih h
      · cases h; exact ⟨symbol, rfl⟩

/-- What admitting a node does to a cycle in progress. -/
structure Accepts (g : Graph) (s : Sweep) (node : Node) (t : Sweep) : Prop where
  resolved : t.resolved = node.id :: s.resolved
  admitted : t.admitted = s.admitted ++ [node.id]
  claimed : t.claimed = s.claimed ++ node.targets.filter (!g.isMagic ·)
  nonLocal : t.nonLocal = s.nonLocal + node.nonLocal.toNat
  units : t.pool.units = s.pool.units
  within : s.pool.Within → t.pool.Within
  slots : ∀ slot ∈ t.pool.slots, slot ∈ s.pool.slots ∨ slot.draw ∈ t.draws.getD node.id []
  served : ∃ units, t.draws.getD node.id [] = s.draws.getD node.id [] ++ units ∧
    units.map (·.symbol) = g.drawn node ∧ ∀ unit ∈ units, unit ∈ s.pool.units
  others : ∀ id, id ≠ node.id → t.draws[id]? = s.draws[id]?
  yields : ∃ units, t.draws.getD node.id [] = s.draws.getD node.id [] ++ units ∧ s.pool.Yields units t.pool
  idle : g.drawn node = [] → t.draws = s.draws

theorem accepts_of_accept (h : s.accept g node = .ok t) : s.Accepts g node t := by
  obtain ⟨units, pool, draws, rfl, yields, idle, same, within, slots, symbols, members, here, others⟩ := draw_eq_ok h
  refine ⟨rfl, rfl, rfl, rfl, same, within, fun slot member => ?_, ⟨units, here, symbols, members⟩, others,
    ⟨units, here, yields⟩, idle⟩
  exact (slots slot member).imp_right fun drawn => here ▸ List.mem_append_right _ drawn

theorem accept_eq_ok (wired : g.Wired) (found : g.node? id = some node) (admits : s.admits g capacity node) :
    ∃ t, s.accept g node = .ok t ∧ s.Accepts g node t := by
  have stock : ∀ symbol ∈ g.drawn node, 0 < s.pool.inventory symbol := by
    intro symbol member
    obtain ⟨edge, inside, draws, rfl⟩ := Graph.mem_drawn.mp member
    have met := List.all_eq_true.mp (Bool.and_eq_true_iff.mp admits).2 edge inside
    simpa [meets, draws] using met
  obtain ⟨t, done⟩ := exists_draw node.id (wired.joined.nodup_drawn found) (s := { s with
    resolved := node.id :: s.resolved
    admitted := s.admitted ++ [node.id]
    claimed := s.claimed ++ node.targets.filter (!g.isMagic ·)
    nonLocal := s.nonLocal + node.nonLocal.toNat }) stock
  exact ⟨t, done, accepts_of_accept done⟩

theorem turn_eq_ok (h : s.turn g capacity id = .ok t) :
    t = s ∨ ∃ node, g.node? id = some node ∧ s.admits g capacity node ∧ s.Accepts g node t := by
  unfold turn at h
  split at h
  next node found =>
      split at h
      next admits => exact .inr ⟨node, found, admits, accepts_of_accept h⟩
      · cases h; exact .inl rfl
  · cases h; exact .inl rfl

/-- What every admission keeps holds after the turns of a cycle, if they succeed. -/
theorem turns_keep {P : Sweep → Prop} {queue : List NodeId}
    (keeps : ∀ s t id node, g.node? id = some node → s.admits g capacity node → s.Accepts g node t → P s → P t)
    (holds : P s) (h : s.turns g capacity queue = .ok t) : P t := by
  induction queue generalizing s with
  | nil => cases h; exact holds
  | cons id queue ih =>
      obtain ⟨next, first, h⟩ := bind_eq_ok.mp h
      refine ih ?_ h
      obtain rfl | ⟨node, found, admits, accepts⟩ := turn_eq_ok first
      · exact holds
      · exact keeps s next id node found admits accepts holds

theorem turn_cases (wired : g.Wired) (capacity : Nat) (s : Sweep) (id : NodeId) :
    (s.turn g capacity id = .ok s ∧ ∀ node, g.node? id = some node → s.admits g capacity node = false) ∨
      ∃ node t, g.node? id = some node ∧ s.admits g capacity node ∧ s.turn g capacity id = .ok t ∧
        s.Accepts g node t := by
  unfold turn
  cases found : g.node? id with
  | none => exact .inl ⟨rfl, by simp⟩
  | some node =>
      dsimp only
      cases admits : s.admits g capacity node with
      | false => exact .inl ⟨rfl, by simp [admits]⟩
      | true =>
          obtain ⟨t, done, accepts⟩ := accept_eq_ok wired found admits
          exact .inr ⟨node, t, rfl, admits, done, accepts⟩

theorem turns_eq_error {queue : List NodeId} {e : Error} (h : s.turns g capacity queue = .error e) :
    ∃ symbol, e = .inconsistent (.noInventory symbol) := by
  induction queue generalizing s with
  | nil => cases h
  | cons id queue ih =>
      obtain first | ⟨next, _, h⟩ := bind_eq_error.mp h
      · unfold turn at first
        split at first
        · split at first
          · exact draw_eq_error first
          · cases first
        · cases first
      · exact ih h

/-- The turns of a cycle succeed, and what every admission keeps holds at the end. -/
theorem turns_induction (wired : g.Wired) {P : Sweep → Prop} {queue : List NodeId}
    (keeps : ∀ s t id node, id ∈ queue → g.node? id = some node → s.admits g capacity node →
      s.Accepts g node t → P s → P t) (holds : P s) :
    ∃ t, s.turns g capacity queue = .ok t ∧ P t := by
  induction queue generalizing s with
  | nil => exact ⟨s, rfl, holds⟩
  | cons id queue ih =>
      have rest := fun s t other node member => keeps s t other node (List.mem_cons_of_mem id member)
      rcases turn_cases wired capacity s id with ⟨idle, _⟩ | ⟨node, t, found, admits, done, accepts⟩
      · obtain ⟨last, done, holds⟩ := ih rest holds
        exact ⟨last, bind_eq_ok.mpr ⟨s, idle, done⟩, holds⟩
      · obtain ⟨last, later, holds⟩ := ih rest (keeps s t id node List.mem_cons_self found admits accepts holds)
        exact ⟨last, bind_eq_ok.mpr ⟨t, done, later⟩, holds⟩

/-- A cycle that admits nobody changes nothing, and nobody could have been admitted. -/
theorem turns_idle (wired : g.Wired) {queue : List NodeId} (h : s.turns g capacity queue = .ok t)
    (idle : t.admitted = []) :
    t = s ∧ ∀ id ∈ queue, ∀ node, g.node? id = some node → s.admits g capacity node = false := by
  induction queue generalizing s with
  | nil => cases h; simp
  | cons id queue ih =>
      obtain ⟨next, first, h⟩ := bind_eq_ok.mp h
      obtain ⟨rfl, later⟩ := ih h
      rcases turn_cases wired capacity s id with ⟨same, refused⟩ | ⟨node, u, _, _, done, accepts⟩
      · rw [same] at first
        cases first
        refine ⟨rfl, fun other member => ?_⟩
        rcases List.mem_cons.mp member with rfl | member
        · exact refused
        · exact later other member
      · rw [done] at first
        cases first
        rw [accepts.admitted] at idle
        simp at idle

/-! ## Who is admitted in one cycle -/

/-- What holds of the nodes admitted so far in a cycle that began in `opened`. -/
structure Fair (g : Graph) (capacity : Nat) (opened s : Sweep) : Prop where
  resolved : s.resolved = s.admitted.reverse ++ opened.resolved
  distinct : s.resolved.Nodup
  ready : ∀ id ∈ s.admitted, ∀ edge ∈ g.producers id, g.isFactory edge.node = false →
    edge.node ∈ opened.resolved
  claimed : ∀ symbol, symbol ∈ s.claimed ↔
    ∃ id ∈ s.admitted, symbol ∈ g.targetsOf id ∧ g.isMagic symbol = false
  exclusive : ∀ a ∈ s.admitted, ∀ b ∈ s.admitted, a ≠ b →
    ∀ symbol ∈ g.targetsOf a, symbol ∈ g.targetsOf b → g.isMagic symbol
  count : s.nonLocal = s.admitted.countP g.isNonLocal
  room : s.nonLocal ≤ capacity

theorem mem_resolved {opened : Sweep} (fair : Fair g capacity opened s) :
    id ∈ s.resolved ↔ id ∈ s.admitted ∨ id ∈ opened.resolved := by
  rw [fair.resolved, List.mem_append, List.mem_reverse]

theorem Fair.not_mem_opened {opened : Sweep} (fair : Fair g capacity opened s) (admitted : id ∈ s.admitted) :
    id ∉ opened.resolved := by
  have distinct := fair.distinct
  rw [fair.resolved] at distinct
  exact List.disjoint_of_nodup_append distinct (List.mem_reverse.mpr admitted)

theorem Fair.nodup_admitted {opened : Sweep} (fair : Fair g capacity opened s) : s.admitted.Nodup := by
  have distinct := fair.distinct
  rw [fair.resolved] at distinct
  exact List.nodup_reverse.mp (List.nodup_append.mp distinct).1

theorem Fair.closed {opened : Sweep} (fair : Fair g capacity opened s) (closed : g.Closed opened.resolved) :
    g.Closed s.resolved := by
  intro id member edge inside operation
  rcases (mem_resolved fair).mp member with admitted | earlier
  · exact (mem_resolved fair).mpr (.inr (fair.ready id admitted edge inside operation))
  · exact (mem_resolved fair).mpr (.inr (closed id earlier edge inside operation))

theorem of_admits (wired : g.Wired) (found : g.node? id = some node) (admits : s.admits g capacity node) :
    id ∉ s.resolved ∧ (node.nonLocal → s.nonLocal < capacity) ∧
      ∀ edge ∈ g.producers id, g.isFactory edge.node = false →
        edge.node ∈ s.resolved ∧ edge.symbol ∉ s.claimed := by
  obtain ⟨admits, met⟩ := Bool.and_eq_true_iff.mp admits
  obtain ⟨fresh, room⟩ := Bool.and_eq_true_iff.mp admits
  rw [wired.id_eq found] at fresh
  refine ⟨by simpa using fresh, fun far => by simpa [far] using room, fun edge inside operation => ?_⟩
  have met := List.all_eq_true.mp met edge (Graph.producers_of_node? found ▸ inside)
  simpa [meets, wired.joined.isDraw_eq inside, operation] using met

/-- A producer admitted in the same cycle has claimed the resource it passes on. -/
theorem Fair.ready_of_admits {opened : Sweep} (fair : Fair g capacity opened s) (wired : g.Wired)
    (found : g.node? id = some node) (admits : s.admits g capacity node) {edge : Edge}
    (inside : edge ∈ g.producers id) (operation : g.isFactory edge.node = false) :
    edge.node ∈ opened.resolved := by
  obtain ⟨_, _, met⟩ := of_admits wired found admits
  obtain ⟨resolved, unclaimed⟩ := met edge inside operation
  refine ((mem_resolved fair).mp resolved).resolve_left fun admitted => unclaimed ?_
  obtain ⟨_, ⟨_, factory, _⟩ | ⟨exclusive, _, writer⟩⟩ := wired.edge_cases inside
  · rw [operation] at factory
    cases factory
  · exact (fair.claimed edge.symbol).mpr
      ⟨edge.node, admitted, (Graph.writerBefore?_eq_some writer).2.1, exclusive⟩

/-- Of two operations on one exclusive resource the older goes first, and in an earlier cycle. -/
theorem Fair.exclusive_of_admits {opened : Sweep} (fair : Fair g capacity opened s) (wired : g.Wired)
    (closed : g.Closed opened.resolved) (found : g.node? id = some node)
    (admits : s.admits g capacity node) {other : NodeId} (admitted : other ∈ s.admitted) {symbol : Symbol}
    (here : symbol ∈ g.targetsOf id) (there : symbol ∈ g.targetsOf other) : g.isMagic symbol := by
  obtain ⟨fresh, _, met⟩ := of_admits wired found admits
  have resolved := (mem_resolved fair).mpr (.inl admitted)
  cases exclusive : g.isMagic symbol with
  | true => rfl
  | false =>
      rcases Nat.lt_or_ge other id with older | younger
      · obtain ⟨writer, inside, _, _, acts⟩ := wired.exists_producer older there here exclusive
        have operation := wired.not_isFactory_of_exclusive acts exclusive
        exact absurd ((fair.claimed symbol).mpr ⟨other, admitted, there, exclusive⟩)
          (met _ inside operation).2
      · exact absurd (wired.mem_of_closed (fair.closed closed) exclusive younger here there resolved) fresh

theorem fair_accepts {opened : Sweep} (wired : g.Wired) (closed : g.Closed opened.resolved)
    (found : g.node? id = some node) (admits : s.admits g capacity node) (accepts : s.Accepts g node t)
    (fair : Fair g capacity opened s) : Fair g capacity opened t := by
  obtain ⟨fresh, room, _⟩ := of_admits wired found admits
  have targets := Graph.targetsOf_of_node? found
  have named := wired.id_eq found
  subst named
  have members : ∀ other, other ∈ t.admitted ↔ other ∈ s.admitted ∨ other = node.id := by
    simp [accepts.admitted]
  constructor
  case resolved => simp [accepts.resolved, accepts.admitted, fair.resolved]
  case distinct =>
    rw [accepts.resolved]
    exact List.nodup_cons.mpr ⟨fresh, fair.distinct⟩
  case ready =>
    intro other member
    rcases (members other).mp member with earlier | rfl
    · exact fair.ready other earlier
    · exact fun edge => fair.ready_of_admits wired found admits
  case claimed =>
    intro symbol
    simp only [accepts.claimed, List.mem_append, List.mem_filter, Bool.not_eq_true', fair.claimed, members,
      or_and_right, exists_or, exists_eq_left, targets]
  case exclusive =>
    intro a first b second differs symbol here there
    rcases (members a).mp first with first | rfl <;> rcases (members b).mp second with second | rfl
    · exact fair.exclusive a first b second differs symbol here there
    · exact fair.exclusive_of_admits wired closed found admits first there here
    · exact fair.exclusive_of_admits wired closed found admits second here there
    · exact absurd rfl differs
  case count =>
    have far : g.isNonLocal node.id = node.nonLocal := by simp [Graph.isNonLocal, found]
    rw [accepts.nonLocal, accepts.admitted, fair.count, List.countP_append, List.countP_singleton, far]
    cases node.nonLocal <;> rfl
  case room =>
    have before := fair.room
    rw [accepts.nonLocal]
    cases far : node.nonLocal with
    | false => simpa using before
    | true => exact room far

/-! ## Who is served in one cycle -/

/-- The factories stay what they are, and every admitted node gets its units from them, in the order
    of its producers. -/
structure Served (g : Graph) (opened s : Sweep) : Prop where
  units : s.pool.units = opened.pool.units
  within : s.pool.Within
  served : ∀ id ∈ s.admitted, ∀ node, g.node? id = some node →
    (s.draws.getD id []).map (·.symbol) = g.drawn node ∧ ∀ unit ∈ s.draws.getD id [], unit ∈ opened.pool.units
  others : ∀ id, id ∉ s.admitted → s.draws[id]? = opened.draws[id]?

theorem served_accepts {opened : Sweep} (wired : g.Wired) (found : g.node? id = some node)
    (fresh : id ∉ s.admitted) (blank : opened.draws[id]? = none) (accepts : s.Accepts g node t)
    (served : Served g opened s) : Served g opened t := by
  have named := wired.id_eq found
  subst named
  obtain ⟨units, here, symbols, members⟩ := accepts.served
  have first : s.draws.getD node.id [] = [] := NodeMap.getD_of_none ((served.others _ fresh).trans blank) []
  constructor
  case units => rw [accepts.units, served.units]
  case within => exact accepts.within served.within
  case served =>
    intro other member node' found'
    rw [accepts.admitted] at member
    rcases List.mem_append.mp member with earlier | last
    · have differs : other ≠ node.id := fun same => fresh (same ▸ earlier)
      rw [NodeMap.getD_congr (accepts.others other differs)]
      exact served.served other earlier node' found'
    · obtain rfl := List.mem_singleton.mp last
      obtain rfl := Option.some.inj (found.symm.trans found')
      rw [here, first, List.nil_append]
      exact ⟨symbols, fun unit inside => served.units ▸ members unit inside⟩
  case others =>
    intro other outside
    rw [accepts.admitted, List.mem_append, List.mem_singleton, not_or] at outside
    rw [accepts.others other outside.2]
    exact served.others other outside.1

end Sweep

end LatticeSurgery
