import LatticeSurgery.Proofs.Plan.Feeding

/-! # How long feeding takes

Feeding goes on through the layers and until nobody waits. It comes to an end, since every cycle finishes a layer, or
serves a draw, or brings the fastest line of the oldest draw nearer to its unit. The layers of a graph hold each of its
draws once. With lines that never stop the end is therefore the first cycle, not before the last layer, that leaves the
factories the time for all draws, and lines that stop at one unit come to it no earlier.
-/

namespace LatticeSurgery

/-! ## Feeding comes to an end -/

theorem periodsOf_ne_nil {factories : List Factory} {symbol : Symbol}
    (made : ∃ factory ∈ factories, factory.symbol = symbol) : periodsOf factories symbol ≠ [] := by
  obtain ⟨factory, listed, rfl⟩ := made
  refine List.ne_nil_of_mem (a := factory.period) ?_
  rw [periodsOf, mem_sortBy]
  exact List.mem_map_of_mem (List.mem_filter.mpr ⟨listed, by simp⟩)

theorem le_longestPeriod {factories : List Factory} {symbol : Symbol} {period : Nat}
    (listed : period ∈ periodsOf factories symbol) : period ≤ longestPeriod factories := by
  rw [periodsOf, mem_sortBy] at listed
  obtain ⟨factory, member, rfl⟩ := List.mem_map.mp listed
  exact le_foldl_max (List.mem_map_of_mem (List.mem_of_mem_filter member)) 0

namespace Graph

variable {g : Graph} {factories : List Factory} {blocking : Bool} {s : Feeding Lines}

theorem layerDraws_of_depth_le {i : Nat} (above : g.depth ≤ i) : g.layerDraws i = [] := by
  rw [layerDraws, Array.getElem?_eq_none above]
  rfl

/-- Draws of the layers from one on. -/
def drawsFrom (g : Graph) (layer : Nat) : List Symbol := (List.range' layer (g.depth - layer)).flatMap g.layerDraws

theorem drawsFrom_eq (g : Graph) (layer : Nat) : g.drawsFrom layer = g.layerDraws layer ++ g.drawsFrom (layer + 1) := by
  rcases Nat.lt_or_ge layer g.depth with inside | above
  · obtain ⟨more, size⟩ : ∃ more, g.depth - layer = more + 1 := ⟨g.depth - layer - 1, by omega⟩
    have rest : g.depth - (layer + 1) = more := by omega
    rw [drawsFrom, size, List.range'_succ, List.flatMap_cons, drawsFrom, rest]
  · have none : g.depth - layer = 0 := by omega
    have none' : g.depth - (layer + 1) = 0 := by omega
    rw [drawsFrom, none, layerDraws_of_depth_le above, drawsFrom, none']
    rfl

end Graph

namespace Feeding

variable {g : Graph} {factories : List Factory} {blocking : Bool} {s : Feeding Lines}

/-- What the fastest line has done towards the oldest draw that waits. -/
def headway (s : Feeding Lines) : Nat :=
  ((s.pending.head?.bind fun symbol => (s.stock.of symbol).head?).map (·.progress)).getD 0

/-- What is left to do: layers first, then a whole period for every draw, less the headway towards the oldest. -/
def workLeft (g : Graph) (factories : List Factory) (s : Feeding Lines) : Nat :=
  g.depth - s.cycles + ((s.pending ++ g.drawsFrom s.cycles).length * (longestPeriod factories + 1) - s.headway)

/-- Every draw that waits has lines, and none of them is beyond its first unit. -/
structure Moving (factories : List Factory) (s : Feeding Lines) : Prop where
  periods : ∀ symbol, (s.stock.of symbol).map (·.period) = periodsOf factories symbol
  made : ∀ symbol ∈ s.pending, periodsOf factories symbol ≠ []
  within : ∀ symbol ∈ s.pending, ∀ line ∈ s.stock.of symbol, line.progress ≤ line.period

theorem Moving.headway_le (moving : s.Moving factories) : s.headway ≤ longestPeriod factories := by
  unfold headway
  cases head : s.pending.head?.bind fun symbol => (s.stock.of symbol).head? with
  | none => exact Nat.zero_le _
  | some line =>
      obtain ⟨symbol, first, fastest⟩ := Option.bind_eq_some_iff.mp head
      have listed := List.mem_of_head? fastest
      have period : line.period ∈ periodsOf factories symbol := by
        rw [← moving.periods]
        exact List.mem_map_of_mem listed
      exact (moving.within symbol (List.mem_of_head? first) line listed).trans (le_longestPeriod period)

theorem Moving.feedCycle (moving : s.Moving factories)
    (made : ∀ i, ∀ symbol ∈ g.layerDraws i, periodsOf factories symbol ≠ []) :
    (g.feedCycle (Lines.supply blocking) s).Moving factories := by
  constructor
  case periods =>
    intro symbol
    exact (Lines.periods_advance ..).trans ((Lines.periods_serveAll ..).trans (moving.periods symbol))
  case made =>
    intro symbol waits
    rcases List.mem_append.mp ((Supply.serveAll_sublist ..).mem waits) with earlier | drawn
    · exact moving.made symbol earlier
    · exact made _ symbol drawn
  case within =>
    intro symbol waits
    have idle := Lines.not_ready_of_mem_serveAll waits
    show ∀ line ∈ (Lines.advance blocking _).of symbol, _
    rw [Lines.of_advance, List.forall_mem_map]
    intro line member
    have below : line.progress < line.period := by simpa [Line.ready] using idle line member
    rw [Line.advance_of_not_ready blocking (idle line member)]
    exact below

/-- If nobody is served, the fastest line comes nearer to the oldest draw. -/
theorem Moving.headway_of_idle (moving : s.Moving factories) (waits : s.pending ≠ [])
    (idle : (Lines.supply blocking).serveAll s.stock (s.pending ++ g.layerDraws s.cycles)
      = (s.pending ++ g.layerDraws s.cycles, s.stock))
    (refused : ∀ symbol, (s.pending ++ g.layerDraws s.cycles).head? = some symbol → s.stock.serve? symbol = none) :
    (g.feedCycle (Lines.supply blocking) s).headway = s.headway + 1 := by
  obtain ⟨symbol, later, pending⟩ := List.exists_cons_of_ne_nil waits
  have present : s.stock.of symbol ≠ [] := by
    have some := moving.made symbol (by simp [pending])
    rwa [← moving.periods, Ne, List.map_eq_nil_iff] at some
  obtain ⟨line, others, group⟩ := List.exists_cons_of_ne_nil present
  have busy := Lines.serve?_eq_none.mp (refused symbol (by simp [pending])) line (by simp [group])
  have here : s.headway = line.progress := by simp [headway, pending, group]
  rw [here, Graph.feedCycle, idle, headway, pending]
  show (((Lines.advance blocking s.stock).of symbol).head?.map (·.progress)).getD 0 = _
  rw [Lines.of_advance, group, List.map_cons, Line.advance_of_not_ready blocking busy]
  rfl

theorem Moving.workLeft_lt (moving : s.Moving factories) (more : s.cycles < g.depth ∨ s.pending ≠ []) :
    workLeft g factories (g.feedCycle (Lines.supply blocking) s) < workLeft g factories s := by
  have behind := moving.headway_le
  have fewer := (Supply.serveAll_sublist (Lines.supply blocking) s.stock (s.pending ++ g.layerDraws s.cycles)).length_le
  have cycles : (g.feedCycle (Lines.supply blocking) s).cycles = s.cycles + 1 := rfl
  rw [workLeft, workLeft, cycles, g.drawsFrom_eq s.cycles, ← List.append_assoc, List.length_append, List.length_append]
  rcases Nat.lt_or_eq_of_le fewer with served | idle
  · -- a draw is done, which counts for more than all headway
    have done := Nat.mul_le_mul_right (longestPeriod factories + 1)
      (Nat.add_le_add_right (Nat.succ_le_of_lt served) (g.drawsFrom (s.cycles + 1)).length)
    rw [Nat.succ_add, Nat.succ_mul] at done
    show _ + ((List.length ((Lines.supply blocking).serveAll _ _).1 + _) * _ - _) < _
    omega
  · obtain ⟨same, refused⟩ := Supply.serveAll_idle idle
    have pending : (g.feedCycle (Lines.supply blocking) s).pending = s.pending ++ g.layerDraws s.cycles := by
      rw [Graph.feedCycle, same]
    rw [pending]
    by_cases waits : s.pending = []
    · -- a layer is done
      have inside := more.resolve_right (not_not_intro waits)
      have none : s.headway = 0 := by simp [headway, waits]
      omega
    · -- the queue only grows at its end, so the oldest draw and its fastest line stay the same
      have nearer := moving.headway_of_idle waits same refused
      have some : 0 < (s.pending ++ g.layerDraws s.cycles).length := by
        rw [List.length_append]
        have := List.length_pos_iff.mpr waits
        omega
      have least := Nat.mul_le_mul_right (longestPeriod factories + 1)
        (Nat.le_add_right_of_le some : 1 ≤ _ + (g.drawsFrom (s.cycles + 1)).length)
      omega

end Feeding

namespace Graph

variable {g : Graph} {factories : List Factory}

/-- Feeding ends within its bound if every draw has a factory. -/
theorem exists_feed (blocking : Bool) (made : ∀ i, ∀ symbol ∈ g.layerDraws i, periodsOf factories symbol ≠ []) :
    ∃ cycles, iterate (g.feed (Lines.supply blocking)) (g.feedBound factories) { stock := Lines.new factories }
      = some cycles := by
  refine Option.isSome_iff_exists.mp ?_
  refine isSome_iterate (P := Feeding.Moving factories) (Feeding.workLeft g factories) ?_ ?_ ?_
  · intro s t moving goesOn
    rw [feed] at goesOn
    split at goesOn
    next more =>
        cases goesOn
        exact ⟨moving.feedCycle made, moving.workLeft_lt more⟩
    · cases goesOn
  · refine ⟨fun symbol => ?_, by simp, by simp⟩
    exact g.periods_fedFor blocking factories 0 symbol
  · have draws : g.drawsFrom 0 = (List.range g.depth).flatMap g.layerDraws := by
      rw [drawsFrom, Nat.sub_zero, List.range_eq_range']
    rw [Feeding.workLeft, draws, feedBound]
    exact Nat.lt_succ_of_le (Nat.add_le_add_left (Nat.sub_le ..) _)

end Graph

/-! ## Draws and layers -/

namespace Graph

variable {g : Graph} {factories : List Factory} {symbol : Symbol}

/-- Edges to producers that draw a state. -/
def drawCount (g : Graph) (symbol : Symbol) : Nat :=
  (g.live.flatMap (·.producers)).countP fun edge => edge.symbol == symbol && g.isDraw edge

theorem count_drawn (g : Graph) (symbol : Symbol) : (g.live.flatMap g.drawn).count symbol = g.drawCount symbol := by
  have all : g.live.flatMap g.drawn = ((g.live.flatMap (·.producers)).filter g.isDraw).map (·.symbol) := by
    rw [List.filter_flatMap, List.map_flatMap]
    rfl
  rw [all, List.count, List.countP_map, List.countP_filter]
  rfl

theorem Tiered.layerDraws_eq (tiered : g.Tiered) (i : Nat) :
    g.layerDraws i = (g.liveIds.filter (g.layerOf · == i)).flatMap fun id => ((g.node? id).map g.drawn).getD [] := by
  have fed : ((g.layers[i]?).map (·.fed)).getD [] = (g.group (g.liveIds.filter (g.layerOf · == i))).fed := by
    rw [← tiered.grouping.groups i]
    cases g.layers[i]? <;> rfl
  rw [layerDraws, fed, group]
  refine flatMap_filter_of_nil (fun id unfed => ?_) _
  cases found : g.node? id with
  | none => rfl
  | some node =>
      rw [isFed, producers_of_node? found, List.any_eq_false] at unfed
      refine List.map_eq_nil_iff.mpr (List.filter_eq_nil_iff.mpr fun edge reads draws => ?_)
      exact unfed edge reads (Bool.and_eq_true_iff.mp draws).2

/-- The layers hold the draws of the live nodes. -/
theorem Tiered.perm_layerDraws (tiered : g.Tiered) (wired : g.Wired) :
    ((List.range g.depth).flatMap g.layerDraws).Perm (g.live.flatMap g.drawn) := by
  have own : g.live.flatMap g.drawn = g.liveIds.flatMap fun id => ((g.node? id).map g.drawn).getD [] := by
    rw [liveIds, List.flatMap_map]
    refine List.flatMap_congr fun node live => ?_
    rw [wired.mem_live.mp live]
    rfl
  have layers : (List.range g.depth).flatMap g.layerDraws
      = ((List.range g.depth).flatMap fun i => g.liveIds.filter (g.layerOf · == i)).flatMap
        fun id => ((g.node? id).map g.drawn).getD [] := by
    rw [List.flatMap_assoc]
    exact List.flatMap_congr fun i _ => tiered.layerDraws_eq i
  rw [own, layers]
  exact (perm_flatMap_filter g.layerOf g.depth g.liveIds tiered.grouping.covered).flatMap_right _

theorem arrived_of_depth_le {n : Nat} (above : g.depth ≤ n) : g.arrived n symbol = g.arrived g.depth symbol := by
  induction n, above using Nat.le_induction with
  | base => rfl
  | succ n above ih => rw [arrived_succ, layerDraws_of_depth_le above, List.count_nil, ih, Nat.add_zero]

theorem Tiered.arrived_eq (tiered : g.Tiered) (wired : g.Wired) {n : Nat} (above : g.depth ≤ n) :
    g.arrived n symbol = g.drawCount symbol := by
  rw [arrived_of_depth_le above, arrived, (tiered.perm_layerDraws wired).count_eq, count_drawn]

/-! ## Estimates -/

theorem produces_new_eq (factories : List Factory) :
    (Lines.new factories).produces = (Pool.new factories).produces := by
  funext symbol
  rw [Bool.eq_iff_iff, Lines.produces_new, Pool.produces_new]

/-- An estimate is the first cycle after the last layer in which nobody waits. -/
theorem depthFactories_eq_ok_iff {blocking : Bool} {n : Nat} : g.depthFactories factories blocking = .ok n ↔
    g.Supplied factories ∧ n < g.feedBound factories ∧
      IsLeast {m | g.depth ≤ m ∧ (g.fedFor (Lines.supply blocking) (Lines.new factories) m).pending = []} n := by
  rw [← iterate_feed_eq_some_iff, supplied_iff, ← produces_new_eq, depthFactories, feedDepth]
  show _ ↔ g.undersupplied? ((Lines.supply blocking).produces (Lines.new factories)) = none ∧ _
  cases g.undersupplied? ((Lines.supply blocking).produces (Lines.new factories)) with
  | some symbol => simp
  | none =>
      cases iterate (g.feed (Lines.supply blocking)) (g.feedBound factories) { stock := Lines.new factories } <;> simp

theorem depthFactories_of_firstUnsupplied (wired : g.Wired) (missing : g.FirstUnsupplied factories symbol)
    (blocking : Bool) : g.depthFactories factories blocking = .error (.missingFactory symbol) := by
  rw [wired.firstUnsupplied_iff, ← produces_new_eq] at missing
  have first : g.undersupplied? ((Lines.supply blocking).produces (Lines.new factories)) = some symbol := missing
  rw [depthFactories, feedDepth, first]

theorem Tiered.exists_depthFactories (tiered : g.Tiered) (wired : g.Wired) (supplied : g.Supplied factories)
    (blocking : Bool) : ∃ cycles, g.depthFactories factories blocking = .ok cycles := by
  have made : ∀ i, ∀ symbol ∈ g.layerDraws i, periodsOf factories symbol ≠ [] := by
    intro i symbol drawn
    have inside : i < g.depth := Nat.lt_of_not_le fun above => by simp [layerDraws_of_depth_le above] at drawn
    have listed := List.mem_flatMap.mpr ⟨i, List.mem_range.mpr inside, drawn⟩
    obtain ⟨node, live, draws⟩ := List.mem_flatMap.mp ((tiered.perm_layerDraws wired).mem_iff.mp listed)
    exact periodsOf_ne_nil (supplied node live symbol draws)
  obtain ⟨cycles, ended⟩ := exists_feed blocking made
  exact ⟨cycles, depthFactories_eq_ok_iff.mpr ⟨supplied, iterate_feed_eq_some_iff.mp ended⟩⟩

/-- After the last layer nobody waits exactly if the factories had the time for all draws. -/
theorem Tiered.pending_eq_nil_iff (tiered : g.Tiered) (wired : g.Wired)
    (positive : ∀ factory ∈ factories, 1 ≤ factory.period) {n : Nat} (above : g.depth ≤ n) :
    (g.fedFor (Lines.supply false) (Lines.new factories) n).pending = [] ↔
      ∀ symbol, 0 < g.drawCount symbol → g.drawCount symbol ≤ output factories symbol (n - 1) := by
  have running : ∀ symbol, ∀ period ∈ periodsOf factories symbol, 0 < period := by
    intro symbol period listed
    rw [periodsOf, mem_sortBy] at listed
    obtain ⟨factory, member, rfl⟩ := List.mem_map.mp listed
    exact positive factory (List.mem_of_mem_filter member)
  cases n with
  | zero =>
      refine ⟨fun _ symbol drawn => ?_, fun _ => rfl⟩
      rw [← tiered.arrived_eq wired above] at drawn
      simp [arrived] at drawn
  | succ n =>
      simp only [List.eq_nil_iff_forall_not_mem, ← List.count_eq_zero, g.count_pending_stockpiling (running _),
        tiered.arrived_eq wired above, Nat.sub_eq_zero_iff_le, Nat.add_sub_cancel]
      refine forall_congr' fun symbol => ⟨fun covered _ => covered, fun covered => ?_⟩
      rcases Nat.eq_zero_or_pos (g.drawCount symbol) with none | drawn
      · rw [none]
        exact Nat.zero_le _
      · exact covered drawn

end Graph

/-- Factories that stockpile serve a graph in the least number of cycles that is no less than its depth and, one cycle
    earlier, has given them the time for all draws of every state. -/
theorem depthFactories_stockpiling {b : Builder} (reachable : b.Reachable) (factories : List Factory) :
    ((∀ factory ∈ factories, 1 ≤ factory.period) → b.graph.Supplied factories →
      ∃ cycles, b.graph.depthFactories factories false = .ok cycles ∧
        IsLeast {c | b.graph.depth ≤ c ∧ ∀ symbol, 0 < b.graph.drawCount symbol →
          b.graph.drawCount symbol ≤ output factories symbol (c - 1)} cycles) ∧
    (¬b.graph.Supplied factories → ∃ symbol, b.graph.FirstUnsupplied factories symbol ∧
      b.graph.depthFactories factories false = .error (.missingFactory symbol)) := by
  have wired := reachable.sound.wired
  have tiered := reachable.tiered
  constructor
  · intro positive supplied
    obtain ⟨cycles, ended⟩ := tiered.exists_depthFactories wired supplied false
    obtain ⟨-, -, least⟩ := Graph.depthFactories_eq_ok_iff.mp ended
    have same : {c | b.graph.depth ≤ c ∧ (b.graph.fedFor (Lines.supply false) (Lines.new factories) c).pending = []}
        = {c | b.graph.depth ≤ c ∧ ∀ symbol, 0 < b.graph.drawCount symbol →
          b.graph.drawCount symbol ≤ output factories symbol (c - 1)} :=
      Set.ext fun c => and_congr_right fun above => tiered.pending_eq_nil_iff wired positive above
    exact ⟨cycles, ended, same ▸ least⟩
  · intro missing
    rw [Graph.supplied_iff] at missing
    obtain ⟨symbol, first⟩ := Option.ne_none_iff_exists'.mp missing
    have unsupplied := wired.firstUnsupplied first
    exact ⟨symbol, unsupplied, Graph.depthFactories_of_firstUnsupplied wired unsupplied false⟩

/-- Gates that draw late, when factories had the time to stockpile. -/
def lateGates : Except Error Builder :=
  ((Builder.new "late").declareAll ["a", "b"]).addGates
    [(.pauliX, ["a"]), (.pauliX, ["b"]), (.pauliX, ["a"]), (.pauliX, ["b"]), (.pauliX, ["a"]), (.pauliX, ["b"]),
      (.t, ["a"]), (.t, ["b"])]

/-- Five layers and two draws, for which the slower of two factories needs five cycles. -/
theorem depthFactories_stockpiling_late :
    ∃ b : Builder, b.Reachable ∧ b.graph.depth = 5 ∧ b.graph.drawCount "T" = 2 ∧
      b.graph.Supplied [⟨"T", 5⟩, ⟨"CCZ", 1⟩, ⟨"T", 4⟩] ∧ ¬b.graph.Supplied [⟨"CCZ", 1⟩] ∧
      b.graph.depthFactories [⟨"T", 5⟩, ⟨"CCZ", 1⟩, ⟨"T", 4⟩] false = .ok 6 ∧
      IsLeast {c | b.graph.depth ≤ c ∧ ∀ symbol, 0 < b.graph.drawCount symbol →
        b.graph.drawCount symbol ≤ output [⟨"T", 5⟩, ⟨"CCZ", 1⟩, ⟨"T", 4⟩] symbol (c - 1)} 6 ∧
      b.graph.depthFactories [⟨"CCZ", 1⟩] false = .error (.missingFactory "T") := by
  have runs : lateGates.toOption.any fun b => b.graph.depth == 5 && b.graph.drawCount "T" == 2
      && (b.graph.undersupplied? (Pool.new [⟨"T", 5⟩, ⟨"CCZ", 1⟩, ⟨"T", 4⟩]).produces).isNone
      && b.graph.undersupplied? (Pool.new [⟨"CCZ", 1⟩]).produces == some "T"
      && decide (b.graph.depthFactories [⟨"T", 5⟩, ⟨"CCZ", 1⟩, ⟨"T", 4⟩] false = .ok 6) := by decide +kernel
  obtain ⟨b, built, runs⟩ := exists_ok_of_any runs
  simp only [Bool.and_eq_true, beq_iff_eq, Option.isNone_iff_eq_none, decide_eq_true_eq] at runs
  obtain ⟨⟨⟨⟨depth, draws⟩, supplied⟩, missing⟩, ended⟩ := runs
  have reachable := (Builder.Reachable.declareAll ["a", "b"] (.new "late")).addGates built
  have covered := Graph.supplied_iff.mpr supplied
  have uncovered : ¬b.graph.Supplied [⟨"CCZ", 1⟩] := by simp [Graph.supplied_iff, missing]
  obtain ⟨cycles, result, least⟩ :=
    (depthFactories_stockpiling reachable [⟨"T", 5⟩, ⟨"CCZ", 1⟩, ⟨"T", 4⟩]).1 (by decide) covered
  obtain ⟨symbol, first, failed⟩ := (depthFactories_stockpiling reachable [⟨"CCZ", 1⟩]).2 uncovered
  obtain rfl := Except.ok.inj (ended.symm.trans result)
  rw [reachable.sound.wired.firstUnsupplied_iff, missing] at first
  obtain rfl := Option.some.inj first
  exact ⟨b, reachable, depth, draws, covered, uncovered, ended, least, failed⟩

/-- A factory that stops when it has a unit never serves a graph faster than one that goes on, and it does serve it. -/
theorem stockpiling_le_blocking {b : Builder} (reachable : b.Reachable) (factories : List Factory) :
    (∀ cycles, b.graph.depthFactories factories true = .ok cycles →
      ∃ fewer ≤ cycles, b.graph.depthFactories factories false = .ok fewer) ∧
    (b.graph.Supplied factories → ∃ cycles, b.graph.depthFactories factories true = .ok cycles) := by
  have wired := reachable.sound.wired
  have tiered := reachable.tiered
  refine ⟨fun cycles ended => ?_, fun supplied => tiered.exists_depthFactories wired supplied true⟩
  obtain ⟨supplied, -, ⟨above, none⟩, -⟩ := Graph.depthFactories_eq_ok_iff.mp ended
  obtain ⟨fewer, faster⟩ := tiered.exists_depthFactories wired supplied false
  obtain ⟨-, -, -, least⟩ := Graph.depthFactories_eq_ok_iff.mp faster
  -- the two modes choose different lines, so only the numbers of draws that wait can be compared
  refine ⟨fewer, least ⟨above, ?_⟩, faster⟩
  refine List.eq_nil_iff_forall_not_mem.mpr fun symbol => List.count_eq_zero.mp (Nat.le_zero.mp ?_)
  have fewerWait := b.graph.count_pending_le factories cycles symbol
  rwa [none] at fewerWait

/-- Both draws come when one factory has stopped at its first unit and the other has made four. -/
theorem stockpiling_le_blocking_late :
    ∃ b : Builder, b.Reachable ∧ b.graph.Supplied [⟨"T", 1⟩] ∧ b.graph.depthFactories [⟨"T", 1⟩] true = .ok 6 ∧
      b.graph.depthFactories [⟨"T", 1⟩] false = .ok 5 := by
  have runs : lateGates.toOption.any fun b => (b.graph.undersupplied? (Pool.new [⟨"T", 1⟩]).produces).isNone
      && decide (b.graph.depthFactories [⟨"T", 1⟩] true = .ok 6)
      && decide (b.graph.depthFactories [⟨"T", 1⟩] false = .ok 5) := by decide +kernel
  obtain ⟨b, built, runs⟩ := exists_ok_of_any runs
  simp only [Bool.and_eq_true, Option.isNone_iff_eq_none, decide_eq_true_eq] at runs
  obtain ⟨⟨supplied, slow⟩, fast⟩ := runs
  have reachable := (Builder.Reachable.declareAll ["a", "b"] (.new "late")).addGates built
  have covered := Graph.supplied_iff.mpr supplied
  obtain ⟨never, ends⟩ := stockpiling_le_blocking reachable [⟨"T", 1⟩]
  obtain ⟨cycles, ended⟩ := ends covered
  obtain ⟨fewer, -, faster⟩ := never cycles ended
  obtain rfl := Except.ok.inj (slow.symm.trans ended)
  obtain rfl := Except.ok.inj (fast.symm.trans faster)
  exact ⟨b, reachable, covered, ended, faster⟩

end LatticeSurgery
