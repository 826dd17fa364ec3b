import Mathlib.Algebra.Order.BigOperators.Group.List
import Mathlib.Algebra.Order.Group.Nat
import Mathlib.Logic.Function.Iterate
import Mathlib.Order.Bounds.Basic
import LatticeSurgery.Proofs.Graph.Tiers
import LatticeSurgery.Proofs.Plan.Lines
import LatticeSurgery.Proofs.Plan.Outcome

/-! # Feeding the draws of a graph

The draws of a layer queue up at its cycle and are served in order. The books of one state are simple: every draw that has
come is waiting or was served, and a line has served no more than fits into the cycles that it does not count any more. A
line that never stops loses no cycle, so what it has not served it had no time for. This gives the number of draws that
wait in any cycle, and shows that lines that stop at one unit never keep fewer of them waiting.
-/

namespace LatticeSurgery

/-! ## Simulations that stop at a condition -/

/-- A simulation that goes on while a condition holds ends at the first state where it fails. -/
theorem iterate_eq_some_iff {σ ρ : Type} {step : σ → Next σ ρ} {goes : σ → Prop} [DecidablePred goes] {next : σ → σ}
    {result : σ → ρ} (shape : ∀ s, step s = if goes s then .again (next s) else .done (result s)) {bound : Nat} {s : σ}
    {r : ρ} : iterate step bound s = some r ↔
      ∃ n < bound, (∀ m < n, goes (next^[m] s)) ∧ ¬goes (next^[n] s) ∧ result (next^[n] s) = r := by
  induction bound generalizing s with
  | zero => simp [iterate]
  | succ bound ih =>
      rw [iterate, shape]
      by_cases first : goes s
      · simp only [if_pos first, ih]
        constructor
        · rintro ⟨n, below, going, stops, last⟩
          refine ⟨n + 1, Nat.succ_lt_succ below, fun m earlier => ?_, stops, last⟩
          cases m with
          | zero => exact first
          | succ m => exact going m (Nat.lt_of_succ_lt_succ earlier)
        · rintro ⟨n, below, going, stops, last⟩
          cases n with
          | zero => exact absurd first stops
          | succ n =>
              refine ⟨n, Nat.lt_of_succ_lt_succ below, fun m earlier => ?_, stops, last⟩
              exact going (m + 1) (Nat.succ_lt_succ earlier)
      · simp only [if_neg first, Option.some.injEq]
        constructor
        · intro last
          exact ⟨0, Nat.succ_pos bound, fun m earlier => absurd earlier (Nat.not_lt_zero m), first, last⟩
        · rintro ⟨n, below, going, stops, last⟩
          cases n with
          | zero => exact last
          | succ n => exact absurd (going 0 (Nat.succ_pos n)) first

/-! ## Serving a queue -/

namespace Supply

variable {σ : Type} {supply : Supply σ} {stock next : σ} {symbol : Symbol}

theorem serveAll_of_some (served : supply.serve? stock symbol = some next) (rest : List Symbol) :
    supply.serveAll stock (symbol :: rest) = supply.serveAll next rest := by
  rw [serveAll, served]

theorem serveAll_of_none (refused : supply.serve? stock symbol = none) (rest : List Symbol) :
    supply.serveAll stock (symbol :: rest)
      = (symbol :: (supply.serveAll stock rest).1, (supply.serveAll stock rest).2) := by
  rw [serveAll, refused]

theorem serveAll_keeps {P : σ → Prop}
    (keeps : ∀ stock next symbol, P stock → supply.serve? stock symbol = some next → P next) (queue : List Symbol)
    (start : P stock) : P (supply.serveAll stock queue).2 := by
  induction queue generalizing stock with
  | nil => exact start
  | cons symbol rest ih =>
      cases answer : supply.serve? stock symbol with
      | some next =>
          rw [serveAll_of_some answer]
          exact ih (keeps _ _ _ start answer)
      | none =>
          rw [serveAll_of_none answer]
          exact ih start

theorem serveAll_sublist (supply : Supply σ) (stock : σ) (queue : List Symbol) :
    (supply.serveAll stock queue).1.Sublist queue := by
  induction queue generalizing stock with
  | nil => exact .slnil
  | cons symbol rest ih =>
      cases answer : supply.serve? stock symbol with
      | some next =>
          rw [serveAll_of_some answer]
          exact (ih next).cons symbol
      | none =>
          rw [serveAll_of_none answer]
          exact (ih stock).cons_cons symbol

/-- If nobody is served, nothing happens. -/
theorem serveAll_idle {queue : List Symbol} (all : (supply.serveAll stock queue).1.length = queue.length) :
    supply.serveAll stock queue = (queue, stock) ∧
      ∀ symbol, queue.head? = some symbol → supply.serve? stock symbol = none := by
  induction queue with
  | nil => exact ⟨rfl, by simp⟩
  | cons symbol rest ih =>
      cases answer : supply.serve? stock symbol with
      | some next =>
          rw [serveAll_of_some answer, List.length_cons] at all
          have fewer := (serveAll_sublist supply next rest).length_le
          omega
      | none =>
          rw [serveAll_of_none answer, List.length_cons, List.length_cons, Nat.add_right_cancel_iff] at all
          rw [serveAll_of_none answer, (ih all).1]
          refine ⟨rfl, fun first head => ?_⟩
          obtain rfl := Option.some.inj head
          exact answer

end Supply

namespace Lines

variable {lines : Lines} {symbol : Symbol} {blocking : Bool} {cycle : Nat}

theorem periods_serveAll (blocking : Bool) (lines : Lines) (queue : List Symbol) (symbol : Symbol) :
    (((supply blocking).serveAll lines queue).2.of symbol).map (·.period) = (lines.of symbol).map (·.period) := by
  refine Supply.serveAll_keeps
    (P := fun now : Lines => (now.of symbol).map (·.period) = (lines.of symbol).map (·.period)) ?_ queue rfl
  intro stock next other same served
  obtain ⟨_, _, _, serves, _⟩ := serves_of_serve? served
  rw [serves.periods, same]

theorem forall_serveAll {P : Line → Prop} (keeps : ∀ line, line.ready → P line → P line.handOut) (queue : List Symbol)
    (all : ∀ line ∈ lines.of symbol, P line) :
    ∀ line ∈ ((supply blocking).serveAll lines queue).2.of symbol, P line := by
  refine Supply.serveAll_keeps (P := fun now : Lines => ∀ line ∈ now.of symbol, P line) ?_ queue all
  intro stock next other all served
  obtain ⟨_, _, _, serves, _⟩ := serves_of_serve? served
  exact serves.forall_of keeps all

/-- A group without units stays as it is. -/
theorem of_serveAll_of_not_ready (idle : ∀ line ∈ lines.of symbol, line.ready = false) (queue : List Symbol) :
    ((supply blocking).serveAll lines queue).2.of symbol = lines.of symbol := by
  refine Supply.serveAll_keeps (P := fun now : Lines => now.of symbol = lines.of symbol) ?_ queue rfl
  intro stock next other same served
  obtain ⟨before, line, after, serves, _⟩ := serves_of_serve? served
  have apart : symbol ≠ other := by
    rintro rfl
    have ready := serves.ready
    rw [idle line (by simp [← same, serves.group])] at ready
    cases ready
  rw [serves.others symbol apart, same]

/-- Nobody waits for a state that has a unit left. -/
theorem not_ready_of_mem_serveAll {queue : List Symbol} (waits : symbol ∈ ((supply blocking).serveAll lines queue).1) :
    ∀ line ∈ ((supply blocking).serveAll lines queue).2.of symbol, line.ready = false := by
  induction queue generalizing lines with
  | nil => simp [Supply.serveAll] at waits
  | cons first rest ih =>
      cases answer : (supply blocking).serve? lines first with
      | some next =>
          rw [Supply.serveAll_of_some answer] at waits ⊢
          exact ih waits
      | none =>
          rw [Supply.serveAll_of_none answer] at waits ⊢
          rcases List.mem_cons.mp waits with rfl | later
          · have idle := serve?_eq_none.mp answer
            rw [of_serveAll_of_not_ready idle]
            exact idle
          · exact ih later

/-- Every draw either goes on waiting or gets a unit. -/
theorem count_add_given (blocking : Bool) (running : ∀ line ∈ lines.of symbol, line.Running cycle)
    (queue : List Symbol) :
    ((supply blocking).serveAll lines queue).1.count symbol
        + ((supply blocking).serveAll lines queue).2.given cycle symbol
      = queue.count symbol + lines.given cycle symbol := by
  induction queue generalizing lines with
  | nil => rfl
  | cons first rest ih =>
      cases answer : (supply blocking).serve? lines first with
      | some next =>
          obtain ⟨_, _, _, serves, _⟩ := serves_of_serve? answer
          have later : ∀ line ∈ next.of symbol, line.Running cycle :=
            serves.forall_of (fun _ _ running => running.handOut) running
          rw [Supply.serveAll_of_some answer, ih later, List.count_cons]
          by_cases same : first = symbol
          · subst same
            rw [serves.given running, beq_self_eq_true, if_pos rfl]
            omega
          · have aside : next.given cycle symbol = lines.given cycle symbol := by
              rw [given, serves.others symbol (Ne.symm same), given]
            rw [aside, if_neg (by simpa using same), Nat.add_zero]
      | none =>
          have later := ih running
          rw [Supply.serveAll_of_none answer, List.count_cons, List.count_cons]
          dsimp only
          omega

theorem given_le_advance (blocking : Bool) (cycle : Nat) (lines : Lines) (symbol : Symbol) :
    lines.given cycle symbol ≤ (lines.advance blocking).given (cycle + 1) symbol := by
  rw [given, given, of_advance, List.map_map, ← List.sum_eq_foldr, ← List.sum_eq_foldr]
  exact List.sum_le_sum fun line _ => line.given_le_advance blocking cycle

theorem given_advance (cycle : Nat) (lines : Lines) (symbol : Symbol) :
    (lines.advance false).given (cycle + 1) symbol = lines.given cycle symbol := by
  rw [given, given, of_advance, List.map_map]
  congr 1
  exact List.map_congr_left fun line _ => line.given_advance cycle

/-- The books of a state after some cycles: its draws wait or were served, and what was served fits into the cycles that
    are not counted any more. Lines that never stop lose no cycle. -/
structure Tallied (blocking : Bool) (symbol : Symbol) (cycle arrived : Nat) (pending : List Symbol) (lines : Lines) :
    Prop where
  running : ∀ line ∈ lines.of symbol, line.Running cycle
  bounded : arrived ≤ pending.count symbol + lines.given cycle symbol
  balanced : blocking = false → arrived = pending.count symbol + lines.given cycle symbol
  whole : blocking = false → ∀ line ∈ lines.of symbol, line.period ∣ cycle - line.progress

variable {arrived : Nat} {pending : List Symbol}

theorem Tallied.serveAll (tallied : lines.Tallied blocking symbol cycle arrived pending) (draws : List Symbol) :
    ((supply blocking).serveAll lines (pending ++ draws)).2.Tallied blocking symbol cycle (arrived + draws.count symbol)
      ((supply blocking).serveAll lines (pending ++ draws)).1 := by
  have balance := count_add_given blocking tallied.running (pending ++ draws)
  rw [List.count_append] at balance
  constructor
  case running => exact forall_serveAll (fun _ _ running => running.handOut) _ tallied.running
  case bounded =>
    have bounded := tallied.bounded
    omega
  case balanced =>
    intro goesOn
    have balanced := tallied.balanced goesOn
    omega
  case whole =>
    intro goesOn
    have both : ∀ line ∈ lines.of symbol, line.Running cycle ∧ line.period ∣ cycle - line.progress :=
      fun line member => ⟨tallied.running line member, tallied.whole goesOn line member⟩
    refine fun line member => (forall_serveAll (fun line ready fine => ?_) _ both line member).2
    refine ⟨fine.1.handOut, ?_⟩
    rw [fine.1.sub_handOut ready]
    exact Nat.dvd_add fine.2 (Nat.dvd_refl _)

theorem Tallied.advance (tallied : lines.Tallied blocking symbol cycle arrived pending) :
    (lines.advance blocking).Tallied blocking symbol (cycle + 1) arrived pending := by
  constructor
  case running =>
    rw [of_advance, List.forall_mem_map]
    exact fun line member => (tallied.running line member).advance blocking
  case bounded => exact tallied.bounded.trans (Nat.add_le_add_left (given_le_advance ..) _)
  case balanced =>
    rintro rfl
    rw [given_advance]
    exact tallied.balanced rfl
  case whole =>
    rintro rfl
    rw [of_advance, List.forall_mem_map]
    intro line member
    rw [Line.advance, if_pos (by simp), Nat.add_sub_add_right]
    exact tallied.whole rfl line member

end Lines

/-! ## The output of factories -/

/-- Units that the factories of a state finish within some cycles, if they never stop. -/
def output (factories : List Factory) (symbol : Symbol) (cycles : Nat) : Nat :=
  ((factories.filter (·.symbol = symbol)).map fun factory => cycles / factory.period).foldr (· + ·) 0

theorem output_eq (factories : List Factory) (symbol : Symbol) (cycles : Nat) :
    output factories symbol cycles = ((periodsOf factories symbol).map (cycles / ·)).foldr (· + ·) 0 := by
  have sorted : (periodsOf factories symbol).Perm ((factories.filter (·.symbol = symbol)).map (·.period)) :=
    sortBy_perm ..
  rw [← List.sum_eq_foldr, (sorted.map _).sum_eq, List.map_map, output, List.sum_eq_foldr]
  rfl

namespace Lines

variable {lines : Lines} {symbol : Symbol} {factories : List Factory} {cycle : Nat}

theorem given_le_output (cycle : Nat) (same : (lines.of symbol).map (·.period) = periodsOf factories symbol) :
    lines.given cycle symbol ≤ output factories symbol cycle := by
  rw [output_eq, ← same, List.map_map, given, ← List.sum_eq_foldr, ← List.sum_eq_foldr]
  exact List.sum_le_sum fun line _ => line.given_le cycle

theorem given_eq_output (same : (lines.of symbol).map (·.period) = periodsOf factories symbol)
    (each : ∀ line ∈ lines.of symbol, line.given cycle = cycle / line.period) :
    lines.given cycle symbol = output factories symbol cycle := by
  rw [output_eq, ← same, List.map_map, given]
  exact congrArg (List.foldr (· + ·) 0) (List.map_congr_left each)

theorem tallied_new {blocking : Bool} (positive : ∀ period ∈ periodsOf factories symbol, 0 < period) :
    (new factories).Tallied blocking symbol 0 0 [] := by
  have fresh : ∀ line ∈ (new factories).of symbol, line.Running 0 := by
    rw [of_new, List.forall_mem_map]
    exact fun period listed => ⟨positive period listed, Nat.le_refl 0⟩
  have none : (new factories).given 0 symbol = 0 := by
    rw [given, ← List.sum_eq_foldr]
    refine List.sum_eq_zero ?_
    rw [List.forall_mem_map]
    exact fun line _ => by rw [Line.given, Nat.zero_sub, Nat.zero_div]
  refine ⟨fresh, Nat.zero_le _, fun _ => ?_, fun _ line member => ?_⟩
  · rw [none, List.count_nil]
  · rw [Nat.zero_sub]
    exact Nat.dvd_zero _

end Lines

/-! ## The course of feeding -/

namespace Graph

variable {σ : Type} {g : Graph} {supply : Supply σ} {stock : σ} {n : Nat} {symbol : Symbol}

/-- The state after some cycles, whether they are all needed or not. -/
def fedFor (g : Graph) (supply : Supply σ) (stock : σ) (cycles : Nat) : Feeding σ :=
  (g.feedCycle supply)^[cycles] { stock }

theorem fedFor_succ (g : Graph) (supply : Supply σ) (stock : σ) (n : Nat) :
    g.fedFor supply stock (n + 1) = g.feedCycle supply (g.fedFor supply stock n) :=
  Function.iterate_succ_apply' ..

@[simp] theorem cycles_fedFor (g : Graph) (supply : Supply σ) (stock : σ) (n : Nat) :
    (g.fedFor supply stock n).cycles = n := by
  induction n with
  | zero => rfl
  | succ n ih =>
      rw [fedFor_succ]
      exact congrArg (· + 1) ih

/-- Feeding ends in the first cycle after the last layer in which nobody waits. -/
theorem iterate_feed_eq_some_iff {bound : Nat} : iterate (g.feed supply) bound { stock } = some n ↔
    n < bound ∧ IsLeast {m | g.depth ≤ m ∧ (g.fedFor supply stock m).pending = []} n := by
  have shape : ∀ s : Feeding σ, g.feed supply s
      = if s.cycles < g.depth ∨ s.pending ≠ [] then .again (g.feedCycle supply s) else .done s.cycles := fun _ => rfl
  rw [iterate_eq_some_iff shape]
  change (∃ m < bound, (∀ k < m, (g.fedFor supply stock k).cycles < g.depth ∨ (g.fedFor supply stock k).pending ≠ []) ∧
    ¬((g.fedFor supply stock m).cycles < g.depth ∨ (g.fedFor supply stock m).pending ≠ []) ∧
    (g.fedFor supply stock m).cycles = n) ↔ _
  simp only [cycles_fedFor, not_or, Nat.not_lt, not_not]
  constructor
  · rintro ⟨m, below, going, done, rfl⟩
    refine ⟨below, done, fun k past => Nat.le_of_not_lt fun earlier => ?_⟩
    rcases going k earlier with layers | waits
    · exact Nat.not_lt_of_le past.1 layers
    · exact waits past.2
  · rintro ⟨below, done, least⟩
    refine ⟨n, below, fun k earlier => ?_, done, rfl⟩
    by_contra past
    rw [not_or, Nat.not_lt, not_not] at past
    exact Nat.not_lt_of_le (least past) earlier

/-- Draws of a state in the lowest layers. -/
def arrived (g : Graph) (layers : Nat) (symbol : Symbol) : Nat :=
  ((List.range layers).flatMap g.layerDraws).count symbol

theorem arrived_succ (g : Graph) (n : Nat) (symbol : Symbol) :
    g.arrived (n + 1) symbol = g.arrived n symbol + (g.layerDraws n).count symbol := by
  rw [arrived, List.range_succ, List.flatMap_append, List.count_append, List.flatMap_singleton, arrived]

section

variable {factories : List Factory} {blocking : Bool}

theorem periods_fedFor (g : Graph) (blocking : Bool) (factories : List Factory) (n : Nat) (symbol : Symbol) :
    ((g.fedFor (Lines.supply blocking) (Lines.new factories) n).stock.of symbol).map (·.period)
      = periodsOf factories symbol := by
  induction n with
  | zero =>
      show ((Lines.new factories).of symbol).map (·.period) = _
      rw [Lines.of_new, List.map_map]
      exact List.map_id _
  | succ n ih =>
      rw [fedFor_succ]
      exact (Lines.periods_advance ..).trans ((Lines.periods_serveAll ..).trans ih)

theorem tallied_fedFor (g : Graph) (blocking : Bool) (positive : ∀ period ∈ periodsOf factories symbol, 0 < period)
    (n : Nat) :
    (g.fedFor (Lines.supply blocking) (Lines.new factories) n).stock.Tallied blocking symbol n (g.arrived n symbol)
      (g.fedFor (Lines.supply blocking) (Lines.new factories) n).pending := by
  induction n with
  | zero => exact Lines.tallied_new positive
  | succ n ih =>
      have next := (ih.serveAll (g.layerDraws n)).advance
      rw [← arrived_succ] at next
      rw [fedFor_succ, feedCycle, cycles_fedFor]
      exact next

theorem pending_fedFor_succ (g : Graph) (supply : Supply σ) (stock : σ) (n : Nat) :
    (g.fedFor supply stock (n + 1)).pending
      = (supply.serveAll (g.fedFor supply stock n).stock ((g.fedFor supply stock n).pending ++ g.layerDraws n)).1 := by
  rw [fedFor_succ, feedCycle, cycles_fedFor]

/-- The books of a cycle when its units are handed out. -/
theorem exists_tallied (g : Graph) (blocking : Bool) (positive : ∀ period ∈ periodsOf factories symbol, 0 < period)
    (n : Nat) : ∃ lines : Lines,
      lines.Tallied blocking symbol n (g.arrived (n + 1) symbol)
        (g.fedFor (Lines.supply blocking) (Lines.new factories) (n + 1)).pending ∧
      (lines.of symbol).map (·.period) = periodsOf factories symbol ∧
      (symbol ∈ (g.fedFor (Lines.supply blocking) (Lines.new factories) (n + 1)).pending →
        ∀ line ∈ lines.of symbol, line.ready = false) := by
  have served := (g.tallied_fedFor blocking positive n).serveAll (g.layerDraws n)
  rw [← arrived_succ] at served
  rw [pending_fedFor_succ]
  exact ⟨_, served, (Lines.periods_serveAll ..).trans (periods_fedFor ..), Lines.not_ready_of_mem_serveAll⟩

/-- No line serves more than it had the time for. -/
theorem arrived_le_count_pending (g : Graph) (blocking : Bool)
    (positive : ∀ period ∈ periodsOf factories symbol, 0 < period) (n : Nat) :
    g.arrived (n + 1) symbol ≤ (g.fedFor (Lines.supply blocking) (Lines.new factories) (n + 1)).pending.count symbol
      + output factories symbol n := by
  obtain ⟨lines, tallied, periods, _⟩ := g.exists_tallied blocking positive n
  exact tallied.bounded.trans (Nat.add_le_add_left (Lines.given_le_output n periods) _)

/-- Lines that never stop serve all that they had the time for. -/
theorem count_pending_stockpiling (g : Graph) (positive : ∀ period ∈ periodsOf factories symbol, 0 < period) (n : Nat) :
    (g.fedFor (Lines.supply false) (Lines.new factories) (n + 1)).pending.count symbol
      = g.arrived (n + 1) symbol - output factories symbol n := by
  obtain ⟨lines, tallied, periods, refused⟩ := g.exists_tallied false positive n
  have balanced := tallied.balanced rfl
  by_cases waits : symbol ∈ (g.fedFor (Lines.supply false) (Lines.new factories) (n + 1)).pending
  · -- somebody is refused, so the lines have nothing left
    have all := Lines.given_eq_output periods fun line member =>
      (tallied.running line member).given_of_not_ready (tallied.whole rfl line member) (refused waits line member)
    omega
  · have enough := Lines.given_le_output n periods
    rw [List.count_eq_zero.mpr waits] at balanced ⊢
    omega

/-- Nobody waits for a factory that needs no time. -/
theorem count_pending_of_instant (g : Graph) (blocking : Bool) (instant : 0 ∈ periodsOf factories symbol) (n : Nat) :
    (g.fedFor (Lines.supply blocking) (Lines.new factories) (n + 1)).pending.count symbol = 0 := by
  refine List.count_eq_zero.mpr fun waits => ?_
  rw [pending_fedFor_succ] at waits
  have idle := Lines.not_ready_of_mem_serveAll waits
  have periods := (Lines.periods_serveAll blocking _ ((g.fedFor (Lines.supply blocking) (Lines.new factories) n).pending
    ++ g.layerDraws n) symbol).trans (periods_fedFor g blocking factories n symbol)
  rw [← periods] at instant
  obtain ⟨line, member, none⟩ := List.mem_map.mp instant
  have busy := idle line member
  simp [Line.ready, none] at busy

/-- Cycle by cycle, lines that never stop keep no more draws waiting than lines that do. -/
theorem count_pending_le (g : Graph) (factories : List Factory) (n : Nat) (symbol : Symbol) :
    (g.fedFor (Lines.supply false) (Lines.new factories) n).pending.count symbol
      ≤ (g.fedFor (Lines.supply true) (Lines.new factories) n).pending.count symbol := by
  cases n with
  | zero =>
      show ([] : List Symbol).count symbol ≤ _
      exact Nat.zero_le _
  | succ n =>
      by_cases instant : 0 ∈ periodsOf factories symbol
      · rw [g.count_pending_of_instant false instant]
        exact Nat.zero_le _
      · have positive : ∀ period ∈ periodsOf factories symbol, 0 < period := by
          intro period listed
          exact Nat.pos_of_ne_zero fun none => instant (none ▸ listed)
        rw [g.count_pending_stockpiling positive]
        exact Nat.sub_le_of_le_add (g.arrived_le_count_pending true positive n)

end

end Graph

end LatticeSurgery
