import LatticeSurgery.Graph.Estimate
import LatticeSurgery.Proofs.Plan.Deliveries

/-! # Production lines

The lines are kept by state. What a request does is therefore seen in the group of its state only, and there in one
line: the first that has a unit. Periods never change, so a group is known by its periods and its counters.
-/

namespace LatticeSurgery

namespace Line

variable {line : Line} {blocking : Bool} {cycle : Nat}

theorem period_advance (blocking : Bool) (line : Line) : (line.advance blocking).period = line.period := by
  unfold advance
  split <;> rfl

theorem progress_advance_le (blocking : Bool) (line : Line) : (line.advance blocking).progress ≤ line.progress + 1 := by
  unfold advance
  split
  · exact Nat.le_refl _
  · exact Nat.le_succ _

theorem advance_of_not_ready (blocking : Bool) (waits : line.ready = false) :
    line.advance blocking = { line with progress := line.progress + 1 } := by
  have below : line.progress < line.period := by simpa [ready] using waits
  rw [advance, if_pos (by simp [below])]

/-- Units that fit into the cycles that a line does not count any more. -/
def given (cycle : Nat) (line : Line) : Nat := (cycle - line.progress) / line.period

theorem given_le (cycle : Nat) (line : Line) : line.given cycle ≤ cycle / line.period :=
  Nat.div_le_div_right (Nat.sub_le ..)

/-- A line that takes time for its units and counts no cycle that has not been. -/
structure Running (cycle : Nat) (line : Line) : Prop where
  positive : 0 < line.period
  past : line.progress ≤ cycle

theorem Running.handOut (running : line.Running cycle) : line.handOut.Running cycle :=
  ⟨running.positive, (Nat.sub_le ..).trans running.past⟩

theorem Running.advance (running : line.Running cycle) (blocking : Bool) :
    (line.advance blocking).Running (cycle + 1) where
  positive := line.period_advance blocking ▸ running.positive
  past := (line.progress_advance_le blocking).trans (Nat.succ_le_succ running.past)

/-- A unit that is handed out takes its period out of the count. -/
theorem Running.sub_handOut (running : line.Running cycle) (ready : line.ready) :
    cycle - line.handOut.progress = cycle - line.progress + line.period := by
  have enough : line.period ≤ line.progress := of_decide_eq_true ready
  have past := running.past
  simp only [Line.handOut]
  omega

theorem Running.given_handOut (running : line.Running cycle) (ready : line.ready) :
    line.handOut.given cycle = line.given cycle + 1 := by
  rw [given, running.sub_handOut ready, Line.handOut, Nat.add_div_right _ running.positive, given]

/-- A line that counts all its cycles has handed out what it can. -/
theorem Running.given_of_not_ready (running : line.Running cycle) (whole : line.period ∣ cycle - line.progress)
    (waits : line.ready = false) : line.given cycle = cycle / line.period := by
  have below : line.progress < line.period := by simpa [ready] using waits
  have past := running.past
  obtain ⟨units, counted⟩ := whole
  have all : cycle = line.progress + line.period * units := by omega
  rw [given, counted, Nat.mul_div_cancel_left _ running.positive, all, Nat.add_mul_div_left _ _ running.positive,
    Nat.div_eq_of_lt below, Nat.zero_add]

theorem given_advance (cycle : Nat) (line : Line) : (line.advance false).given (cycle + 1) = line.given cycle := by
  rw [advance, if_pos (by simp), given, given, Nat.add_sub_add_right]

theorem given_le_advance (blocking : Bool) (cycle : Nat) (line : Line) :
    line.given cycle ≤ (line.advance blocking).given (cycle + 1) := by
  rw [given, given, period_advance]
  have slow := line.progress_advance_le blocking
  exact Nat.div_le_div_right (by omega)

end Line

namespace Lines

variable {lines next : Lines} {symbol : Symbol} {factories : List Factory}

/-! ## New lines -/

theorem of_add (lines : Lines) (factory : Factory) (symbol : Symbol) :
    (lines.add factory).of symbol
      = if factory.symbol = symbol then lines.of symbol ++ [{ period := factory.period }] else lines.of symbol := by
  simp only [of, add, Std.ExtTreeMap.getD_insert, Std.compare_eq_iff_eq]
  split
  next same => rw [same]
  · rfl

theorem of_foldl_add (factories : List Factory) (lines : Lines) (symbol : Symbol) :
    (factories.foldl add lines).of symbol
      = lines.of symbol ++ ((factories.filter (·.symbol = symbol)).map (·.period)).map fun period => ⟨period, 0⟩ := by
  induction factories generalizing lines with
  | nil => simp
  | cons factory rest ih =>
      rw [List.foldl_cons, ih, of_add]
      by_cases same : factory.symbol = symbol <;> simp [same]

theorem produces_foldl_add (factories : List Factory) (lines : Lines) (symbol : Symbol) :
    (factories.foldl add lines).produces symbol = (lines.produces symbol || factories.any (·.symbol == symbol)) := by
  induction factories generalizing lines with
  | nil => simp
  | cons factory rest ih =>
      have first : (lines.add factory).produces symbol = (factory.symbol == symbol || lines.produces symbol) := by
        rw [produces, add, Std.ExtTreeMap.contains_insert, produces, Bool.eq_iff_iff]
        simp
      rw [List.foldl_cons, ih, first, List.any_cons, ← Bool.or_assoc, Bool.or_comm (factory.symbol == symbol)]

/-- The lines of one state in the beginning. -/
theorem of_new (factories : List Factory) (symbol : Symbol) :
    (new factories).of symbol = (periodsOf factories symbol).map fun period => ⟨period, 0⟩ := by
  have sorted : (new factories).of symbol
      = sortBy (fun a b => a.period ≤ b.period) ((factories.foldl add {}).of symbol) := by
    rw [of, new, Std.ExtTreeMap.getD_map, of, Std.ExtTreeMap.getD_eq_getD_getElem?]
    cases (factories.foldl add {}).groups[symbol]? <;> rfl
  rw [sorted, of_foldl_add, periodsOf]
  exact sortBy_map ..

theorem produces_new {factories : List Factory} {symbol : Symbol} :
    (new factories).produces symbol ↔ ∃ factory ∈ factories, factory.symbol = symbol := by
  have listed := produces_foldl_add factories {} symbol
  have sorted : (new factories).produces symbol = (factories.foldl add {}).produces symbol :=
    Std.ExtTreeMap.contains_map
  rw [sorted, listed]
  simp [produces]

/-- Lines are known by the states that they make and by the lines of each state. -/
theorem ext_of (makes : ∀ symbol, lines.produces symbol = next.produces symbol)
    (same : ∀ symbol, lines.of symbol = next.of symbol) : lines = next := by
  obtain ⟨groups⟩ := lines
  obtain ⟨groups'⟩ := next
  refine congrArg Lines.mk (Std.ExtTreeMap.ext_getElem? fun symbol => ?_)
  have makes := makes symbol
  have same := same symbol
  simp only [produces, of, Std.ExtTreeMap.contains_eq_isSome_getElem?,
    Std.ExtTreeMap.getD_eq_getD_getElem?] at makes same
  cases one : groups[symbol]? <;> cases two : groups'[symbol]? <;> simp_all

/-! ## Handing out units -/

/-- A line hands out a unit: the first of its state that has one. -/
structure Serves (lines : Lines) (symbol : Symbol) (before : List Line) (line : Line) (after : List Line)
    (next : Lines) : Prop where
  group : lines.of symbol = before ++ line :: after
  refused : ∀ other ∈ before, other.ready = false
  ready : line.ready
  served : next.of symbol = before ++ line.handOut :: after
  others : ∀ other, other ≠ symbol → next.of other = lines.of other
  makes : ∀ other, next.produces other = lines.produces other

theorem serve?_eq_none : lines.serve? symbol = none ↔ ∀ line ∈ lines.of symbol, line.ready = false := by
  rw [serve?, Option.map_eq_none_iff, rank?, List.findIdx?_eq_none_iff]

theorem serves_of_serve? (h : lines.serve? symbol = some next) :
    ∃ before line after, lines.Serves symbol before line after next ∧ lines.rank? symbol = some before.length := by
  obtain ⟨rank, found, rfl⟩ := Option.map_eq_some_iff.mp h
  obtain ⟨inside, ready, first⟩ := List.findIdx?_eq_some_iff_getElem.mp found
  refine ⟨(lines.of symbol).take rank, (lines.of symbol)[rank], (lines.of symbol).drop (rank + 1), ?_, ?_⟩
  · constructor
    case group => simp
    case refused =>
      intro other member
      obtain ⟨i, below, rfl⟩ := List.getElem_of_mem member
      rw [List.length_take] at below
      simpa using first i (by omega)
    case ready => exact ready
    case served =>
      rw [← List.modify_eq_take_cons_drop inside, of, Std.ExtTreeMap.getD_modify,
        if_pos (Std.compare_eq_iff_eq.mpr rfl), of, Std.ExtTreeMap.getD_eq_getD_getElem?]
      cases lines.groups[symbol]? <;> simp
    case others =>
      intro other apart
      rw [of, Std.ExtTreeMap.getD_modify, if_neg, of]
      rw [Std.compare_eq_iff_eq]
      exact Ne.symm apart
    case makes => exact fun other => Std.ExtTreeMap.contains_modify
  · rw [found, List.length_take, Nat.min_eq_left (Nat.le_of_lt inside)]

section Serves

variable {before after : List Line} {line : Line} (serves : lines.Serves symbol before line after next)
include serves

theorem Serves.periods (other : Symbol) : (next.of other).map (·.period) = (lines.of other).map (·.period) := by
  by_cases same : other = symbol
  · subst same
    rw [serves.group, serves.served]
    simp [Line.handOut]
  · rw [serves.others other same]

theorem Serves.forall_of {P : Line → Prop} (keeps : ∀ line, line.ready → P line → P line.handOut) {other : Symbol}
    (all : ∀ line ∈ lines.of other, P line) : ∀ line ∈ next.of other, P line := by
  by_cases same : other = symbol
  · subst same
    rw [serves.group, List.forall_mem_append, List.forall_mem_cons] at all
    rw [serves.served, List.forall_mem_append, List.forall_mem_cons]
    exact ⟨all.1, keeps line serves.ready all.2.1, all.2.2⟩
  · rw [serves.others other same]
    exact all

end Serves

/-- Units that fit into the cycles that the lines of a state do not count any more. -/
def given (cycle : Nat) (lines : Lines) (symbol : Symbol) : Nat :=
  ((lines.of symbol).map (Line.given cycle)).foldr (· + ·) 0

/-- A unit that is handed out is a unit given. -/
theorem Serves.given {before after : List Line} {line : Line} (serves : lines.Serves symbol before line after next)
    {cycle : Nat} (running : ∀ line ∈ lines.of symbol, line.Running cycle) :
    next.given cycle symbol = lines.given cycle symbol + 1 := by
  have more := (running line (by simp [serves.group])).given_handOut serves.ready
  simp only [Lines.given, serves.group, serves.served, ← List.sum_eq_foldr, List.map_append, List.map_cons,
    List.sum_append, List.sum_cons]
  omega

theorem of_advance (blocking : Bool) (lines : Lines) (symbol : Symbol) :
    (lines.advance blocking).of symbol = (lines.of symbol).map (Line.advance blocking) := by
  rw [of, advance, Std.ExtTreeMap.getD_map, of, Std.ExtTreeMap.getD_eq_getD_getElem?]
  cases lines.groups[symbol]? <;> rfl

theorem periods_advance (blocking : Bool) (lines : Lines) (symbol : Symbol) :
    ((lines.advance blocking).of symbol).map (·.period) = (lines.of symbol).map (·.period) := by
  rw [of_advance, List.map_map]
  exact List.map_congr_left fun line _ => line.period_advance blocking

end Lines

end LatticeSurgery
